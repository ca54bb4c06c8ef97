/-
The row loop of the SpMV kernels (`CSR_dpu.c` of `SpMV_OFIS`, `SparseP_ES` and `SparseP_EW`): a tasklet reads `row_ptr`
in order, computes its rows one by one, and collects the results in an 8-byte word that it writes when it is full, and
once more, half filled, at the end.

`bound` is the number of results a word holds: 2 in the first two kernels, `8 / byte_dt` in the third.

Results:
- `walk_outRows`: a tasklet writes a word at its first row and at every `bound`-th row behind it;
- `shared_of_cuts`: tasklets that take consecutive pieces, each starting at a full word, share the rows and the words.
-/
import Mathlib.Tactic
import PimOfis.Lib.Cuts

namespace PimOfis.SpMV

open Lib

/-! ## Model -/

/-- the output words: how many results are cached, the row the next word goes to, the rows at which words were written -/
structure Out where
  writeIdx : ℕ
  outRow : ℕ
  written : List ℕ

/-- the result of one row is stored -/
def Out.store (bound : ℕ) (o : Out) : Out :=
  if o.writeIdx ≠ bound - 1 then { o with writeIdx := o.writeIdx + 1 }
  else ⟨0, o.outRow + bound, o.written ++ [o.outRow]⟩

/-- the last word, filled up with zeros -/
def Out.flush (o : Out) : Out :=
  if o.writeIdx ≠ 0 then { o with written := o.written ++ [o.outRow] } else o

/-- what a tasklet does: the rows of its loop, the entries of `row_ptr` it reads, the rows at which it writes words -/
structure Work where
  rows : List ℕ
  rowPtrReads : List ℕ
  outRows : List ℕ

def Work.none : Work := ⟨[], [], []⟩

/-- the loop over rows: `first` is read in front of it, then the entry of the first row and one more for each row -/
def walk (bound : ℕ) (first : List ℕ) (startRow rows : UInt32) : Work :=
  let loop := List.range' startRow.toNat ((startRow + rows).toNat - startRow.toNat)
  let out := loop.foldl (fun o _ => o.store bound) (⟨0, startRow.toNat, []⟩ : Out)
  ⟨loop, first ++ [startRow.toNat] ++ loop.map (· + 1), out.flush.written⟩

/-- the tasklets share the rows and the words of the result -/
structure Shared (work : ℕ → Work) (tasklets rows bound : ℕ) : Prop where
  /-- no tasklet processes a row twice -/
  once : ∀ t < tasklets, (work t).rows.Nodup
  disjoint : ∀ t < tasklets, ∀ u < tasklets, t ≠ u → (work t).rows.Disjoint (work u).rows
  covers : ∀ r, (∃ t < tasklets, r ∈ (work t).rows) ↔ r < rows
  aligned : ∀ t < tasklets, ∀ o ∈ (work t).outRows, bound ∣ o
  words : ∀ t < tasklets, ∀ u < tasklets, t ≠ u → (work t).outRows.Disjoint (work u).outRows

/-! ## One tasklet -/

theorem foldl_store {α : Type} {bound : ℕ} (hbound : 0 < bound) (l : List α) (startRow : ℕ) :
    l.foldl (fun o _ => o.store bound) (⟨0, startRow, []⟩ : Out) =
      ⟨l.length % bound, startRow + l.length / bound * bound,
        (List.range (l.length / bound)).map (startRow + · * bound)⟩ := by
  induction l using List.reverseRecOn with
  | nil => simp
  | append_singleton l x ih =>
    rw [List.foldl_append, ih, List.length_append, List.length_singleton]
    have hlt := Nat.mod_lt l.length hbound
    have hsplit := Nat.mod_add_div l.length bound
    by_cases h : l.length % bound = bound - 1
    · have hnext : (l.length + 1) / bound = l.length / bound + 1 ∧ (l.length + 1) % bound = 0 := by
        refine (Nat.div_mod_unique hbound).mpr ⟨?_, hbound⟩
        rw [Nat.mul_add, Nat.mul_one]
        omega
      simp only [List.foldl_cons, List.foldl_nil, Out.store, h, hnext, ne_eq, not_true_eq_false, if_false,
        List.range_succ, List.map_append, List.map_cons, List.map_nil, Nat.add_mul, Nat.one_mul, Nat.add_assoc]
    · have hnext : (l.length + 1) / bound = l.length / bound ∧ (l.length + 1) % bound = l.length % bound + 1 := by
        refine (Nat.div_mod_unique hbound).mpr ⟨?_, ?_⟩ <;> omega
      simp only [List.foldl_cons, List.foldl_nil, Out.store, h, hnext, ne_eq, not_false_eq_true, if_true]

variable {bound : ℕ} {first : List ℕ} {startRow rows : UInt32}

theorem walk_rows (h : startRow.toNat + rows.toNat < 2 ^ 32) :
    (walk bound first startRow rows).rows = List.range' startRow.toNat rows.toNat := by
  have hsum : (startRow + rows).toNat = startRow.toNat + rows.toNat := by
    rw [UInt32.toNat_add]
    exact Nat.mod_eq_of_lt h
  simp only [walk, hsum, Nat.add_sub_cancel_left]

theorem walk_reads (h : startRow.toNat + rows.toNat < 2 ^ 32) {e : ℕ}
    (he : e ∈ (walk bound first startRow rows).rowPtrReads) : e ∈ first ∨ e ≤ startRow.toNat + rows.toNat := by
  have hloop : (walk bound first startRow rows).rows = _ := walk_rows h
  simp only [walk, List.mem_append, List.mem_singleton, List.mem_map] at he hloop
  rw [hloop] at he
  rcases he with (hfirst | rfl) | ⟨r, hr, rfl⟩
  · exact Or.inl hfirst
  · exact Or.inr (Nat.le_add_right _ _)
  · obtain ⟨i, hi, rfl⟩ := List.mem_range'.mp hr
    exact Or.inr (by omega)

/-- **The words written.** A tasklet writes a word at its first row and at every `bound`-th row behind it. -/
theorem walk_outRows (hbound : 0 < bound) (h : startRow.toNat + rows.toNat < 2 ^ 32) {o : ℕ} :
    o ∈ (walk bound first startRow rows).outRows ↔ ∃ k, k * bound < rows.toNat ∧ o = startRow.toNat + k * bound := by
  have hloop : (walk bound first startRow rows).rows = _ := walk_rows h
  simp only [walk] at hloop ⊢
  rw [hloop, foldl_store hbound, List.length_range', Out.flush]
  have hmap : ∀ m, o ∈ (List.range m).map (startRow.toNat + · * bound) ↔ ∃ k, k < m ∧ o = startRow.toNat + k * bound := by
    intro m
    simp only [List.mem_map, List.mem_range]
    exact exists_congr fun k => and_congr_right fun _ => eq_comm
  have hsplit := Nat.mod_add_div rows.toNat bound
  have hlt := Nat.mod_lt rows.toNat hbound
  dsimp only
  split_ifs with hrest
  · rw [List.mem_append, List.mem_singleton, hmap]
    constructor
    · rintro (⟨k, hk, rfl⟩ | rfl)
      · exact ⟨k, (Nat.le_div_iff_mul_le hbound).mp hk |>.trans_lt' (by rw [Nat.succ_mul]; omega), rfl⟩
      · exact ⟨rows.toNat / bound, by rw [Nat.mul_comm]; omega, rfl⟩
    · rintro ⟨k, hk, rfl⟩
      have hle : k ≤ rows.toNat / bound := (Nat.le_div_iff_mul_le hbound).mpr hk.le
      rcases Nat.lt_or_eq_of_le hle with hlt | heq
      · exact Or.inl ⟨k, hlt, rfl⟩
      · exact Or.inr (by rw [heq])
  · have hexact : rows.toNat = rows.toNat / bound * bound := by
      rw [Nat.mul_comm]
      omega
    rw [hmap]
    refine exists_congr fun k => and_congr_left fun _ => ?_
    constructor
    · intro hk
      rw [hexact]
      exact Nat.mul_lt_mul_of_pos_right hk hbound
    · intro hk
      rw [hexact] at hk
      exact Nat.lt_of_mul_lt_mul_right hk

/-- **Shared by pieces.** Tasklets that take consecutive pieces, each starting at a full word, share the rows. -/
theorem shared_of_cuts {work : ℕ → Work} {cut : ℕ → ℕ} {tasklets rows bound : ℕ} (h : Cuts cut tasklets 0 rows)
    (haligned : ∀ t < tasklets, cut t < cut (t + 1) → bound ∣ cut t)
    (hrows : ∀ t < tasklets, (work t).rows = List.range' (cut t) (cut (t + 1) - cut t))
    (hout : ∀ t < tasklets, ∀ o ∈ (work t).outRows, ∃ k, cut t + k * bound < cut (t + 1) ∧ o = cut t + k * bound) :
    Shared work tasklets rows bound := by
  have hmem : ∀ t < tasklets, ∀ r, r ∈ (work t).rows ↔ cut t ≤ r ∧ r < cut (t + 1) := by
    intro t ht r
    have hmono := h.mono t ht
    rw [hrows t ht, List.mem_range'_1]
    omega
  have hplace : ∀ t < tasklets, ∀ o ∈ (work t).outRows, (cut t ≤ o ∧ o < cut (t + 1)) ∧ bound ∣ o := by
    intro t ht o ho
    obtain ⟨k, hk, rfl⟩ := hout t ht o ho
    have hstart : cut t ≤ cut t + k * bound := Nat.le_add_right _ _
    exact ⟨⟨hstart, hk⟩, (haligned t ht (hstart.trans_lt hk)).add (Dvd.intro_left k rfl)⟩
  refine ⟨?_, ?_, ?_, ?_, ?_⟩
  · intro t ht
    rw [hrows t ht]
    exact List.nodup_range'
  · intro t ht u hu htu r hr hr'
    exact htu (h.piece_unique ht hu ((hmem t ht r).mp hr) ((hmem u hu r).mp hr'))
  · intro r
    constructor
    · rintro ⟨t, ht, hr⟩
      exact ((hmem t ht r).mp hr).2.trans_le (h.le_hi ht)
    · intro hr
      obtain ⟨t, ⟨ht, hpos⟩, _⟩ := h.existsUnique (Nat.zero_le r) hr
      exact ⟨t, ht, (hmem t ht r).mpr hpos⟩
  · exact fun t ht o ho => (hplace t ht o ho).2
  · intro t ht u hu htu o ho ho'
    exact htu (h.piece_unique ht hu (hplace t ht o ho).1 (hplace u hu o ho').1)

end PimOfis.SpMV
