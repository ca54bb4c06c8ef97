/-
Compressed rows: a block of entries stored one after the other, and for each row where its entries begin.

`below r M j` is the row pointer of row `j` for the entries `M` with rows `r`: the number of entries in rows below `j`.
Reading a block back gives row `j` to the entries from `below r M j` to `below r M (j + 1)`.

- `decode_eq_zip`: reading back pairs the rows, in order, with the entries, in the order they are stored;
- `rowsOf_below`, `rowsOf_below_perm`: the rows that are read back;
- `decode_of_sorted`: a block stored row by row is read back as it was;
- `sum_decode`: a row's sum;
- `flatMap_filter_perm`, `sum_count`: blocks that share a list of entries.
-/
import Mathlib.Tactic

namespace PimOfis.Lib.Csr

variable {α β : Type}

/-- the number of entries in rows below `j` -/
def below (r : α → ℕ) (M : List α) (j : ℕ) : ℕ := M.countP fun m => decide (r m < j)

/-- row `j` once for each of its entries -/
def rowsOf (ptr : ℕ → ℕ) (h : ℕ) : List ℕ := (List.range h).flatMap fun j => List.replicate (ptr (j + 1) - ptr j) j

/-- the entries of `h` rows, each with its row -/
def decode (ptr : ℕ → ℕ) (h : ℕ) (entry : ℕ → β) : List (ℕ × β) :=
  (List.range h).flatMap fun j => (List.range' (ptr j) (ptr (j + 1) - ptr j)).map fun k => (j, entry k)

section Below

variable {r : α → ℕ} {M : List α}

@[simp] theorem below_zero (r : α → ℕ) (M : List α) : below r M 0 = 0 := by simp [below]

theorem below_mono (r : α → ℕ) (M : List α) {i j : ℕ} (hij : i ≤ j) : below r M i ≤ below r M j := by
  apply List.countP_mono_left
  intro m _ hm
  simp only [decide_eq_true_eq] at hm ⊢
  exact hm.trans_le hij

theorem below_top {h : ℕ} (hr : ∀ m ∈ M, r m < h) : below r M h = M.length := by
  apply List.countP_eq_length.mpr
  intro m hm
  exact decide_eq_true (hr m hm)

theorem below_perm {M' : List α} (h : M.Perm M') (j : ℕ) : below r M j = below r M' j := h.countP_eq _

theorem below_succ (r : α → ℕ) (M : List α) (j : ℕ) : below r M (j + 1) = below r M j + M.countP fun m => decide (r m = j) := by
  unfold below
  induction M with
  | nil => rfl
  | cons m M ih =>
    simp only [List.countP_cons, ih, decide_eq_true_eq]
    split_ifs <;> omega

end Below

/-! ## Rows -/

theorem length_rowsOf {ptr : ℕ → ℕ} {h : ℕ} (hzero : ptr 0 = 0) (hmono : ∀ j < h, ptr j ≤ ptr (j + 1)) :
    (rowsOf ptr h).length = ptr h := by
  induction h with
  | zero => rw [hzero]; rfl
  | succ h ih =>
    have hle := hmono h (Nat.lt_succ_self h)
    have hprev := ih fun j hj => hmono j (hj.trans (Nat.lt_succ_self h))
    rw [rowsOf, List.range_succ, List.flatMap_append, List.length_append]
    change (rowsOf ptr h).length + _ = _
    rw [hprev, List.flatMap_singleton, List.length_replicate]
    omega

theorem mem_rowsOf_lt {ptr : ℕ → ℕ} {h i : ℕ} (hi : i ∈ rowsOf ptr h) : i < h := by
  obtain ⟨j, hj, hij⟩ := List.mem_flatMap.mp hi
  rw [List.eq_of_mem_replicate hij]
  exact List.mem_range.mp hj

theorem rowsOf_sorted (ptr : ℕ → ℕ) (h : ℕ) : (rowsOf ptr h).Pairwise (· ≤ ·) := by
  induction h with
  | zero => exact List.Pairwise.nil
  | succ h ih =>
    rw [rowsOf, List.range_succ, List.flatMap_append, List.flatMap_singleton]
    apply List.pairwise_append.mpr
    refine ⟨ih, List.pairwise_replicate.mpr (Or.inr le_rfl), ?_⟩
    intro i hi j hj
    rw [List.eq_of_mem_replicate hj]
    exact (mem_rowsOf_lt hi).le

theorem count_rowsOf (ptr : ℕ → ℕ) (h j : ℕ) : (rowsOf ptr h).count j = if j < h then ptr (j + 1) - ptr j else 0 := by
  induction h with
  | zero => rfl
  | succ h ih =>
    rw [rowsOf, List.range_succ, List.flatMap_append, List.flatMap_singleton, List.count_append]
    change (rowsOf ptr h).count j + _ = _
    rw [ih, List.count_replicate]
    rcases lt_trichotomy j h with hlt | rfl | hlt
    · rw [if_pos hlt, if_neg (by simpa using hlt.ne'), if_pos (hlt.trans (Nat.lt_succ_self h)), Nat.add_zero]
    · rw [if_neg (lt_irrefl j), if_pos (by simp), if_pos (Nat.lt_succ_self j), Nat.zero_add]
    · rw [if_neg hlt.not_gt, if_neg (by simpa using hlt.ne), if_neg (by omega)]

/-- the rows read back are those of the entries, in some order -/
theorem rowsOf_below_perm {r : α → ℕ} {M : List α} {h : ℕ} (hr : ∀ m ∈ M, r m < h) :
    (rowsOf (below r M) h).Perm (M.map r) := by
  apply List.perm_iff_count.mpr
  intro j
  rw [count_rowsOf, List.count, List.countP_map]
  split_ifs with hj
  · rw [below_succ, Nat.add_sub_cancel_left]
    rfl
  · symm
    apply List.countP_eq_zero.mpr
    intro m hm heq
    have hrow : r m = j := by simpa using heq
    exact hj (hrow ▸ hr m hm)

/-- stored row by row, they are read back in the order of the entries -/
theorem rowsOf_below {r : α → ℕ} {M : List α} {h : ℕ} (hr : ∀ m ∈ M, r m < h) (hs : M.Pairwise fun a b => r a ≤ r b) :
    rowsOf (below r M) h = M.map r :=
  (rowsOf_below_perm hr).eq_of_pairwise' (rowsOf_sorted _ h) (List.pairwise_map.mpr hs)

/-! ## Reading back -/

theorem decode_eq_zip {ptr : ℕ → ℕ} {h : ℕ} (entry : ℕ → β) (hzero : ptr 0 = 0) (hmono : ∀ j < h, ptr j ≤ ptr (j + 1)) :
    decode ptr h entry = (rowsOf ptr h).zip ((List.range (ptr h)).map entry) := by
  induction h with
  | zero => rfl
  | succ h ih =>
    have hprev : ∀ j < h, ptr j ≤ ptr (j + 1) := fun j hj => hmono j (hj.trans (Nat.lt_succ_self h))
    have hlast : List.range (ptr (h + 1)) = List.range (ptr h) ++ List.range' (ptr h) (ptr (h + 1) - ptr h) := by
      have hle := hmono h (Nat.lt_succ_self h)
      rw [List.range_eq_range', List.range_eq_range']
      conv_lhs => rw [← Nat.add_sub_of_le hle]
      rw [← List.range'_append_1, Nat.zero_add]
    have hrow : ∀ l : List ℕ, l.map (fun k => (h, entry k)) = (List.replicate l.length h).zip (l.map entry) := by
      intro l
      induction l with
      | nil => rfl
      | cons k l ihl => rw [List.map_cons, ihl, List.length_cons, List.replicate_succ, List.map_cons, List.zip_cons_cons]
    have hrows : rowsOf ptr (h + 1) = rowsOf ptr h ++ List.replicate (ptr (h + 1) - ptr h) h := by
      rw [rowsOf, List.range_succ, List.flatMap_append, List.flatMap_singleton]
      rfl
    have hlength : (rowsOf ptr h).length = ((List.range (ptr h)).map entry).length := by
      rw [length_rowsOf hzero hprev, List.length_map, List.length_range]
    rw [decode, List.range_succ, List.flatMap_append, List.flatMap_singleton, hrow, List.length_range', hrows, hlast,
      List.map_append, List.zip_append hlength, ← ih hprev]
    rfl

section Stored

variable {r : α → ℕ} {g : α → β} {M : List α} {entry : ℕ → β} {h : ℕ}

/-- what is read back of entries stored in the order of `M` -/
theorem decode_below (hr : ∀ m ∈ M, r m < h) (hentry : ∀ k (hk : k < M.length), entry k = g M[k]) :
    decode (below r M) h entry = (rowsOf (below r M) h).zip (M.map g) := by
  have hmap : (List.range (below r M h)).map entry = M.map g := by
    rw [below_top hr]
    apply List.ext_getElem
    · simp
    · intro k hk _
      have hlt : k < M.length := by simpa using hk
      simpa using hentry k hlt
  rw [decode_eq_zip entry (below_zero r M) fun j _ => below_mono r M (Nat.le_succ j), hmap]

/-- **Stored row by row**, a block is read back as it was. -/
theorem decode_of_sorted (hr : ∀ m ∈ M, r m < h) (hs : M.Pairwise fun a b => r a ≤ r b)
    (hentry : ∀ k (hk : k < M.length), entry k = g M[k]) : decode (below r M) h entry = M.map fun m => (r m, g m) := by
  rw [decode_below hr hentry, rowsOf_below hr hs, List.zip_map']

end Stored

/-- what the entries of row `i` add up to -/
theorem sum_decode [AddCommMonoid α] (ptr : ℕ → ℕ) (h : ℕ) (entry : ℕ → β) (f : β → α) (i : ℕ) :
    ((decode ptr h entry).map fun t => if t.1 = i then f t.2 else 0).sum =
      if i < h then ((List.range' (ptr i) (ptr (i + 1) - ptr i)).map fun k => f (entry k)).sum else 0 := by
  have hrow : ∀ j, (((List.range' (ptr j) (ptr (j + 1) - ptr j)).map fun k => (j, entry k)).map
      fun t => if t.1 = i then f t.2 else 0).sum =
      if j = i then ((List.range' (ptr i) (ptr (i + 1) - ptr i)).map fun k => f (entry k)).sum else 0 := by
    intro j
    rw [List.map_map]
    by_cases hj : j = i
    · rw [if_pos hj, hj]
      congr 1
      apply List.map_congr_left
      intro k _
      exact if_pos rfl
    · rw [if_neg hj]
      apply List.sum_eq_zero
      intro v hv
      obtain ⟨k, -, rfl⟩ := List.mem_map.mp hv
      exact if_neg hj
  induction h with
  | zero => rfl
  | succ h ih =>
    rw [decode, List.range_succ, List.flatMap_append, List.flatMap_singleton, List.map_append, List.sum_append, hrow h]
    change ((decode ptr h entry).map _).sum + _ = _
    rw [ih]
    rcases lt_trichotomy i h with hlt | rfl | hlt
    · rw [if_pos hlt, if_neg hlt.ne', if_pos (hlt.trans (Nat.lt_succ_self h)), add_zero]
    · rw [if_neg (lt_irrefl i), if_pos rfl, if_pos (Nat.lt_succ_self i), zero_add]
    · rw [if_neg hlt.not_gt, if_neg hlt.ne, if_neg (by omega), add_zero]

/-! ## Blocks -/

/-- the entries of the blocks below `P`, block by block -/
theorem flatMap_filter_perm (part : α → ℕ) (L : List α) (P : ℕ) :
    ((List.range P).flatMap fun p => L.filter fun a => decide (part a = p)).Perm (L.filter fun a => decide (part a < P)) := by
  induction P with
  | zero =>
    have hnone : (L.filter fun a => decide (part a < 0)) = [] := by
      apply List.filter_eq_nil_iff.mpr
      intro a _
      simp
    rw [hnone]
    exact List.Perm.refl _
  | succ P ih =>
    rw [List.range_succ, List.flatMap_append, List.flatMap_singleton]
    refine (ih.append_right _).trans ?_
    have hsplit := List.filter_append_perm (fun a => decide (part a < P)) (L.filter fun a => decide (part a < P + 1))
    rw [List.filter_filter, List.filter_filter] at hsplit
    have hbelow : (L.filter fun a => decide (part a < P) && decide (part a < P + 1)) = L.filter fun a => decide (part a < P) := by
      apply List.filter_congr
      intro a _
      by_cases ha : part a < P
      · simp [ha, ha.trans (Nat.lt_succ_self P)]
      · simp [ha]
    have hthis : (L.filter fun a => !decide (part a < P) && decide (part a < P + 1)) = L.filter fun a => decide (part a = P) := by
      apply List.filter_congr
      intro a _
      rcases lt_trichotomy (part a) P with ha | ha | ha
      · simp [ha, ha.ne]
      · simp [ha]
      · have hno : ¬ part a < P + 1 := by omega
        simp [hno, ha.ne']
    rwa [hbelow, hthis] at hsplit

/-- the blocks below `P` have the entries below `P` -/
theorem sum_count (part : α → ℕ) (L : List α) (P : ℕ) :
    ∑ p ∈ Finset.range P, (L.countP fun a => decide (part a = p)) = L.countP fun a => decide (part a < P) := by
  induction P with
  | zero => simp
  | succ P ih =>
    rw [Finset.sum_range_succ, ih]
    exact (below_succ part L P).symm

end PimOfis.Lib.Csr
