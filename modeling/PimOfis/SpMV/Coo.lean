/-
The COO matrices of SpMV and the functions that sort them: `comparator`, `sort_COO` (`types.h` of SpMV_OFIS and
SparseP_ES) and `sortCOOMatrix` (`matrix.h` of SparseP_EW).

All copies have the same `comparator`. In one row it returns the difference of two columns, taken in 32 bits and read as
an `int`: with columns of 2^31 and more it may put each of two entries before the other, or three of them in a circle.
What `qsort` does with a comparator that is not consistent is undefined.

After `qsort` the functions count the entries of each row, with `int` counters and an `int` row as the index.

Results:
- `exists_qsort`, `rows_sorted_of_qsort`: what a consistent comparator gives;
- `countRows_spec`, `countRows_bounds`: when the count of a sorted list is defined, and what it is;
- `consistent_of_cols`: columns below 2^31 are enough.
-/
import Mathlib.Tactic
import PimOfis.Lib.Buf

namespace PimOfis.SpMV

open Lib

/-! ## Model -/

/-- `struct elem_t` -/
structure Elem (α : Type) where
  rowIdx : UInt32
  colIdx : UInt32
  values : α

variable {α : Type}

def Elem.row (e : Elem α) : ℕ := e.rowIdx.toNat

def Elem.triple (e : Elem α) : ℕ × ℕ × α := (e.row, e.colIdx.toNat, e.values)

structure CooFormat (α : Type) where
  nrRows : UInt32
  nrCols : UInt32
  nnzOfRows : Buf UInt32
  elems : List (Elem α)

def CooFormat.nnz (m : CooFormat α) : UInt32 := UInt32.ofNat m.elems.length

/-- a matrix as it is read from a file: not empty, its indices in range, no row counted yet -/
structure CooInput (α : Type) extends CooFormat α where
  nonempty : elems ≠ []
  fits : elems.length < 2 ^ 32
  row_lt : ∀ e ∈ elems, e.row < nrRows.toNat
  col_lt : ∀ e ∈ elems, e.colIdx.toNat < nrCols.toNat
  counts : nnzOfRows.Holds nrRows.toNat fun _ => 0

/-- an `int`: negative, 0 or positive -/
def comparator (a b : Elem α) : ℤ :=
  if a.rowIdx < b.rowIdx then -1
  else if a.rowIdx > b.rowIdx then 1
  else (a.colIdx - b.colIdx).toInt32.toInt

/-- `cmp` orders the entries of the list -/
structure Consistent (cmp : Elem α → Elem α → ℤ) (L : List (Elem α)) : Prop where
  flip : ∀ a ∈ L, ∀ b ∈ L, cmp a b < 0 ↔ 0 < cmp b a
  trans : ∀ a ∈ L, ∀ b ∈ L, ∀ c ∈ L, cmp a b ≤ 0 → cmp b c ≤ 0 → cmp a c ≤ 0

/-- what `qsort` may come to, `none` for a run that goes wrong: sorted, in whatever order among equals, and anything if the
comparator is not consistent -/
def Qsort (cmp : Elem α → Elem α → ℤ) (L : List (Elem α)) (r : Option (List (Elem α))) : Prop :=
  Consistent cmp L → ∃ L', r = some L' ∧ L'.Perm L ∧ L'.Pairwise fun a b => cmp a b ≤ 0

/-- `++` on an `int` that is not negative, undefined where it overflows -/
def intSucc (n : ℕ) : Option ℕ := if n + 1 < 2 ^ 31 then some (n + 1) else none

/-- `++` on an `unsigned int` below `nnz` -/
def unsignedSucc (n : ℕ) : Option ℕ := some (n + 1)

structure RowCount where
  /-- the row as an `int` -/
  currRow : Int32
  count : ℕ
  nnzOfRows : Buf UInt32

/-- `nnz_of_rows[curr_row] = count` -/
def RowCount.close (s : RowCount) : Option (Buf UInt32) :=
  if s.currRow < 0 then none else s.nnzOfRows.write s.currRow.toNatClampNeg (UInt32.ofNat s.count)

/-- the body of the loop that counts -/
def RowCount.tally (s : RowCount) (e : Elem α) : Option RowCount :=
  if e.rowIdx = s.currRow.toUInt32 then do
    let count ← intSucc s.count
    pure { s with count := count }
  else do
    let rows ← s.close
    pure ⟨e.rowIdx.toInt32, 1, rows⟩

/-- the loop, with `next` as the step of its index -/
def tallyAll (next : ℕ → Option ℕ) (A : List (Elem α)) (s : ℕ × RowCount) : Option (ℕ × RowCount) :=
  A.foldlM (fun (s : ℕ × RowCount) e => do
    let t ← s.2.tally e
    let i ← next s.1
    pure (i, t)) s

def countRows (next : ℕ → Option ℕ) (A : List (Elem α)) (rows : Buf UInt32) : Option (Buf UInt32) :=
  match A with
  | [] => none
  | e :: _ => do
    let s ← tallyAll next A (0, ⟨e.rowIdx.toInt32, 0, rows⟩)
    s.2.close

/-- `sort_COO`, of SpMV_OFIS and of SparseP_ES; what it returns is `nnz` and 1 -/
def SortCoo (m : CooFormat α) (r : Option (CooFormat α)) : Prop :=
  ∃ q, Qsort comparator m.elems q ∧ r = q.bind fun A => do
    let rows ← countRows intSucc A m.nnzOfRows
    pure { m with nnzOfRows := rows, elems := A }

/-- `cur_nnz += rows[r]` over all rows: an `int` and an `unsigned int` are added in 32 bits -/
def sumRows (rows : Buf UInt32) (nrows : ℕ) : Option UInt32 :=
  (List.range nrows).foldlM (fun acc r => do
    let n ← rows.read r
    pure (acc + n)) 0

/-- `sortCOOMatrix` of SparseP_EW, with the assertion at its end -/
def SortCooMatrix (m : CooFormat α) (r : Option (CooFormat α)) : Prop :=
  ∃ q, Qsort comparator m.elems q ∧ r = q.bind fun A => do
    let rows ← countRows unsignedSucc A m.nnzOfRows
    let curNnz ← sumRows rows m.nrRows.toNat
    if curNnz = m.nnz then pure { m with nnzOfRows := rows, elems := A } else none

/-! ## The comparator -/

/-- entries in order are in order of rows -/
theorem row_le_of_comparator {a b : Elem α} (h : comparator a b ≤ 0) : a.row ≤ b.row := by
  unfold comparator at h
  split_ifs at h with hlt hgt
  · exact (UInt32.lt_iff_toNat_lt.mp hlt).le
  · norm_num at h
  · exact not_lt.mp fun hba => hgt (UInt32.lt_iff_toNat_lt.mpr hba)

/-- an `unsigned int` read as an `int` -/
theorem toInt_toInt32 (x : UInt32) : x.toInt32.toInt = (x.toNat : ℤ).bmod (2 ^ 32) := BitVec.toInt_eq_toNat_bmod x.toBitVec

/-- columns below 2^31 are compared as numbers -/
theorem comparator_same_row {a b : Elem α} (hrow : a.rowIdx = b.rowIdx) (ha : a.colIdx.toNat < 2 ^ 31)
    (hb : b.colIdx.toNat < 2 ^ 31) : comparator a b = (a.colIdx.toNat : ℤ) - b.colIdx.toNat := by
  unfold comparator
  rw [hrow, if_neg (UInt32.lt_irrefl b.rowIdx), if_neg (UInt32.lt_irrefl b.rowIdx), UInt32.toInt32_sub, Int32.toInt_sub, toInt_toInt32,
    toInt_toInt32, Int.sub_bmod_bmod, Int.bmod_sub_bmod]
  apply Int.bmod_eq_of_le <;> omega

/-- **Columns below 2^31** are enough for the comparator to be consistent. -/
theorem consistent_of_cols {L : List (Elem α)} (h : ∀ e ∈ L, e.colIdx.toNat < 2 ^ 31) : Consistent comparator L := by
  have hcmp : ∀ a ∈ L, ∀ b ∈ L, comparator a b =
      if a.row < b.row then -1 else if b.row < a.row then 1 else (a.colIdx.toNat : ℤ) - b.colIdx.toNat := by
    intro a ha b hb
    split_ifs with hlt hgt
    · exact if_pos (UInt32.lt_iff_toNat_lt.mpr hlt)
    · exact (if_neg fun hab => hlt (UInt32.lt_iff_toNat_lt.mp hab)).trans (if_pos (UInt32.lt_iff_toNat_lt.mpr hgt))
    · exact comparator_same_row (UInt32.toNat_inj.mp (le_antisymm (not_lt.mp hgt) (not_lt.mp hlt))) (h a ha) (h b hb)
  constructor
  · intro a ha b hb
    rw [hcmp a ha b hb, hcmp b hb a ha]
    split_ifs <;> omega
  · intro a ha b hb c hc hab hbc
    rw [hcmp a ha b hb] at hab
    rw [hcmp b hb c hc] at hbc
    rw [hcmp a ha c hc]
    split_ifs at * <;> omega

/-- a consistent comparator can be sorted by -/
theorem exists_qsort {cmp : Elem α → Elem α → ℤ} {L : List (Elem α)} (h : Consistent cmp L) : ∃ L', Qsort cmp L (some L') := by
  let le : {e // e ∈ L} → {e // e ∈ L} → Bool := fun a b => decide (cmp a.1 b.1 ≤ 0)
  have htrans : ∀ a b c, le a b = true → le b c = true → le a c = true := by
    intro a b c hab hbc
    exact decide_eq_true (h.trans a.1 a.2 b.1 b.2 c.1 c.2 (of_decide_eq_true hab) (of_decide_eq_true hbc))
  have htotal : ∀ a b, (le a b || le b a) = true := by
    intro a b
    by_cases hab : cmp a.1 b.1 ≤ 0
    · simp [le, hab]
    · have hba := (h.flip b.1 b.2 a.1 a.2).mpr (not_le.mp hab)
      simp [le, hba.le]
  refine ⟨(L.attach.mergeSort le).map Subtype.val, fun _ => ⟨_, rfl, ?_, ?_⟩⟩
  · have hperm := (List.mergeSort_perm L.attach le).map Subtype.val
    rwa [List.attach_map_subtype_val] at hperm
  · apply List.pairwise_map.mpr
    refine (List.pairwise_mergeSort htrans htotal L.attach).imp ?_
    intro a b hab
    exact of_decide_eq_true hab

theorem rows_sorted {A : List (Elem α)} (h : A.Pairwise fun a b => comparator a b ≤ 0) :
    A.Pairwise fun a b => a.row ≤ b.row := h.imp row_le_of_comparator

/-! ## The count of the rows -/

theorem toInt32_of_lt {x : UInt32} (hx : x.toNat < 2 ^ 31) : ¬ x.toInt32 < 0 ∧ x.toInt32.toNatClampNeg = x.toNat := by
  have hint : x.toInt32.toInt = x.toNat := by
    rw [toInt_toInt32]
    apply Int.bmod_eq_of_le <;> omega
  constructor
  · rw [Int32.lt_iff_toInt_lt, hint]
    exact not_lt.mpr (Int.natCast_nonneg _)
  · change x.toInt32.toInt.toNat = x.toNat
    rw [hint, Int.toNat_natCast]

theorem lt_of_toInt32 {x : UInt32} (h : ¬ x.toInt32 < 0) : x.toNat < 2 ^ 31 := by
  by_contra hx
  apply h
  have hlt := x.toNat_lt
  have hneg : (x.toNat : ℤ).bmod (2 ^ 32) = x.toNat - 2 ^ 32 := by
    rw [← Int.sub_bmod_right]
    apply Int.bmod_eq_of_le <;> push_cast <;> omega
  rw [Int32.lt_iff_toInt_lt, toInt_toInt32, hneg]
  change (x.toNat : ℤ) - 2 ^ 32 < 0
  omega

/-- the state with the rows up to `c` counted: `n r` entries of row `r` so far, those of `c` not yet stored -/
structure Tallied (size : ℕ) (n : ℕ → ℕ) (c : UInt32) (s : RowCount) : Prop where
  currRow : s.currRow = c.toInt32
  lt_size : c.toNat < size
  lt_int : c.toNat < 2 ^ 31
  count : s.count = n c.toNat
  rows : s.nnzOfRows.Holds size fun r => if r = c.toNat then 0 else n r
  later : ∀ r, c.toNat < r → n r = 0

namespace Tallied

variable {size : ℕ} {n : ℕ → ℕ} {c : UInt32} {s : RowCount}

theorem close (h : Tallied size n c s) : ∃ rows, s.close = some rows ∧ rows.Holds size n := by
  obtain ⟨rows, hrows, hholds⟩ := Buf.write_holds h.rows h.lt_size s.count
  refine ⟨rows, ?_, hholds.congr fun r _ => ?_⟩
  · unfold RowCount.close
    rw [h.currRow, if_neg (toInt32_of_lt h.lt_int).1, (toInt32_of_lt h.lt_int).2]
    exact hrows
  · by_cases hr : r = c.toNat
    · rw [hr, Function.update_self, h.count]
    · rw [Function.update_of_ne hr, if_neg hr]

/-- one more entry, of the same row or a later one -/
theorem tally (h : Tallied size n c s) {e : Elem α} (hsize : e.row < size) (hint : e.row < 2 ^ 31) (hle : c.toNat ≤ e.row)
    (hcount : n e.row + 1 < 2 ^ 31) :
    ∃ s', s.tally e = some s' ∧ Tallied size (Function.update n e.row (n e.row + 1)) e.rowIdx s' := by
  have hother : ∀ r, r ≠ e.row → Function.update n e.row (n e.row + 1) r = n r := fun r hr => Function.update_of_ne hr _ _
  by_cases hsame : e.rowIdx = c
  · have hrow : e.row = c.toNat := congrArg UInt32.toNat hsame
    refine ⟨{ s with count := s.count + 1 }, ?_, ?_⟩
    · unfold RowCount.tally intSucc
      rw [h.currRow, UInt32.toUInt32_toInt32, if_pos hsame, h.count, ← hrow, if_pos hcount]
      rfl
    · refine ⟨h.currRow.trans (congrArg _ hsame.symm), hsize, hint, ?_, h.rows.congr fun r _ => ?_, fun r hr => ?_⟩
      · change s.count + 1 = Function.update n e.row (n e.row + 1) e.row
        rw [Function.update_self, h.count, hrow]
      · change (if r = c.toNat then 0 else n r) = if r = e.row then 0 else _
        rw [hrow]
        split_ifs with hr
        · rfl
        · rw [← hrow, hother r (hrow ▸ hr)]
      · rw [hother r (ne_of_gt hr)]
        exact h.later r (hrow ▸ hr)
  · have hlt : c.toNat < e.row := lt_of_le_of_ne hle fun heq => hsame (UInt32.toNat_inj.mp heq.symm)
    obtain ⟨rows, hclose, hholds⟩ := h.close
    refine ⟨⟨e.rowIdx.toInt32, 1, rows⟩, ?_, ?_⟩
    · unfold RowCount.tally
      rw [h.currRow, UInt32.toUInt32_toInt32, if_neg hsame, hclose]
      rfl
    · refine ⟨rfl, hsize, hint, ?_, hholds.congr fun r _ => ?_, fun r hr => ?_⟩
      · change 1 = Function.update n e.row (n e.row + 1) e.row
        rw [Function.update_self, h.later _ hlt]
      · change n r = if r = e.row then 0 else _
        split_ifs with hr
        · rw [hr, h.later _ hlt]
        · rw [hother r hr]
      · rw [hother r (ne_of_gt hr)]
        exact h.later r (hlt.trans hr)

end Tallied

/-- the number of entries of row `r` -/
def rowCount (A : List (Elem α)) (r : ℕ) : ℕ := A.countP fun e => decide (e.row = r)

theorem rowCount_cons (e : Elem α) (A : List (Elem α)) (r : ℕ) :
    rowCount (e :: A) r = rowCount A r + if e.row = r then 1 else 0 := by
  simp [rowCount, List.countP_cons]

theorem tallyAll_cons (next : ℕ → Option ℕ) (e : Elem α) (A : List (Elem α)) (i : ℕ) (s : RowCount) :
    tallyAll next (e :: A) (i, s) = (s.tally e).bind fun t => (next i).bind fun j => tallyAll next A (j, t) := by
  unfold tallyAll
  rw [List.foldlM_cons]
  cases s.tally e with
  | none => rfl
  | some t => cases next i <;> rfl

theorem tallyAll_spec {next : ℕ → Option ℕ} {N size : ℕ} (hnext : ∀ i < N, next i = some (i + 1)) {A : List (Elem α)}
    (hsize : ∀ e ∈ A, e.row < size) (hint : ∀ e ∈ A, e.row < 2 ^ 31) (hs : A.Pairwise fun a b => a.row ≤ b.row)
    {i : ℕ} (hN : i + A.length ≤ N) {n : ℕ → ℕ} {c : UInt32} {s : RowCount} (h : Tallied size n c s)
    (hle : ∀ e ∈ A, c.toNat ≤ e.row) (hcount : ∀ r, n r + rowCount A r < 2 ^ 31) :
    ∃ s' c', tallyAll next A (i, s) = some (i + A.length, s') ∧ Tallied size (fun r => n r + rowCount A r) c' s' := by
  induction A generalizing i n c s with
  | nil => exact ⟨s, c, rfl, h⟩
  | cons e A ih =>
    have hmem : e ∈ e :: A := List.mem_cons_self
    have htail : ∀ a ∈ A, a ∈ e :: A := fun a ha => List.mem_cons_of_mem e ha
    rw [List.length_cons] at hN
    have hcount' : ∀ r, Function.update n e.row (n e.row + 1) r + rowCount A r = n r + rowCount (e :: A) r := by
      intro r
      rw [rowCount_cons]
      by_cases hr : r = e.row
      · rw [hr, Function.update_self, if_pos rfl]
        omega
      · rw [Function.update_of_ne hr, if_neg (Ne.symm hr), Nat.add_zero]
    have hone : n e.row + 1 < 2 ^ 31 := by
      have hrow := hcount' e.row
      rw [Function.update_self] at hrow
      have hlt := hcount e.row
      omega
    obtain ⟨s₁, htally, h₁⟩ := h.tally (hsize e hmem) (hint e hmem) (hle e hmem) hone
    obtain ⟨s₂, c₂, hrun, h₂⟩ := ih (fun a ha => hsize a (htail a ha)) (fun a ha => hint a (htail a ha))
      (List.pairwise_cons.mp hs).2 (i := i + 1) (by omega) h₁ (List.pairwise_cons.mp hs).1
      (fun r => (hcount' r).trans_lt (hcount r))
    refine ⟨s₂, c₂, ?_, ?_⟩
    · rw [tallyAll_cons, htally, hnext i (by omega)]
      simp only [Option.bind_some]
      rw [hrun, List.length_cons]
      congr 2
      omega
    · simp only [hcount'] at h₂
      exact h₂

/-- **The count** of a list in order of rows. -/
theorem countRows_spec (next : ℕ → Option ℕ) {size : ℕ} {A : List (Elem α)} (hnext : ∀ i < A.length, next i = some (i + 1))
    (hne : A ≠ []) (hsize : ∀ e ∈ A, e.row < size) (hint : ∀ e ∈ A, e.row < 2 ^ 31)
    (hs : A.Pairwise fun a b => a.row ≤ b.row) (hcount : ∀ r, rowCount A r < 2 ^ 31) {rows : Buf UInt32}
    (hrows : rows.Holds size fun _ => 0) : ∃ rows', countRows next A rows = some rows' ∧ rows'.Holds size (rowCount A) := by
  cases A with
  | nil => exact absurd rfl hne
  | cons e A =>
    have hmem : e ∈ e :: A := List.mem_cons_self
    have hstart : Tallied size (fun _ => 0) e.rowIdx ⟨e.rowIdx.toInt32, 0, rows⟩ :=
      ⟨rfl, hsize e hmem, hint e hmem, rfl, hrows.congr fun r _ => (ite_self 0).symm, fun _ _ => rfl⟩
    have hle : ∀ a ∈ e :: A, e.rowIdx.toNat ≤ a.row := by
      intro a ha
      rcases List.mem_cons.mp ha with rfl | ha
      · exact le_rfl
      · exact (List.pairwise_cons.mp hs).1 a ha
    obtain ⟨s', c', hrun, htallied⟩ := tallyAll_spec hnext hsize hint hs (i := 0) (by rw [Nat.zero_add]) hstart hle
      (fun r => by rw [Nat.zero_add]; exact hcount r)
    obtain ⟨rows', hclose, hholds⟩ := htallied.close
    refine ⟨rows', ?_, hholds.congr fun r _ => Nat.zero_add _⟩
    unfold countRows
    dsimp only
    rw [hrun]
    exact hclose

/-- what a step that is defined says of its entry -/
theorem tally_cases {s t : RowCount} {e : Elem α} (h : s.tally e = some t) :
    (e.rowIdx.toInt32 = s.currRow ∧ s.count + 1 < 2 ^ 31 ∧ t.currRow = s.currRow ∧ t.count = s.count + 1) ∨
      (e.rowIdx.toInt32 ≠ s.currRow ∧ ¬ s.currRow < 0 ∧ t.currRow = e.rowIdx.toInt32 ∧ t.count = 1) := by
  unfold RowCount.tally at h
  split_ifs at h with hsame
  · left
    unfold intSucc at h
    split_ifs at h with hlt
    · cases h
      exact ⟨by rw [hsame, Int32.toInt32_toUInt32], hlt, rfl, rfl⟩
    · cases h
  · right
    unfold RowCount.close at h
    split_ifs at h with hneg
    · cases h
    · obtain ⟨rows, -, ht⟩ := Option.bind_eq_some_iff.mp h
      cases ht
      refine ⟨fun heq => hsame ?_, hneg, rfl, rfl⟩
      rw [← heq, UInt32.toUInt32_toInt32]

theorem close_nonneg {s : RowCount} {rows : Buf UInt32} (h : s.close = some rows) : ¬ s.currRow < 0 := by
  intro hneg
  unfold RowCount.close at h
  rw [if_pos hneg] at h
  cases h

/-- a run that is defined has met no negative row, has seen fewer than 2^31 entries in a row, and its index is what `next`
allows -/
theorem tallyAll_bounds {next : ℕ → Option ℕ} (hnext : ∀ i j, next i = some j → j = i + 1) {A : List (Elem α)}
    (hs : A.Pairwise fun a b => a.row ≤ b.row) {i : ℕ} {c : UInt32} {s : RowCount} {t : ℕ × RowCount} {rows : Buf UInt32}
    (hc : s.currRow = c.toInt32) (hle : ∀ e ∈ A, c.toNat ≤ e.row) (hsmall : s.count < 2 ^ 31)
    (h : tallyAll next A (i, s) = some t) (hclose : t.2.close = some rows) :
    c.toNat < 2 ^ 31 ∧ (∀ e ∈ A, e.row < 2 ^ 31) ∧ (∀ r, rowCount A r + (if r = c.toNat then s.count else 0) < 2 ^ 31) ∧
      ∀ k < A.length, next (i + k) ≠ none := by
  induction A generalizing i c s with
  | nil =>
    obtain rfl : t = (i, s) := (Option.some.inj h).symm
    refine ⟨lt_of_toInt32 (hc ▸ close_nonneg hclose), ?_, ?_, ?_⟩
    · intro e he
      cases he
    · intro r
      rw [rowCount, List.countP_nil, Nat.zero_add]
      split_ifs
      · exact hsmall
      · norm_num
    · intro k hk
      exact absurd hk (Nat.not_lt_zero k)
  | cons e A ih =>
    have htail : ∀ a ∈ A, a ∈ e :: A := fun a ha => List.mem_cons_of_mem e ha
    have hlater := (List.pairwise_cons.mp hs).1
    rw [tallyAll_cons] at h
    obtain ⟨u, hu, h⟩ := Option.bind_eq_some_iff.mp h
    obtain ⟨j, hj, h⟩ := Option.bind_eq_some_iff.mp h
    obtain rfl := hnext i j hj
    have hcur : u.currRow = e.rowIdx.toInt32 := by
      rcases tally_cases hu with ⟨hsame, _, hcur, _⟩ | ⟨_, _, hcur, _⟩
      · rw [hcur, hsame]
      · exact hcur
    have hcount : u.count < 2 ^ 31 := by
      rcases tally_cases hu with ⟨_, hlt, _, hcount⟩ | ⟨_, _, _, hcount⟩
      · rwa [hcount]
      · rw [hcount]
        norm_num
    obtain ⟨hrow, hrows, hcounts, hidx⟩ := ih (List.pairwise_cons.mp hs).2 hcur hlater hcount h
    refine ⟨?_, ?_, ?_, ?_⟩
    · exact (hle e List.mem_cons_self).trans_lt hrow
    · intro a ha
      rcases List.mem_cons.mp ha with rfl | ha
      · exact hrow
      · exact hrows a ha
    · intro r
      have hr := hcounts r
      rw [rowCount_cons]
      change rowCount A r + (if r = e.row then u.count else 0) < 2 ^ 31 at hr
      rcases tally_cases hu with ⟨hsame, _, _, hcount⟩ | ⟨hother, _, _, hcount⟩
      · have hce : e.row = c.toNat := congrArg UInt32.toNat (by rw [← UInt32.toUInt32_toInt32 e.rowIdx, hsame, hc, UInt32.toUInt32_toInt32])
        rw [hcount, hce] at hr
        rw [hce]
        simp only [eq_comm (a := r)] at hr ⊢
        split_ifs at hr ⊢ <;> omega
      · have hne : e.row ≠ c.toNat := fun heq => hother (by rw [hc, UInt32.toNat_inj.mp heq])
        have hlt : c.toNat < e.row := lt_of_le_of_ne (hle e List.mem_cons_self) hne.symm
        rw [hcount] at hr
        by_cases hrc : r = c.toNat
        · have hnone : rowCount A r = 0 := by
            apply List.countP_eq_zero.mpr
            intro a ha har
            have hrow := hlater a ha
            have : a.row = r := of_decide_eq_true har
            omega
          rw [hnone, if_pos hrc, if_neg (by omega)]
          omega
        · rw [if_neg hrc]
          simp only [eq_comm (a := r)] at hr
          exact hr
    · intro k hk
      cases k with
      | zero => rw [Nat.add_zero, hj]; exact Option.some_ne_none _
      | succ k =>
        have hstep := hidx k (Nat.lt_of_succ_lt_succ hk)
        rwa [Nat.add_right_comm, Nat.add_assoc] at hstep

/-- **A count that is defined** has met no row and no number of entries beyond an `int`. -/
theorem countRows_bounds {next : ℕ → Option ℕ} (hnext : ∀ i j, next i = some j → j = i + 1) {A : List (Elem α)}
    (hs : A.Pairwise fun a b => a.row ≤ b.row) {rows rows' : Buf UInt32} (h : countRows next A rows = some rows') :
    (∀ e ∈ A, e.row < 2 ^ 31) ∧ (∀ r, rowCount A r < 2 ^ 31) ∧ ∀ k < A.length, next k ≠ none := by
  cases A with
  | nil => cases h
  | cons e A =>
    unfold countRows at h
    obtain ⟨t, hrun, hclose⟩ := Option.bind_eq_some_iff.mp h
    have hle : ∀ a ∈ e :: A, e.rowIdx.toNat ≤ a.row := by
      intro a ha
      rcases List.mem_cons.mp ha with rfl | ha
      · exact le_rfl
      · exact (List.pairwise_cons.mp hs).1 a ha
    obtain ⟨-, hrows, hcounts, hidx⟩ := tallyAll_bounds hnext hs rfl hle (by norm_num) hrun hclose
    refine ⟨hrows, fun r => ?_, fun k hk => ?_⟩
    · exact lt_of_le_of_lt (Nat.le_add_right _ _) (hcounts r)
    · have hstep := hidx k hk
      rwa [Nat.zero_add] at hstep

end PimOfis.SpMV
