/-
`coo2rbdcsr` (`matrix.h` of SparseP_EW) with the arrays it allocates, for sizes whose products do not fit 32 bits.

`drowptr` has `(nrows + 2) * npartitions` elements, and its indices are `p * (nrows + 1) + rowIndx`, all in `uint32_t`. Where
the first product wraps, the loop that adds the counts up reaches an element behind the array: `room_of_arrays`. Where it
does not, no index wraps either, and this is the `coo2rbdcsr` of `Rbdcsr`: `arrays_refine`.

Results:
- `arrays_iff`: when the arrays are large enough;
- `Tiled`: what is in them then, up to what `malloc` has left behind the entries.
-/
import Mathlib.Tactic
import PimOfis.Lib.Loops
import PimOfis.SpMV.Rbdcsr

namespace PimOfis.SpMV

open Lib

variable {α : Type}

/-! ## Model -/

/-- the matrix with its arrays -/
structure RBDCSRArrays (α : Type) where
  nrows : UInt32
  ncols : UInt32
  nnz : UInt32
  npartitions : UInt32
  horzPartitions : UInt32
  vertPartitions : UInt32
  tileWidth : UInt32
  nnzsPerVertPartition : Buf UInt32
  drowptr : Buf UInt32
  dcolind : Buf UInt32
  dval : Buf α

def RBDCSRArrays.toMatrix (A : RBDCSRArrays α) : RBDCSRMatrix α :=
  { nrows := A.nrows
    ncols := A.ncols
    nnz := A.nnz
    npartitions := A.npartitions
    horzPartitions := A.horzPartitions
    vertPartitions := A.vertPartitions
    tileWidth := A.tileWidth
    nnzsPerVertPartition := fun c => A.nnzsPerVertPartition.cell c.toNat
    drowptr := fun i => A.drowptr.cell i.toNat
    dcolind := A.dcolind.cell
    dval := A.dval.cell }

/-- the index of `drowptr` in the second loop -/
def tileCell (nrows p rowIndx : UInt32) : ℕ := (p * (nrows + 1) + rowIndx).toNat

/-- one turn of the loop over the rows of tile `p`: `sumBeforeNextRow` and `drowptr` -/
def normalizeRow (nrows p : UInt32) (s : UInt32 × Buf UInt32) (rowIndx : ℕ) : Option (UInt32 × Buf UInt32) := do
  let n ← s.2.read (tileCell nrows p (UInt32.ofNat rowIndx))
  let drowptr ← s.2.write (tileCell nrows p (UInt32.ofNat rowIndx)) s.1
  pure (s.1 + n, drowptr)

/-- one turn of the loop over the tiles -/
def normalizeTile (nrows : UInt32) (drowptr : Buf UInt32) (p : UInt32) : Option (Buf UInt32) := do
  let s ← (List.range nrows.toNat).foldlM (normalizeRow nrows p) (0, drowptr)
  s.2.write (tileCell nrows p nrows) s.1

/-- `nnzs_per_vert_partition` and `drowptr`, after the first two loops -/
def tilePointers (m : CooFormat α) (vertPartitions : UInt32) : Option (Buf UInt32 × Buf UInt32) := do
  let tileWidth := divUp m.nrCols vertPartitions
  let counted ← Scatter.count (fun e : Elem α => (pCol tileWidth e).toNat)
    (fun e => (rowCell m.nrRows tileWidth e).toNat) m.elems
    (Buf.zeros vertPartitions.toNat, Buf.zeros ((m.nrRows + 2) * vertPartitions).toNat)
  let drowptr ← (List.range vertPartitions.toNat).foldlM
    (fun drowptr p => normalizeTile m.nrRows drowptr (UInt32.ofNat p)) counted.2
  pure (counted.1, drowptr)

/-- `coo2rbdcsr`; `junk` is what `malloc` leaves in `dcolind` -/
def coo2rbdcsrArrays [Zero α] (junk : ℕ → UInt32) (m : CooFormat α) (horzPartitions vertPartitions : UInt32) :
    Option (RBDCSRArrays α) := do
  let tileWidth := divUp m.nrCols vertPartitions
  let pointers ← tilePointers m vertPartitions
  let globalNnzs : Buf UInt64 ← Scatter.starts UInt32.toUInt64 pointers.1 vertPartitions.toNat
  let filled ← Scatter.fill (fun e : Elem α => (pCol tileWidth e).toNat) (tileLocalCol tileWidth) Elem.values globalNnzs m.elems
    (Buf.zeros vertPartitions.toNat, ⟨(m.nnz + 2).toNat, junk⟩, ⟨(m.nnz + 8).toNat, fun _ => 0⟩)
  pure
    { nrows := m.nrRows
      ncols := m.nrCols
      nnz := m.nnz
      npartitions := vertPartitions
      horzPartitions := horzPartitions
      vertPartitions := vertPartitions
      tileWidth := tileWidth
      nnzsPerVertPartition := pointers.1
      drowptr := pointers.2
      dcolind := filled.2.1
      dval := filled.2.2 }

/-! ## The second loop inside the array -/

theorem normalizeTile_bounds {nrows p : UInt32} {b b' : Buf UInt32} (h : normalizeTile nrows b p = some b') :
    b'.size = b.size ∧ ∀ j ≤ nrows.toNat, tileCell nrows p (UInt32.ofNat j) < b.size := by
  obtain ⟨s, hs, hlast⟩ := Option.bind_eq_some_iff.mp h
  have hrows : s.2.size = b.size ∧ ∀ j < nrows.toNat, tileCell nrows p (UInt32.ofNat j) < b.size := by
    apply foldlM_range_of_some (s := (0, b))
      (fun k t => t.2.size = b.size ∧ ∀ j < k, tileCell nrows p (UInt32.ofNat j) < b.size) _ _ hs
    · exact ⟨rfl, fun j hj => absurd hj (Nat.not_lt_zero j)⟩
    · intro k _ t u ⟨hsize, hbefore⟩ hstep
      unfold normalizeRow at hstep
      simp only [Option.bind_eq_bind, Option.bind_eq_some_iff, Option.pure_def, Option.some.injEq] at hstep
      obtain ⟨n, -, drowptr, hwrite, rfl⟩ := hstep
      refine ⟨(Buf.size_of_write hwrite).trans hsize, fun j hj => ?_⟩
      rcases Nat.lt_succ_iff_lt_or_eq.mp hj with hlt | rfl
      · exact hbefore j hlt
      · exact hsize ▸ Buf.lt_of_write hwrite
  refine ⟨(Buf.size_of_write hlast).trans hrows.1, fun j hj => ?_⟩
  rcases Nat.lt_or_eq_of_le hj with hlt | rfl
  · exact hrows.2 j hlt
  · rw [UInt32.ofNat_toNat]
    exact hrows.1 ▸ Buf.lt_of_write hlast

theorem tilePointers_bounds {m : CooFormat α} {vert : UInt32} {s : Buf UInt32 × Buf UInt32} (h : tilePointers m vert = some s) :
    s.1.size = vert.toNat ∧ s.2.size = ((m.nrRows + 2) * vert).toNat ∧
      ∀ p < vert.toNat, ∀ j ≤ m.nrRows.toNat,
        tileCell m.nrRows (UInt32.ofNat p) (UInt32.ofNat j) < ((m.nrRows + 2) * vert).toNat := by
  unfold tilePointers at h
  obtain ⟨counted, hcount, h⟩ := Option.bind_eq_some_iff.mp h
  obtain ⟨drowptr, hsum, h⟩ := Option.bind_eq_some_iff.mp h
  obtain rfl : (counted.1, drowptr) = s := Option.some.inj h
  obtain ⟨hparts, hcells⟩ := Scatter.count_sizes hcount
  refine ⟨hparts, ?_⟩
  apply foldlM_range_of_some (fun k t => t.size = ((m.nrRows + 2) * vert).toNat ∧ ∀ p < k, ∀ j ≤ m.nrRows.toNat,
    tileCell m.nrRows (UInt32.ofNat p) (UInt32.ofNat j) < ((m.nrRows + 2) * vert).toNat) _ _ hsum
  · exact ⟨hcells, fun p hp => absurd hp (Nat.not_lt_zero p)⟩
  · intro k _ t u ⟨hsize, hbefore⟩ hstep
    obtain ⟨hkeep, hrows⟩ := normalizeTile_bounds hstep
    refine ⟨hkeep.trans hsize, fun p hp => ?_⟩
    rcases Nat.lt_succ_iff_lt_or_eq.mp hp with hlt | rfl
    · exact hbefore p hlt
    · exact hsize ▸ hrows

/-- an index of the tiles, from a place in them -/
theorem exists_tileCell (nrows : UInt32) {n t : ℕ} (ht : t < n * (nrows.toNat + 1)) :
    ∃ p < n, ∃ j ≤ nrows.toNat, tileCell nrows (UInt32.ofNat p) (UInt32.ofNat j) = t % 2 ^ 32 := by
  have hdivmod := Nat.div_add_mod' t (nrows.toNat + 1)
  refine ⟨t / (nrows.toNat + 1), (Nat.div_lt_iff_lt_mul (Nat.succ_pos _)).mpr ht, t % (nrows.toNat + 1),
    Nat.le_of_lt_succ (Nat.mod_lt _ (Nat.succ_pos _)), ?_⟩
  unfold tileCell
  simp only [UInt32.toNat_add, UInt32.toNat_mul, UInt32.toNat_ofNat', UInt32.toNat_one]
  conv_rhs => rw [← hdivmod]
  simp [Nat.add_mod, Nat.mul_mod]

/-- **A wrapped product** leaves no room for the row pointers of the tiles. -/
theorem room_of_cells {nrows vert : UInt32} (hvert : 1 ≤ vert.toNat)
    (h : ∀ p < vert.toNat, ∀ j ≤ nrows.toNat,
      tileCell nrows (UInt32.ofNat p) (UInt32.ofNat j) < ((nrows + 2) * vert).toNat) :
    (nrows.toNat + 2) * vert.toNat < 2 ^ 32 := by
  by_contra hbig
  have hsize : ((nrows + 2) * vert).toNat = ((nrows.toNat + 2) * vert.toNat) % 2 ^ 32 := by
    rw [UInt32.toNat_mul, UInt32.toNat_add, Nat.mod_mul_mod]
    rfl
  have hlast : ∀ t < vert.toNat * (nrows.toNat + 1), t % 2 ^ 32 < ((nrows.toNat + 2) * vert.toNat) % 2 ^ 32 := by
    intro t ht
    obtain ⟨p, hp, j, hj, hcell⟩ := exists_tileCell nrows ht
    rw [← hcell, ← hsize]
    exact h p hp j hj
  have hv := vert.toNat_lt
  have hsplit : (nrows.toNat + 2) * vert.toNat = vert.toNat * (nrows.toNat + 1) + vert.toNat := by ring
  by_cases hall : 2 ^ 32 ≤ vert.toNat * (nrows.toNat + 1)
  · -- every element there can be is reached
    have hmax := hlast (2 ^ 32 - 1) (by omega)
    have hmod := Nat.mod_lt ((nrows.toNat + 2) * vert.toNat) (show 0 < 2 ^ 32 by norm_num)
    omega
  · -- the array is shorter than the number of tiles
    have hone : vert.toNat ≤ vert.toNat * (nrows.toNat + 1) := Nat.le_mul_of_pos_right _ (Nat.succ_pos _)
    have hfirst := hlast (((nrows.toNat + 2) * vert.toNat) % 2 ^ 32) (by omega)
    rw [Nat.mod_mod] at hfirst
    exact lt_irrefl _ hfirst

/-! ## The arrays that come out -/

section Result

variable {m : CooFormat α} {t : Tiling m}

theorem normalizeTile_eq (t : Tiling m) {p : ℕ} (hp : p < t.vertPartitions.toNat) (b : Buf UInt32) :
    normalizeTile m.nrRows b (UInt32.ofNat p) =
      Buf.exclusiveSum (UInt32.ofNat p * (m.nrRows + 1)).toNat m.nrRows.toNat b := by
  have hpnat : (UInt32.ofNat p).toNat = p := UInt32.toNat_ofNat_of_lt' (hp.trans t.vertPartitions.toNat_lt)
  have hplace : ∀ j : UInt32, j.toNat ≤ m.nrRows.toNat →
      tileCell m.nrRows (UInt32.ofNat p) j = (UInt32.ofNat p * (m.nrRows + 1)).toNat + j.toNat := by
    intro j hj
    have hbase := t.place_toNat (c := UInt32.ofNat p) (j := 0) (hpnat.symm ▸ hp) (Nat.zero_le _)
    rw [UInt32.add_zero, UInt32.toNat_zero, Nat.add_zero] at hbase
    unfold tileCell
    rw [t.place_toNat (hpnat.symm ▸ hp) hj, hbase]
  have hrows : ∀ s : UInt32 × Buf UInt32, (List.range m.nrRows.toNat).foldlM (normalizeRow m.nrRows (UInt32.ofNat p)) s =
      (List.range m.nrRows.toNat).foldlM (fun (s : UInt32 × Buf UInt32) j => do
        let v ← s.2.read ((UInt32.ofNat p * (m.nrRows + 1)).toNat + j)
        let b ← s.2.write ((UInt32.ofNat p * (m.nrRows + 1)).toNat + j) s.1
        pure (s.1 + v, b)) s := by
    apply foldlM_congr
    intro j hj s
    have hlt := List.mem_range.mp hj
    have hjnat : (UInt32.ofNat j).toNat = j := UInt32.toNat_ofNat_of_lt' (hlt.trans m.nrRows.toNat_lt)
    unfold normalizeRow
    rw [hplace _ (hjnat.symm ▸ hlt.le), hjnat]
  unfold normalizeTile Buf.exclusiveSum Buf.scan
  rw [hrows, hplace _ le_rfl]
  rfl

/-- **Where the product fits**, this is the matrix that `Rbdcsr` is about. -/
theorem arrays_refine [Zero α] (junk : ℕ → UInt32) (horz : UInt32) (t : Tiling m) :
    (coo2rbdcsrArrays junk m horz t.vertPartitions).map RBDCSRArrays.toMatrix = coo2rbdcsr junk m horz t.vertPartitions := by
  unfold coo2rbdcsrArrays coo2rbdcsr tilePointers
  simp only [Option.bind_eq_bind, Option.map_bind, Option.bind_assoc, Option.pure_def, Option.bind_some, Function.comp_def,
    Option.map_some]
  congr 1
  funext counted
  rw [foldlM_congr fun p hp b => normalizeTile_eq t (List.mem_range.mp hp) b]
  rfl

/-- the scalars and the arrays of `A`, with the sizes that were allocated -/
structure Tiled (m : CooFormat α) (t : Tiling m) (A : RBDCSRArrays α) : Prop where
  horz : A.horzPartitions = t.horzPartitions
  built : TilesBuilt m t A.toMatrix
  counts_size : A.nnzsPerVertPartition.size = t.vertPartitions.toNat
  drowptr_size : A.drowptr.size = (m.nrRows.toNat + 2) * t.vertPartitions.toNat
  dcolind_size : A.dcolind.size = (m.nnz + 2).toNat
  dval_size : A.dval.size = (m.nnz + 8).toNat

/-- the two arrays that do not depend on what `malloc` has left -/
theorem pointers_of_arrays [Zero α] {junk : ℕ → UInt32} {horz vert : UInt32} {A : RBDCSRArrays α}
    (h : coo2rbdcsrArrays junk m horz vert = some A) : tilePointers m vert = some (A.nnzsPerVertPartition, A.drowptr) := by
  unfold coo2rbdcsrArrays at h
  simp only [Option.bind_eq_bind, Option.bind_eq_some_iff, Option.pure_def, Option.some.injEq] at h
  obtain ⟨pointers, hpointers, b, -, u, -, rfl⟩ := h
  exact hpointers

/-- **Needed**: a run that comes through has its products fit. -/
theorem room_of_arrays [Zero α] {junk : ℕ → UInt32} {horz vert : UInt32} (hvert : 1 ≤ vert.toNat) {A : RBDCSRArrays α}
    (h : coo2rbdcsrArrays junk m horz vert = some A) : (m.nrRows.toNat + 2) * vert.toNat < 2 ^ 32 :=
  room_of_cells hvert (tilePointers_bounds (pointers_of_arrays h)).2.2

theorem tiled_of_arrays [Zero α] {junk : ℕ → UInt32} (hm : InRange m) (hsize : m.elems.length + 8 < 2 ^ 32)
    {A : RBDCSRArrays α} (h : coo2rbdcsrArrays junk m t.horzPartitions t.vertPartitions = some A) : Tiled m t A := by
  obtain ⟨B, hB, hbuilt⟩ := rbdcsr_spec junk t.horzPartitions hm t hsize
  have hmatrix : A.toMatrix = B := by
    rw [← arrays_refine, h] at hB
    exact Option.some.inj hB
  obtain ⟨hcounts, hdrowptr, -⟩ := tilePointers_bounds (pointers_of_arrays h)
  rw [t.size_toNat] at hdrowptr
  unfold coo2rbdcsrArrays at h
  simp only [Option.bind_eq_bind, Option.bind_eq_some_iff, Option.pure_def, Option.some.injEq] at h
  obtain ⟨pointers, -, b, -, u, hfill, rfl⟩ := h
  obtain ⟨hdcolind, hdval⟩ := Scatter.fill_sizes hfill
  exact ⟨rfl, hmatrix ▸ hbuilt, hcounts, hdrowptr, hdcolind, hdval⟩

/-- **When the arrays are large enough**, whatever `malloc` has left in them. -/
theorem arrays_iff [Zero α] (junk : ℕ → UInt32) {horz vert : UInt32} (hm : InRange m) (hvert : 1 ≤ vert.toNat) :
    (∃ A, coo2rbdcsrArrays junk m horz vert = some A) ↔
      (m.nrRows.toNat + 2) * vert.toNat < 2 ^ 32 ∧ m.elems.length + 8 < 2 ^ 32 := by
  constructor
  · rintro ⟨A, h⟩
    have hroom := room_of_arrays hvert h
    refine ⟨hroom, ?_⟩
    rcases eq_or_ne m.elems [] with hnil | hne
    · rw [hnil]
      norm_num
    · have hB := congrArg (Option.map RBDCSRArrays.toMatrix) h
      rw [arrays_refine junk horz ⟨horz, vert, hvert, hroom⟩] at hB
      exact rbdcsr_bounds hm hne ⟨horz, vert, hvert, hroom⟩ hB
  · rintro ⟨hroom, hsize⟩
    obtain ⟨B, hB, -⟩ := rbdcsr_spec junk horz hm ⟨horz, vert, hvert, hroom⟩ hsize
    rw [← arrays_refine] at hB
    obtain ⟨A, hA, -⟩ := Option.map_eq_some_iff.mp hB
    exact ⟨A, hA⟩

namespace Tiled

variable {A B : RBDCSRArrays α}

/-- `(nrows + 1) * npartitions`, in numbers -/
theorem drowptrElems_toNat (t : Tiling m) :
    ((m.nrRows + 1) * t.vertPartitions).toNat = (m.nrRows.toNat + 1) * t.vertPartitions.toNat := by
  have hrows := t.rows_lt
  have hroom := t.room
  have hone : (m.nrRows + 1).toNat = m.nrRows.toNat + 1 := by
    rw [UInt32.toNat_add, UInt32.toNat_one, Nat.mod_eq_of_lt (by omega)]
  rw [UInt32.toNat_mul, hone, Nat.mod_eq_of_lt (by nlinarith)]

/-- row pointer `j` of tile `c` is among these -/
theorem tileCell_lt (t : Tiling m) {c j : UInt32} (hc : c.toNat < t.vertPartitions.toNat) (hj : j.toNat ≤ m.nrRows.toNat) :
    tileCell m.nrRows c j < ((m.nrRows + 1) * t.vertPartitions).toNat := by
  unfold tileCell
  rw [t.place_toNat hc hj, drowptrElems_toNat]
  calc c.toNat * (m.nrRows.toNat + 1) + j.toNat
      < c.toNat * (m.nrRows.toNat + 1) + (m.nrRows.toNat + 1) := Nat.add_lt_add_left (Nat.lt_succ_of_le hj) _
    _ = (c.toNat + 1) * (m.nrRows.toNat + 1) := (Nat.succ_mul _ _).symm
    _ ≤ t.vertPartitions.toNat * (m.nrRows.toNat + 1) := Nat.mul_le_mul_right _ hc
    _ = (m.nrRows.toNat + 1) * t.vertPartitions.toNat := Nat.mul_comm _ _

/-- and they are in the array -/
theorem drowptrElems_le (t : Tiling m) :
    ((m.nrRows + 1) * t.vertPartitions).toNat ≤ (m.nrRows.toNat + 2) * t.vertPartitions.toNat := by
  rw [drowptrElems_toNat]
  exact Nat.mul_le_mul_right _ (Nat.le_succ _)

/-- the entries are in their arrays -/
theorem entries_inside (hA : Tiled m t A) (hsize : m.elems.length + 8 < 2 ^ 32) :
    A.nnz.toNat ≤ A.dcolind.size ∧ A.nnz.toNat ≤ A.dval.size := by
  have hnnz : A.nnz = m.nnz := hA.built.nnz
  have hlen : m.nnz.toNat = m.elems.length := UInt32.toNat_ofNat_of_lt' ((Nat.le_add_right _ _).trans_lt hsize)
  have hadd : ∀ k : UInt32, k.toNat ≤ 8 → m.nnz.toNat ≤ (m.nnz + k).toNat := by
    intro k hk
    rw [UInt32.toNat_add, hlen, Nat.mod_eq_of_lt (by omega)]
    exact Nat.le_add_right _ _
  rw [hnnz, hA.dcolind_size, hA.dval_size]
  exact ⟨hadd 2 (by decide), hadd 8 (by decide)⟩

theorem tiles_cut (hm : InRange m) (t : Tiling m) :
    Cuts (Scatter.startOf (tileOf m t) m.elems) t.vertPartitions.toNat 0 m.elems.length :=
  Scatter.starts_cuts fun _ he => tileOf_lt hm t he

/-- the entries of the tiles lie side by side -/
theorem exists_entry (hm : InRange m) (t : Tiling m) {i : ℕ} (hi : i < m.elems.length) : ∃ c < t.vertPartitions.toNat,
    ∃ k < (tileElems m t c).length, i = Scatter.startOf (tileOf m t) m.elems c + k := by
  obtain ⟨c, ⟨hc, hlo, hhi⟩, -⟩ := (tiles_cut hm t).existsUnique (Nat.zero_le i) hi
  rw [Scatter.startOf_succ] at hhi
  refine ⟨c, hc, i - Scatter.startOf (tileOf m t) m.elems c, ?_, (Nat.add_sub_cancel' hlo).symm⟩
  rw [Scatter.length_block]
  omega

/-- **Every entry was stored**: it does not depend on what `malloc` has left. -/
theorem entries_eq (hm : InRange m) (hA : Tiled m t A) (hB : Tiled m t B) {i : ℕ} (hi : i < m.elems.length) :
    A.dcolind.cell i = B.dcolind.cell i ∧ A.dval.cell i = B.dval.cell i := by
  obtain ⟨c, hc, k, hk, rfl⟩ := exists_entry hm t hi
  obtain ⟨hcolA, hvalA⟩ := hA.built.stored c hc k hk
  obtain ⟨hcolB, hvalB⟩ := hB.built.stored c hc k hk
  exact ⟨hcolA.trans hcolB.symm, hvalA.trans hvalB.symm⟩

/-- the entries of a tile are among those of the matrix -/
theorem start_add_lt (hm : InRange m) (hA : Tiled m t A) {c k : ℕ} (hc : c < t.vertPartitions.toNat)
    (hk : k < A.toMatrix.nnzOf c) : A.toMatrix.start c + k < m.elems.length := by
  have hle := (tiles_cut hm t).le_hi (i := c + 1) hc
  rw [hA.built.counts c hc] at hk
  rw [Scatter.startOf_succ] at hle
  rw [hA.built.start hc]
  omega

end Tiled

end Result

end PimOfis.SpMV
