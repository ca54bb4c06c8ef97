/-
`coo2rbdcsr` (`matrix.h` of SparseP_EW): a sorted COO matrix cut into `vert_partitions` tiles of columns, with CSR on each;
and `spmv_host` (`CSR_host.c`), the product the host computes from it to check the DPUs.

Tile `c` has `nrows + 1` row pointers from `c * (nrows + 1)` on. The first loop counts the entries of a row in the row's own
pointer, the second turns the counts of each tile into the sums before each row, and the third stores the entries tile by
tile in the order of the list. `spmv_host` goes through the tiles and their rows with one counter for the entries: it is
where it should be because the entries are stored in just that order.

Results:
- `rbdcsr_spec`, `rbdcsr_bounds`: what comes out, and what must fit;
- `spmvHost_spec`: what the host computes from tiles whose row pointers are right;
- `rbdcsrExact_iff`: when the matrix and its product are preserved.
-/
import Mathlib.Tactic
import PimOfis.Lib.Scatter
import PimOfis.SpMV.Coo
import PimOfis.SpMV.Csr2D
import PimOfis.SpMV.TileSplit

namespace PimOfis.SpMV

open Lib

variable {α : Type}

/-! ## Model -/

/-- the arguments `horz_partitions` and `vert_partitions` for a matrix -/
structure Tiling (m : CooFormat α) where
  horzPartitions : UInt32
  vertPartitions : UInt32
  vert_pos : 1 ≤ vertPartitions.toNat
  room : (m.nrRows.toNat + 2) * vertPartitions.toNat < 2 ^ 32

/-- `p_col` -/
def pCol (tileWidth : UInt32) (e : Elem α) : UInt32 := e.colIdx / tileWidth

def tileLocalCol (tileWidth : UInt32) (e : Elem α) : UInt32 := e.colIdx - pCol tileWidth e * tileWidth

/-- the index of `drowptr` in the first loop -/
def rowCell (nrows tileWidth : UInt32) (e : Elem α) : UInt32 := pCol tileWidth e * (nrows + 1) + e.rowIdx

/-- `junk` is what `malloc` leaves in `dcolind` -/
def coo2rbdcsr [Zero α] (junk : ℕ → UInt32) (m : CooFormat α) (horzPartitions vertPartitions : UInt32) :
    Option (RBDCSRMatrix α) := do
  let tileWidth := divUp m.nrCols vertPartitions
  let part := fun e : Elem α => (pCol tileWidth e).toNat
  let counted ← Scatter.count part (fun e => (rowCell m.nrRows tileWidth e).toNat) m.elems
    (Buf.zeros vertPartitions.toNat, Buf.zeros ((m.nrRows + 2) * vertPartitions).toNat)
  let drowptr ← (List.range vertPartitions.toNat).foldlM
    (fun r p => Buf.exclusiveSum (UInt32.ofNat p * (m.nrRows + 1)).toNat m.nrRows.toNat r) counted.2
  let globalNnzs : Buf UInt64 ← Scatter.starts UInt32.toUInt64 counted.1 vertPartitions.toNat
  let filled ← Scatter.fill part (tileLocalCol tileWidth) Elem.values globalNnzs m.elems
    (Buf.zeros vertPartitions.toNat, ⟨(m.nnz + 2).toNat, junk⟩, ⟨(m.nnz + 8).toNat, fun _ => 0⟩)
  pure
    { nrows := m.nrRows
      ncols := m.nrCols
      nnz := m.nnz
      npartitions := vertPartitions
      horzPartitions := horzPartitions
      vertPartitions := vertPartitions
      tileWidth := tileWidth
      nnzsPerVertPartition := fun c => counted.1.cell c.toNat
      drowptr := fun i => drowptr.cell i.toNat
      dcolind := filled.2.1.cell
      dval := filled.2.2.cell }

/-- the vector and `total_nnzs` -/
structure HostSum (α : Type) where
  y : UInt32 → α
  totalNnzs : ℕ

section Host

variable [Add α] [Mul α] [Zero α]

/-- `sum += x[col_offset + dcolind[total_nnzs]] * dval[total_nnzs]; total_nnzs++` -/
def hostEntry (A : RBDCSRMatrix α) (x : UInt32 → α) (colOffset : UInt32) (s : α × ℕ) : α × ℕ :=
  (s.1 + x (colOffset + A.dcolind s.2) * A.dval s.2, s.2 + 1)

def hostRow (A : RBDCSRMatrix α) (x : UInt32 → α) (c : UInt32) (s : HostSum α) (rowIndx : UInt32) : HostSum α :=
  let ptrOffset := c * (A.nrows + 1)
  let colOffset := c * A.tileWidth
  let n := (A.drowptr (ptrOffset + rowIndx + 1)).toNat - (A.drowptr (ptrOffset + rowIndx)).toNat
  let sum := (hostEntry A x colOffset)^[n] (0, s.totalNnzs)
  ⟨Function.update s.y rowIndx (s.y rowIndx + sum.1), sum.2⟩

/-- the rows of tile `c`, up to row `n` -/
def hostTile (A : RBDCSRMatrix α) (x : UInt32 → α) (s : HostSum α) (c n : ℕ) : HostSum α :=
  (List.range n).foldl (fun s r => hostRow A x (UInt32.ofNat c) s (UInt32.ofNat r)) s

def spmvHost (A : RBDCSRMatrix α) (x y : UInt32 → α) : UInt32 → α :=
  ((List.range A.vertPartitions.toNat).foldl (fun s c => hostTile A x s c A.nrows.toNat) ⟨y, 0⟩).y

/-- the product, from the list -/
def directSum (m : CooFormat α) (x : UInt32 → α) (r : UInt32) : α :=
  (m.elems.map fun e => if e.row = r.toNat then x e.colIdx * e.values else 0).sum

end Host

/-! ## Reading the tiles back -/

namespace RBDCSRMatrix

variable (A : RBDCSRMatrix α)

/-- row pointer `j` of tile `c` -/
def ptr (c j : ℕ) : ℕ := (A.rowPtr (UInt32.ofNat c) (UInt32.ofNat j)).toNat

def nnzOf (c : ℕ) : ℕ := (A.nnzsPerVertPartition (UInt32.ofNat c)).toNat

/-- where the entries of tile `c` start -/
def start (c : ℕ) : ℕ := ∑ q ∈ Finset.range c, A.nnzOf q

/-- column and value of entry `k` of tile `c` -/
def entry (c k : ℕ) : UInt32 × α := (A.dcolind (A.start c + k), A.dval (A.start c + k))

def triples : List (ℕ × ℕ × α) :=
  (List.range A.vertPartitions.toNat).flatMap fun c =>
    (Csr.decode (A.ptr c) A.nrows.toNat (A.entry c)).map fun t => (t.1, c * A.tileWidth.toNat + t.2.1.toNat, t.2.2)

end RBDCSRMatrix

/-- `A` is the matrix `m`, and the host's product that of the list -/
structure TilesPreserved [AddCommMonoid α] [Mul α] (m : CooFormat α) (A : RBDCSRMatrix α) : Prop where
  triples : A.triples.Perm (m.elems.map Elem.triple)
  /-- the row pointers of every tile run from 0 to its number of entries -/
  valid : A.Valid
  product : ∀ x y r, spmvHost A x y r = y r + directSum m x r

/-- sorting and converting, nothing goes wrong and the matrix is preserved -/
def RbdcsrExact [AddCommMonoid α] [Mul α] (m : CooInput α) (t : Tiling m.toCooFormat) : Prop :=
  ∀ r, SortCooMatrix m.toCooFormat r → ∀ junk, ∃ s A, r = some s ∧
    coo2rbdcsr junk s t.horzPartitions t.vertPartitions = some A ∧ TilesPreserved m.toCooFormat A

/-- the comparator orders the entries, `sortCOOMatrix` counts within an `int`, and `nnz + 8` does not wrap -/
structure RbdcsrFits (m : CooInput α) : Prop where
  consistent : Consistent comparator m.elems
  rows_int : ∀ e ∈ m.elems, e.row < 2 ^ 31
  counts_int : ∀ r, rowCount m.elems r < 2 ^ 31
  nnz : m.elems.length + 8 < 2 ^ 32

/-! ## The host's product -/

section Product

variable [AddCommMonoid α] [Mul α] {A : RBDCSRMatrix α}

/-- what entry `t` of the arrays adds, in a tile whose columns start at `o` -/
def term (A : RBDCSRMatrix α) (x : UInt32 → α) (o : UInt32) (t : ℕ) : α := x (o + A.dcolind t) * A.dval t

theorem hostEntry_iterate (A : RBDCSRMatrix α) (x : UInt32 → α) (o : UInt32) (n : ℕ) (s : α × ℕ) :
    (hostEntry A x o)^[n] s = (s.1 + ((List.range' s.2 n).map (term A x o)).sum, s.2 + n) := by
  induction n generalizing s with
  | zero => simp
  | succ n ih =>
    rw [Function.iterate_succ_apply, ih, List.range'_succ, List.map_cons, List.sum_cons, ← add_assoc]
    refine Prod.ext rfl ?_
    change s.2 + 1 + n = s.2 + (n + 1)
    omega

/-- what row `r` of tile `c` adds up to, with the entries of the tile from `total` on -/
def rowTotal (A : RBDCSRMatrix α) (x : UInt32 → α) (c total r : ℕ) : α :=
  ((List.range' (total + A.ptr c r) (A.ptr c (r + 1) - A.ptr c r)).map (term A x (UInt32.ofNat c * A.tileWidth))).sum

/-- one row -/
theorem hostRow_eq (A : RBDCSRMatrix α) (x : UInt32 → α) {c r total : ℕ} {s : HostSum α} (hs : s.totalNnzs = total + A.ptr c r)
    (hle : A.ptr c r ≤ A.ptr c (r + 1)) : hostRow A x (UInt32.ofNat c) s (UInt32.ofNat r) =
      ⟨Function.update s.y (UInt32.ofNat r) (s.y (UInt32.ofNat r) + rowTotal A x c total r), total + A.ptr c (r + 1)⟩ := by
  have hnext : A.drowptr (UInt32.ofNat c * (A.nrows + 1) + UInt32.ofNat r + 1) = A.rowPtr (UInt32.ofNat c) (UInt32.ofNat (r + 1)) := by
    unfold RBDCSRMatrix.rowPtr
    rw [UInt32.ofNat_add, UInt32.add_assoc]
    rfl
  unfold hostRow
  dsimp only
  rw [hnext, hostEntry_iterate, hs, zero_add]
  congr 1
  change total + A.ptr c r + (A.ptr c (r + 1) - A.ptr c r) = total + A.ptr c (r + 1)
  omega

/-- **One tile** adds to every row what the tile has of it, and leaves the counter behind its entries. -/
theorem hostTile_spec (A : RBDCSRMatrix α) (x : UInt32 → α) {c total n : ℕ} {s : HostSum α} (hs : s.totalNnzs = total)
    (hzero : A.ptr c 0 = 0) (hmono : ∀ r < n, A.ptr c r ≤ A.ptr c (r + 1)) (hn : n < 2 ^ 32) :
    (hostTile A x s c n).totalNnzs = total + A.ptr c n ∧
      ∀ r, (hostTile A x s c n).y r = s.y r + if r.toNat < n then rowTotal A x c total r.toNat else 0 := by
  induction n with
  | zero =>
    refine ⟨by rw [hzero]; exact hs, fun r => ?_⟩
    rw [if_neg (Nat.not_lt_zero _), add_zero]
    rfl
  | succ n ih =>
    obtain ⟨htotal, hy⟩ := ih (fun r hr => hmono r (hr.trans (Nat.lt_succ_self n))) (Nat.lt_of_succ_lt hn)
    have hstep : hostTile A x s c (n + 1) = hostRow A x (UInt32.ofNat c) (hostTile A x s c n) (UInt32.ofNat n) := by
      unfold hostTile
      rw [List.range_succ, List.foldl_append]
      rfl
    have hrow : (UInt32.ofNat n).toNat = n := UInt32.toNat_ofNat_of_lt' (Nat.lt_of_succ_lt hn)
    rw [hstep, hostRow_eq A x htotal (hmono n (Nat.lt_succ_self n))]
    refine ⟨rfl, fun r => ?_⟩
    dsimp only
    by_cases hr : r = UInt32.ofNat n
    · rw [hr, Function.update_self, hy, hrow, if_neg (lt_irrefl n), if_pos (Nat.lt_succ_self n), add_zero]
    · have hne : r.toNat ≠ n := fun heq => hr (UInt32.toNat_inj.mp (heq.trans hrow.symm))
      rw [Function.update_of_ne hr, hy]
      exact congrArg _ (if_congr (by omega) rfl rfl)

/-- **All tiles**: the counter starts each tile where its entries do. -/
theorem hostTiles_spec (A : RBDCSRMatrix α) (x y : UInt32 → α) {C : ℕ} (hzero : ∀ c < C, A.ptr c 0 = 0)
    (hmono : ∀ c < C, ∀ r < A.nrows.toNat, A.ptr c r ≤ A.ptr c (r + 1)) (hlast : ∀ c < C, A.ptr c A.nrows.toNat = A.nnzOf c) :
    ((List.range C).foldl (fun s c => hostTile A x s c A.nrows.toNat) ⟨y, 0⟩).totalNnzs = A.start C ∧
      ∀ r, ((List.range C).foldl (fun s c => hostTile A x s c A.nrows.toNat) ⟨y, 0⟩).y r =
        y r + ((List.range C).map fun c => if r.toNat < A.nrows.toNat then rowTotal A x c (A.start c) r.toNat else 0).sum := by
  induction C with
  | zero => exact ⟨rfl, fun r => (add_zero (y r)).symm⟩
  | succ C ih =>
    have hlt := Nat.lt_succ_self C
    obtain ⟨htotal, hy⟩ := ih (fun c hc => hzero c (hc.trans hlt)) (fun c hc => hmono c (hc.trans hlt))
      (fun c hc => hlast c (hc.trans hlt))
    obtain ⟨htotal', hy'⟩ := hostTile_spec A x htotal (hzero C hlt) (hmono C hlt) A.nrows.toNat_lt
    rw [List.range_succ, List.foldl_append]
    refine ⟨?_, fun r => ?_⟩
    · rw [List.foldl_cons, List.foldl_nil, htotal', hlast C hlt]
      exact (Finset.sum_range_succ _ _).symm
    · rw [List.foldl_cons, List.foldl_nil, hy', hy, List.map_append, List.sum_append, List.map_singleton, List.sum_singleton,
        add_assoc]

/-- a row of a tile, as it is read back -/
theorem rowTotal_eq (A : RBDCSRMatrix α) (x : UInt32 → α) (c r : ℕ) :
    (if r < A.nrows.toNat then rowTotal A x c (A.start c) r else 0) =
      (((Csr.decode (A.ptr c) A.nrows.toNat (A.entry c)).map fun t =>
        (t.1, x (UInt32.ofNat c * A.tileWidth + t.2.1) * t.2.2)).map fun t => if t.1 = r then t.2 else 0).sum := by
  rw [List.map_map]
  refine Eq.trans ?_ (Csr.sum_decode (A.ptr c) A.nrows.toNat (A.entry c)
    (fun t => x (UInt32.ofNat c * A.tileWidth + t.1) * t.2) r).symm
  unfold rowTotal
  rw [← List.map_add_range', List.map_map]
  rfl

/-- **What the host computes** from tiles whose row pointers are right. -/
theorem spmvHost_spec {A : RBDCSRMatrix α} (hvalid : A.Valid) (x y : UInt32 → α) (r : UInt32) :
    spmvHost A x y r = y r + (((List.range A.vertPartitions.toNat).flatMap fun c =>
      (Csr.decode (A.ptr c) A.nrows.toNat (A.entry c)).map fun t =>
        (t.1, x (UInt32.ofNat c * A.tileWidth + t.2.1) * t.2.2)).map fun t => if t.1 = r.toNat then t.2 else 0).sum := by
  have hzero : ∀ c < A.vertPartitions.toNat, A.ptr c 0 = 0 := fun c hc => congrArg UInt32.toNat (hvalid.first c hc)
  have hlast : ∀ c < A.vertPartitions.toNat, A.ptr c A.nrows.toNat = A.nnzOf c := by
    intro c hc
    unfold RBDCSRMatrix.ptr
    rw [UInt32.ofNat_toNat, hvalid.last c hc]
    rfl
  rw [spmvHost, (hostTiles_spec A x y hzero hvalid.sorted hlast).2 r]
  congr 1
  rw [List.map_flatMap, List.flatMap_def, List.sum_flatten, List.map_map]
  congr 1
  apply List.map_congr_left
  intro c _
  exact rowTotal_eq A x c r.toNat

end Product

/-! ## The passes -/

section Passes

variable {m : CooFormat α} {t : Tiling m}

/-- the tile of an entry -/
abbrev tileOf (m : CooFormat α) (t : Tiling m) (e : Elem α) : ℕ := (pCol (divUp m.nrCols t.vertPartitions) e).toNat

abbrev tileElems (m : CooFormat α) (t : Tiling m) (c : ℕ) : List (Elem α) := Scatter.block (tileOf m t) m.elems c

/-- the arrays after the passes -/
structure TilesBuilt (m : CooFormat α) (t : Tiling m) (A : RBDCSRMatrix α) : Prop where
  nrows : A.nrows = m.nrRows
  nnz : A.nnz = m.nnz
  vert : A.vertPartitions = t.vertPartitions
  width : A.tileWidth = divUp m.nrCols t.vertPartitions
  counts : ∀ c < t.vertPartitions.toNat, A.nnzOf c = Scatter.sizeOf (tileOf m t) m.elems c
  ptr : ∀ c < t.vertPartitions.toNat, ∀ j ≤ m.nrRows.toNat, A.ptr c j = Csr.below Elem.row (tileElems m t c) j
  stored : ∀ c < t.vertPartitions.toNat, ∀ k (hk : k < (tileElems m t c).length),
    A.dcolind (Scatter.startOf (tileOf m t) m.elems c + k) = tileLocalCol (divUp m.nrCols t.vertPartitions) (tileElems m t c)[k] ∧
      A.dval (Scatter.startOf (tileOf m t) m.elems c + k) = (tileElems m t c)[k].values

theorem tileOf_eq (t : Tiling m) (e : Elem α) : tileOf m t e = e.colIdx.toNat / (divUp m.nrCols t.vertPartitions).toNat :=
  UInt32.toNat_div _ _

theorem tileOf_lt (hm : InRange m) (t : Tiling m) {e : Elem α} (he : e ∈ m.elems) : tileOf m t e < t.vertPartitions.toNat := by
  rw [tileOf_eq]
  exact index_div_lt t.vert_pos (hm.col_lt e he)

/-- the tiles of row pointers lie below 2^32 -/
theorem Tiling.place_lt (t : Tiling m) {c j : ℕ} (hc : c < t.vertPartitions.toNat) (hj : j ≤ m.nrRows.toNat) :
    c * (m.nrRows.toNat + 1) + j < (m.nrRows.toNat + 2) * t.vertPartitions.toNat := by
  nlinarith

theorem Tiling.rows_lt (t : Tiling m) : m.nrRows.toNat + 2 < 2 ^ 32 := by
  have hroom := t.room
  have hpos := t.vert_pos
  nlinarith

/-- an index of `drowptr`, in numbers -/
theorem Tiling.place_toNat (t : Tiling m) {c j : UInt32} (hc : c.toNat < t.vertPartitions.toNat) (hj : j.toNat ≤ m.nrRows.toNat) :
    (c * (m.nrRows + 1) + j).toNat = c.toNat * (m.nrRows.toNat + 1) + j.toNat := by
  have hrows := t.rows_lt
  have hlt := (t.place_lt hc hj).trans t.room
  have hone : (m.nrRows + 1).toNat = m.nrRows.toNat + 1 := by
    rw [UInt32.toNat_add, UInt32.toNat_one, Nat.mod_eq_of_lt (by omega)]
  have hmul : (c * (m.nrRows + 1)).toNat = c.toNat * (m.nrRows.toNat + 1) := by
    rw [UInt32.toNat_mul, hone, Nat.mod_eq_of_lt (lt_of_le_of_lt (Nat.le_add_right _ _) hlt)]
  rw [UInt32.toNat_add, hmul, Nat.mod_eq_of_lt hlt]

theorem Tiling.size_toNat (t : Tiling m) :
    ((m.nrRows + 2) * t.vertPartitions).toNat = (m.nrRows.toNat + 2) * t.vertPartitions.toNat := by
  have htwo : (m.nrRows + 2).toNat = m.nrRows.toNat + 2 := (UInt32.toNat_add _ _).trans (Nat.mod_eq_of_lt t.rows_lt)
  rw [UInt32.toNat_mul, htwo, Nat.mod_eq_of_lt t.room]

/-- the first loop -/
theorem tilesCounted_spec (hm : InRange m) (t : Tiling m) :
    ∃ s : Buf UInt32 × Buf UInt32, Scatter.count (tileOf m t)
        (fun e => (rowCell m.nrRows (divUp m.nrCols t.vertPartitions) e).toNat) m.elems
        (Buf.zeros t.vertPartitions.toNat, Buf.zeros ((m.nrRows + 2) * t.vertPartitions).toNat) = some s ∧
      s.1.Holds t.vertPartitions.toNat (Scatter.sizeOf (tileOf m t) m.elems) ∧
      s.2.Holds ((m.nrRows.toNat + 2) * t.vertPartitions.toNat)
        (Scatter.sizeOf (fun e => (rowCell m.nrRows (divUp m.nrCols t.vertPartitions) e).toNat) m.elems) := by
  have hcell : ∀ e ∈ m.elems, (rowCell m.nrRows (divUp m.nrCols t.vertPartitions) e).toNat <
      (m.nrRows.toNat + 2) * t.vertPartitions.toNat := by
    intro e he
    have hrow := (hm.row_lt e he).le
    unfold rowCell
    rw [t.place_toNat (tileOf_lt hm t he) hrow]
    exact t.place_lt (tileOf_lt hm t he) hrow
  rw [t.size_toNat]
  obtain ⟨s, hrun, hn, hr⟩ := Scatter.count_spec (γ := UInt32) (fun e he => tileOf_lt hm t he) hcell
    (s := (Buf.zeros t.vertPartitions.toNat, Buf.zeros ((m.nrRows.toNat + 2) * t.vertPartitions.toNat)))
    (Buf.zeros_holds _) (Buf.zeros_holds _)
  exact ⟨s, hrun, hn.congr fun p _ => Nat.zero_add _, hr.congr fun i _ => Nat.zero_add _⟩

/-- the second loop -/
theorem tilesSummed_spec (hm : InRange m) (t : Tiling m) {r : Buf UInt32}
    (hr : r.Holds ((m.nrRows.toNat + 2) * t.vertPartitions.toNat)
      (Scatter.sizeOf (fun e => (rowCell m.nrRows (divUp m.nrCols t.vertPartitions) e).toNat) m.elems)) :
    ∃ r', (List.range t.vertPartitions.toNat).foldlM
        (fun r p => Buf.exclusiveSum (UInt32.ofNat p * (m.nrRows + 1)).toNat m.nrRows.toNat r) r = some r' ∧
      ∀ c < t.vertPartitions.toNat, ∀ j ≤ m.nrRows.toNat,
        (r'.cell (c * (m.nrRows.toNat + 1) + j)).toNat = Csr.below Elem.row (tileElems m t c) j := by
  have hbase : ∀ c < t.vertPartitions.toNat, (UInt32.ofNat c * (m.nrRows + 1)).toNat = c * (m.nrRows.toNat + 1) := by
    intro c hc
    have hnat : (UInt32.ofNat c).toNat = c := UInt32.toNat_ofNat_of_lt' (hc.trans t.vertPartitions.toNat_lt)
    have hplace := t.place_toNat (c := UInt32.ofNat c) (j := 0) (hnat.symm ▸ hc) (Nat.zero_le _)
    rwa [UInt32.add_zero, hnat, UInt32.toNat_zero, Nat.add_zero] at hplace
  obtain ⟨r', hrun, hholds⟩ := Buf.sweep_blockSum (w := m.nrRows.toNat + 1) (d := 0) (Nat.succ_pos _) (Nat.zero_le 1)
    (f := fun r p => Buf.exclusiveSum (UInt32.ofNat p * (m.nrRows + 1)).toNat m.nrRows.toNat r)
    (P := t.vertPartitions.toNat) (by
      intro c hc b n hb
      rw [hbase c hc]
      exact Buf.exclusiveSum_spec hb (t.place_lt hc le_rfl)) hr
  refine ⟨r', hrun, fun c hc j hj => ?_⟩
  have hdiv : (c * (m.nrRows.toNat + 1) + j) / (m.nrRows.toNat + 1) = c := by
    rw [Nat.mul_comm, Nat.mul_add_div (Nat.succ_pos _), Nat.div_eq_of_lt (Nat.lt_succ_of_le hj), Nat.add_zero]
  have hmod : (c * (m.nrRows.toNat + 1) + j) % (m.nrRows.toNat + 1) = j := by
    rw [Nat.mul_comm, Nat.mul_add_mod, Nat.mod_eq_of_lt (Nat.lt_succ_of_le hj)]
  have hsum : Buf.blockSum (Scatter.sizeOf (fun e => (rowCell m.nrRows (divUp m.nrCols t.vertPartitions) e).toNat) m.elems)
      (c * (m.nrRows.toNat + 1)) j = Csr.below Elem.row (tileElems m t c) j := by
    apply Scatter.blockSum_count (tileOf m t) Elem.row (w := m.nrRows.toNat + 1) _ _ (hj.trans (Nat.le_succ _))
    · intro e he
      exact (hm.row_lt e he).trans (Nat.lt_succ_self _)
    · intro e he
      exact t.place_toNat (tileOf_lt hm t he) (hm.row_lt e he).le
  have hcell := hholds.2 _ (t.place_lt hc hj)
  dsimp only at hcell
  rw [hdiv, hmod, if_pos hc, Nat.add_zero j, hsum] at hcell
  rw [hcell]
  apply UInt32.toNat_ofNat_of_lt'
  calc Csr.below Elem.row (tileElems m t c) j
      ≤ (tileElems m t c).length := List.countP_le_length
    _ ≤ m.elems.length := List.length_filter_le _ _
    _ < 2 ^ 32 := hm.fits

theorem toUInt64_ofNat {n : ℕ} (h : n < 2 ^ 32) : (Word.ofNat n : UInt32).toUInt64 = Word.ofNat n := by
  apply UInt64.toNat_inj.mp
  rw [UInt32.toNat_toUInt64]
  exact (UInt32.toNat_ofNat_of_lt' h).trans (UInt64.toNat_ofNat_of_lt' (h.trans (by norm_num))).symm

/-- where the tiles start -/
theorem tileStarts_spec (hm : InRange m) (t : Tiling m) {n : Buf UInt32}
    (hn : n.Holds t.vertPartitions.toNat (Scatter.sizeOf (tileOf m t) m.elems)) :
    ∃ b : Buf UInt64, Scatter.starts UInt32.toUInt64 n t.vertPartitions.toNat = some b ∧
      b.Holds t.vertPartitions.toNat (Scatter.startOf (tileOf m t) m.elems) :=
  Scatter.starts_spec _ hn fun _ _ => toUInt64_ofNat (List.countP_le_length.trans_lt hm.fits)

/-- **All loops**, where the arrays have their sizes. -/
theorem rbdcsr_spec [Zero α] (junk : ℕ → UInt32) (horz : UInt32) (hm : InRange m) (t : Tiling m) (hsize : m.elems.length + 8 < 2 ^ 32) :
    ∃ A, coo2rbdcsr junk m horz t.vertPartitions = some A ∧ TilesBuilt m t A := by
  have hnnz : m.nnz.toNat = m.elems.length := UInt32.toNat_ofNat_of_lt' hm.fits
  have hcap : ∀ k : UInt32, k.toNat ≤ 8 → m.elems.length ≤ (m.nnz + k).toNat := by
    intro k hk
    rw [UInt32.toNat_add, hnnz, Nat.mod_eq_of_lt (by omega)]
    exact Nat.le_add_right _ _
  obtain ⟨s, hcount, hn, hr⟩ := tilesCounted_spec hm t
  obtain ⟨r, hsum, hptr⟩ := tilesSummed_spec hm t hr
  obtain ⟨b, hstart, hb⟩ := tileStarts_spec hm t hn
  obtain ⟨u, hfill, hu⟩ := Scatter.fill_spec (f := tileLocalCol (divUp m.nrCols t.vertPartitions)) (g := Elem.values)
    (fun e he => tileOf_lt hm t he) (hm.fits.le.trans (by norm_num [Word.card])) hb (c := ⟨(m.nnz + 2).toNat, junk⟩)
    (v := ⟨(m.nnz + 8).toNat, fun _ => 0⟩) (hcap 2 (by decide)) (hcap 8 (by decide))
  refine ⟨⟨m.nrRows, m.nrCols, m.nnz, t.vertPartitions, horz, t.vertPartitions, divUp m.nrCols t.vertPartitions,
    fun c => s.1.cell c.toNat, fun i => r.cell i.toNat, u.2.1.cell, u.2.2.cell⟩, ?_, rfl, rfl, rfl, rfl, ?_, ?_, hu.stored⟩
  · unfold coo2rbdcsr
    dsimp only
    rw [hcount, Option.bind_eq_bind, Option.bind_some, hsum, Option.bind_eq_bind, Option.bind_some, hstart,
      Option.bind_eq_bind, Option.bind_some, hfill]
    rfl
  · intro c hc
    have hnat : (UInt32.ofNat c).toNat = c := UInt32.toNat_ofNat_of_lt' (hc.trans t.vertPartitions.toNat_lt)
    unfold RBDCSRMatrix.nnzOf
    dsimp only
    rw [hnat, hn.2 c hc]
    exact UInt32.toNat_ofNat_of_lt' (List.countP_le_length.trans_lt hm.fits)
  · intro c hc j hj
    have hcnat : (UInt32.ofNat c).toNat = c := UInt32.toNat_ofNat_of_lt' (hc.trans t.vertPartitions.toNat_lt)
    have hjnat : (UInt32.ofNat j).toNat = j := UInt32.toNat_ofNat_of_lt' (hj.trans_lt m.nrRows.toNat_lt)
    unfold RBDCSRMatrix.ptr RBDCSRMatrix.rowPtr
    dsimp only
    rw [t.place_toNat (hcnat.symm ▸ hc) (hjnat.symm ▸ hj), hcnat, hjnat, hptr c hc j hj]

/-- **A run that comes through** has its arrays large enough. -/
theorem rbdcsr_bounds [Zero α] {junk : ℕ → UInt32} {horz : UInt32} (hm : InRange m) (hne : m.elems ≠ []) (t : Tiling m)
    {A : RBDCSRMatrix α} (h : coo2rbdcsr junk m horz t.vertPartitions = some A) : m.elems.length + 8 < 2 ^ 32 := by
  unfold coo2rbdcsr at h
  obtain ⟨s, hcount, h⟩ := Option.bind_eq_some_iff.mp h
  obtain ⟨r, -, h⟩ := Option.bind_eq_some_iff.mp h
  obtain ⟨b, hstart, h⟩ := Option.bind_eq_some_iff.mp h
  obtain ⟨u, hfill, -⟩ := Option.bind_eq_some_iff.mp h
  obtain ⟨s', hcount', hn, -⟩ := tilesCounted_spec hm t
  obtain rfl : s' = s := Option.some.inj (hcount'.symm.trans hcount)
  obtain ⟨b', hstart', hb⟩ := tileStarts_spec hm t hn
  obtain rfl : b' = b := Option.some.inj (hstart'.symm.trans hstart)
  obtain ⟨-, hcap⟩ := Scatter.fill_bounds (fun e he => tileOf_lt hm t he) (hm.fits.le.trans (by norm_num [Word.card])) hb hfill
  have hnnz : m.nnz.toNat = m.elems.length := UInt32.toNat_ofNat_of_lt' hm.fits
  have hadd : (m.nnz + 8).toNat = (m.elems.length + 8) % 2 ^ 32 := hnnz ▸ UInt32.toNat_add m.nnz 8
  have hpos := List.length_pos_iff.mpr hne
  have hfits := hm.fits
  dsimp only at hcap
  rw [hadd] at hcap
  omega

end Passes

/-! ## What the tiles hold -/

namespace TilesBuilt

variable {m : CooFormat α} {t : Tiling m} {A : RBDCSRMatrix α}

theorem start (h : TilesBuilt m t A) {c : ℕ} (hc : c < t.vertPartitions.toNat) :
    A.start c = Scatter.startOf (tileOf m t) m.elems c := by
  apply Finset.sum_congr rfl
  intro q hq
  exact h.counts q ((Finset.mem_range.mp hq).trans hc)

theorem entry (h : TilesBuilt m t A) {c : ℕ} (hc : c < t.vertPartitions.toNat) {k : ℕ} (hk : k < (tileElems m t c).length) :
    A.entry c k = (tileLocalCol (divUp m.nrCols t.vertPartitions) (tileElems m t c)[k], (tileElems m t c)[k].values) := by
  obtain ⟨hcol, hval⟩ := h.stored c hc k hk
  unfold RBDCSRMatrix.entry
  rw [h.start hc, hcol, hval]

/-- whatever is made of the rows and the entries of the tiles, it is made of the list -/
theorem perm {τ : Type} (h : TilesBuilt m t A) (hm : InRange m) (hs : m.elems.Pairwise fun a b => a.row ≤ b.row)
    (back : ℕ → ℕ × UInt32 × α → τ) {f : Elem α → τ}
    (hback : ∀ e ∈ m.elems, back (tileOf m t e) (e.row, tileLocalCol (divUp m.nrCols t.vertPartitions) e, e.values) = f e) :
    ((List.range A.vertPartitions.toNat).flatMap fun c =>
      (Csr.decode (A.ptr c) A.nrows.toNat (A.entry c)).map (back c)).Perm (m.elems.map f) := by
  rw [h.vert, h.nrows]
  exact Scatter.blocks_perm (tileOf m t) (r := Elem.row)
    (g := fun e => (tileLocalCol (divUp m.nrCols t.vertPartitions) e, e.values)) (fun e he => tileOf_lt hm t he) hm.row_lt
    (fun c _ => hs.filter _) h.ptr (fun c hc k hk => h.entry hc hk) hback

theorem valid (h : TilesBuilt m t A) (hm : InRange m) : A.Valid where
  sorted c hc r hr := by
    rw [h.vert] at hc
    rw [h.nrows] at hr
    have hj := h.ptr c hc r hr.le
    have hnext := h.ptr c hc (r + 1) hr
    unfold RBDCSRMatrix.ptr at hj hnext
    rw [hj, hnext]
    exact Csr.below_mono _ _ (Nat.le_succ r)
  first c hc := by
    rw [h.vert] at hc
    apply UInt32.toNat_inj.mp
    exact (h.ptr c hc 0 (Nat.zero_le _)).trans (Csr.below_zero _ _)
  last c hc := by
    rw [h.vert] at hc
    have hlast := h.ptr c hc _ le_rfl
    rw [Csr.below_top fun e he => hm.row_lt e (Scatter.mem_block.mp he).1, Scatter.length_block, ← h.counts c hc] at hlast
    apply UInt32.toNat_inj.mp
    unfold RBDCSRMatrix.ptr at hlast
    rwa [UInt32.ofNat_toNat, ← h.nrows] at hlast
  total := by
    rw [h.vert, h.nnz]
    calc ∑ c ∈ Finset.range t.vertPartitions.toNat, A.nnzOf c
        = Scatter.startOf (tileOf m t) m.elems t.vertPartitions.toNat :=
          Finset.sum_congr rfl fun c hc => h.counts c (Finset.mem_range.mp hc)
      _ = m.elems.length := (Scatter.starts_cuts fun e he => tileOf_lt hm t he).last
      _ = m.nnz.toNat := (UInt32.toNat_ofNat_of_lt' hm.fits).symm

theorem triples (h : TilesBuilt m t A) (hm : InRange m) (hs : m.elems.Pairwise fun a b => a.row ≤ b.row) :
    A.triples.Perm (m.elems.map Elem.triple) := by
  unfold RBDCSRMatrix.triples
  refine h.perm hm hs (fun c t => (t.1, c * A.tileWidth.toNat + t.2.1.toNat, t.2.2)) fun e _ => ?_
  have hcol : (tileLocalCol (divUp m.nrCols t.vertPartitions) e).toNat =
      e.colIdx.toNat % (divUp m.nrCols t.vertPartitions).toNat := toNat_sub_div_mul _ _
  have hdivmod := Nat.div_add_mod' e.colIdx.toNat (divUp m.nrCols t.vertPartitions).toNat
  simp only [h.width, tileOf_eq, hcol, hdivmod]
  rfl

/-- **The product**: tile by tile, row by row, as from the list. -/
theorem product [AddCommMonoid α] [Mul α] (h : TilesBuilt m t A) (hm : InRange m)
    (hs : m.elems.Pairwise fun a b => a.row ≤ b.row) (x y : UInt32 → α) (r : UInt32) :
    spmvHost A x y r = y r + directSum m x r := by
  have hperm := h.perm hm hs (fun c t => (t.1, x (UInt32.ofNat c * A.tileWidth + t.2.1) * t.2.2))
    (f := fun e => (e.row, x e.colIdx * e.values)) (by
      intro e _
      have hcol : UInt32.ofNat (tileOf m t e) * A.tileWidth + tileLocalCol (divUp m.nrCols t.vertPartitions) e = e.colIdx := by
        unfold tileLocalCol tileOf
        rw [UInt32.ofNat_toNat, h.width]
        grind
      dsimp only
      rw [hcol])
  rw [spmvHost_spec (h.valid hm) x y r, (hperm.map _).sum_eq, List.map_map]
  rfl

end TilesBuilt

/-! ## Sorting and converting -/

/-- the rows of the list are counted -/
theorem sumRows_spec {rows : Buf UInt32} {P : ℕ} {n : ℕ → ℕ} {R : ℕ} (hrows : rows.Holds R n) (hP : P ≤ R) :
    sumRows rows P = some (UInt32.ofNat (∑ r ∈ Finset.range P, n r)) := by
  unfold sumRows
  induction P with
  | zero => rfl
  | succ P ih =>
    rw [List.range_succ, List.foldlM_append, ih (Nat.le_of_succ_le hP), Finset.sum_range_succ, UInt32.ofNat_add]
    simp only [Option.bind_eq_bind, Option.bind_some, List.foldlM_cons, List.foldlM_nil, Buf.read_holds hrows hP]
    rfl

section Exact

variable [AddCommMonoid α] [Mul α] {m : CooInput α} {t : Tiling m.toCooFormat}

/-- the tiling is one for the sorted matrix as well -/
def Tiling.sorted (t : Tiling m.toCooFormat) (rows : Buf UInt32) (A : List (Elem α)) :
    Tiling { m.toCooFormat with nnzOfRows := rows, elems := A } := ⟨t.horzPartitions, t.vertPartitions, t.vert_pos, t.room⟩

/-- **Enough.** -/
theorem RbdcsrFits.exact (h : RbdcsrFits m) (t : Tiling m.toCooFormat) : RbdcsrExact m t := by
  rintro r ⟨q, hq, rfl⟩ junk
  obtain ⟨A, rfl, hperm, hsorted⟩ := hq h.consistent
  have hrows := rows_sorted hsorted
  have hlen := hperm.length_eq
  have hne : A ≠ [] := fun hnil => m.nonempty (List.Perm.nil_eq (hnil ▸ hperm)).symm
  obtain ⟨rows, hcount, hholds⟩ := countRows_spec unsignedSucc (fun i _ => rfl) hne
    (fun e he => m.row_lt e (hperm.mem_iff.mp he)) (fun e he => h.rows_int e (hperm.mem_iff.mp he)) hrows
    (fun r => (hperm.countP_eq _).trans_lt (h.counts_int r)) m.counts
  have hsum : sumRows rows m.nrRows.toNat = some m.nnz := by
    have hall : ∑ r ∈ Finset.range m.nrRows.toNat, rowCount A r = A.length := by
      refine (Csr.sum_count Elem.row A m.nrRows.toNat).trans (List.countP_eq_length.mpr ?_)
      intro e he
      exact decide_eq_true (m.row_lt e (hperm.mem_iff.mp he))
    rw [sumRows_spec hholds le_rfl, hall, hlen]
    rfl
  have hm := inRange_of_perm hperm rows
  obtain ⟨B, hrun, hbuilt⟩ := rbdcsr_spec junk t.horzPartitions hm (t.sorted rows A)
    (lt_of_eq_of_lt (congrArg (· + 8) hlen) h.nnz)
  refine ⟨{ m.toCooFormat with nnzOfRows := rows, elems := A }, B, ?_, hrun, ?_⟩
  · rw [Option.bind_some, hcount, Option.bind_eq_bind, Option.bind_some, hsum, Option.bind_eq_bind, Option.bind_some]
    exact if_pos rfl
  · refine ⟨(hbuilt.triples hm hrows).trans (hperm.map _), hbuilt.valid hm, fun x y r => ?_⟩
    rw [hbuilt.product hm hrows x y r]
    exact congrArg _ (hperm.map _).sum_eq

/-- **Needed.** -/
theorem RbdcsrExact.fits (h : RbdcsrExact m t) : RbdcsrFits m := by
  have hconsistent : Consistent comparator m.elems := by
    by_contra hnot
    obtain ⟨s, B, hr, -⟩ := h none ⟨none, fun hyes => absurd hyes hnot, rfl⟩ fun _ => 0
    cases hr
  obtain ⟨A, hq⟩ := exists_qsort hconsistent
  obtain ⟨A', hA', hperm, hsorted⟩ := hq hconsistent
  obtain rfl : A = A' := Option.some.inj hA'
  obtain ⟨s, B, hs, hrun, -⟩ := h _ ⟨some A, hq, rfl⟩ fun _ => 0
  rw [Option.bind_some] at hs
  obtain ⟨rows, hcount, hs⟩ := Option.bind_eq_some_iff.mp hs
  obtain ⟨total, -, hs⟩ := Option.bind_eq_some_iff.mp hs
  split_ifs at hs
  obtain rfl := Option.some.inj hs
  have hne : A ≠ [] := fun hnil => m.nonempty (List.Perm.nil_eq (hnil ▸ hperm)).symm
  have hnext : ∀ i j, unsignedSucc i = some j → j = i + 1 := fun i j hij => (Option.some.inj hij).symm
  obtain ⟨hrows, hcounts, -⟩ := countRows_bounds hnext (rows_sorted hsorted) hcount
  have hbound := rbdcsr_bounds (inRange_of_perm hperm rows) hne (t.sorted rows A) hrun
  exact ⟨hconsistent, fun e he => hrows e (hperm.mem_iff.mpr he), fun r => (hperm.countP_eq _).symm.trans_lt (hcounts r),
    lt_of_eq_of_lt (congrArg (· + 8) hperm.length_eq.symm) hbound⟩

/-- **When the matrix and its product are preserved.** -/
theorem rbdcsrExact_iff (m : CooInput α) (t : Tiling m.toCooFormat) : RbdcsrExact m t ↔ RbdcsrFits m :=
  ⟨RbdcsrExact.fits, fun h => h.exact t⟩

end Exact

/-- four rows of one column, each with `n` entries -/
def fourRows (n : ℕ) (hpos : 0 < n) (hn : 4 * n < 2 ^ 32) : CooInput ℤ where
  nrRows := 4
  nrCols := 1
  nnzOfRows := Buf.zeros 4
  elems := (List.range 4).flatMap fun r => List.replicate n ⟨UInt32.ofNat r, 0, 1⟩
  nonempty := by
    intro hnil
    have hrow := List.flatMap_eq_nil_iff.mp hnil 0 (by decide)
    exact hpos.ne' ((List.replicate_eq_nil_iff _).mp hrow)
  fits := by
    simp [List.length_flatMap]
    omega
  row_lt := by
    intro e he
    obtain ⟨r, hr, he⟩ := List.mem_flatMap.mp he
    rw [List.eq_of_mem_replicate he]
    have hlt : r < 4 := List.mem_range.mp hr
    interval_cases r <;> decide
  col_lt := by
    intro e he
    obtain ⟨r, hr, he⟩ := List.mem_flatMap.mp he
    rw [List.eq_of_mem_replicate he]
    exact Nat.zero_lt_one
  counts := Buf.zeros_holds 4

theorem length_fourRows {n : ℕ} (hpos : 0 < n) (hn : 4 * n < 2 ^ 32) : (fourRows n hpos hn).elems.length = 4 * n := by
  unfold fourRows
  simp [List.length_flatMap]
  omega

/-- 2^30 - 2 entries in each row: `nnz + 8` is 0, and `dval` has room for none of the 2^32 - 8 values -/
theorem fourRows_overflow :
    ¬ RbdcsrExact (fourRows (2 ^ 30 - 2) (by decide) (by decide)) ⟨1, 1, by decide, by decide⟩ := by
  intro h
  have hnnz := h.fits.nnz
  rw [length_fourRows] at hnnz
  norm_num at hnnz

end PimOfis.SpMV
