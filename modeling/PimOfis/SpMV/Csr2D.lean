/-
`COO_to_CSR_2D` (`types.h` of SpMV_OFIS and of SparseP_ES): a sorted COO matrix cut into `nr_horiz * nr_vert` parts, with
CSR on each.

Part `p` has `height + 1` row pointers from `p * (height + 1)` on, and its entries lie behind those of the parts before it.
Three passes write them: the first counts the entries of each part and of each of its rows, the second adds the counts of
each part up, the third stores the entries in the order of the list. That is the order of rows if the list is sorted by
rows.

The copies differ in what they allocate for `values`: SpMV_OFIS takes `nnz` times the size of a `float`, whatever `val_dt`
is, SparseP_ES ten million elements more than `nnz`.

Results:
- `csr2d_spec`: what comes out of a list sorted by rows, where everything is in bounds;
- `csr2dExact_iff`: when the matrix is preserved.
-/
import Mathlib.Tactic
import PimOfis.Lib.Scatter
import PimOfis.SpMV.Coo
import PimOfis.SpMV.TaskletSplit

namespace PimOfis.SpMV

open Lib

variable {α : Type}

/-! ## Model -/

structure Csr2DFormat (α : Type) where
  nrRows : UInt32
  nrCols : UInt32
  nnz : UInt32
  rowPtr : Buf UInt32
  colIdx : Buf UInt32
  values : Buf α
  nrHoriz : UInt32
  nrVert : UInt32
  nrPart : UInt32
  height : UInt32
  width : UInt32
  nnzPerPart : Buf UInt32

/-- the arguments `nr_horiz` and `nr_vert` -/
structure Grid where
  nrHoriz : UInt32
  nrVert : UInt32
  horiz_pos : 1 ≤ nrHoriz.toNat
  vert_pos : 1 ≤ nrVert.toNat
  fits : nrHoriz.toNat * nrVert.toNat < 2 ^ 32

/-- `n / k`, and one more for a remainder -/
def divUp (n k : UInt32) : UInt32 := if n % k ≠ 0 then n / k + 1 else n / k

/-- what the indices are computed from -/
structure Layout where
  nrVert : UInt32
  height : UInt32
  width : UInt32

namespace Layout

variable (l : Layout)

def pIdx (e : Elem α) : UInt32 := e.rowIdx / l.height * l.nrVert + e.colIdx / l.width

def localRow (e : Elem α) : UInt32 := e.rowIdx - e.rowIdx / l.height * l.height

def localCol (e : Elem α) : UInt32 := e.colIdx - e.colIdx / l.width * l.width

/-- `cal_idx` of the first loop -/
def calIdx (e : Elem α) : UInt64 := (l.pIdx e).toUInt64 * (l.height + 1).toUInt64 + (l.localRow e).toUInt64 + 1

/-- `cal_idx` of the second loop for `j = 0`; what is added for other `j` stays below 2^64 -/
def rowBase (i : UInt32) : UInt64 := i.toUInt64 * (l.height + 1).toUInt64

end Layout

/-- `max_nnz`: the entries of the largest part, rounded up to an even number -/
def maxNnz (nnzPerPart : Buf UInt32) (nrPart : ℕ) : Option UInt32 :=
  (List.range nrPart).foldlM (fun max i => do
    let n ← nnzPerPart.read i
    let nnzPad := if n % 2 ≠ 0 then n + 1 else n
    pure (if nnzPad > max then nnzPad else max)) 0

/-- `total_bytes` -/
def totalBytes (height width maxNnz : UInt32) : UInt64 :=
  let maxRow := if (height + 1) % 2 ≠ 0 then height + 1 + 1 else height + 1
  let widthPad := if width % 2 ≠ 0 then width + 1 else width
  maxRow.toUInt64 * 4 + maxNnz.toUInt64 * 4 * 2 + widthPad.toUInt64 * 4

/-- where the copies differ: the elements they allocate for `col_idx` and for `values`, and `scale_factor` -/
structure Variant where
  colCap : UInt32 → ℕ
  valCap : UInt32 → ℕ
  /-- from `total_bytes` and `nr_part` -/
  scale : UInt64 → UInt32 → UInt32

/-- the matrix and `scale_factor` -/
def cooToCsr2DWith [Zero α] (k : Variant) (m : CooFormat α) (nrHoriz nrVert : UInt32) : Option (Csr2DFormat α × UInt32) := do
  let nrPart := nrHoriz * nrVert
  let height := divUp m.nrRows nrHoriz
  let width := divUp m.nrCols nrVert
  let l : Layout := ⟨nrVert, height, width⟩
  let part := fun e : Elem α => (l.pIdx e).toNat
  let rowPtrSize := (height + 2).toUInt64 * nrPart.toUInt64
  let counted ← Scatter.count part (fun e => (l.calIdx e).toNat) m.elems (Buf.zeros nrPart.toNat, Buf.zeros rowPtrSize.toNat)
  let rowPtr ← (List.range nrPart.toNat).foldlM
    (fun r i => Buf.runningSum (l.rowBase (UInt32.ofNat i)).toNat (height.toNat + 1) r) counted.2
  let nnzIdx : Buf UInt32 ← Scatter.starts id counted.1 nrPart.toNat
  let max ← maxNnz counted.1 nrPart.toNat
  let filled ← Scatter.fill part l.localCol Elem.values nnzIdx m.elems
    (Buf.zeros nrPart.toNat, ⟨k.colCap m.nnz, fun _ => 0⟩, ⟨k.valCap m.nnz, fun _ => 0⟩)
  pure (⟨m.nrRows, m.nrCols, m.nnz, rowPtr, filled.2.1, filled.2.2, nrHoriz, nrVert, nrPart, height, width, counted.1⟩,
    k.scale (totalBytes height width max) nrPart)

/-- `calloc(nnz, sizeof(float))` holds this many values of type `v` -/
def floatsFor (v : ValDt) (nnz : UInt32) : ℕ := nnz.toNat * 4 / v.byteDt.toNat

/-- `COO_to_CSR_2D` of SpMV_OFIS -/
def cooToCsr2DOfis [Zero α] (v : ValDt) : CooFormat α → UInt32 → UInt32 → Option (Csr2DFormat α × UInt32) :=
  cooToCsr2DWith ⟨UInt32.toNat, floatsFor v, fun totalBytes _ => (totalBytes / ((8 : UInt64) <<< 20) + 1).toUInt32⟩

/-- `COO_to_CSR_2D` of SparseP_ES -/
def cooToCsr2DEs [Zero α] : CooFormat α → UInt32 → UInt32 → Option (Csr2DFormat α × UInt32) :=
  cooToCsr2DWith ⟨fun nnz => (nnz + 10000000).toNat, fun nnz => (nnz + 10000000).toNat, fun _ nrPart => nrPart / 1024⟩

inductive Copy where
  | ofis | es

def cooToCsr2D [Zero α] (v : ValDt) : Copy → CooFormat α → UInt32 → UInt32 → Option (Csr2DFormat α × UInt32)
  | .ofis => cooToCsr2DOfis v
  | .es => cooToCsr2DEs

/-! ## Reading the parts back -/

namespace Csr2DFormat

variable (c : Csr2DFormat α)

def layout : Layout := ⟨c.nrVert, c.height, c.width⟩

/-- row pointer `j` of part `p` -/
def ptr (p j : ℕ) : ℕ := (c.rowPtr.cell (p * (c.height.toNat + 1) + j)).toNat

def nnzOf (p : ℕ) : ℕ := (c.nnzPerPart.cell p).toNat

/-- where the entries of part `p` start -/
def start (p : ℕ) : ℕ := ∑ q ∈ Finset.range p, c.nnzOf q

/-- column and value of entry `k` of part `p` -/
def entry (p k : ℕ) : ℕ × α := ((c.colIdx.cell (c.start p + k)).toNat, c.values.cell (c.start p + k))

/-- the triples of part `p`, at `i * height` and `j * width` -/
def partTriples (p : ℕ) : List (ℕ × ℕ × α) :=
  (Csr.decode (c.ptr p) c.height.toNat (c.entry p)).map fun t =>
    (p / c.nrVert.toNat * c.height.toNat + t.1, p % c.nrVert.toNat * c.width.toNat + t.2.1, t.2.2)

def triples : List (ℕ × ℕ × α) := (List.range c.nrPart.toNat).flatMap c.partTriples

end Csr2DFormat

/-- `c` is the matrix `m` -/
structure Preserved (m : CooFormat α) (c : Csr2DFormat α) : Prop where
  triples : c.triples.Perm (m.elems.map Elem.triple)
  local_lt : ∀ e ∈ m.elems, (c.layout.localRow e).toNat < c.height.toNat ∧ (c.layout.localCol e).toNat < c.width.toNat
  col_lt : ∀ p < c.nrPart.toNat, ∀ k < c.nnzOf p, (c.entry p k).1 < c.width.toNat
  first : ∀ p < c.nrPart.toNat, c.ptr p 0 = 0
  mono : ∀ p < c.nrPart.toNat, ∀ j < c.height.toNat, c.ptr p j ≤ c.ptr p (j + 1)
  last : ∀ p < c.nrPart.toNat, c.ptr p c.height.toNat = c.nnzOf p

/-- sorting and converting, nothing goes wrong and the matrix is preserved -/
def Csr2DExact [Zero α] (k : Copy) (v : ValDt) (m : CooInput α) (g : Grid) : Prop :=
  ∀ r, SortCoo m.toCooFormat r → ∃ s c scale, r = some s ∧ cooToCsr2D v k s g.nrHoriz g.nrVert = some (c, scale) ∧
    Preserved m.toCooFormat c

/-- the comparator orders the entries, `sort_COO` counts within an `int`, and the arrays have their sizes -/
structure Csr2DFits (k : Copy) (v : ValDt) (m : CooInput α) (g : Grid) : Prop where
  consistent : Consistent comparator m.elems
  nnz_int : m.elems.length < 2 ^ 31
  rows_int : ∀ e ∈ m.elems, e.row < 2 ^ 31
  height : (divUp m.nrRows g.nrHoriz).toNat + 2 < 2 ^ 32
  values : k = .ofis → v.byteDt.toNat ≤ 4

/-! ## Indices -/

section Indices

theorem le_divUp_mul (n : UInt32) {k : UInt32} (hk : 1 ≤ k.toNat) : n.toNat ≤ (divUp n k).toNat * k.toNat := by
  have hdivmod := Nat.div_add_mod' n.toNat k.toNat
  have hmod := Nat.mod_lt n.toNat hk
  unfold divUp
  split_ifs with hrem
  · have hrem' : n.toNat % k.toNat ≠ 0 := by
      intro hzero
      apply hrem
      apply UInt32.toNat_inj.mp
      rw [UInt32.toNat_mod]
      exact hzero
    have hlt : n.toNat / k.toNat + 1 < 2 ^ 32 := by
      have hn := n.toNat_lt
      have htwo : 2 ≤ k.toNat := by
        by_contra hlt
        have hone : k.toNat = 1 := by omega
        rw [hone, Nat.mod_one] at hrem'
        exact hrem' rfl
      have hhalf : n.toNat / k.toNat ≤ n.toNat / 2 := Nat.div_le_div_left htwo (by norm_num)
      omega
    rw [UInt32.toNat_add, UInt32.toNat_div, UInt32.toNat_one, Nat.mod_eq_of_lt hlt, Nat.add_mul]
    omega
  · rw [UInt32.toNat_div]
    have hzero : n.toNat % k.toNat = 0 := by
      have heq : n % k = 0 := not_not.mp hrem
      have htoNat := congrArg UInt32.toNat heq
      rwa [UInt32.toNat_mod] at htoNat
    omega

variable {m : CooFormat α} {g : Grid} {e : Elem α}

/-- the layout for a matrix -/
abbrev layoutFor (m : CooFormat α) (g : Grid) : Layout := ⟨g.nrVert, divUp m.nrRows g.nrHoriz, divUp m.nrCols g.nrVert⟩

theorem Grid.nrPart_toNat (g : Grid) : (g.nrHoriz * g.nrVert).toNat = g.nrHoriz.toNat * g.nrVert.toNat := by
  rw [UInt32.toNat_mul, Nat.mod_eq_of_lt g.fits]

/-- an index in range is in one of the parts -/
theorem index_div_lt {n k : UInt32} (hk : 1 ≤ k.toNat) {i : ℕ} (hi : i < n.toNat) : i / (divUp n k).toNat < k.toNat :=
  Nat.div_lt_of_lt_mul (hi.trans_le (le_divUp_mul n hk))

theorem divUp_pos {n k : UInt32} (hk : 1 ≤ k.toNat) {i : ℕ} (hi : i < n.toNat) : 0 < (divUp n k).toNat := by
  by_contra hzero
  have hle := le_divUp_mul n hk
  rw [Nat.eq_zero_of_not_pos hzero, Nat.zero_mul] at hle
  omega

/-- the rest of a division in 32 bits -/
theorem toNat_sub_div_mul (x y : UInt32) : (x - x / y * y).toNat = x.toNat % y.toNat := by
  have hle := Nat.div_mul_le_self x.toNat y.toNat
  have hmul : (x / y * y).toNat = x.toNat / y.toNat * y.toNat := by
    rw [UInt32.toNat_mul, UInt32.toNat_div, Nat.mod_eq_of_lt (hle.trans_lt x.toNat_lt)]
  rw [UInt32.toNat_sub_of_le _ _ (UInt32.le_iff_toNat_le.mpr (hmul ▸ hle)), hmul]
  have hdivmod := Nat.div_add_mod' x.toNat y.toNat
  omega

theorem localRow_toNat (l : Layout) (e : Elem α) : (l.localRow e).toNat = e.row % l.height.toNat := toNat_sub_div_mul _ _

theorem localCol_toNat (l : Layout) (e : Elem α) : (l.localCol e).toNat = e.colIdx.toNat % l.width.toNat := toNat_sub_div_mul _ _

/-- the part of an entry, in numbers -/
theorem pIdx_toNat (hrow : e.row < m.nrRows.toNat) (hcol : e.colIdx.toNat < m.nrCols.toNat) :
    ((layoutFor m g).pIdx e).toNat =
      e.row / (layoutFor m g).height.toNat * g.nrVert.toNat + e.colIdx.toNat / (layoutFor m g).width.toNat ∧
    ((layoutFor m g).pIdx e).toNat < g.nrHoriz.toNat * g.nrVert.toNat := by
  have hi := index_div_lt g.horiz_pos hrow
  have hj := index_div_lt g.vert_pos hcol
  have hlt : e.row / (divUp m.nrRows g.nrHoriz).toNat * g.nrVert.toNat + e.colIdx.toNat / (divUp m.nrCols g.nrVert).toNat <
      g.nrHoriz.toNat * g.nrVert.toNat := by
    calc e.row / (divUp m.nrRows g.nrHoriz).toNat * g.nrVert.toNat + e.colIdx.toNat / (divUp m.nrCols g.nrVert).toNat
        < e.row / (divUp m.nrRows g.nrHoriz).toNat * g.nrVert.toNat + g.nrVert.toNat := Nat.add_lt_add_left hj _
      _ = (e.row / (divUp m.nrRows g.nrHoriz).toNat + 1) * g.nrVert.toNat := (Nat.succ_mul _ _).symm
      _ ≤ g.nrHoriz.toNat * g.nrVert.toNat := Nat.mul_le_mul_right _ hi
  have heq : ((layoutFor m g).pIdx e).toNat =
      e.row / (divUp m.nrRows g.nrHoriz).toNat * g.nrVert.toNat + e.colIdx.toNat / (divUp m.nrCols g.nrVert).toNat := by
    unfold Layout.pIdx
    have hmul : (e.rowIdx / divUp m.nrRows g.nrHoriz * g.nrVert).toNat =
        e.row / (divUp m.nrRows g.nrHoriz).toNat * g.nrVert.toNat := by
      rw [UInt32.toNat_mul, UInt32.toNat_div]
      exact Nat.mod_eq_of_lt (lt_of_le_of_lt (Nat.le_add_right _ _) (hlt.trans g.fits))
    rw [UInt32.toNat_add, hmul, UInt32.toNat_div, Nat.mod_eq_of_lt (hlt.trans g.fits)]
  exact ⟨heq, heq ▸ hlt⟩

theorem stride_toNat {l : Layout} (hheight : l.height.toNat + 1 < 2 ^ 32) : (l.height + 1).toNat = l.height.toNat + 1 := by
  rw [UInt32.toNat_add, UInt32.toNat_one, Nat.mod_eq_of_lt hheight]

theorem rowBase_toNat {l : Layout} (hheight : l.height.toNat + 1 < 2 ^ 32) (i : UInt32) :
    (l.rowBase i).toNat = i.toNat * (l.height.toNat + 1) := by
  have hlt : i.toNat * (l.height.toNat + 1) < 2 ^ 64 := by
    have hi := i.toNat_lt
    nlinarith
  unfold Layout.rowBase
  rw [UInt64.toNat_mul, UInt32.toNat_toUInt64, UInt32.toNat_toUInt64, stride_toNat hheight, Nat.mod_eq_of_lt hlt]

theorem calIdx_toNat {l : Layout} (hheight : l.height.toNat + 1 < 2 ^ 32) (hpos : 0 < l.height.toNat) (e : Elem α) :
    (l.calIdx e).toNat = (l.pIdx e).toNat * (l.height.toNat + 1) + ((l.localRow e).toNat + 1) := by
  have hp := (l.pIdx e).toNat_lt
  have hr : (l.localRow e).toNat < l.height.toNat := by
    rw [localRow_toNat]
    exact Nat.mod_lt _ hpos
  have hlt : (l.pIdx e).toNat * (l.height.toNat + 1) + ((l.localRow e).toNat + 1) < 2 ^ 64 := by
    nlinarith
  unfold Layout.calIdx
  rw [UInt64.toNat_add, UInt64.toNat_add, UInt64.toNat_mul, UInt32.toNat_toUInt64, UInt32.toNat_toUInt64,
    UInt32.toNat_toUInt64, stride_toNat hheight, UInt64.toNat_one, Nat.mod_add_mod, Nat.add_assoc, Nat.mod_add_mod,
    Nat.mod_eq_of_lt hlt]

end Indices

/-! ## What comes out -/

section Result

variable {m : CooFormat α} {g : Grid} {c : Csr2DFormat α}

/-- the part of an entry -/
abbrev partOf (m : CooFormat α) (g : Grid) (e : Elem α) : ℕ := ((layoutFor m g).pIdx e).toNat

/-- the entries of a part, in the order of the list -/
abbrev partElems (m : CooFormat α) (g : Grid) (p : ℕ) : List (Elem α) := Scatter.block (partOf m g) m.elems p

/-- the indices of a matrix are in range -/
structure InRange (m : CooFormat α) : Prop where
  row_lt : ∀ e ∈ m.elems, e.row < m.nrRows.toNat
  col_lt : ∀ e ∈ m.elems, e.colIdx.toNat < m.nrCols.toNat
  fits : m.elems.length < 2 ^ 32

/-- the three arrays after the passes -/
structure Built (m : CooFormat α) (g : Grid) (c : Csr2DFormat α) : Prop where
  nrVert : c.nrVert = g.nrVert
  nrPart : c.nrPart = g.nrHoriz * g.nrVert
  height : c.height = divUp m.nrRows g.nrHoriz
  width : c.width = divUp m.nrCols g.nrVert
  nnz : ∀ p < g.nrHoriz.toNat * g.nrVert.toNat, c.nnzOf p = Scatter.sizeOf (partOf m g) m.elems p
  ptr : ∀ p < g.nrHoriz.toNat * g.nrVert.toNat, ∀ j ≤ c.height.toNat,
    c.ptr p j = Csr.below (fun e => ((layoutFor m g).localRow e).toNat) (partElems m g p) j
  stored : ∀ p < g.nrHoriz.toNat * g.nrVert.toNat, ∀ k (hk : k < (partElems m g p).length),
    c.colIdx.cell (Scatter.startOf (partOf m g) m.elems p + k) = (layoutFor m g).localCol (partElems m g p)[k] ∧
      c.values.cell (Scatter.startOf (partOf m g) m.elems p + k) = (partElems m g p)[k].values

namespace Built

theorem nrPart_toNat (h : Built m g c) : c.nrPart.toNat = g.nrHoriz.toNat * g.nrVert.toNat := by
  rw [h.nrPart, g.nrPart_toNat]

theorem layout_eq (h : Built m g c) : c.layout = layoutFor m g := by
  unfold Csr2DFormat.layout
  rw [h.nrVert, h.height, h.width]

theorem start (h : Built m g c) {p : ℕ} (hp : p < g.nrHoriz.toNat * g.nrVert.toNat) :
    c.start p = Scatter.startOf (partOf m g) m.elems p := by
  apply Finset.sum_congr rfl
  intro q hq
  exact h.nnz q ((Finset.mem_range.mp hq).trans hp)

theorem entry (h : Built m g c) {p : ℕ} (hp : p < g.nrHoriz.toNat * g.nrVert.toNat) {k : ℕ} (hk : k < (partElems m g p).length) :
    c.entry p k = (((layoutFor m g).localCol (partElems m g p)[k]).toNat, (partElems m g p)[k].values) := by
  obtain ⟨hcol, hval⟩ := h.stored p hp k hk
  unfold Csr2DFormat.entry
  rw [h.start hp, hcol, hval]

theorem local_lt (h : Built m g c) (hm : InRange m) {e : Elem α} (he : e ∈ m.elems) :
    (c.layout.localRow e).toNat < c.height.toNat ∧ (c.layout.localCol e).toNat < c.width.toNat := by
  rw [localRow_toNat, localCol_toNat]
  constructor
  · apply Nat.mod_lt
    change 0 < c.height.toNat
    rw [h.height]
    exact divUp_pos g.horiz_pos (hm.row_lt e he)
  · apply Nat.mod_lt
    change 0 < c.width.toNat
    rw [h.width]
    exact divUp_pos g.vert_pos (hm.col_lt e he)

theorem localRow_lt (h : Built m g c) (hm : InRange m) {e : Elem α} (he : e ∈ m.elems) :
    ((layoutFor m g).localRow e).toNat < c.height.toNat := by
  rw [← h.layout_eq]
  exact (h.local_lt hm he).1

/-- the row and the column of a part, and where an entry of the part lies -/
theorem part_place (hm : InRange m) {p : ℕ} {e : Elem α} (he : e ∈ partElems m g p) :
    p / g.nrVert.toNat = e.row / (divUp m.nrRows g.nrHoriz).toNat ∧
      p % g.nrVert.toNat = e.colIdx.toNat / (divUp m.nrCols g.nrVert).toNat := by
  obtain ⟨hmem, hpart⟩ := Scatter.mem_block.mp he
  have hcol := index_div_lt g.vert_pos (hm.col_lt e hmem)
  have hp : p = e.row / (divUp m.nrRows g.nrHoriz).toNat * g.nrVert.toNat +
      e.colIdx.toNat / (divUp m.nrCols g.nrVert).toNat := by
    rw [← hpart]
    exact (pIdx_toNat (hm.row_lt e hmem) (hm.col_lt e hmem)).1
  constructor
  · rw [hp, Nat.mul_comm, Nat.mul_add_div g.vert_pos, Nat.div_eq_of_lt hcol, Nat.add_zero]
  · rw [hp, Nat.mul_comm, Nat.mul_add_mod, Nat.mod_eq_of_lt hcol]

/-- a part is in order of its own rows -/
theorem localRow_sorted (hm : InRange m) (hs : m.elems.Pairwise fun a b => a.row ≤ b.row) (p : ℕ) :
    (partElems m g p).Pairwise fun a b => ((layoutFor m g).localRow a).toNat ≤ ((layoutFor m g).localRow b).toNat := by
  have hrows := hs.filter fun e => decide (partOf m g e = p)
  refine hrows.imp_of_mem ?_
  intro a b ha hb hab
  have hsame : a.row / (divUp m.nrRows g.nrHoriz).toNat = b.row / (divUp m.nrRows g.nrHoriz).toNat :=
    (part_place hm ha).1.symm.trans (part_place hm hb).1
  have hmoda := Nat.div_add_mod' a.row (divUp m.nrRows g.nrHoriz).toNat
  have hmodb := Nat.div_add_mod' b.row (divUp m.nrRows g.nrHoriz).toNat
  rw [localRow_toNat, localRow_toNat]
  rw [hsame] at hmoda
  dsimp only
  omega

/-- **A list sorted by rows is preserved.** -/
theorem preserved (h : Built m g c) (hm : InRange m) (hs : m.elems.Pairwise fun a b => a.row ≤ b.row) : Preserved m c where
  triples := by
    unfold Csr2DFormat.triples Csr2DFormat.partTriples
    rw [h.nrPart_toNat]
    refine Scatter.blocks_perm (partOf m g) (r := fun e => ((layoutFor m g).localRow e).toNat)
      (g := fun e => (((layoutFor m g).localCol e).toNat, e.values))
      (fun e he => (pIdx_toNat (hm.row_lt e he) (hm.col_lt e he)).2) (fun e he => h.localRow_lt hm he)
      (fun p _ => localRow_sorted hm hs p) h.ptr (fun p hp k hk => h.entry hp hk) (fun e he => ?_)
    obtain ⟨hi, hj⟩ := part_place (g := g) hm (Scatter.mem_block.mpr ⟨he, rfl⟩)
    have hrow := Nat.div_add_mod' e.row (divUp m.nrRows g.nrHoriz).toNat
    have hcol := Nat.div_add_mod' e.colIdx.toNat (divUp m.nrCols g.nrVert).toNat
    simp only [h.nrVert, h.height, h.width, hi, hj, localRow_toNat, localCol_toNat, hrow, hcol]
    rfl
  local_lt e he := h.local_lt hm he
  col_lt p hp k hk := by
    rw [h.nrPart_toNat] at hp
    rw [h.nnz p hp, ← Scatter.length_block] at hk
    rw [h.entry hp hk, localCol_toNat, h.width]
    exact Nat.mod_lt _ (divUp_pos g.vert_pos (hm.col_lt _ (Scatter.mem_block.mp (List.getElem_mem hk)).1))
  first p hp := by
    rw [h.ptr p (h.nrPart_toNat ▸ hp) 0 (Nat.zero_le _), Csr.below_zero]
  mono p hp j hj := by
    rw [h.nrPart_toNat] at hp
    rw [h.ptr p hp j hj.le, h.ptr p hp (j + 1) hj]
    exact Csr.below_mono _ _ (Nat.le_succ j)
  last p hp := by
    rw [h.nrPart_toNat] at hp
    rw [h.ptr p hp _ le_rfl, Csr.below_top fun e he => h.localRow_lt hm (Scatter.mem_block.mp he).1, h.nnz p hp]
    exact Scatter.length_block _ _ _

end Built

end Result

/-! ## The passes -/

section Passes

variable {m : CooFormat α} {g : Grid}

/-- the place of an entry's row in `row_ptr` -/
abbrev cellOf (m : CooFormat α) (g : Grid) (e : Elem α) : ℕ := ((layoutFor m g).calIdx e).toNat

/-- the size of `row_ptr` -/
abbrev rowPtrSize (m : CooFormat α) (g : Grid) : ℕ :=
  ((divUp m.nrRows g.nrHoriz + 2).toUInt64 * (g.nrHoriz * g.nrVert).toUInt64).toNat

theorem rowPtrSize_eq (m : CooFormat α) (g : Grid) :
    rowPtrSize m g = (divUp m.nrRows g.nrHoriz + 2).toNat * (g.nrHoriz.toNat * g.nrVert.toNat) := by
  have hh := (divUp m.nrRows g.nrHoriz + 2).toNat_lt
  have hp := (g.nrHoriz * g.nrVert).toNat_lt
  unfold rowPtrSize
  rw [UInt64.toNat_mul, UInt32.toNat_toUInt64, UInt32.toNat_toUInt64, Nat.mod_eq_of_lt (by nlinarith), g.nrPart_toNat]

theorem rowPtrSize_of_lt (hheight : (divUp m.nrRows g.nrHoriz).toNat + 2 < 2 ^ 32) :
    rowPtrSize m g = ((divUp m.nrRows g.nrHoriz).toNat + 2) * (g.nrHoriz.toNat * g.nrVert.toNat) := by
  rw [rowPtrSize_eq, UInt32.toNat_add]
  exact congrArg (· * _) (Nat.mod_eq_of_lt hheight)

/-- the first loop -/
theorem counted_spec (hm : InRange m) (hheight : (divUp m.nrRows g.nrHoriz).toNat + 2 < 2 ^ 32) :
    ∃ s : Buf UInt32 × Buf UInt32, Scatter.count (partOf m g) (cellOf m g) m.elems
        (Buf.zeros (g.nrHoriz * g.nrVert).toNat, Buf.zeros (rowPtrSize m g)) = some s ∧
      s.1.Holds (g.nrHoriz.toNat * g.nrVert.toNat) (Scatter.sizeOf (partOf m g) m.elems) ∧
      s.2.Holds (rowPtrSize m g) (Scatter.sizeOf (cellOf m g) m.elems) := by
  have hpart : ∀ e ∈ m.elems, partOf m g e < g.nrHoriz.toNat * g.nrVert.toNat := fun e he =>
    (pIdx_toNat (hm.row_lt e he) (hm.col_lt e he)).2
  have hcell : ∀ e ∈ m.elems, cellOf m g e < rowPtrSize m g := by
    intro e he
    have hpos := divUp_pos g.horiz_pos (hm.row_lt e he)
    have hlocal := Nat.mod_lt e.row hpos
    have hlt := hpart e he
    rw [rowPtrSize_of_lt hheight]
    unfold cellOf
    rw [calIdx_toNat (Nat.lt_of_succ_lt hheight) hpos, localRow_toNat]
    calc partOf m g e * ((divUp m.nrRows g.nrHoriz).toNat + 1) + (e.row % (divUp m.nrRows g.nrHoriz).toNat + 1)
        < partOf m g e * ((divUp m.nrRows g.nrHoriz).toNat + 2) + ((divUp m.nrRows g.nrHoriz).toNat + 2) := by nlinarith
      _ = (partOf m g e + 1) * ((divUp m.nrRows g.nrHoriz).toNat + 2) := (Nat.succ_mul _ _).symm
      _ ≤ g.nrHoriz.toNat * g.nrVert.toNat * ((divUp m.nrRows g.nrHoriz).toNat + 2) := Nat.mul_le_mul_right _ hlt
      _ = ((divUp m.nrRows g.nrHoriz).toNat + 2) * (g.nrHoriz.toNat * g.nrVert.toNat) := Nat.mul_comm _ _
  have hzero := Buf.zeros_holds (γ := UInt32) (g.nrHoriz * g.nrVert).toNat
  rw [g.nrPart_toNat] at hzero
  rw [g.nrPart_toNat]
  obtain ⟨s, hrun, hn, hr⟩ := Scatter.count_spec hpart hcell
    (s := (Buf.zeros (g.nrHoriz.toNat * g.nrVert.toNat), Buf.zeros (rowPtrSize m g))) hzero (Buf.zeros_holds _)
  exact ⟨s, hrun, hn.congr fun p _ => Nat.zero_add _, hr.congr fun i _ => Nat.zero_add _⟩

/-- the second loop -/
theorem summed_spec (hm : InRange m) (hheight : (divUp m.nrRows g.nrHoriz).toNat + 2 < 2 ^ 32) {r : Buf UInt32}
    (hr : r.Holds (rowPtrSize m g) (Scatter.sizeOf (cellOf m g) m.elems)) :
    ∃ r', (List.range (g.nrHoriz * g.nrVert).toNat).foldlM (fun r i => Buf.runningSum
        ((layoutFor m g).rowBase (UInt32.ofNat i)).toNat ((divUp m.nrRows g.nrHoriz).toNat + 1) r) r = some r' ∧
      ∀ p < g.nrHoriz.toNat * g.nrVert.toNat, ∀ j ≤ (divUp m.nrRows g.nrHoriz).toNat,
        (r'.cell (p * ((divUp m.nrRows g.nrHoriz).toNat + 1) + j)).toNat =
          Csr.below (fun e => ((layoutFor m g).localRow e).toNat) (partElems m g p) j := by
  have hbase : ∀ p < g.nrHoriz.toNat * g.nrVert.toNat,
      ((layoutFor m g).rowBase (UInt32.ofNat p)).toNat = p * ((divUp m.nrRows g.nrHoriz).toNat + 1) := by
    intro p hp
    rw [rowBase_toNat (Nat.lt_of_succ_lt hheight), UInt32.toNat_ofNat_of_lt' (hp.trans g.fits)]
  have hroom : ∀ p < g.nrHoriz.toNat * g.nrVert.toNat, ∀ j ≤ (divUp m.nrRows g.nrHoriz).toNat,
      p * ((divUp m.nrRows g.nrHoriz).toNat + 1) + j < rowPtrSize m g := by
    intro p hp j hj
    rw [rowPtrSize_of_lt hheight]
    nlinarith
  obtain ⟨r', hrun, hholds⟩ := Buf.sweep_blockSum (w := (divUp m.nrRows g.nrHoriz).toNat + 1) (d := 1) (Nat.succ_pos _) le_rfl
    (f := fun r i => Buf.runningSum ((layoutFor m g).rowBase (UInt32.ofNat i)).toNat ((divUp m.nrRows g.nrHoriz).toNat + 1) r)
    (P := g.nrHoriz.toNat * g.nrVert.toNat) (by
      intro p hp b n hb
      rw [hbase p hp]
      exact Buf.runningSum_spec hb (hroom p hp _ le_rfl)) hr
  rw [g.nrPart_toNat]
  refine ⟨r', hrun, fun p hp j hj => ?_⟩
  have hdiv : (p * ((divUp m.nrRows g.nrHoriz).toNat + 1) + j) / ((divUp m.nrRows g.nrHoriz).toNat + 1) = p := by
    rw [Nat.mul_comm, Nat.mul_add_div (Nat.succ_pos _), Nat.div_eq_of_lt (Nat.lt_succ_of_le hj), Nat.add_zero]
  have hmod : (p * ((divUp m.nrRows g.nrHoriz).toNat + 1) + j) % ((divUp m.nrRows g.nrHoriz).toNat + 1) = j := by
    rw [Nat.mul_comm, Nat.mul_add_mod, Nat.mod_eq_of_lt (Nat.lt_succ_of_le hj)]
  have hsum : Buf.blockSum (Scatter.sizeOf (cellOf m g) m.elems) (p * ((divUp m.nrRows g.nrHoriz).toNat + 1)) (j + 1) =
      Csr.below (fun e => ((layoutFor m g).localRow e).toNat) (partElems m g p) j := by
    rw [Scatter.blockSum_count (partOf m g) (fun e => ((layoutFor m g).localRow e).toNat + 1) _ _
      (Nat.succ_le_succ hj)]
    · unfold Csr.below
      simp only [Nat.succ_eq_add_one, Nat.add_lt_add_iff_right]
    · intro e he
      rw [localRow_toNat]
      exact Nat.succ_lt_succ (Nat.mod_lt _ (divUp_pos g.horiz_pos (hm.row_lt e he)))
    · intro e he
      exact calIdx_toNat (Nat.lt_of_succ_lt hheight) (divUp_pos g.horiz_pos (hm.row_lt e he)) e
  have hcell := hholds.2 _ (hroom p hp j hj)
  dsimp only at hcell
  rw [hdiv, hmod, if_pos hp, hsum] at hcell
  rw [hcell]
  apply UInt32.toNat_ofNat_of_lt'
  calc Csr.below (fun e => ((layoutFor m g).localRow e).toNat) (partElems m g p) j
      ≤ (partElems m g p).length := List.countP_le_length
    _ ≤ m.elems.length := List.length_filter_le _ _
    _ < 2 ^ 32 := hm.fits

theorem maxNnz_defined {b : Buf UInt32} {P : ℕ} (hb : P ≤ b.size) : ∃ max, maxNnz b P = some max := by
  induction P with
  | zero => exact ⟨0, rfl⟩
  | succ P ih =>
    obtain ⟨max, hmax⟩ := ih (Nat.le_of_succ_le hb)
    unfold maxNnz at hmax ⊢
    have hread : b.read P = some (b.cell P) := if_pos hb
    rw [List.range_succ, List.foldlM_append, hmax]
    simp only [Option.bind_eq_bind, Option.bind_some, List.foldlM_cons, List.foldlM_nil, hread]
    exact ⟨_, rfl⟩

/-- **All loops**, where the arrays have their sizes. -/
theorem csr2d_spec [Zero α] {k : Variant} (hm : InRange m) (hheight : (divUp m.nrRows g.nrHoriz).toNat + 2 < 2 ^ 32)
    (hcols : m.elems.length ≤ k.colCap m.nnz) (hvals : m.elems.length ≤ k.valCap m.nnz) :
    ∃ c scale, cooToCsr2DWith k m g.nrHoriz g.nrVert = some (c, scale) ∧ Built m g c := by
  have hpart : ∀ e ∈ m.elems, partOf m g e < g.nrHoriz.toNat * g.nrVert.toNat := fun e he =>
    (pIdx_toNat (hm.row_lt e he) (hm.col_lt e he)).2
  have hsize : ∀ p, Scatter.sizeOf (partOf m g) m.elems p < 2 ^ 32 := fun p => List.countP_le_length.trans_lt hm.fits
  obtain ⟨s, hcount, hn, hr⟩ := counted_spec hm hheight
  obtain ⟨r, hsum, hptr⟩ := summed_spec hm hheight hr
  obtain ⟨b, hstart, hb⟩ := Scatter.starts_spec id hn fun _ _ => rfl
  obtain ⟨max, hmax⟩ := maxNnz_defined (b := s.1) (P := g.nrHoriz.toNat * g.nrVert.toNat) hn.1.ge
  obtain ⟨t, hfill, ht⟩ := Scatter.fill_spec (f := (layoutFor m g).localCol) (g := Elem.values) hpart hm.fits.le hb
    (c := ⟨k.colCap m.nnz, fun _ => 0⟩) (v := ⟨k.valCap m.nnz, fun _ => 0⟩) hcols hvals
  refine ⟨⟨m.nrRows, m.nrCols, m.nnz, r, t.2.1, t.2.2, g.nrHoriz, g.nrVert, g.nrHoriz * g.nrVert, divUp m.nrRows g.nrHoriz,
    divUp m.nrCols g.nrVert, s.1⟩, k.scale (totalBytes (divUp m.nrRows g.nrHoriz) (divUp m.nrCols g.nrVert) max)
    (g.nrHoriz * g.nrVert), ?_, rfl, rfl, rfl, rfl, ?_, hptr, ht.stored⟩
  · unfold cooToCsr2DWith
    dsimp only
    rw [hcount, Option.bind_eq_bind, Option.bind_some, hsum, Option.bind_eq_bind, Option.bind_some, g.nrPart_toNat, hstart,
      Option.bind_eq_bind, Option.bind_some, hmax, Option.bind_eq_bind, Option.bind_some, hfill]
    rfl
  · intro p hp
    unfold Csr2DFormat.nnzOf
    rw [hn.2 p hp]
    exact UInt32.toNat_ofNat_of_lt' (hsize p)

/-- the last row pointer of the first part is in the array -/
theorem height_of_sums {l : Layout} {P : UInt32} {b b' : Buf UInt32}
    (hsize : b.size = ((l.height + 2).toUInt64 * P.toUInt64).toNat) (hpos : 0 < P.toNat)
    (h : (List.range P.toNat).foldlM
      (fun r i => Buf.runningSum (l.rowBase (UInt32.ofNat i)).toNat (l.height.toNat + 1) r) b = some b') :
    l.height.toNat + 2 < 2 ^ 32 := by
  obtain ⟨q, hq⟩ := Nat.exists_eq_succ_of_ne_zero hpos.ne'
  rw [hq, List.range_succ_eq_map, List.foldlM_cons] at h
  obtain ⟨r₁, hfirst, -⟩ := Option.bind_eq_some_iff.mp h
  have hlast := (Buf.runningSum_bounds hfirst).2 _ (Nat.lt_succ_self _)
  have hP := P.toNat_lt
  have hh := l.height.toNat_lt
  have hprod : ((l.height + 2).toUInt64 * P.toUInt64).toNat = (l.height.toNat + 2) % 2 ^ 32 * P.toNat := by
    have hlt := (l.height + 2).toNat_lt
    rw [UInt64.toNat_mul, UInt32.toNat_toUInt64, UInt32.toNat_toUInt64, Nat.mod_eq_of_lt (by nlinarith), UInt32.toNat_add]
    rfl
  rw [hsize, hprod] at hlast
  have hle : l.height.toNat < (l.height.toNat + 2) % 2 ^ 32 * P.toNat := lt_of_le_of_lt (Nat.le_add_left _ _) hlast
  by_contra hbig
  have hmod : (l.height.toNat + 2) % 2 ^ 32 = l.height.toNat + 2 - 2 ^ 32 := by
    rw [Nat.mod_eq_sub_mod (by omega), Nat.mod_eq_of_lt (by omega)]
  rw [hmod] at hle
  rcases (by omega : l.height.toNat + 2 - 2 ^ 32 = 0 ∨ l.height.toNat + 2 - 2 ^ 32 = 1) with hzero | hone
  · rw [hzero, Nat.zero_mul] at hle
    exact absurd hle (Nat.not_lt_zero _)
  · rw [hone, Nat.one_mul] at hle
    omega

/-- **A run that comes through** has its arrays large enough. -/
theorem csr2d_bounds [Zero α] {k : Variant} (hm : InRange m) {c : Csr2DFormat α} {scale : UInt32}
    (h : cooToCsr2DWith k m g.nrHoriz g.nrVert = some (c, scale)) :
    (divUp m.nrRows g.nrHoriz).toNat + 2 < 2 ^ 32 ∧ m.elems.length ≤ k.colCap m.nnz ∧ m.elems.length ≤ k.valCap m.nnz := by
  have hpart : ∀ e ∈ m.elems, partOf m g e < g.nrHoriz.toNat * g.nrVert.toNat := fun e he =>
    (pIdx_toNat (hm.row_lt e he) (hm.col_lt e he)).2
  unfold cooToCsr2DWith at h
  obtain ⟨s, hcount, h⟩ := Option.bind_eq_some_iff.mp h
  obtain ⟨r, hsum, h⟩ := Option.bind_eq_some_iff.mp h
  obtain ⟨b, hstart, h⟩ := Option.bind_eq_some_iff.mp h
  obtain ⟨max, -, h⟩ := Option.bind_eq_some_iff.mp h
  obtain ⟨t, hfill, -⟩ := Option.bind_eq_some_iff.mp h
  have hheight : (divUp m.nrRows g.nrHoriz).toNat + 2 < 2 ^ 32 := by
    apply height_of_sums (l := layoutFor m g) (Scatter.count_sizes hcount).2 _ hsum
    rw [g.nrPart_toNat]
    exact Nat.mul_pos g.horiz_pos g.vert_pos
  obtain ⟨s', hcount', hn, -⟩ := counted_spec hm hheight
  obtain rfl : s' = s := Option.some.inj (hcount'.symm.trans hcount)
  obtain ⟨b', hstart', hb⟩ := Scatter.starts_spec (id : UInt32 → UInt32) hn fun _ _ => rfl
  rw [g.nrPart_toNat] at hstart hfill
  obtain rfl : b' = b := Option.some.inj (hstart'.symm.trans hstart)
  exact ⟨hheight, Scatter.fill_bounds hpart hm.fits.le hb hfill⟩

end Passes

/-! ## Sorting and converting -/

section Exact

variable {k : Copy} {v : ValDt} {m : CooInput α} {g : Grid}

/-- the matrix after `qsort` -/
theorem inRange_of_perm {A : List (Elem α)} (hA : A.Perm m.elems) (rows : Buf UInt32) :
    InRange { m.toCooFormat with nnzOfRows := rows, elems := A } where
  row_lt e he := m.row_lt e (hA.mem_iff.mp he)
  col_lt e he := m.col_lt e (hA.mem_iff.mp he)
  fits := hA.length_eq.trans_lt m.fits

theorem Preserved.of_perm {s : CooFormat α} {c : Csr2DFormat α} (h : Preserved s c) (hs : s.elems.Perm m.elems) :
    Preserved m.toCooFormat c where
  triples := h.triples.trans (hs.map _)
  local_lt e he := h.local_lt e (hs.mem_iff.mpr he)
  col_lt := h.col_lt
  first := h.first
  mono := h.mono
  last := h.last

theorem floatsFor_iff (v : ValDt) {nnz : UInt32} (hpos : 0 < nnz.toNat) : nnz.toNat ≤ floatsFor v nnz ↔ v.byteDt.toNat ≤ 4 := by
  have hbyte : 0 < v.byteDt.toNat := by cases v <;> decide
  unfold floatsFor
  rw [Nat.le_div_iff_mul_le hbyte]
  exact Nat.mul_le_mul_left_iff hpos

variable [Zero α]

/-- **Enough.** -/
theorem Csr2DFits.exact (h : Csr2DFits k v m g) : Csr2DExact k v m g := by
  rintro r ⟨q, hq, rfl⟩
  obtain ⟨A, rfl, hperm, hsorted⟩ := hq h.consistent
  have hrows := rows_sorted hsorted
  have hlen := hperm.length_eq
  have hpos : 0 < m.elems.length := List.length_pos_iff.mpr m.nonempty
  have hnext : ∀ i < A.length, intSucc i = some (i + 1) := by
    intro i hi
    have hint := h.nnz_int
    exact if_pos (by omega)
  obtain ⟨rows, hcount, -⟩ := countRows_spec intSucc hnext (List.ne_nil_of_length_pos (hlen ▸ hpos))
    (fun e he => m.row_lt e (hperm.mem_iff.mp he)) (fun e he => h.rows_int e (hperm.mem_iff.mp he)) hrows
    (fun r => List.countP_le_length.trans_lt (hlen.trans_lt h.nnz_int)) m.counts
  have hnnz : (CooFormat.nnz { m.toCooFormat with nnzOfRows := rows, elems := A }).toNat = A.length :=
    UInt32.toNat_ofNat_of_lt' (hlen.trans_lt m.fits)
  have hes : ∀ nnz : UInt32, nnz.toNat = A.length → A.length ≤ (nnz + 10000000).toNat := by
    intro nnz hn
    have hint := h.nnz_int
    have hadd : (nnz + 10000000).toNat = (nnz.toNat + 10000000) % 2 ^ 32 := UInt32.toNat_add nnz 10000000
    rw [hadd, Nat.mod_eq_of_lt (by omega)]
    omega
  obtain ⟨c, scale, hrun, hbuilt⟩ : ∃ c scale, cooToCsr2D v k { m.toCooFormat with nnzOfRows := rows, elems := A }
      g.nrHoriz g.nrVert = some (c, scale) ∧ Built { m.toCooFormat with nnzOfRows := rows, elems := A } g c := by
    cases k with
    | ofis =>
      refine csr2d_spec (inRange_of_perm hperm rows) h.height hnnz.ge ?_
      have hcap := (floatsFor_iff v (hnnz.symm ▸ hlen.symm ▸ hpos)).mpr (h.values rfl)
      exact hnnz.symm.le.trans hcap
    | es => exact csr2d_spec (inRange_of_perm hperm rows) h.height (hes _ hnnz) (hes _ hnnz)
  refine ⟨{ m.toCooFormat with nnzOfRows := rows, elems := A }, c, scale, ?_, hrun, ?_⟩
  · rw [Option.bind_some, hcount]
    rfl
  · exact (hbuilt.preserved (inRange_of_perm hperm rows) hrows).of_perm hperm

/-- **Needed.** -/
theorem Csr2DExact.fits (h : Csr2DExact k v m g) : Csr2DFits k v m g := by
  have hconsistent : Consistent comparator m.elems := by
    by_contra hnot
    obtain ⟨s, c, scale, hr, -⟩ := h none ⟨none, fun hyes => absurd hyes hnot, rfl⟩
    cases hr
  obtain ⟨A, hq⟩ := exists_qsort hconsistent
  obtain ⟨A', hA', hperm, hsorted⟩ := hq hconsistent
  obtain rfl : A = A' := Option.some.inj hA'
  obtain ⟨s, c, scale, hs, hrun, -⟩ := h _ ⟨some A, hq, rfl⟩
  rw [Option.bind_some] at hs
  obtain ⟨rows, hcount, hs⟩ := Option.bind_eq_some_iff.mp hs
  obtain rfl := Option.some.inj hs
  have hlen := hperm.length_eq
  have hpos : 0 < m.elems.length := List.length_pos_iff.mpr m.nonempty
  have hnnz : (CooFormat.nnz { m.toCooFormat with nnzOfRows := rows, elems := A }).toNat = A.length :=
    UInt32.toNat_ofNat_of_lt' (hlen.trans_lt m.fits)
  have hnext : ∀ i j, intSucc i = some j → j = i + 1 := by
    intro i j hij
    unfold intSucc at hij
    split_ifs at hij
    exact (Option.some.inj hij).symm
  obtain ⟨hrows, -, hidx⟩ := countRows_bounds hnext (rows_sorted hsorted) hcount
  obtain ⟨hheight, hvals⟩ : (divUp m.nrRows g.nrHoriz).toNat + 2 < 2 ^ 32 ∧ (k = .ofis → v.byteDt.toNat ≤ 4) := by
    cases k with
    | ofis =>
      obtain ⟨hheight, -, hcap⟩ := csr2d_bounds (inRange_of_perm hperm rows) hrun
      exact ⟨hheight, fun _ => (floatsFor_iff v (hnnz.symm ▸ hlen.symm ▸ hpos)).mp (hnnz.le.trans hcap)⟩
    | es =>
      obtain ⟨hheight, -, -⟩ := csr2d_bounds (inRange_of_perm hperm rows) hrun
      exact ⟨hheight, fun hes => by cases hes⟩
  refine ⟨hconsistent, ?_, fun e he => hrows e (hperm.mem_iff.mpr he), hheight, hvals⟩
  by_contra hbig
  apply hidx (A.length - 1) (by omega)
  exact if_neg (by omega)

/-- **When the matrix is preserved.** -/
theorem csr2dExact_iff (k : Copy) (v : ValDt) (m : CooInput α) (g : Grid) : Csr2DExact k v m g ↔ Csr2DFits k v m g :=
  ⟨Csr2DExact.fits, Csr2DFits.exact⟩

/-- rows, columns and entries that an `int` counts, and values of four bytes at most -/
theorem csr2dExact_of_int (k : Copy) {v : ValDt} {m : CooInput α} (g : Grid) (hrows : m.nrRows.toNat < 2 ^ 31)
    (hcols : m.nrCols.toNat ≤ 2 ^ 31) (hnnz : m.elems.length < 2 ^ 31) (hv : v.byteDt.toNat ≤ 4) : Csr2DExact k v m g := by
  apply Csr2DFits.exact
  refine ⟨consistent_of_cols fun e he => (m.col_lt e he).trans_le hcols, hnnz, fun e he => (m.row_lt e he).trans hrows, ?_,
    fun _ => hv⟩
  have hle : (divUp m.nrRows g.nrHoriz).toNat ≤ m.nrRows.toNat + 1 := by
    unfold divUp
    split_ifs
    · rw [UInt32.toNat_add, UInt32.toNat_div, UInt32.toNat_one]
      exact (Nat.mod_le _ _).trans (Nat.succ_le_succ (Nat.div_le_self _ _))
    · rw [UInt32.toNat_div]
      exact (Nat.div_le_self _ _).trans (Nat.le_succ _)
  omega

end Exact

/-- one entry in one part -/
def oneEntry : CooInput ℤ where
  nrRows := 1
  nrCols := 1
  nnzOfRows := Buf.zeros 1
  elems := [⟨0, 0, 5⟩]
  nonempty := List.cons_ne_nil _ _
  fits := by decide
  row_lt := by decide
  col_lt := by decide
  counts := Buf.zeros_holds 1

/-- SpMV_OFIS with values of eight bytes: `calloc(1, sizeof(float))` has no room for one of them -/
theorem oneEntry_overflow : ¬ Csr2DExact .ofis .int64 oneEntry ⟨1, 1, by decide, by decide, by decide⟩ := by
  intro h
  obtain ⟨s, c, scale, hs, hrun, -⟩ := h _ ⟨some oneEntry.elems, fun _ => ⟨_, rfl, List.Perm.refl _,
    List.pairwise_singleton _ _⟩, rfl⟩
  have hnone : (cooToCsr2D .int64 .ofis s 1 1).isNone = true := by
    obtain rfl := Option.some.inj hs
    decide +kernel
  rw [hrun] at hnone
  cases hnone

end PimOfis.SpMV
