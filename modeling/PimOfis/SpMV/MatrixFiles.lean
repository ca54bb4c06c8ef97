/-
Files of matrices in parts: `save_dcsr_matrix` and `load_dcsr_matrix` (`types.h` of SpMV_OFIS and of SparseP_ES),
`save_rbdcsr_matrix` and `load_rbdcsr_matrix` (`matrix.h` of SparseP_EW).

A file has the scalars and then the arrays. Writer and reader compute the number of elements of each array from the scalars:
`(height + 2) * nr_part` row pointers in 64 bits for a CSR_2D matrix, `(nrows + 1) * vert_partitions` in 32 bits for an RBDCSR
matrix. The files themselves are left out, with the messages about them: writing and reading do not fail.

Results:
- `dcsr_kept`: every CSR_2D matrix that was built comes back, of any size;
- `rbdcsr_kept`: an RBDCSR matrix comes back whose products fit 32 bits;
- `filesKept_iff`: when the matrices are built and come back.
-/
import Mathlib.Data.UInt
import Mathlib.Tactic
import PimOfis.Lib.CFile
import PimOfis.SpMV.RbdcsrArrays

namespace PimOfis.SpMV

open Lib

variable {α : Type} {v : ValDt}

/-! ## Model -/

/-- a `uint32_t` and a `val_dt` in memory -/
structure Reps (α : Type) (v : ValDt) where
  word : Rep UInt32
  val : Rep α
  word_size : word.size = 4
  val_size : val.size = v.byteDt.toNat

/-- `row_ptr_size` -/
abbrev rowPtrElems (height nrPart : UInt32) : ℕ := ((height + 2).toUInt64 * nrPart.toUInt64).toNat

def saveDcsrMatrix (x : Reps α v) (A : Csr2DFormat α) : Option (List UInt8) := do
  let rowPtr ← x.word.fwrite A.rowPtr (rowPtrElems A.height A.nrPart)
  let colIdx ← x.word.fwrite A.colIdx A.nnz.toNat
  let values ← x.val.fwrite A.values A.nnz.toNat
  let nnzPerPart ← x.word.fwrite A.nnzPerPart A.nrPart.toNat
  pure [x.word.enc A.nrRows, x.word.enc A.nrCols, x.word.enc A.nnz, x.word.enc A.nrHoriz, x.word.enc A.nrVert,
    x.word.enc A.nrPart, x.word.enc A.height, x.word.enc A.width, rowPtr, colIdx, values, nnzPerPart].flatten

def loadDcsrMatrix [Zero α] (x : Reps α v) : Reader (Csr2DFormat α) := do
  let nrRows ← x.word.fread
  let nrCols ← x.word.fread
  let nnz ← x.word.fread
  let nrHoriz ← x.word.fread
  let nrVert ← x.word.fread
  let nrPart ← x.word.fread
  let height ← x.word.fread
  let width ← x.word.fread
  let rowPtr ← x.word.freadArray (Buf.zeros (rowPtrElems height nrPart)) (rowPtrElems height nrPart)
  let colIdx ← x.word.freadArray (Buf.zeros nnz.toNat) nnz.toNat
  let values ← x.val.freadArray ⟨nnz.toNat, fun _ => 0⟩ nnz.toNat
  let nnzPerPart ← x.word.freadArray (Buf.zeros nrPart.toNat) nrPart.toNat
  pure ⟨nrRows, nrCols, nnz, rowPtr, colIdx, values, nrHoriz, nrVert, nrPart, height, width, nnzPerPart⟩

/-- the elements of `drowptr` in a file -/
def drowptrElems (nrows vertPartitions : UInt32) : ℕ := ((nrows + 1) * vertPartitions).toNat

def saveRbdcsrMatrix (x : Reps α v) (A : RBDCSRArrays α) : Option (List UInt8) := do
  let counts ← x.word.fwrite A.nnzsPerVertPartition A.vertPartitions.toNat
  let drowptr ← x.word.fwrite A.drowptr (drowptrElems A.nrows A.vertPartitions)
  let dcolind ← x.word.fwrite A.dcolind A.nnz.toNat
  let dval ← x.val.fwrite A.dval A.nnz.toNat
  pure [x.word.enc A.nrows, x.word.enc A.ncols, x.word.enc A.nnz, x.word.enc A.npartitions, x.word.enc A.horzPartitions,
    x.word.enc A.vertPartitions, x.word.enc A.tileWidth, counts, drowptr, dcolind, dval].flatten

/-- what `malloc` leaves in the arrays of `load_rbdcsr_matrix` -/
structure Leftover (α : Type) where
  counts : ℕ → UInt32
  drowptr : ℕ → UInt32
  dcolind : ℕ → UInt32
  dval : ℕ → α

def loadRbdcsrMatrix (x : Reps α v) (junk : Leftover α) : Reader (RBDCSRArrays α) := do
  let nrows ← x.word.fread
  let ncols ← x.word.fread
  let nnz ← x.word.fread
  let npartitions ← x.word.fread
  let horzPartitions ← x.word.fread
  let vertPartitions ← x.word.fread
  let tileWidth ← x.word.fread
  let counts ← x.word.freadArray ⟨vertPartitions.toNat, junk.counts⟩ vertPartitions.toNat
  let drowptr ← x.word.freadArray ⟨drowptrElems nrows vertPartitions, junk.drowptr⟩ (drowptrElems nrows vertPartitions)
  let dcolind ← x.word.freadArray ⟨nnz.toNat, junk.dcolind⟩ nnz.toNat
  let dval ← x.val.freadArray ⟨nnz.toNat, junk.dval⟩ nnz.toNat
  pure ⟨nrows, ncols, nnz, npartitions, horzPartitions, vertPartitions, tileWidth, counts, drowptr, dcolind, dval⟩

/-! ## What is kept -/

/-- element `i` of the saved array is there, and that of the loaded array is the same -/
def SameRead {β : Type} (a b : Buf β) (i : ℕ) : Prop := ∃ e, a.read i = some e ∧ b.read i = some e

/-- `B` was loaded from the file of `A` -/
structure DcsrRestored (A B : Csr2DFormat α) : Prop where
  scalars : (B.nrRows, B.nrCols, B.nnz, B.nrHoriz, B.nrVert, B.nrPart, B.height, B.width) =
    (A.nrRows, A.nrCols, A.nnz, A.nrHoriz, A.nrVert, A.nrPart, A.height, A.width)
  rowPtr : Buf.SameOn (rowPtrElems A.height A.nrPart) A.rowPtr B.rowPtr
  colIdx : Buf.SameOn A.nnz.toNat A.colIdx B.colIdx
  values : Buf.SameOn A.nnz.toNat A.values B.values
  nnzPerPart : Buf.SameOn A.nrPart.toNat A.nnzPerPart B.nnzPerPart

/-- what is read of the parts: their row pointers, numbers of entries, and entries -/
structure DcsrSameReads (A B : Csr2DFormat α) : Prop where
  ptr : ∀ p < A.nrPart.toNat, ∀ j ≤ A.height.toNat, SameRead A.rowPtr B.rowPtr (p * (A.height.toNat + 1) + j)
  count : ∀ p < A.nrPart.toNat, SameRead A.nnzPerPart B.nnzPerPart p
  entry : ∀ p < A.nrPart.toNat, ∀ k < A.nnzOf p,
    SameRead A.colIdx B.colIdx (A.start p + k) ∧ SameRead A.values B.values (A.start p + k)

structure RbdcsrRestored (A B : RBDCSRArrays α) : Prop where
  scalars : (B.nrows, B.ncols, B.nnz, B.npartitions, B.horzPartitions, B.vertPartitions, B.tileWidth) =
    (A.nrows, A.ncols, A.nnz, A.npartitions, A.horzPartitions, A.vertPartitions, A.tileWidth)
  counts : Buf.SameOn A.vertPartitions.toNat A.nnzsPerVertPartition B.nnzsPerVertPartition
  drowptr : Buf.SameOn (drowptrElems A.nrows A.vertPartitions) A.drowptr B.drowptr
  dcolind : Buf.SameOn A.nnz.toNat A.dcolind B.dcolind
  dval : Buf.SameOn A.nnz.toNat A.dval B.dval

structure RbdcsrSameReads (A B : RBDCSRArrays α) : Prop where
  ptr : ∀ c j : UInt32, c.toNat < A.vertPartitions.toNat → j.toNat ≤ A.nrows.toNat →
    SameRead A.drowptr B.drowptr (tileCell A.nrows c j)
  count : ∀ c < A.vertPartitions.toNat, SameRead A.nnzsPerVertPartition B.nnzsPerVertPartition c
  entry : ∀ c < A.vertPartitions.toNat, ∀ k < A.toMatrix.nnzOf c,
    SameRead A.dcolind B.dcolind (A.toMatrix.start c + k) ∧ SameRead A.dval B.dval (A.toMatrix.start c + k)

/-- the arguments of `COO_to_CSR_2D` and of `coo2rbdcsr` -/
structure Partitions where
  nrHoriz : UInt32
  nrVert : UInt32
  horzPartitions : UInt32
  vertPartitions : UInt32
  horiz_pos : 1 ≤ nrHoriz.toNat
  vert_pos : 1 ≤ nrVert.toNat
  tiles_pos : 1 ≤ vertPartitions.toNat

/-- the matrix is built, saved and loaded -/
def DcsrKept [Zero α] (x : Reps α v) (k : Copy) (m : CooFormat α) (s : Partitions) : Prop :=
  ∃ A scale, cooToCsr2D v k m s.nrHoriz s.nrVert = some (A, scale) ∧
    ∃ file B, saveDcsrMatrix x A = some file ∧ loadDcsrMatrix x file = some (B, []) ∧ DcsrRestored A B ∧ DcsrSameReads A B

/-- the matrix is built, saved and loaded; the file is the same whatever the builder has found in the memory for `dcolind` -/
def RbdcsrKept [Zero α] (x : Reps α v) (m : CooFormat α) (s : Partitions) : Prop :=
  ∃ file, ∀ junk junk', ∃ A B, coo2rbdcsrArrays junk m s.horzPartitions s.vertPartitions = some A ∧
    saveRbdcsrMatrix x A = some file ∧ loadRbdcsrMatrix x junk' file = some (B, []) ∧ RbdcsrRestored A B ∧ RbdcsrSameReads A B

structure FilesKept [Zero α] (x : Reps α v) (k : Copy) (m : CooFormat α) (s : Partitions) : Prop where
  dcsr : DcsrKept x k m s
  rbdcsr : RbdcsrKept x m s

/-! ## One file -/

section OneFile

variable {x : Reps α v} {file : List UInt8}

/-- **A CSR_2D matrix** comes back from its file. -/
theorem loadDcsr_save [Zero α] {A : Csr2DFormat α} (h : saveDcsrMatrix x A = some file) :
    ∃ B, loadDcsrMatrix x file = some (B, []) ∧ DcsrRestored A B := by
  unfold saveDcsrMatrix at h
  simp only [Option.bind_eq_bind, Option.bind_eq_some_iff, Option.pure_def, Option.some.injEq] at h
  obtain ⟨rowPtr, hrowPtr, colIdx, hcolIdx, values, hvalues, counts, hcounts, rfl⟩ := h
  apply Reads.whole
  -- one rule for each chunk, in the order of the file
  refine Reads.cons (reads_enc x.word A.nrRows) fun _ h₁ => ?_
  refine Reads.cons (reads_enc x.word A.nrCols) fun _ h₂ => ?_
  refine Reads.cons (reads_enc x.word A.nnz) fun _ h₃ => ?_
  refine Reads.cons (reads_enc x.word A.nrHoriz) fun _ h₄ => ?_
  refine Reads.cons (reads_enc x.word A.nrVert) fun _ h₅ => ?_
  refine Reads.cons (reads_enc x.word A.nrPart) fun _ h₆ => ?_
  refine Reads.cons (reads_enc x.word A.height) fun _ h₇ => ?_
  refine Reads.cons (reads_enc x.word A.width) fun _ h₈ => ?_
  subst h₁ h₂ h₃ h₄ h₅ h₆ h₇ h₈
  refine Reads.cons (reads_fwrite x.word hrowPtr rfl) fun _ hb₁ => ?_
  refine Reads.cons (reads_fwrite x.word hcolIdx rfl) fun _ hb₂ => ?_
  refine Reads.cons (reads_fwrite x.val hvalues rfl) fun _ hb₃ => ?_
  refine Reads.cons (reads_fwrite x.word hcounts rfl) fun _ hb₄ => ?_
  exact Reads.done ⟨rfl, hb₁, hb₂, hb₃, hb₄⟩

theorem saveDcsr_of_le (x : Reps α v) {A : Csr2DFormat α} (hrow : rowPtrElems A.height A.nrPart ≤ A.rowPtr.size)
    (hcol : A.nnz.toNat ≤ A.colIdx.size) (hval : A.nnz.toNat ≤ A.values.size) (hcount : A.nrPart.toNat ≤ A.nnzPerPart.size) :
    ∃ file, saveDcsrMatrix x A = some file := by
  obtain ⟨rowPtr, hrowPtr⟩ := fwrite_of_le x.word hrow
  obtain ⟨colIdx, hcolIdx⟩ := fwrite_of_le x.word hcol
  obtain ⟨values, hvalues⟩ := fwrite_of_le x.val hval
  obtain ⟨counts, hcounts⟩ := fwrite_of_le x.word hcount
  unfold saveDcsrMatrix
  simp only [hrowPtr, hcolIdx, hvalues, hcounts, Option.bind_eq_bind, Option.bind_some]
  exact ⟨_, rfl⟩

/-- **An RBDCSR matrix** comes back from its file. -/
theorem loadRbdcsr_save {A : RBDCSRArrays α} (h : saveRbdcsrMatrix x A = some file) (junk : Leftover α) :
    ∃ B, loadRbdcsrMatrix x junk file = some (B, []) ∧ RbdcsrRestored A B := by
  unfold saveRbdcsrMatrix at h
  simp only [Option.bind_eq_bind, Option.bind_eq_some_iff, Option.pure_def, Option.some.injEq] at h
  obtain ⟨counts, hcounts, drowptr, hdrowptr, dcolind, hdcolind, dval, hdval, rfl⟩ := h
  apply Reads.whole
  refine Reads.cons (reads_enc x.word A.nrows) fun _ h₁ => ?_
  refine Reads.cons (reads_enc x.word A.ncols) fun _ h₂ => ?_
  refine Reads.cons (reads_enc x.word A.nnz) fun _ h₃ => ?_
  refine Reads.cons (reads_enc x.word A.npartitions) fun _ h₄ => ?_
  refine Reads.cons (reads_enc x.word A.horzPartitions) fun _ h₅ => ?_
  refine Reads.cons (reads_enc x.word A.vertPartitions) fun _ h₆ => ?_
  refine Reads.cons (reads_enc x.word A.tileWidth) fun _ h₇ => ?_
  subst h₁ h₂ h₃ h₄ h₅ h₆ h₇
  refine Reads.cons (reads_fwrite x.word hcounts rfl) fun _ hb₁ => ?_
  refine Reads.cons (reads_fwrite x.word hdrowptr rfl) fun _ hb₂ => ?_
  refine Reads.cons (reads_fwrite x.word hdcolind rfl) fun _ hb₃ => ?_
  refine Reads.cons (reads_fwrite x.val hdval rfl) fun _ hb₄ => ?_
  exact Reads.done ⟨rfl, hb₁, hb₂, hb₃, hb₄⟩

theorem saveRbdcsr_of_le (x : Reps α v) {A : RBDCSRArrays α}
    (hcount : A.vertPartitions.toNat ≤ A.nnzsPerVertPartition.size)
    (hrow : drowptrElems A.nrows A.vertPartitions ≤ A.drowptr.size) (hcol : A.nnz.toNat ≤ A.dcolind.size)
    (hval : A.nnz.toNat ≤ A.dval.size) : ∃ file, saveRbdcsrMatrix x A = some file := by
  obtain ⟨counts, hcounts⟩ := fwrite_of_le x.word hcount
  obtain ⟨drowptr, hdrowptr⟩ := fwrite_of_le x.word hrow
  obtain ⟨dcolind, hdcolind⟩ := fwrite_of_le x.word hcol
  obtain ⟨dval, hdval⟩ := fwrite_of_le x.val hval
  unfold saveRbdcsrMatrix
  simp only [hcounts, hdrowptr, hdcolind, hdval, Option.bind_eq_bind, Option.bind_some]
  exact ⟨_, rfl⟩

end OneFile

/-! ## CSR_2D matrices that are built -/

section Csr2D

variable {k : Variant} {m : CooFormat α} {nrHoriz nrVert : UInt32}

/-- the layout, also for a number of parts that wraps -/
abbrev gridLayout (m : CooFormat α) (nrHoriz nrVert : UInt32) : Layout :=
  ⟨nrVert, divUp m.nrRows nrHoriz, divUp m.nrCols nrVert⟩

abbrev gridPart (m : CooFormat α) (nrHoriz nrVert : UInt32) (e : Elem α) : ℕ := ((gridLayout m nrHoriz nrVert).pIdx e).toNat

/-- the scalars of the matrix, the sizes of its arrays, and what of them is read later -/
structure Csr2DMade (k : Variant) (m : CooFormat α) (nrHoriz nrVert : UInt32) (A : Csr2DFormat α) : Prop where
  nnz : A.nnz = m.nnz
  nrPart : A.nrPart = nrHoriz * nrVert
  height : A.height = divUp m.nrRows nrHoriz
  parts : ∀ e ∈ m.elems, gridPart m nrHoriz nrVert e < (nrHoriz * nrVert).toNat
  counts : A.nnzPerPart.Holds (nrHoriz * nrVert).toNat (Scatter.sizeOf (gridPart m nrHoriz nrVert) m.elems)
  rowPtr_size : A.rowPtr.size = rowPtrElems A.height A.nrPart
  tall : 0 < (nrHoriz * nrVert).toNat → A.height.toNat + 2 < 2 ^ 32
  ptr_lt : ∀ p < (nrHoriz * nrVert).toNat, ∀ j ≤ A.height.toNat, p * (A.height.toNat + 1) + j < A.rowPtr.size
  colIdx_size : A.colIdx.size = k.colCap m.nnz
  values_size : A.values.size = k.valCap m.nnz
  cols : m.elems.length ≤ k.colCap m.nnz
  vals : m.elems.length ≤ k.valCap m.nnz

/-- **What every run that comes through has made**, whatever the numbers of parts. -/
theorem made_of_run [Zero α] (hfits : m.elems.length < 2 ^ 32) {A : Csr2DFormat α} {scale : UInt32}
    (h : cooToCsr2DWith k m nrHoriz nrVert = some (A, scale)) : Csr2DMade k m nrHoriz nrVert A := by
  unfold cooToCsr2DWith at h
  simp only [Option.bind_eq_bind, Option.bind_eq_some_iff, Option.pure_def, Option.some.injEq, Prod.mk.injEq] at h
  obtain ⟨s, hcount, r, hsum, b, hstart, max, -, u, hfill, rfl, -⟩ := h
  have hbounds := Scatter.count_bounds hcount
  have hsizes := (Scatter.count_sizes hcount).2
  have hparts : ∀ e ∈ m.elems, gridPart m nrHoriz nrVert e < (nrHoriz * nrVert).toNat := fun e he => (hbounds e he).1
  obtain ⟨s', hcount', hn, -⟩ := Scatter.count_spec (γ := UInt32) hparts (fun e he => (hbounds e he).2)
    (s := (Buf.zeros (nrHoriz * nrVert).toNat, Buf.zeros (rowPtrElems (divUp m.nrRows nrHoriz) (nrHoriz * nrVert))))
    (Buf.zeros_holds _) (Buf.zeros_holds _)
  obtain rfl : s' = s := Option.some.inj (hcount'.symm.trans hcount)
  have hcounts := hn.congr fun p _ => Nat.zero_add (Scatter.sizeOf (gridPart m nrHoriz nrVert) m.elems p)
  obtain ⟨b', hstart', hb⟩ := Scatter.starts_spec (id : UInt32 → UInt32) hcounts fun _ _ => rfl
  obtain rfl : b' = b := Option.some.inj (hstart'.symm.trans hstart)
  obtain ⟨hcols, hvals⟩ := Scatter.fill_bounds hparts hfits.le hb hfill
  obtain ⟨hcol, hval⟩ := Scatter.fill_sizes hfill
  have htall : 0 < (nrHoriz * nrVert).toNat → (divUp m.nrRows nrHoriz).toNat + 2 < 2 ^ 32 := fun hpos =>
    height_of_sums (l := gridLayout m nrHoriz nrVert) hsizes hpos hsum
  obtain ⟨hsize, hptr⟩ : r.size = s'.2.size ∧ ∀ p < (nrHoriz * nrVert).toNat, ∀ j < (divUp m.nrRows nrHoriz).toNat + 1,
      ((gridLayout m nrHoriz nrVert).rowBase (UInt32.ofNat p)).toNat + j < s'.2.size := by
    apply foldlM_range_of_some (fun i t => t.size = s'.2.size ∧ ∀ p < i, ∀ j < (divUp m.nrRows nrHoriz).toNat + 1,
      ((gridLayout m nrHoriz nrVert).rowBase (UInt32.ofNat p)).toNat + j < s'.2.size) _ _ hsum
    · exact ⟨rfl, fun p hp => absurd hp (Nat.not_lt_zero p)⟩
    · intro i _ t t' ⟨ht, hbefore⟩ hstep
      obtain ⟨hkeep, hrows⟩ := Buf.runningSum_bounds hstep
      refine ⟨hkeep.trans ht, fun p hp => ?_⟩
      rcases Nat.lt_succ_iff_lt_or_eq.mp hp with hlt | rfl
      · exact hbefore p hlt
      · exact ht ▸ hrows
  refine ⟨rfl, rfl, rfl, hparts, hcounts, hsize.trans hsizes, htall, ?_, hcol, hval, hcols, hvals⟩
  intro p hp j hj
  have hplace := hptr p hp j (Nat.lt_succ_of_le hj)
  rw [rowBase_toNat (Nat.lt_of_succ_lt (htall (Nat.zero_lt_of_lt hp))),
    UInt32.toNat_ofNat_of_lt' (hp.trans (nrHoriz * nrVert).toNat_lt)] at hplace
  exact hsize ▸ hplace

theorem rowPtrElems_of_lt {height nrPart : UInt32} (h : height.toNat + 2 < 2 ^ 32) :
    rowPtrElems height nrPart = (height.toNat + 2) * nrPart.toNat := by
  have hpart := nrPart.toNat_lt
  have htwo : (height + 2).toNat = height.toNat + 2 := (UInt32.toNat_add _ _).trans (Nat.mod_eq_of_lt h)
  unfold rowPtrElems
  rw [UInt64.toNat_mul, UInt32.toNat_toUInt64, UInt32.toNat_toUInt64, htwo, Nat.mod_eq_of_lt (by nlinarith)]

/-- a row pointer of a part, in the array -/
theorem rowPtr_lt {height : UInt32} {n p j : ℕ} (hp : p < n) (hj : j ≤ height.toNat) :
    p * (height.toNat + 1) + j < (height.toNat + 2) * n := by
  calc p * (height.toNat + 1) + j
      < p * (height.toNat + 1) + (height.toNat + 1) := Nat.add_lt_add_left (Nat.lt_succ_of_le hj) _
    _ = (p + 1) * (height.toNat + 1) := (Nat.succ_mul _ _).symm
    _ ≤ n * (height.toNat + 2) := Nat.mul_le_mul hp (Nat.le_succ _)
    _ = (height.toNat + 2) * n := Nat.mul_comm _ _

/-- the loop over the parts -/
theorem sums_defined {l : Layout} {P : UInt32} {b : Buf UInt32} {n : ℕ → ℕ} (hheight : 0 < P.toNat → l.height.toNat + 2 < 2 ^ 32)
    (hb : b.Holds (rowPtrElems l.height P) n) : ∃ b', (List.range P.toNat).foldlM
      (fun r i => Buf.runningSum (l.rowBase (UInt32.ofNat i)).toNat (l.height.toNat + 1) r) b = some b' := by
  obtain ⟨b', hrun, -⟩ := foldlM_range
    (fun r i => Buf.runningSum (l.rowBase (UInt32.ofNat i)).toNat (l.height.toNat + 1) r) P.toNat b
    (fun _ r => ∃ n : ℕ → ℕ, r.Holds (rowPtrElems l.height P) n) ⟨n, hb⟩ (by
      intro i hi r ⟨n, hr⟩
      have htall := hheight (Nat.zero_lt_of_lt hi)
      have hplace : i * (l.height.toNat + 1) + l.height.toNat < (l.height.toNat + 2) * P.toNat := rowPtr_lt hi le_rfl
      have hroom : (l.rowBase (UInt32.ofNat i)).toNat + (l.height.toNat + 1) ≤ rowPtrElems l.height P := by
        rw [rowBase_toNat (Nat.lt_of_succ_lt htall), UInt32.toNat_ofNat_of_lt' (hi.trans P.toNat_lt), rowPtrElems_of_lt htall]
        exact hplace
      obtain ⟨r', hscan, hholds⟩ := Buf.runningSum_spec hr hroom
      exact ⟨r', hscan, _, hholds⟩)
  exact ⟨b', hrun⟩

/-- **Enough** for the passes. -/
theorem run_of_fits [Zero α] (hm : InRange m) (hhoriz : 1 ≤ nrHoriz.toNat)
    (hparts : ∀ e ∈ m.elems, gridPart m nrHoriz nrVert e < (nrHoriz * nrVert).toNat)
    (hheight : 0 < (nrHoriz * nrVert).toNat → (divUp m.nrRows nrHoriz).toNat + 2 < 2 ^ 32)
    (hcols : m.elems.length ≤ k.colCap m.nnz) (hvals : m.elems.length ≤ k.valCap m.nnz) :
    ∃ A scale, cooToCsr2DWith k m nrHoriz nrVert = some (A, scale) := by
  have hcells : ∀ e ∈ m.elems, ((gridLayout m nrHoriz nrVert).calIdx e).toNat <
      rowPtrElems (divUp m.nrRows nrHoriz) (nrHoriz * nrVert) := by
    intro e he
    have hpart := hparts e he
    have htall := hheight (Nat.zero_lt_of_lt hpart)
    have hpos := divUp_pos hhoriz (hm.row_lt e he)
    have hlocal := Nat.mod_lt e.row hpos
    rw [calIdx_toNat (Nat.lt_of_succ_lt htall) hpos, localRow_toNat, rowPtrElems_of_lt htall]
    exact rowPtr_lt hpart hlocal
  obtain ⟨s, hcount, hn, hr⟩ := Scatter.count_spec (γ := UInt32) hparts hcells
    (s := (Buf.zeros (nrHoriz * nrVert).toNat, Buf.zeros (rowPtrElems (divUp m.nrRows nrHoriz) (nrHoriz * nrVert))))
    (Buf.zeros_holds _) (Buf.zeros_holds _)
  have hcounts := hn.congr fun p _ => Nat.zero_add (Scatter.sizeOf (gridPart m nrHoriz nrVert) m.elems p)
  obtain ⟨r, hsum⟩ := sums_defined (l := gridLayout m nrHoriz nrVert) hheight hr
  obtain ⟨b, hstart, hb⟩ := Scatter.starts_spec (id : UInt32 → UInt32) hcounts fun _ _ => rfl
  obtain ⟨max, hmax⟩ := maxNnz_defined (b := s.1) hcounts.1.ge
  obtain ⟨u, hfill, -⟩ := Scatter.fill_spec (f := (gridLayout m nrHoriz nrVert).localCol) (g := Elem.values) hparts hm.fits.le hb
    (c := ⟨k.colCap m.nnz, fun _ => 0⟩) (v := ⟨k.valCap m.nnz, fun _ => 0⟩) hcols hvals
  unfold cooToCsr2DWith
  simp only [Option.bind_eq_bind]
  rw [hcount, Option.bind_some, hsum, Option.bind_some, hstart, Option.bind_some, hmax, Option.bind_some, hfill]
  exact ⟨_, _, rfl⟩

/-- **A CSR_2D matrix that was built** comes back, of any size. -/
theorem dcsr_kept [Zero α] (x : Reps α v) (hfits : m.elems.length < 2 ^ 32) {A : Csr2DFormat α} {scale : UInt32}
    (h : cooToCsr2DWith k m nrHoriz nrVert = some (A, scale)) : ∃ file B, saveDcsrMatrix x A = some file ∧
      loadDcsrMatrix x file = some (B, []) ∧ DcsrRestored A B ∧ DcsrSameReads A B := by
  have hmade := made_of_run hfits h
  have hnnz : A.nnz.toNat = m.elems.length := by
    rw [hmade.nnz]
    exact UInt32.toNat_ofNat_of_lt' hfits
  have hcol : A.nnz.toNat ≤ A.colIdx.size := by
    rw [hnnz, hmade.colIdx_size]
    exact hmade.cols
  have hval : A.nnz.toNat ≤ A.values.size := by
    rw [hnnz, hmade.values_size]
    exact hmade.vals
  have hcounts := hmade.counts
  rw [← hmade.nrPart] at hcounts
  obtain ⟨file, hfile⟩ := saveDcsr_of_le x hmade.rowPtr_size.ge hcol hval hcounts.1.ge
  obtain ⟨B, hB, hrestored⟩ := loadDcsr_save hfile
  refine ⟨file, B, hfile, hB, hrestored, ?_, fun p hp => hrestored.nnzPerPart.read hp, ?_⟩
  · intro p hp j hj
    apply hrestored.rowPtr.read
    rw [← hmade.rowPtr_size]
    exact hmade.ptr_lt p (hmade.nrPart ▸ hp) j hj
  · intro p hp i hi
    have hcount : ∀ q < A.nrPart.toNat, A.nnzOf q = Scatter.sizeOf (gridPart m nrHoriz nrVert) m.elems q := by
      intro q hq
      unfold Csr2DFormat.nnzOf
      rw [hcounts.2 q hq]
      exact UInt32.toNat_ofNat_of_lt' (List.countP_le_length.trans_lt hfits)
    have hcuts : Cuts (Scatter.startOf (gridPart m nrHoriz nrVert) m.elems) (nrHoriz * nrVert).toNat 0 m.elems.length :=
      Scatter.starts_cuts hmade.parts
    have hstart : A.start p = Scatter.startOf (gridPart m nrHoriz nrVert) m.elems p :=
      Finset.sum_congr rfl fun q hq => hcount q ((Finset.mem_range.mp hq).trans hp)
    have hle := hcuts.le_hi (i := p + 1) (hmade.nrPart ▸ hp)
    rw [Scatter.startOf_succ] at hle
    rw [hcount p hp] at hi
    have hlt : A.start p + i < A.nnz.toNat := by
      rw [hnnz, hstart]
      exact (Nat.add_lt_add_left hi _).trans_le hle
    exact ⟨hrestored.colIdx.read hlt, hrestored.values.read hlt⟩

end Csr2D

/-! ## RBDCSR matrices that are built -/

section Rbdcsr

variable [Zero α] {m : CooFormat α} {horz vert : UInt32} {junk junk' : ℕ → UInt32} {A B : RBDCSRArrays α}

/-- two runs differ in `dcolind` and `dval` at most -/
theorem arrays_junk (hA : coo2rbdcsrArrays junk m horz vert = some A) (hB : coo2rbdcsrArrays junk' m horz vert = some B) :
    A = { B with dcolind := A.dcolind, dval := A.dval } := by
  have hpointers := (pointers_of_arrays hA).symm.trans (pointers_of_arrays hB)
  unfold coo2rbdcsrArrays at hA hB
  simp only [Option.bind_eq_bind, Option.bind_eq_some_iff, Option.pure_def, Option.some.injEq] at hA hB
  obtain ⟨p, -, b, -, u, -, rfl⟩ := hA
  obtain ⟨q, -, c, -, w, -, rfl⟩ := hB
  obtain ⟨hcounts, hdrowptr⟩ := Prod.mk.inj (Option.some.inj hpointers)
  dsimp only at hcounts hdrowptr ⊢
  rw [hcounts, hdrowptr]

/-- **Every element that is saved was initialised**: the file does not depend on what `malloc` has left. -/
theorem saveRbdcsr_junk (x : Reps α v) (hm : InRange m) (hvert : 1 ≤ vert.toNat)
    (hA : coo2rbdcsrArrays junk m horz vert = some A) (hB : coo2rbdcsrArrays junk' m horz vert = some B) :
    saveRbdcsrMatrix x A = saveRbdcsrMatrix x B := by
  obtain ⟨hroom, hsize⟩ := (arrays_iff junk hm hvert).mp ⟨A, hA⟩
  have hA' := tiled_of_arrays (t := ⟨horz, vert, hvert, hroom⟩) hm hsize hA
  have hB' := tiled_of_arrays (t := ⟨horz, vert, hvert, hroom⟩) hm hsize hB
  obtain ⟨hcolA, hvalA⟩ := hA'.entries_inside hsize
  obtain ⟨hcolB, hvalB⟩ := hB'.entries_inside hsize
  have hsame := arrays_junk hA hB
  have hnnz : A.nnz = m.nnz := hA'.built.nnz
  have hnnz' : B.nnz = m.nnz := hB'.built.nnz
  have hlen : m.nnz.toNat = m.elems.length := UInt32.toNat_ofNat_of_lt' hm.fits
  have hentries : ∀ i < B.nnz.toNat, A.dcolind.cell i = B.dcolind.cell i ∧ A.dval.cell i = B.dval.cell i := by
    intro i hi
    rw [hnnz', hlen] at hi
    exact hA'.entries_eq hm hB' hi
  rw [hnnz, ← hnnz'] at hcolA hvalA
  have hdcolind := fwrite_congr x.word hcolA hcolB fun i hi => (hentries i hi).1
  have hdval := fwrite_congr x.val hvalA hvalB fun i hi => (hentries i hi).2
  rw [hsame]
  unfold saveRbdcsrMatrix
  dsimp only
  rw [hdcolind, hdval]

/-- **An RBDCSR matrix that was built** comes back. -/
theorem rbdcsr_kept (x : Reps α v) (hm : InRange m) (hvert : 1 ≤ vert.toNat) (h : coo2rbdcsrArrays junk m horz vert = some A) :
    ∃ file, saveRbdcsrMatrix x A = some file ∧
      ∀ left, ∃ B, loadRbdcsrMatrix x left file = some (B, []) ∧ RbdcsrRestored A B ∧ RbdcsrSameReads A B := by
  obtain ⟨hroom, hsize⟩ := (arrays_iff junk hm hvert).mp ⟨A, h⟩
  have hA := tiled_of_arrays (t := ⟨horz, vert, hvert, hroom⟩) hm hsize h
  obtain ⟨hcol, hval⟩ := hA.entries_inside hsize
  have hnrows : A.nrows = m.nrRows := hA.built.nrows
  have hparts : A.vertPartitions = vert := hA.built.vert
  have hnnz : A.nnz.toNat = m.elems.length := (congrArg UInt32.toNat hA.built.nnz).trans (UInt32.toNat_ofNat_of_lt' hm.fits)
  have hcounts : A.vertPartitions.toNat ≤ A.nnzsPerVertPartition.size := by
    rw [hA.counts_size, hparts]
  have hrow : drowptrElems A.nrows A.vertPartitions ≤ A.drowptr.size := by
    rw [hA.drowptr_size, hnrows, hparts]
    exact Tiled.drowptrElems_le ⟨horz, vert, hvert, hroom⟩
  obtain ⟨file, hfile⟩ := saveRbdcsr_of_le x hcounts hrow hcol hval
  refine ⟨file, hfile, fun left => ?_⟩
  obtain ⟨B, hB, hrestored⟩ := loadRbdcsr_save hfile left
  refine ⟨B, hB, hrestored, ?_, fun c hc => hrestored.counts.read hc, ?_⟩
  · intro c j hc hj
    apply hrestored.drowptr.read
    rw [hparts] at hc ⊢
    rw [hnrows] at hj ⊢
    exact Tiled.tileCell_lt ⟨horz, vert, hvert, hroom⟩ hc hj
  · intro c hc i hi
    rw [hparts] at hc
    have hlt := hA.start_add_lt hm hc hi
    rw [← hnnz] at hlt
    exact ⟨hrestored.dcolind.read hlt, hrestored.dval.read hlt⟩

end Rbdcsr

/-! ## When the matrices are kept -/

section Kept

/-- the bounds of the arrays: every part number is one of the parts, `height + 2` fits 32 bits, and `values` has room, which in
SpMV_OFIS depends on the size of a `val_dt`; for the tiles, `(nrows + 2) * vert_partitions` and `nnz + 8` fit 32 bits -/
structure FilesFit (v : ValDt) (k : Copy) (m : CooFormat α) (s : Partitions) : Prop where
  parts : ∀ e ∈ m.elems, gridPart m s.nrHoriz s.nrVert e < (s.nrHoriz * s.nrVert).toNat
  height : 0 < (s.nrHoriz * s.nrVert).toNat → (divUp m.nrRows s.nrHoriz).toNat + 2 < 2 ^ 32
  values : k = .ofis → m.elems = [] ∨ v.byteDt.toNat ≤ 4
  entries : k = .es → m.elems.length + 10000000 < 2 ^ 32
  rows : (m.nrRows.toNat + 2) * s.vertPartitions.toNat < 2 ^ 32
  nnz : m.elems.length + 8 < 2 ^ 32

variable {m : CooFormat α}

/-- the room for entries, in SpMV_OFIS -/
theorem ofis_room (hfits : m.elems.length < 2 ^ 32) :
    m.elems.length ≤ floatsFor v m.nnz ↔ m.elems = [] ∨ v.byteDt.toNat ≤ 4 := by
  have hnnz : m.nnz.toNat = m.elems.length := UInt32.toNat_ofNat_of_lt' hfits
  rcases eq_or_ne m.elems [] with hnil | hne
  · rw [hnil]
    exact iff_of_true (Nat.zero_le _) (Or.inl rfl)
  · have hpos : 0 < m.nnz.toNat := hnnz.symm ▸ List.length_pos_iff.mpr hne
    rw [← hnnz, floatsFor_iff v hpos]
    exact (or_iff_right hne).symm

/-- the room for entries, in SparseP_ES -/
theorem es_room (hfits : m.elems.length < 2 ^ 32) :
    m.elems.length ≤ (m.nnz + 10000000).toNat ↔ m.elems.length + 10000000 < 2 ^ 32 := by
  have hnnz : m.nnz.toNat = m.elems.length := UInt32.toNat_ofNat_of_lt' hfits
  have hadd : (m.nnz + 10000000).toNat = (m.elems.length + 10000000) % 2 ^ 32 := hnnz ▸ UInt32.toNat_add m.nnz 10000000
  rw [hadd]
  omega

/-- **When a CSR_2D matrix is built.** -/
theorem csr2d_built_iff [Zero α] (k : Copy) (hm : InRange m) (s : Partitions) :
    (∃ A scale, cooToCsr2D v k m s.nrHoriz s.nrVert = some (A, scale)) ↔
      (∀ e ∈ m.elems, gridPart m s.nrHoriz s.nrVert e < (s.nrHoriz * s.nrVert).toNat) ∧
      (0 < (s.nrHoriz * s.nrVert).toNat → (divUp m.nrRows s.nrHoriz).toNat + 2 < 2 ^ 32) ∧
      (k = .ofis → m.elems = [] ∨ v.byteDt.toNat ≤ 4) ∧ (k = .es → m.elems.length + 10000000 < 2 ^ 32) := by
  have hnnz : m.nnz.toNat = m.elems.length := UInt32.toNat_ofNat_of_lt' hm.fits
  constructor
  · rintro ⟨A, scale, h⟩
    cases k with
    | ofis =>
      have hmade := made_of_run hm.fits h
      exact ⟨hmade.parts, fun hpos => hmade.height ▸ hmade.tall hpos, fun _ => (ofis_room hm.fits).mp hmade.vals, nofun⟩
    | es =>
      have hmade := made_of_run hm.fits h
      exact ⟨hmade.parts, fun hpos => hmade.height ▸ hmade.tall hpos, nofun, fun _ => (es_room hm.fits).mp hmade.vals⟩
  · rintro ⟨hparts, hheight, hvalues, hentries⟩
    cases k with
    | ofis => exact run_of_fits hm s.horiz_pos hparts hheight hnnz.ge ((ofis_room hm.fits).mpr (hvalues rfl))
    | es =>
      have hroom := (es_room hm.fits).mpr (hentries rfl)
      exact run_of_fits hm s.horiz_pos hparts hheight hroom hroom

/-- **When the matrices are built and come back from their files**, with all that is read of them. -/
theorem filesKept_iff [Zero α] (x : Reps α v) (k : Copy) (m : {m : CooFormat α // InRange m}) (s : Partitions) :
    FilesKept x k m.1 s ↔ FilesFit v k m.1 s := by
  constructor
  · rintro ⟨⟨A, scale, hA, -⟩, ⟨file, hfile⟩⟩
    obtain ⟨hparts, hheight, hvalues, hentries⟩ := (csr2d_built_iff k m.2 s).mp ⟨A, scale, hA⟩
    obtain ⟨B, -, hB, -⟩ := hfile (fun _ => 0) ⟨fun _ => 0, fun _ => 0, fun _ => 0, fun _ => 0⟩
    obtain ⟨hrows, hnnz⟩ := (arrays_iff (fun _ => 0) m.2 s.tiles_pos).mp ⟨B, hB⟩
    exact ⟨hparts, hheight, hvalues, hentries, hrows, hnnz⟩
  · intro h
    constructor
    · obtain ⟨A, scale, hA⟩ := (csr2d_built_iff k m.2 s).mpr ⟨h.parts, h.height, h.values, h.entries⟩
      refine ⟨A, scale, hA, ?_⟩
      cases k with
      | ofis => exact dcsr_kept x m.2.fits hA
      | es => exact dcsr_kept x m.2.fits hA
    · have hbuilt : ∀ junk, ∃ A, coo2rbdcsrArrays junk m.1 s.horzPartitions s.vertPartitions = some A := fun junk =>
        (arrays_iff junk m.2 s.tiles_pos).mpr ⟨h.rows, h.nnz⟩
      obtain ⟨A, hA⟩ := hbuilt fun _ => 0
      obtain ⟨file, hfile, -⟩ := rbdcsr_kept x m.2 s.tiles_pos hA
      refine ⟨file, fun junk left => ?_⟩
      obtain ⟨B, hB⟩ := hbuilt junk
      obtain ⟨file', hfile', hload⟩ := rbdcsr_kept x m.2 s.tiles_pos hB
      obtain rfl : file' = file := by
        rw [saveRbdcsr_junk x m.2 s.tiles_pos hB hA, hfile] at hfile'
        exact (Option.some.inj hfile').symm
      obtain ⟨C, hC, hrestored, hreads⟩ := hload left
      exact ⟨B, C, hB, hfile', hC, hrestored, hreads⟩

/-- one entry in 2^31 rows -/
def tallMatrix : {m : CooFormat UInt32 // InRange m} :=
  ⟨⟨2147483648, 2, Buf.zeros 2147483648, [⟨0, 0, 1⟩]⟩, by
    refine ⟨?_, ?_, by decide⟩
    · intro e he
      rw [List.mem_singleton.mp he]
      decide
    · intro e he
      rw [List.mem_singleton.mp he]
      decide⟩

/-- Two tiles of 2^31 rows: `drowptr` has 4 elements, the loops write 2^32 + 2 and the file has 2. -/
theorem tallMatrix_lost : ((tallMatrix.1.nrRows + 2) * 2).toNat = 4 ∧ drowptrElems tallMatrix.1.nrRows 2 = 2 ∧
    ¬ FilesKept (⟨.word, .word, rfl, rfl⟩ : Reps UInt32 .int32) .ofis tallMatrix.1
      ⟨1, 2, 1, 2, by decide, by decide, by decide⟩ := by
  refine ⟨by decide, by decide, fun h => ?_⟩
  obtain ⟨file, hfile⟩ := h.rbdcsr
  obtain ⟨A, -, hA, -⟩ := hfile (fun _ => 0) ⟨fun _ => 0, fun _ => 0, fun _ => 0, fun _ => 0⟩
  have hroom : (tallMatrix.1.nrRows.toNat + 2) * UInt32.toNat 2 < 2 ^ 32 := room_of_arrays (by decide) hA
  have hrows : tallMatrix.1.nrRows.toNat = 2 ^ 31 := by decide
  rw [hrows] at hroom
  exact absurd hroom (by decide)

end Kept

end PimOfis.SpMV
