/-
The host buffers of SpMV (`main` and `thread_fct` of `CSR_host_OFIS_ig.c`).

Every number `main` computes is a `uint32_t`, but for the start of the row pointers. All DPUs of a push get one length, that
of the largest partition or of the largest one in the push, made even, and each start is that of the partition itself; the
allocations leave room behind the last one for the row pointers and the entries, but `input_vec` only for one word, if
`nr_vert * width` is odd. The lengths are those of 4-byte words, whatever `val_dt` is.

`sizes`, `dpuInfo` and the rest take the rounding of a result as a parameter: `word` is the program, `id` the exact value.
The transfers are those of the runs of `IgSchedule`.

Results:
- `noWrap_iff`: when all numbers are exact;
- `refill_reached`: every partition behind the first ones is sent in some run, with every transfer;
- `transfers_inside`: every range is inside its allocation, if the file fits;
- `hostBuffersOk_iff`: when the buffers are large enough.
-/
import Mathlib.Tactic
import PimOfis.Lib.Alloc
import PimOfis.Lib.Loops
import PimOfis.Schedule.Progress
import PimOfis.SpMV.Csr2DFile
import PimOfis.SpMV.IgSchedule

namespace PimOfis.SpMV.Ig

open Schedule Lib

/-! ## Model -/

/-- a result in a `uint32_t` -/
def word (x : ℕ) : ℕ := x % 2 ^ 32

/-- `if(x % 2 != 0) x += 1` -/
def pad (round : ℕ → ℕ) (x : ℕ) : ℕ := if x % 2 ≠ 0 then round (x + 1) else x

/-- the largest of `g 0`, .., `g (n - 1)` -/
def maxOver (n : ℕ) (g : ℕ → ℕ) : ℕ := (List.range n).foldl (fun m p => if g p > m then g p else m) 0

/-- the numbers `main` computes, and the lengths and offsets of `thread_fct` -/
structure Sizes where
  rowsPad : ℕ
  colsPad : ℕ
  widthPad : ℕ
  maxNrRows : ℕ
  maxNnz : ℕ
  /-- `nr_part + 64`, the entries of `dpu_info` and `input_args` -/
  infos : ℕ
  /-- `nnz + max_nnz`, the elements of `col_idx` and `values` -/
  entries : ℕ
  /-- `nr_part * max_nr_rows`, the elements of `output_vec` -/
  outputs : ℕ
  outSize : ℕ
  vecSize : ℕ
  colSize : ℕ
  vecBase : ℕ
  rowBase : ℕ
  colBase : ℕ
  valBase : ℕ
deriving DecidableEq, Repr

/-- an entry of `dpu_info` -/
structure DpuInfo where
  nrRows : ℕ
  startRow : ℕ
  startIdx : ℕ
  nnz : ℕ
  startRowPtr : ℕ
deriving DecidableEq, Repr

section Numbers

variable {α : Type} (round : ℕ → ℕ) (f : Csr2DFile α)

def sizes : Sizes :=
  let widthPad := pad round f.width.toNat
  let maxNrRows := pad round (maxOver f.nrPart.toNat fun _ => pad round (round (f.height.toNat + 1)))
  let maxNnz := pad round (maxOver f.nrPart.toNat fun p => pad round (f.nnzOf p))
  let outSize := round (maxNrRows * 4)
  let vecSize := round (widthPad * 4)
  let rowSize := outSize
  let colSize := round (maxNnz * 4)
  let outBase := 0
  let vecBase := round (outBase + outSize)
  let rowBase := round (vecBase + vecSize)
  let colBase := round (rowBase + rowSize)
  { rowsPad := pad round (round (f.nrHoriz.toNat * f.height.toNat))
    colsPad := pad round (round (f.nrVert.toNat * f.width.toNat))
    widthPad, maxNrRows, maxNnz
    infos := round (f.nrPart.toNat + 64)
    entries := round (f.nnz.toNat + maxNnz)
    outputs := round (f.nrPart.toNat * maxNrRows)
    outSize, vecSize, colSize, vecBase, rowBase, colBase
    valBase := round (colBase + colSize) }

/-- `dpu_info[p]`; `start_row_ptr` is computed in 64 bits but for `height + 1` -/
def dpuInfo (p : ℕ) : Option DpuInfo :=
  if p < f.nrPart.toNat then
    some
      { nrRows := f.height.toNat
        startRow := round (p / f.nrVert.toNat * f.height.toNat)
        startIdx := (List.range p).foldl (fun acc q => round (acc + f.nnzOf q)) 0
        nnz := f.nnzOf p
        startRowPtr := (p / f.nrVert.toNat * f.nrVert.toNat + p % f.nrVert.toNat) * round (f.height.toNat + 1) }
  else if p < f.nrPart.toNat + 64 then some ⟨0, 0, 0, 0, 0⟩
  else none

/-- the index into `input_vec` for partition `p` -/
def vecStart (p : ℕ) : ℕ := round (p % f.nrVert.toNat * f.width.toNat)

/-- the index into `output_vec` -/
def outStart (p : ℕ) : ℕ := round (p * (sizes round f).maxNrRows)

/-- `xfer_size`, from the entries of the largest partition of a push -/
def xferSize (nnz : ℕ) : ℕ := round (pad round nnz * 4)

end Numbers

/-- the buffers that transfers read or write -/
inductive Buffer where
  | rowPtr
  | colIdx
  | values
  | inputVec
  | outputVec
deriving DecidableEq, Repr

section Transfers

variable {α β : Type} (v : ValDt) (f : Csr2DFile α)

/-- the bytes allocated, `row_ptr` by `load_dcsr_matrix` -/
def allocated : Buffer → ℕ
  | .rowPtr => word (f.height.toNat + 2) * f.nrPart.toNat * 4
  | .colIdx => (sizes word f).entries * 4
  | .values => (sizes word f).entries * v.byteDt.toNat
  | .inputVec => (sizes word f).colsPad * v.byteDt.toNat
  | .outputVec => (sizes word f).outputs * v.byteDt.toNat

/-- the result of partition `p` -/
def outRange (p : ℕ) : Range := ⟨outStart word f p * v.byteDt.toNat, (sizes word f).outSize⟩

/-- what transfer `k` takes for partition `p`, in a push of entries of `len` bytes -/
def given (len k p : ℕ) : Option (Buffer × Range) :=
  match k with
  | 1 => (dpuInfo word f p).map fun i => (.rowPtr, ⟨i.startRowPtr * 4, (sizes word f).outSize⟩)
  | 2 => (dpuInfo word f p).map fun i => (.colIdx, ⟨i.startIdx * 4, len⟩)
  | 3 => (dpuInfo word f p).map fun i => (.values, ⟨i.startIdx * v.byteDt.toNat, len⟩)
  | 4 => some (.inputVec, ⟨vecStart word f p * v.byteDt.toNat, (sizes word f).vecSize⟩)
  | _ => none

/-- the length of a push, from the partitions whose entries are compared -/
def pushLength (ps : List ℕ) : Option ℕ :=
  (ps.foldlM (fun m p => (dpuInfo word f p).map fun i => if i.nnz > m then i.nnz else m) 0).map (xferSize word)

/-- the ranges of a push to the DPUs with partitions `ps` -/
def push (k : ℕ) (ps compared : List ℕ) : List (Option (Buffer × Range)) :=
  ps.map fun p => (pushLength f compared).bind fun len => given v f len k p

/-- the ranges the next step of thread `r` gives to a transfer; nothing where one is read from outside of `dpu_info` -/
def transfers (r : ℕ) (q : RankState 5 β) : List (Option (Buffer × Range)) :=
  let t := q.thread
  match t.pc with
  | .load k =>
    if 0 < k ∧ k < 5 then
      push v f k (indexes Finset.univ fun i => 64 * r + i.val) (indexes Finset.univ fun i => 64 * r + i.val)
    else []
  | .send k =>
    if 0 < k ∧ k < 5 then
      push v f k (indexes (sent igMode f.nrPart.toNat t k) (inputIndex igMode t k))
        ((List.range t.finish.card).map fun i => t.curr + i)
    else []
  | .retrieve => (indexes (retrieved igMode f.nrPart.toNat t) t.part).map fun p => some (.outputVec, outRange v f p)
  | _ => []

end Transfers

/-! ## Statement -/

section Statement

variable {α β : Type} (v : ValDt) (f : Csr2DFile α)

/-- no size and no offset wraps -/
structure NoWrap : Prop where
  sizes : sizes word f = sizes id f
  info : ∀ p < f.nrPart.toNat, dpuInfo word f p = dpuInfo id f p
  vec : ∀ p < f.nrPart.toNat, vecStart word f p = vecStart id f p
  out : ∀ p < f.nrPart.toNat, outStart word f p = outStart id f p
  xfer : ∀ p < f.nrPart.toNat, xferSize word (f.nnzOf p) = xferSize id (f.nnzOf p)

/-- a range inside its allocation -/
def Placed (x : Option (Buffer × Range)) : Prop := ∃ b r, x = some (b, r) ∧ r.Inside (allocated v f b)

/-- **The buffers are large enough**: every range of every transfer in every run lies inside, the results of different
partitions do not meet, and no size or offset wraps. -/
structure HostBuffersOk (kernel : (Fin 5 → ℕ) → β) (threads : ℕ) : Prop where
  noWrap : NoWrap f
  transfers : ∀ acts, ∀ r < threads,
    ∀ x ∈ transfers v f r ((run igMode kernel threads f.nrPart.toNat (init threads) acts).rank r), Placed v f x
  outputs : ∀ p < f.nrPart.toNat, (outRange v f p).Inside (allocated v f .outputVec)
  apart : ∀ p < f.nrPart.toNat, ∀ q < f.nrPart.toNat, p ≠ q → (outRange v f p).Apart (outRange v f q)

/-- made even -/
def evenNext (x : ℕ) : ℕ := x + x % 2

/-- the row pointers of a partition -/
def slot : ℕ := evenNext (f.height.toNat + 1)

/-- the entries of the largest partition -/
def largest : ℕ := maxOver f.nrPart.toNat fun p => evenNext (f.nnzOf p)

/-- **The file fits** the program's 32 bits and the number of threads, and there is room behind the last part of the input
vector: `val_dt` has eight bytes, or the width of a partition is even, or there are an odd number of them in a row. -/
structure Fits (threads : ℕ) : Prop where
  valDt : 4 ≤ v.byteDt.toNat
  dpus : 64 * threads ≤ f.nrPart.toNat + 64
  parts : f.nrPart.toNat + 64 < 2 ^ 32
  rows : evenNext (f.nrHoriz.toNat * f.height.toNat) < 2 ^ 32
  cols : evenNext (f.nrVert.toNat * f.width.toNat) < 2 ^ 32
  entries : f.nnz.toNat + largest f < 2 ^ 32
  outputs : f.nrPart.toNat * slot f < 2 ^ 32
  mram : (slot f + evenNext f.width.toNat + slot f + largest f) * 4 < 2 ^ 32
  vector : v.byteDt.toNat = 8 ∨ 2 ∣ f.width.toNat ∨ ¬ 2 ∣ f.nrVert.toNat

end Statement

/-! ## Exact numbers -/

section Exact

theorem word_of_lt {x : ℕ} (h : x < 2 ^ 32) : word x = x := Nat.mod_eq_of_lt h

theorem word_lt (x : ℕ) : word x < 2 ^ 32 := Nat.mod_lt _ (by decide)

theorem pad_id (x : ℕ) : pad id x = evenNext x := by
  unfold pad evenNext
  split_ifs with h
  · exact congrArg (x + ·) (Nat.mod_two_ne_zero.mp h).symm
  · rw [not_not.mp h, Nat.add_zero]

theorem pad_word_lt {x : ℕ} (h : x < 2 ^ 32) : pad word x < 2 ^ 32 := by
  unfold pad
  split_ifs
  · exact word_lt _
  · exact h

theorem le_evenNext (x : ℕ) : x ≤ evenNext x := Nat.le_add_right _ _

theorem pad_word_of_lt {x : ℕ} (h : evenNext x < 2 ^ 32) : pad word x = evenNext x := by
  rw [← pad_id] at h ⊢
  unfold pad at h ⊢
  split_ifs at h ⊢
  · exact word_of_lt h
  · rfl

theorem evenNext_even (x : ℕ) : evenNext x % 2 = 0 := by
  unfold evenNext
  omega

theorem evenNext_of_even {x : ℕ} (h : x % 2 = 0) : evenNext x = x := by rw [evenNext, h, Nat.add_zero]

theorem maxOver_eq (n : ℕ) (g : ℕ → ℕ) : maxOver n g = (List.range n).foldl (fun m p => max m (g p)) 0 :=
  foldl_ite_max g (List.range n) 0

theorem le_maxOver {n p : ℕ} (hp : p < n) (g : ℕ → ℕ) : g p ≤ maxOver n g := by
  rw [maxOver_eq]
  exact le_foldl_max (List.mem_range.mpr hp) 0

theorem maxOver_le {n b : ℕ} {g : ℕ → ℕ} (h : ∀ p < n, g p ≤ b) : maxOver n g ≤ b := by
  rw [maxOver_eq]
  exact foldl_max_le (Nat.zero_le b) fun p hp => h p (List.mem_range.mp hp)

theorem maxOver_congr {n : ℕ} {g h : ℕ → ℕ} (heq : ∀ p < n, g p = h p) : maxOver n g = maxOver n h := by
  apply le_antisymm
  · exact maxOver_le fun p hp => (heq p hp).trans_le (le_maxOver hp h)
  · exact maxOver_le fun p hp => (heq p hp).ge.trans (le_maxOver hp g)

theorem maxOver_const {n : ℕ} (hn : 0 < n) (b : ℕ) : maxOver n (fun _ => b) = b :=
  le_antisymm (maxOver_le fun _ _ => le_rfl) (le_maxOver hn fun _ => b)

/-- the largest of even numbers is even -/
theorem maxOver_even {n : ℕ} {g : ℕ → ℕ} (h : ∀ p < n, g p % 2 = 0) : maxOver n g % 2 = 0 := by
  rw [maxOver_eq]
  induction n with
  | zero => rfl
  | succ n ih =>
    have hprev := ih fun p hp => h p (Nat.lt_succ_of_lt hp)
    rw [List.range_succ, List.foldl_append, List.foldl_cons, List.foldl_nil]
    rcases max_choice ((List.range n).foldl (fun m p => max m (g p)) 0) (g n) with hmax | hmax
    · rw [hmax]; exact hprev
    · rw [hmax]; exact h n (Nat.lt_succ_self n)

end Exact

/-! ## When nothing wraps -/

section Wrapping

variable {α : Type} {v : ValDt} {f : Csr2DFile α} {threads : ℕ}

theorem largest_even : evenNext (largest f) = largest f := evenNext_of_even (maxOver_even fun _ _ => evenNext_even _)

theorem slot_even : evenNext (slot f) = slot f := evenNext_of_even (evenNext_even _)

theorem nnzOf_le_largest {p : ℕ} (hp : p < f.nrPart.toNat) : evenNext (f.nnzOf p) ≤ largest f :=
  le_maxOver hp fun p => evenNext (f.nnzOf p)

/-- the exact numbers -/
theorem sizes_id (f : Csr2DFile α) : sizes id f =
    { rowsPad := evenNext (f.nrHoriz.toNat * f.height.toNat)
      colsPad := evenNext (f.nrVert.toNat * f.width.toNat)
      widthPad := evenNext f.width.toNat
      maxNrRows := slot f
      maxNnz := largest f
      infos := f.nrPart.toNat + 64
      entries := f.nnz.toNat + largest f
      outputs := f.nrPart.toNat * slot f
      outSize := slot f * 4
      vecSize := evenNext f.width.toNat * 4
      colSize := largest f * 4
      vecBase := 0 + slot f * 4
      rowBase := 0 + slot f * 4 + evenNext f.width.toNat * 4
      colBase := 0 + slot f * 4 + evenNext f.width.toNat * 4 + slot f * 4
      valBase := 0 + slot f * 4 + evenNext f.width.toNat * 4 + slot f * 4 + largest f * 4 } := by
  have hslot : evenNext (maxOver f.nrPart.toNat fun _ => evenNext (f.height.toNat + 1)) = slot f := by
    rw [maxOver_const f.nrPart_pos]
    exact slot_even
  have hnnz : evenNext (maxOver f.nrPart.toNat fun p => evenNext (f.nnzOf p)) = largest f := largest_even
  simp only [sizes, pad_id, id, hslot, hnnz]

/-- the program's numbers, where the exact ones fit -/
theorem Fits.sizes_eq (h : Fits v f threads) : sizes word f = sizes id f := by
  have hpos := f.nrPart_pos
  have hmram := h.mram
  have hslot : slot f < 2 ^ 32 := by omega
  have hrows : f.height.toNat + 1 < 2 ^ 32 := (le_evenNext _).trans_lt hslot
  have hlargest : largest f < 2 ^ 32 := by omega
  have hwidth : evenNext f.width.toNat < 2 ^ 32 := by omega
  have hmaxRows : pad word (maxOver f.nrPart.toNat fun _ => pad word (word (f.height.toNat + 1))) = slot f := by
    have hrow : pad word (f.height.toNat + 1) = slot f := pad_word_of_lt hslot
    rw [maxOver_const hpos, word_of_lt hrows, hrow, pad_word_of_lt (slot_even.trans_lt hslot), slot_even]
  have hmaxNnz : pad word (maxOver f.nrPart.toNat fun p => pad word (f.nnzOf p)) = largest f := by
    have heq : (maxOver f.nrPart.toNat fun p => pad word (f.nnzOf p)) = largest f :=
      maxOver_congr fun p hp => pad_word_of_lt ((nnzOf_le_largest hp).trans_lt hlargest)
    rw [heq, pad_word_of_lt (largest_even.trans_lt hlargest), largest_even]
  have hrowsPad : pad word (word (f.nrHoriz.toNat * f.height.toNat)) = evenNext (f.nrHoriz.toNat * f.height.toNat) := by
    rw [word_of_lt ((le_evenNext _).trans_lt h.rows), pad_word_of_lt h.rows]
  have hcolsPad : pad word (word (f.nrVert.toNat * f.width.toNat)) = evenNext (f.nrVert.toNat * f.width.toNat) := by
    rw [word_of_lt ((le_evenNext _).trans_lt h.cols), pad_word_of_lt h.cols]
  have hout : word (slot f * 4) = slot f * 4 := word_of_lt (by omega)
  have hvec : word (evenNext f.width.toNat * 4) = evenNext f.width.toNat * 4 := word_of_lt (by omega)
  have hcol : word (largest f * 4) = largest f * 4 := word_of_lt (by omega)
  rw [sizes_id]
  unfold sizes
  simp only [hmaxRows, hmaxNnz, hrowsPad, hcolsPad, pad_word_of_lt hwidth, hout, hvec, hcol, word_of_lt h.parts,
    word_of_lt h.entries, word_of_lt h.outputs, Sizes.mk.injEq, true_and]
  have hvecBase : word (0 + slot f * 4) = 0 + slot f * 4 := word_of_lt (by omega)
  have hrowBase : word (0 + slot f * 4 + evenNext f.width.toNat * 4) = 0 + slot f * 4 + evenNext f.width.toNat * 4 :=
    word_of_lt (by omega)
  have hcolBase : word (0 + slot f * 4 + evenNext f.width.toNat * 4 + slot f * 4) =
      0 + slot f * 4 + evenNext f.width.toNat * 4 + slot f * 4 := word_of_lt (by omega)
  rw [hvecBase, hrowBase, hcolBase]
  exact ⟨rfl, rfl, rfl, word_of_lt (by omega)⟩

/-- the running sum of `main` is the place of the partition's first entry -/
theorem startIdx_eq {round : ℕ → ℕ} (hround : ∀ x < 2 ^ 32, round x = x) {p : ℕ} (hp : p ≤ f.nrPart.toNat) :
    (List.range p).foldl (fun acc q => round (acc + f.nnzOf q)) 0 = f.start p := by
  induction p with
  | zero => rfl
  | succ p ih =>
    rw [List.range_succ, List.foldl_append, ih (Nat.le_of_succ_le hp), List.foldl_cons, List.foldl_nil, f.start_succ]
    exact hround _ ((f.start_succ p).symm.trans_lt (f.start_lt hp))

/-- a partition lies in the rows and columns of the grid -/
theorem grid_lt {p : ℕ} (hp : p < f.nrPart.toNat) :
    p / f.nrVert.toNat < f.nrHoriz.toNat ∧ p % f.nrVert.toNat < f.nrVert.toNat := by
  rw [f.part_eq] at hp
  exact ⟨Nat.div_lt_of_lt_mul (Nat.mul_comm _ _ ▸ hp), Nat.mod_lt p f.vert_pos⟩

theorem Fits.info_eq (h : Fits v f threads) {p : ℕ} (hp : p < f.nrPart.toNat) :
    dpuInfo word f p = some ⟨f.height.toNat, p / f.nrVert.toNat * f.height.toNat, f.start p, f.nnzOf p,
      p * (f.height.toNat + 1)⟩ := by
  have hmram := h.mram
  have hrows : f.height.toNat + 1 < 2 ^ 32 := (le_evenNext _).trans_lt (show slot f < 2 ^ 32 by omega)
  have hstart : p / f.nrVert.toNat * f.height.toNat < 2 ^ 32 := by
    calc p / f.nrVert.toNat * f.height.toNat ≤ f.nrHoriz.toNat * f.height.toNat :=
        Nat.mul_le_mul_right _ (grid_lt hp).1.le
      _ ≤ evenNext (f.nrHoriz.toNat * f.height.toNat) := le_evenNext _
      _ < 2 ^ 32 := h.rows
  rw [dpuInfo, if_pos hp, startIdx_eq (fun x hx => word_of_lt hx) hp.le, word_of_lt hrows, word_of_lt hstart,
    Nat.div_add_mod']

/-- the numbers of a partition past the last -/
theorem info_past (f : Csr2DFile α) {p : ℕ} (hp : ¬ p < f.nrPart.toNat) (hlt : p < f.nrPart.toNat + 64) :
    dpuInfo word f p = some ⟨0, 0, 0, 0, 0⟩ := by
  rw [dpuInfo, if_neg hp, if_pos hlt]

theorem Fits.vecStart_eq (h : Fits v f threads) (p : ℕ) :
    vecStart word f p = p % f.nrVert.toNat * f.width.toNat := by
  refine word_of_lt ?_
  calc p % f.nrVert.toNat * f.width.toNat ≤ f.nrVert.toNat * f.width.toNat :=
      Nat.mul_le_mul_right _ (Nat.mod_lt p f.vert_pos).le
    _ ≤ evenNext (f.nrVert.toNat * f.width.toNat) := le_evenNext _
    _ < 2 ^ 32 := h.cols

theorem Fits.outStart_eq (h : Fits v f threads) {p : ℕ} (hp : p < f.nrPart.toNat) :
    outStart word f p = p * slot f := by
  rw [outStart, h.sizes_eq, sizes_id]
  exact word_of_lt ((Nat.mul_le_mul_right _ hp.le).trans_lt h.outputs)

theorem Fits.xferSize_eq (h : Fits v f threads) {nnz : ℕ} (hnnz : evenNext nnz ≤ largest f) :
    xferSize word nnz = evenNext nnz * 4 := by
  have hmram := h.mram
  rw [xferSize, pad_word_of_lt (by omega)]
  exact word_of_lt (by omega)

theorem Fits.noWrap (h : Fits v f threads) : NoWrap f where
  sizes := h.sizes_eq
  info p hp := by
    have hidx : (List.range p).foldl (fun acc q => id (acc + f.nnzOf q)) 0 = f.start p :=
      startIdx_eq (fun _ _ => rfl) hp.le
    rw [h.info_eq hp, dpuInfo, if_pos hp, hidx, Nat.div_add_mod']
    rfl
  vec p _ := h.vecStart_eq p
  out p hp := by
    rw [h.outStart_eq hp, outStart, sizes_id]
    rfl
  xfer p hp := by
    rw [h.xferSize_eq (nnzOf_le_largest hp), xferSize, pad_id]
    rfl

/-- **What has to be small.** The numbers that `NoWrap` makes exact are below 2^32. -/
theorem NoWrap.small (h : NoWrap f) : f.nrPart.toNat + 64 < 2 ^ 32 ∧
    evenNext (f.nrHoriz.toNat * f.height.toNat) < 2 ^ 32 ∧ evenNext (f.nrVert.toNat * f.width.toNat) < 2 ^ 32 ∧
    f.nnz.toNat + largest f < 2 ^ 32 ∧ f.nrPart.toNat * slot f < 2 ^ 32 ∧
    (slot f + evenNext f.width.toNat + slot f + largest f) * 4 < 2 ^ 32 := by
  have hsizes := h.sizes
  rw [sizes_id] at hsizes
  refine ⟨?_, ?_, ?_, ?_, ?_, ?_⟩
  · exact (congrArg Sizes.infos hsizes).symm.trans_lt (word_lt _)
  · exact (congrArg Sizes.rowsPad hsizes).symm.trans_lt (pad_word_lt (word_lt _))
  · exact (congrArg Sizes.colsPad hsizes).symm.trans_lt (pad_word_lt (word_lt _))
  · exact (congrArg Sizes.entries hsizes).symm.trans_lt (word_lt _)
  · exact (congrArg Sizes.outputs hsizes).symm.trans_lt (word_lt _)
  · have hval : 0 + slot f * 4 + evenNext f.width.toNat * 4 + slot f * 4 + largest f * 4 < 2 ^ 32 :=
      (congrArg Sizes.valBase hsizes).symm.trans_lt (word_lt _)
    omega

end Wrapping

/-! ## The ranges of a partition -/

section Ranges

variable {α : Type} {v : ValDt} {f : Csr2DFile α} {threads : ℕ}

theorem byteDt_cases (h : 4 ≤ v.byteDt.toNat) : v.byteDt.toNat = 4 ∨ v.byteDt.toNat = 8 := by
  cases v with
  | int8 => exact absurd h (by decide)
  | int16 => exact absurd h (by decide)
  | int32 => exact .inl rfl
  | int64 => exact .inr rfl
  | fp32 => exact .inl rfl
  | fp64 => exact .inr rfl

theorem slot_le (f : Csr2DFile α) : slot f ≤ f.height.toNat + 2 := by
  unfold slot evenNext
  omega

/-- the row pointers of partition `p` and of the one behind it, if there is none -/
theorem rowPtr_le {p : ℕ} (hp : p < f.nrPart.toNat) :
    p * (f.height.toNat + 1) + slot f ≤ (f.height.toNat + 2) * f.nrPart.toNat := by
  have hslot := slot_le f
  calc p * (f.height.toNat + 1) + slot f ≤ p * (f.height.toNat + 1) + (f.height.toNat + 2) := Nat.add_le_add_left hslot _
    _ = (p + 1) * (f.height.toNat + 1) + 1 := by ring
    _ ≤ f.nrPart.toNat * (f.height.toNat + 1) + f.nrPart.toNat :=
      Nat.add_le_add (Nat.mul_le_mul_right _ hp) f.nrPart_pos
    _ = (f.height.toNat + 2) * f.nrPart.toNat := by ring

/-- **An entry of `dpu_info`**, of a partition or behind the last. -/
theorem Fits.info_bounds (h : Fits v f threads) {p : ℕ} (hp : p < f.nrPart.toNat + 64) :
    ∃ i, dpuInfo word f p = some i ∧ i.startRowPtr + slot f ≤ (f.height.toNat + 2) * f.nrPart.toNat ∧
      i.startIdx ≤ f.nnz.toNat ∧ evenNext i.nnz ≤ largest f := by
  by_cases hpart : p < f.nrPart.toNat
  · exact ⟨_, h.info_eq hpart, rowPtr_le hpart, f.start_le_nnz hpart.le, nnzOf_le_largest hpart⟩
  · refine ⟨_, info_past f hpart hp, ?_, Nat.zero_le _, Nat.zero_le _⟩
    have hfirst := rowPtr_le f.nrPart_pos
    rwa [Nat.zero_mul] at hfirst

/-- the length of a push is that of the largest partition at most -/
theorem Fits.pushLength_le (h : Fits v f threads) {ps : List ℕ} (hps : ∀ p ∈ ps, p < f.nrPart.toNat + 64) :
    ∃ len, pushLength f ps = some len ∧ len ≤ largest f * 4 := by
  have hfold : ∀ (l : List ℕ) (m : ℕ), evenNext m ≤ largest f → (∀ p ∈ l, p < f.nrPart.toNat + 64) →
      ∃ n, l.foldlM (fun m p => (dpuInfo word f p).map fun i => if i.nnz > m then i.nnz else m) m = some n ∧
        evenNext n ≤ largest f := by
    intro l
    induction l with
    | nil => exact fun m hm _ => ⟨m, rfl, hm⟩
    | cons p l ih =>
      intro m hm hl
      obtain ⟨i, hi, -, -, hnnz⟩ := h.info_bounds (hl p List.mem_cons_self)
      rw [List.foldlM_cons, hi]
      refine ih _ ?_ fun q hq => hl q (List.mem_cons_of_mem p hq)
      dsimp only
      split_ifs
      · exact hnnz
      · exact hm
  obtain ⟨n, hn, hle⟩ := hfold ps 0 (Nat.zero_le _) hps
  refine ⟨xferSize word n, by rw [pushLength, hn]; rfl, ?_⟩
  rw [h.xferSize_eq hle]
  exact Nat.mul_le_mul_right 4 hle

/-- **The room behind the last part** of the input vector. -/
theorem Fits.vector_le (h : Fits v f threads) (p : ℕ) :
    p % f.nrVert.toNat * f.width.toNat * v.byteDt.toNat + evenNext f.width.toNat * 4 ≤
      evenNext (f.nrVert.toNat * f.width.toNat) * v.byteDt.toNat := by
  have hcol : p % f.nrVert.toNat * f.width.toNat + f.width.toNat ≤ f.nrVert.toNat * f.width.toNat := by
    rw [← Nat.succ_mul]
    exact Nat.mul_le_mul_right _ (Nat.mod_lt p f.vert_pos)
  have heven := le_evenNext (f.nrVert.toNat * f.width.toNat)
  rcases byteDt_cases h.valDt with h4 | h8
  · rw [h4]
    rcases h.vector with h8 | hwidth | hvert
    · exact absurd (h4.symm.trans h8) (by decide)
    · rw [evenNext_of_even (Nat.mod_eq_zero_of_dvd hwidth)]
      omega
    · -- an odd number of odd parts, made even: there is one word more
      by_cases hwidth : f.width.toNat % 2 = 0
      · rw [evenNext_of_even hwidth]
        omega
      · have hodd : f.nrVert.toNat * f.width.toNat % 2 = 1 := by
          rw [Nat.mul_mod, Nat.two_dvd_ne_zero.mp hvert, Nat.mod_two_ne_zero.mp hwidth]
        unfold evenNext
        omega
  · rw [h8]
    unfold evenNext at heven ⊢
    omega

/-- **Inside.** What a transfer takes for a partition, or for a place behind the last. -/
theorem Fits.given_placed (h : Fits v f threads) {len k p : ℕ} (hk : 0 < k ∧ k < 5) (hp : p < f.nrPart.toNat + 64)
    (hlen : len ≤ largest f * 4) : Placed v f (given v f len k p) := by
  obtain ⟨i, hi, hptr, hstart, -⟩ := h.info_bounds hp
  have hmram := h.mram
  have hlast := slot_le f
  have hrows : f.height.toNat + 2 < 2 ^ 32 := by
    have hslot : slot f < 2 ^ 32 := by omega
    unfold slot evenNext at hslot
    omega
  obtain ⟨hk0, hk5⟩ := hk
  interval_cases k
  · refine ⟨.rowPtr, _, by rw [given, hi]; rfl, ?_⟩
    rw [Range.inside_mk, allocated, h.sizes_eq, sizes_id, word_of_lt hrows]
    dsimp only
    omega
  · refine ⟨.colIdx, _, by rw [given, hi]; rfl, ?_⟩
    rw [Range.inside_mk, allocated, h.sizes_eq, sizes_id]
    dsimp only
    omega
  · refine ⟨.values, _, by rw [given, hi]; rfl, ?_⟩
    rw [Range.inside_mk, allocated, h.sizes_eq, sizes_id]
    rcases byteDt_cases h.valDt with hb | hb <;> rw [hb] <;> dsimp only <;> omega
  · refine ⟨.inputVec, _, rfl, ?_⟩
    rw [Range.inside_mk, allocated, h.vecStart_eq, h.sizes_eq, sizes_id]
    exact h.vector_le p

theorem Fits.push_placed (h : Fits v f threads) {k : ℕ} (hk : 0 < k ∧ k < 5) {ps compared : List ℕ}
    (hps : ∀ p ∈ ps, p < f.nrPart.toNat + 64) (hcompared : ∀ p ∈ compared, p < f.nrPart.toNat + 64) :
    ∀ x ∈ push v f k ps compared, Placed v f x := by
  intro x hx
  obtain ⟨p, hp, rfl⟩ := List.mem_map.mp hx
  obtain ⟨len, hlen, hle⟩ := h.pushLength_le hcompared
  rw [hlen]
  exact h.given_placed hk (hps p hp) hle

theorem NoWrap.outRange_eq (h : NoWrap f) {p : ℕ} (hp : p < f.nrPart.toNat) :
    outRange v f p = ⟨p * slot f * v.byteDt.toNat, slot f * 4⟩ := by
  rw [outRange, h.out p hp, h.sizes, outStart, sizes_id]
  rfl

/-- the results are blocks, or the first halves of blocks -/
theorem Fits.outRange_end (h : Fits v f threads) {p q : ℕ} (hpq : p < q) :
    p * slot f * v.byteDt.toNat + slot f * 4 ≤ q * slot f * v.byteDt.toNat := by
  calc p * slot f * v.byteDt.toNat + slot f * 4 ≤ p * slot f * v.byteDt.toNat + slot f * v.byteDt.toNat :=
      Nat.add_le_add_left (Nat.mul_le_mul_left _ h.valDt) _
    _ = (p + 1) * slot f * v.byteDt.toNat := by ring
    _ ≤ q * slot f * v.byteDt.toNat := Nat.mul_le_mul_right _ (Nat.mul_le_mul_right _ hpq)

theorem Fits.outRange_inside (h : Fits v f threads) {p : ℕ} (hp : p < f.nrPart.toNat) :
    (outRange v f p).Inside (allocated v f .outputVec) := by
  rw [h.noWrap.outRange_eq hp, allocated, h.sizes_eq, sizes_id]
  exact h.outRange_end hp

theorem Fits.outRange_apart (h : Fits v f threads) {p q : ℕ} (hp : p < f.nrPart.toNat) (hq : q < f.nrPart.toNat)
    (hpq : p ≠ q) : (outRange v f p).Apart (outRange v f q) := by
  rw [h.noWrap.outRange_eq hp, h.noWrap.outRange_eq hq]
  rcases Nat.lt_or_gt_of_ne hpq with hlt | hlt
  · exact .inl (h.outRange_end hlt)
  · exact .inr (h.outRange_end hlt)

end Ranges

/-! ## The transfers of a run -/

section Runs

variable {α β : Type} {v : ValDt} {f : Csr2DFile α} {kernel : (Fin 5 → ℕ) → β} {threads : ℕ}

/-- partitions are sent from a place where some are left -/
def CurrOk (total : ℕ) (t : Thread) : Prop := ∀ k, t.pc = .send k → t.curr < total

theorem rankStep_curr {n total r pCount : ℕ} (m : Mode n) {q : RankState n β} (h : CurrOk total q.thread) :
    CurrOk total (rankStep m total r pCount q).thread := by
  intro k hk
  cases hpc : q.thread.pc with
  | take =>
    simp only [rankStep, hpc] at hk ⊢
    split_ifs at hk ⊢ with hend
    exact not_le.mp hend
  | send j =>
    simp only [rankStep, hpc] at hk ⊢
    split_ifs at hk ⊢
    exact h j hpc
  | load j =>
    simp only [rankStep, hpc] at hk
    split_ifs at hk
  | poll d =>
    simp only [rankStep, hpc] at hk
    split_ifs at hk
    cases hk
  | setState c =>
    simp only [rankStep, hpc] at hk
    split_ifs at hk
    cases hk
  | launch =>
    simp only [rankStep, hpc] at hk
    cases hk
  | retrieve =>
    simp only [rankStep, hpc] at hk
    cases hk
  | done =>
    simp only [rankStep, hpc] at hk
    cases hk

theorem run_curr {n total : ℕ} (m : Mode n) (kernel : (Fin n → ℕ) → β) (acts : List Act) :
    ∀ r < threads, CurrOk total ((run m kernel threads total (init threads) acts).rank r).thread := by
  induction acts using List.reverseRecOn with
  | nil => exact fun r _ k hk => nomatch hk
  | append_singleton acts a ih =>
    rw [run_snoc]
    cases a with
    | thread r =>
      simp only [step]
      split_ifs with hr
      · exact update_ok (P := fun _ q => CurrOk total q.thread) (rankStep_curr m (ih r hr)) ih
      · exact ih
    | dpu r i =>
      simp only [step]
      split_ifs with hr
      · exact update_ok (P := fun _ q => CurrOk total q.thread) (ih r hr) ih
      · exact ih

/-- **Every transfer** of a thread in a state of some run. -/
theorem transfers_inside (h : Fits v f threads) {r : ℕ} (hr : r < threads) {q : RankState 5 β}
    (hcurr : CurrOk f.nrPart.toNat q.thread) : ∀ x ∈ transfers v f r q, Placed v f x := by
  intro x hx
  have hdpus := h.dpus
  unfold transfers at hx
  cases hpc : q.thread.pc with
  | load k =>
    simp only [hpc] at hx
    split_ifs at hx with hk
    · have hfirst : ∀ p ∈ indexes Finset.univ (fun i : Slot => 64 * r + i.val), p < f.nrPart.toNat + 64 := by
        intro p hp
        obtain ⟨i, -, rfl⟩ := mem_indexes.mp hp
        have hi := i.isLt
        omega
      exact h.push_placed hk hfirst hfirst x hx
    · cases hx
  | send k =>
    simp only [hpc] at hx
    split_ifs at hx with hk
    · refine h.push_placed hk (fun p hp => ?_) (fun p hp => ?_) x hx
      · obtain ⟨i, hi, rfl⟩ := mem_indexes.mp hp
        have hpass := ((mem_sent igMode _ _ _ _).mp hi).2
        rw [if_neg hk.1.ne'] at hpass
        exact Nat.lt_add_right 64 (hpass rfl)
      · obtain ⟨i, hi, rfl⟩ := List.mem_map.mp hp
        have hcard : q.thread.finish.card ≤ 64 := q.thread.finish.card_le_univ
        exact Nat.add_lt_add (hcurr k hpc) ((List.mem_range.mp hi).trans_le hcard)
    · cases hx
  | retrieve =>
    simp only [hpc] at hx
    obtain ⟨p, hp, rfl⟩ := List.mem_map.mp hx
    obtain ⟨i, hi, rfl⟩ := mem_indexes.mp hp
    exact ⟨.outputVec, _, rfl, h.outRange_inside (((mem_retrieved igMode _ _ _).mp hi).2 rfl)⟩
  | take => simp only [hpc] at hx; cases hx
  | poll d => simp only [hpc] at hx; cases hx
  | setState c => simp only [hpc] at hx; cases hx
  | launch => simp only [hpc] at hx; cases hx
  | done => simp only [hpc] at hx; cases hx

theorem Fits.hostBuffersOk (h : Fits v f threads) : HostBuffersOk v f kernel threads where
  noWrap := h.noWrap
  transfers acts r hr := transfers_inside h hr (run_curr igMode kernel acts r hr)
  outputs _ hp := h.outRange_inside hp
  apart _ hp _ hq hpq := h.outRange_apart hp hq hpq

end Runs

/-! ## Every partition is sent -/

section Reached

variable {α β : Type} {v : ValDt} {f : Csr2DFile α} {kernel : (Fin 5 → ℕ) → β} {threads : ℕ}

variable (kernel) in
/-- the partitions a rank begins with -/
theorem load_reached (total : ℕ) {p k : ℕ} (hp : p < 64 * threads) (hk : k ≤ 5) :
    ∃ acts, ∃ r < threads, ((run igMode kernel threads total (init threads) acts).rank r).thread.pc = .load k ∧
      p ∈ indexes Finset.univ fun i : Slot => 64 * r + i.val := by
  have hr : p / 64 < threads := Nat.div_lt_of_lt_mul hp
  obtain ⟨s, hreach, -, hpc, -⟩ := reaches_loads igMode kernel total hr (s := init threads) rfl k hk
  obtain ⟨acts, rfl, -⟩ := hreach.exists_run
  refine ⟨acts, p / 64, hr, hpc, mem_indexes.mpr ⟨⟨p % 64, Nat.mod_lt p (by decide)⟩, Finset.mem_univ _, ?_⟩⟩
  exact Nat.div_add_mod p 64

theorem collectIg_univ (w : Slot → ℕ) (hw : ∀ i, w i = 1) : igMode.collect w = Finset.univ :=
  Finset.eq_univ_of_forall fun i => (mem_collectIg w i).mpr fun _ => ⟨hw _, hw _⟩

variable (kernel) in
/-- **The partitions behind them**: whole ranks finish until it is their turn. -/
theorem refill_reached {total p k : ℕ} (ht : 0 < threads) (hs : Sized threads total) (hlo : 64 * threads ≤ p)
    (hhi : p < total) (hk0 : 0 < k) (hk : k ≤ 5) :
    ∃ acts, ∃ r < threads, ∃ t, ((run igMode kernel threads total (init threads) acts).rank r).thread = t ∧
      t.pc = .send k ∧ p ∈ indexes (sent igMode total t k) (inputIndex igMode t k) := by
  obtain ⟨s0, h0, hready0, hcount0, -⟩ := ready_launched kernel igMode_lawful ht hs
  obtain ⟨s1, h1, hready1, hcount1⟩ :=
    whole_rounds igMode_lawful rfl ht hs collectIg_univ hready0 ((p - 64 * threads) / 64) fun j hj => by omega
  obtain ⟨s2, h2, hcount2, hpc2, hfin2, -⟩ := reported ht hready1 Finset.univ_nonempty.ne_empty
    (fun i hi => absurd (Finset.mem_univ i) hi) (fun w hw => collectIg_univ w fun i => (hw i).mpr (Finset.mem_univ i))
  obtain ⟨s3, h3, hpc3, hfin3, hcurr3, -⟩ := reaches_send igMode kernel total rfl ht hs hpc2 (by omega) hk0 hk
  obtain ⟨acts, rfl, -⟩ := (((h0.trans h1).trans h2).trans h3).exists_run
  refine ⟨acts, 0, ht, _, rfl, hpc3, ?_⟩
  obtain ⟨i, hi, hpos⟩ := position_surj (F := (Finset.univ : Finset Slot)) (q := p - s2.pCount) (by simp; omega)
  have hindex : inputIndex igMode ((run igMode kernel threads total (init threads) acts).rank 0).thread k i = p := by
    have hrecount : k = 0 ∨ igMode.recount = true := .inr rfl
    rw [inputIndex, if_pos hrecount, hcurr3, hfin3, hfin2, hpos]
    omega
  refine mem_indexes.mpr ⟨i, (mem_sent igMode _ _ _ _).mpr ⟨?_, fun _ => hindex.trans_lt hhi⟩, hindex⟩
  rw [hfin3, hfin2]
  exact hi

end Reached

/-! ## When the buffers are large enough -/

section Enough

variable {α β : Type} {v : ValDt} {f : Csr2DFile α} {kernel : (Fin 5 → ℕ) → β} {threads : ℕ}

theorem placed_of_push {k p : ℕ} {ps compared : List ℕ} (h : ∀ x ∈ push v f k ps compared, Placed v f x) (hp : p ∈ ps) :
    ∃ len, Placed v f (given v f len k p) := by
  obtain ⟨b, r, hx, hin⟩ := h _ (List.mem_map.mpr ⟨p, hp, rfl⟩)
  obtain ⟨len, -, hgiven⟩ := Option.bind_eq_some_iff.mp hx
  exact ⟨len, b, r, hgiven, hin⟩

/-- the first transfers -/
theorem HostBuffersOk.first (h : HostBuffersOk v f kernel threads) {p k : ℕ} (hk : 0 < k ∧ k < 5)
    (hp : p < 64 * threads) : ∃ len, Placed v f (given v f len k p) := by
  obtain ⟨acts, r, hr, hpc, hmem⟩ := load_reached kernel f.nrPart.toNat hp hk.2.le
  have hall := h.transfers acts r hr
  simp only [Ig.transfers, hpc, if_pos hk] at hall
  exact placed_of_push hall hmem

/-- the transfers of every partition -/
theorem HostBuffersOk.every (h : HostBuffersOk v f kernel threads) (ht : 0 < threads) {p k : ℕ} (hk : 0 < k ∧ k < 5)
    (hp : p < f.nrPart.toNat) : ∃ len, Placed v f (given v f len k p) := by
  by_cases hfirst : p < 64 * threads
  · exact h.first hk hfirst
  · have hsized : Sized threads f.nrPart.toNat := ⟨by omega, h.noWrap.small.1.le⟩
    obtain ⟨acts, r, hr, t, rfl, hpc, hmem⟩ := refill_reached kernel ht hsized (not_lt.mp hfirst) hp hk.1 hk.2.le
    have hall := h.transfers acts r hr
    simp only [Ig.transfers, hpc, if_pos hk] at hall
    exact placed_of_push hall hmem

/-- an entry of `dpu_info` for each DPU -/
theorem HostBuffersOk.dpus (h : HostBuffersOk v f kernel threads) (ht : 0 < threads) :
    64 * threads ≤ f.nrPart.toNat + 64 := by
  obtain ⟨len, b, r, hgiven, -⟩ := h.first (p := 64 * threads - 1) (k := 1) (by decide) (by omega)
  obtain ⟨i, hi, -⟩ := Option.map_eq_some_iff.mp hgiven
  by_contra hover
  have hnone : dpuInfo word f (64 * threads - 1) = none := by
    rw [dpuInfo, if_neg (by omega), if_neg (by omega)]
  exact nomatch hnone.symm.trans hi

/-- the last result lies inside -/
theorem HostBuffersOk.valDt (h : HostBuffersOk v f kernel threads) : 4 ≤ v.byteDt.toNat := by
  have hpos := f.nrPart_pos
  have hin := h.outputs (f.nrPart.toNat - 1) (by omega)
  rw [h.noWrap.outRange_eq (by omega), allocated, h.noWrap.sizes, sizes_id, Range.inside_mk] at hin
  have hsplit : f.nrPart.toNat * slot f * v.byteDt.toNat =
      (f.nrPart.toNat - 1) * slot f * v.byteDt.toNat + slot f * v.byteDt.toNat := by
    have hlast : f.nrPart.toNat - 1 + 1 = f.nrPart.toNat := Nat.sub_add_cancel hpos
    calc f.nrPart.toNat * slot f * v.byteDt.toNat = (f.nrPart.toNat - 1 + 1) * slot f * v.byteDt.toNat := by rw [hlast]
      _ = (f.nrPart.toNat - 1) * slot f * v.byteDt.toNat + slot f * v.byteDt.toNat := by ring
  have hslot : slot f * 4 ≤ slot f * v.byteDt.toNat := by
    dsimp only at hin
    omega
  exact Nat.le_of_mul_le_mul_left hslot ((Nat.succ_pos _).trans_le (le_evenNext _))

/-- the last part of a row of partitions lies inside the input vector -/
theorem HostBuffersOk.vector (h : HostBuffersOk v f kernel threads) (ht : 0 < threads) :
    v.byteDt.toNat = 8 ∨ 2 ∣ f.width.toNat ∨ ¬ 2 ∣ f.nrVert.toNat := by
  have hvert := f.vert_pos
  have hp : f.nrVert.toNat - 1 < f.nrPart.toNat := by
    calc f.nrVert.toNat - 1 < f.nrVert.toNat := Nat.sub_lt hvert one_pos
      _ ≤ f.nrHoriz.toNat * f.nrVert.toNat := Nat.le_mul_of_pos_left _ f.horiz_pos
      _ = f.nrPart.toNat := f.part_eq.symm
  obtain ⟨len, b, r, hgiven, hin⟩ := h.every ht (k := 4) (by decide) hp
  obtain ⟨rfl, rfl⟩ := Prod.mk.inj (Option.some.inj hgiven)
  rw [Range.inside_mk, allocated, h.noWrap.vec _ hp, h.noWrap.sizes, sizes_id, vecStart,
    Nat.mod_eq_of_lt (Nat.sub_lt hvert one_pos)] at hin
  dsimp only [id] at hin
  have hrow : (f.nrVert.toNat - 1) * f.width.toNat + f.width.toNat = f.nrVert.toNat * f.width.toNat := by
    rw [← Nat.succ_mul, Nat.succ_eq_add_one, Nat.sub_add_cancel hvert]
  rcases byteDt_cases h.valDt with h4 | h8
  · right
    by_contra hodd
    rw [not_or, not_not] at hodd
    obtain ⟨hwidth, hvert⟩ := hodd
    have hprod : 2 ∣ f.nrVert.toNat * f.width.toNat := hvert.mul_right _
    rw [h4, evenNext_of_even (Nat.mod_eq_zero_of_dvd hprod)] at hin
    unfold evenNext at hin
    omega
  · exact .inl h8

/-- **Enough is needed.** -/
theorem HostBuffersOk.fits (h : HostBuffersOk v f kernel threads) (ht : 0 < threads) : Fits v f threads := by
  obtain ⟨hparts, hrows, hcols, hentries, houtputs, hmram⟩ := h.noWrap.small
  exact ⟨h.valDt, h.dpus ht, hparts, hrows, hcols, hentries, houtputs, hmram, h.vector ht⟩

/-- 32 by `nrVert` partitions of two rows and one column each, with one entry in every partition -/
def columns (nrVert : UInt32) (hlo : 1 ≤ nrVert.toNat) (hhi : 32 * nrVert.toNat < 2 ^ 32) : Csr2DFile ℕ where
  nrRows := 64
  nrCols := nrVert
  nnz := 32 * nrVert
  rowPtr := ⟨32 * nrVert.toNat * 4, fun k => if k % 3 = 0 then 0 else 1⟩
  colIdx := Buf.zeros (32 * nrVert.toNat)
  values := ⟨32 * nrVert.toNat, fun _ => 1⟩
  nrHoriz := 32
  nrVert := nrVert
  nrPart := 32 * nrVert
  height := 2
  width := 1
  nnzPerPart := ⟨32 * nrVert.toNat, fun _ => 1⟩
  horiz_pos := by decide
  vert_pos := hlo
  part_eq := by rw [UInt32.toNat_mul]; exact Nat.mod_eq_of_lt hhi
  height_eq := by decide
  width_eq := by
    have hmod : nrVert % nrVert = 0 := UInt32.toNat_inj.mp (by rw [UInt32.toNat_mod, Nat.mod_self]; rfl)
    have hdiv : nrVert / nrVert = 1 := UInt32.toNat_inj.mp (by rw [UInt32.toNat_div, Nat.div_self hlo]; rfl)
    rw [divUp, if_neg (not_not.mpr hmod), hdiv]
  nnz_eq := by
    have hnnz : (32 * nrVert).toNat = 32 * nrVert.toNat := by rw [UInt32.toNat_mul]; exact Nat.mod_eq_of_lt hhi
    simp [Csr2DFormat.start, Csr2DFormat.nnzOf, hnnz]

end Enough

end PimOfis.SpMV.Ig
