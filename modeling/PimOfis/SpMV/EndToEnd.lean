/-
SpMV with OFIS from a matrix to its product with a vector: `sort_COO`, `COO_to_CSR_2D` and the file, then `main` and
`thread_fct` of `CSR_host_OFIS_ig.c` with the DPU program, and the loop that adds the results of the partitions up.

The values are those of a commutative semiring and have four bytes: 32-bit integers have them, and exact numbers of which
`float` is the rounding. What a DPU makes of a partition is any end of any run of its 16 tasklets; its heap has what was sent
for the partition, and behind that whatever it had before. The additions of the last loop, which OpenMP spreads over threads,
come in any order. That MRAM is large enough is not part of this; the host does not check it either.

Results:
- `outcome_row`: what a DPU leaves for a partition;
- `spmvHost_eq`: what `spmv_host` computes;
- `spmv_exact`: the two agree with the product of the matrix that was sorted, in every run.
-/
import Mathlib.Data.UInt
import Mathlib.Tactic
import PimOfis.SpMV.EsHost
import PimOfis.SpMV.IgBuffers
import PimOfis.SpMV.Kernel
import PimOfis.SpMV.MatrixFiles

namespace PimOfis.SpMV.EndToEnd

open Lib Ig Schedule

variable {R : Type} [CommSemiring R]

/-! ## Model -/

section Model

variable (f : Csr2DFile R) (input : ℕ → R)

/-- `n` words are sent to the heap, from word `base` on -/
def send (base n : ℕ) (words : ℕ → Kernel.Word R) (heap : ℕ → Kernel.Word R) : ℕ → Kernel.Word R := fun w =>
  if base ≤ w ∧ w < base + n then words (w - base) else heap w

/-- the transfers for partition `p`, in a push of entries of `len` bytes -/
def sendPart (len p : ℕ) (i : DpuInfo) (heap : ℕ → Kernel.Word R) : ℕ → Kernel.Word R :=
  let s := sizes Ig.word f
  send (s.vecBase / 4) (s.vecSize / 4) (fun w => .val (input (vecStart Ig.word f p + w)))
    (send (s.valBase / 4) (len / 4) (fun w => .val (f.values.cell (i.startIdx + w)))
      (send (s.colBase / 4) (len / 4) (fun w => .uint (f.colIdx.cell (i.startIdx + w)).toNat)
        (send (s.rowBase / 4) (s.outSize / 4) (fun w => .uint (f.rowPtr.cell (i.startRowPtr + w)).toNat) heap)))

/-- the arguments and the heap of a DPU after them -/
def dpuInput (len p : ℕ) (i : DpuInfo) (heap : ℕ → Kernel.Word R) : Kernel.Input R where
  nrRows := UInt32.ofNat i.nrRows
  maxNrRows := (sizes Ig.word f).maxNrRows
  maxNnz := (sizes Ig.word f).maxNnz
  nrCols := (sizes Ig.word f).widthPad
  mram := sendPart f input len p i heap

/-- some run of the DPU program for `p` leaves the words `y` in the heap; `ps` are the partitions whose entries the host has
compared for the push -/
def Outcome (p : ℕ) (y : ℕ → R) : Prop :=
  ∃ i ps len heap store acts, dpuInfo Ig.word f p = some i ∧ p ∈ ps ∧ (∀ q ∈ ps, q < f.nrPart.toNat + 64) ∧
    pushLength f ps = some len ∧ (∀ w, store (.mram w) = (dpuInput f input len p i heap).mram w) ∧
    (Phases.run (Phases.start [Kernel.compute (dpuInput f input len p i heap)] store) acts).Finished ∧
    ∀ w, y w = ((Phases.run (Phases.start [Kernel.compute (dpuInput f input len p i heap)] store) acts).store (.mram w)).asVal

/-- `vec[row] += q` -/
def addAt (vec : ℕ → R) (x : ℕ × R) : ℕ → R := Function.update vec x.1 (vec x.1 + x.2)

/-- `output_vec`, where the results `out` are retrieved -/
def outputVec (out : ℕ → Option (ℕ → R)) (w : ℕ) : R :=
  match out (w / (sizes Ig.word f).maxNrRows) with
  | some y => y (w % (sizes Ig.word f).maxNrRows)
  | none => 0

/-- the partitions and rows of the last loop; a partition's rows are counted as in SparseP_ES -/
def merged : List (ℕ × ℕ) := (List.range f.nrPart.toNat).flatMap fun p => (Es.mergedRows f p).map fun j => (p, j)

/-- `result_vec[row] += output_vec[i * max_nr_rows_dpu + j]` -/
def mergeOne (out : ℕ → Option (ℕ → R)) (x : ℕ × ℕ) : ℕ × R :=
  (Ig.word (Ig.word (x.1 / f.nrVert.toNat * f.height.toNat) + x.2),
    outputVec f out (Ig.word (Ig.word (x.1 * (sizes Ig.word f).maxNrRows) + x.2)))

/-- `result_vec`, with the additions in some order -/
def resultVec (out : ℕ → Option (ℕ → R)) (order : List (ℕ × ℕ)) : ℕ → R :=
  (order.map (mergeOne f out)).foldl addAt fun _ => 0

/-- the three loops of `spmv_host` -/
def hostOrder : List (ℕ × ℕ × ℕ) :=
  (List.range f.nrHoriz.toNat).flatMap fun i => (List.range f.nrVert.toNat).flatMap fun j =>
    (List.range f.height.toNat).map fun k => (i, j, k)

/-- one row, with `acc` and `output_vec`; `acc` has 64 bits and the entries 32 -/
def hostRow (s : ℕ × (ℕ → R)) (x : ℕ × ℕ × ℕ) : ℕ × (ℕ → R) :=
  let ptrOffset := (x.1 * f.nrVert.toNat + x.2.1) * Ig.word (f.height.toNat + 1)
  let rowOffset := Ig.word (x.1 * f.height.toNat)
  let colOffset := Ig.word (x.2.1 * f.width.toNat)
  let n := (f.rowPtr.cell (ptrOffset + x.2.2 + 1)).toNat - (f.rowPtr.cell (ptrOffset + x.2.2)).toNat
  let sum := (List.range' s.1 n).foldl
    (fun sum acc => sum + input (Ig.word (colOffset + (f.colIdx.cell acc).toNat)) * f.values.cell acc) 0
  (s.1 + n, addAt s.2 (Ig.word (rowOffset + x.2.2), sum))

def spmvHost : ℕ → R := ((hostOrder f).foldl (hostRow f input) (0, fun _ => 0)).2

end Model

/-! ## One row -/

/-- row `j` of partition `p`, times the vector -/
def partRow (f : Csr2DFile R) (input : ℕ → R) (p j : ℕ) : R :=
  ((List.range' (f.ptr p j) (f.ptr p (j + 1) - f.ptr p j)).map fun k =>
    (f.entry p k).2 * input (p % f.nrVert.toNat * f.width.toNat + (f.entry p k).1)).sum

/-- the row pointers and columns of a matrix in parts -/
structure RowsOk {α : Type} (c : Csr2DFormat α) : Prop where
  first : ∀ p < c.nrPart.toNat, c.ptr p 0 = 0
  mono : ∀ p < c.nrPart.toNat, ∀ j < c.height.toNat, c.ptr p j ≤ c.ptr p (j + 1)
  last : ∀ p < c.nrPart.toNat, c.ptr p c.height.toNat = c.nnzOf p
  col_lt : ∀ p < c.nrPart.toNat, ∀ k < c.nnzOf p, (c.entry p k).1 < c.width.toNat

theorem RowsOk.ptr_le {α : Type} {c : Csr2DFormat α} (h : RowsOk c) {p j : ℕ} (hp : p < c.nrPart.toNat)
    (hj : j ≤ c.height.toNat) : c.ptr p j ≤ c.nnzOf p := by
  have hmono : ∀ k, j ≤ k → k ≤ c.height.toNat → c.ptr p j ≤ c.ptr p k := by
    intro k hjk
    induction k, hjk using Nat.le_induction with
    | base => exact fun _ => le_rfl
    | succ k _ ih => exact fun hk => (ih (Nat.le_of_succ_le hk)).trans (h.mono p hp k hk)
  exact (hmono _ hj le_rfl).trans (h.last p hp).le

theorem rowsOk_of_preserved {α : Type} {m : CooFormat α} {c : Csr2DFormat α} (h : Preserved m c) : RowsOk c :=
  ⟨h.first, h.mono, h.last, h.col_lt⟩

section Row

variable {f : Csr2DFile R} {input : ℕ → R} {v : ValDt} {threads p : ℕ}

/-- what the kernel reads of its heap -/
structure Reads (f : Csr2DFile R) (input : ℕ → R) (p : ℕ) (x : Kernel.Input R) : Prop where
  nrRows : x.nrRows.toNat = f.height.toNat
  rowPtr : ∀ j ≤ f.height.toNat, x.rowPtr j = f.ptr p j
  colIdx : ∀ k < f.nnzOf p, x.colIdx k = (f.entry p k).1
  value : ∀ k < f.nnzOf p, x.value k = (f.entry p k).2
  inputVec : ∀ c < f.width.toNat, x.inputVec c = input (p % f.nrVert.toNat * f.width.toNat + c)

omit [CommSemiring R] in
/-- the length of a push has room for each partition that was compared, and is not more than the heap has -/
theorem pushLength_bounds (hfits : Fits v f threads) {ps : List ℕ} (hps : ∀ q ∈ ps, q < f.nrPart.toNat + 64) {len : ℕ}
    (hlen : pushLength f ps = some len) (hp : p < f.nrPart.toNat) (hmem : p ∈ ps) :
    f.nnzOf p ≤ len / 4 ∧ len / 4 ≤ largest f := by
  have hfold : ∀ (l : List ℕ) (m : ℕ), evenNext m ≤ largest f → (∀ q ∈ l, q < f.nrPart.toNat + 64) →
      ∃ n, l.foldlM (fun m q => (dpuInfo Ig.word f q).map fun i => if i.nnz > m then i.nnz else m) m = some n ∧
        evenNext n ≤ largest f ∧ m ≤ n ∧ (p ∈ l → f.nnzOf p ≤ n) := by
    intro l
    induction l with
    | nil => exact fun m hm _ => ⟨m, rfl, hm, le_rfl, fun h => absurd h List.not_mem_nil⟩
    | cons q l ih =>
      intro m hm hl
      obtain ⟨i, hi, -, -, hnnz⟩ := hfits.info_bounds (hl q List.mem_cons_self)
      obtain ⟨n, hn, hle, hmax, hin⟩ := ih (if i.nnz > m then i.nnz else m) (by split_ifs <;> assumption)
        fun r hr => hl r (List.mem_cons_of_mem q hr)
      have hboth : m ≤ n ∧ i.nnz ≤ n := by
        split_ifs at hmax with hgt
        · exact ⟨(le_of_lt hgt).trans hmax, hmax⟩
        · exact ⟨hmax, (not_lt.mp hgt).trans hmax⟩
      refine ⟨n, by rw [List.foldlM_cons, hi]; exact hn, hle, hboth.1, fun hpq => ?_⟩
      rcases List.mem_cons.mp hpq with rfl | hpl
      · obtain rfl := Option.some.inj ((hfits.info_eq hp).symm.trans hi)
        exact hboth.2
      · exact hin hpl
  obtain ⟨n, hn, hle, -, hin⟩ := hfold ps 0 (Nat.zero_le _) hps
  rw [pushLength, hn] at hlen
  obtain rfl := Option.some.inj hlen
  rw [hfits.xferSize_eq hle, Nat.mul_div_cancel _ (show 0 < 4 by decide)]
  exact ⟨(hin hmem).trans (le_evenNext n), hle⟩

omit [CommSemiring R] in
theorem send_inside {base n : ℕ} {words heap : ℕ → Kernel.Word R} {k : ℕ} (hk : k < n) :
    send base n words heap (base + k) = words k := by
  rw [send, if_pos (by omega), Nat.add_sub_cancel_left]

omit [CommSemiring R] in
theorem send_outside {base n : ℕ} {words heap : ℕ → Kernel.Word R} {w : ℕ} (hw : w < base ∨ base + n ≤ w) :
    send base n words heap w = heap w := if_neg (by omega)

variable (input) in
/-- **The transfers** put everything where the kernel reads it. -/
theorem dpuInput_reads (hfits : Fits v f threads) (hp : p < f.nrPart.toNat) {i : DpuInfo} (hi : dpuInfo Ig.word f p = some i)
    {len : ℕ} (hlen : f.nnzOf p ≤ len / 4 ∧ len / 4 ≤ largest f) (heap : ℕ → Kernel.Word R) :
    Reads f input p (dpuInput f input len p i heap) := by
  obtain rfl := Option.some.inj ((hfits.info_eq hp).symm.trans hi)
  obtain ⟨hnnz, hmax⟩ := hlen
  have hslot : f.height.toNat + 1 ≤ slot f := le_evenNext _
  have hwidth : f.width.toNat ≤ evenNext f.width.toNat := le_evenNext _
  generalize hx : dpuInput f input len p ⟨f.height.toNat, p / f.nrVert.toNat * f.height.toNat, f.start p, f.nnzOf p,
    p * (f.height.toNat + 1)⟩ heap = x
  -- the places, as both sides compute them
  have hbases : x.vecBase = slot f ∧ x.rowBase = slot f + evenNext f.width.toNat ∧
      x.colBase = slot f + evenNext f.width.toNat + slot f ∧
      x.valBase = slot f + evenNext f.width.toNat + slot f + largest f := by
    rw [← hx]
    simp only [Kernel.Input.valBase, Kernel.Input.colBase, Kernel.Input.rowBase, Kernel.Input.vecBase, dpuInput, hfits.sizes_eq,
      sizes_id, and_self]
  have hmram : x.mram =
      send (slot f) (evenNext f.width.toNat) (fun w => .val (input (p % f.nrVert.toNat * f.width.toNat + w)))
        (send (slot f + evenNext f.width.toNat + slot f + largest f) (len / 4) (fun w => .val (f.values.cell (f.start p + w)))
          (send (slot f + evenNext f.width.toNat + slot f) (len / 4) (fun w => .uint (f.colIdx.cell (f.start p + w)).toNat)
            (send (slot f + evenNext f.width.toNat) (slot f)
              (fun w => .uint (f.rowPtr.cell (p * (f.height.toNat + 1) + w)).toNat) heap))) := by
    rw [← hx]
    simp only [dpuInput, sendPart, hfits.sizes_eq, sizes_id, hfits.vecStart_eq, Nat.zero_add, ← Nat.add_mul,
      Nat.mul_div_cancel _ (show 0 < 4 by decide)]
  have hrows : x.nrRows.toNat = f.height.toNat := by
    rw [← hx]
    exact UInt32.toNat_ofNat_of_lt' (UInt32.toNat_lt _)
  obtain ⟨hvec, hrow, hcol, hval⟩ := hbases
  refine ⟨hrows, fun j hj => ?_, fun k hk => ?_, fun k hk => ?_, fun c hc => ?_⟩
  · rw [Kernel.Input.rowPtr, hrow, hmram, send_outside (by omega), send_outside (by omega), send_outside (by omega),
      send_inside (by omega)]
    rfl
  · rw [Kernel.Input.colIdx, hcol, hmram, send_outside (by omega), send_outside (by omega), send_inside (by omega)]
    rfl
  · rw [Kernel.Input.value, hval, hmram, send_outside (by omega), send_inside (by omega)]
    rfl
  · have hword : ∀ w, w = c → (x.mram (x.vecBase + w)).asVal = input (p % f.nrVert.toNat * f.width.toNat + c) := by
      intro w hw
      rw [hw, hvec, hmram, send_inside (by omega)]
      rfl
    unfold Kernel.Input.inputVec
    split_ifs with heven
    · exact hword c rfl
    · exact hword (c - 1 + 1) (by omega)

/-- what the tasklets add up for a row -/
theorem Reads.rowSum_eq (hrows : RowsOk f.toCsr2DFormat) (hp : p < f.nrPart.toNat) {x : Kernel.Input R}
    (h : Reads f input p x) {j : ℕ} (hj : j < f.height.toNat) : Kernel.rowSum x j = partRow f input p j := by
  have hfirst : x.rowPtr 0 = 0 := (h.rowPtr 0 (Nat.zero_le _)).trans (hrows.first p hp)
  rw [Kernel.rowSum, Kernel.Input.products, partRow, hfirst, h.rowPtr j hj.le, h.rowPtr (j + 1) hj, Nat.sub_zero]
  refine congrArg List.sum (List.map_congr_left fun k hk => ?_)
  have hmono := hrows.mono p hp j hj
  have hend := hrows.ptr_le hp (j := j + 1) hj
  have hk := List.mem_range'_1.mp hk
  have hlt : k < f.nnzOf p := by omega
  rw [h.value k hlt, h.colIdx k hlt, h.inputVec _ (hrows.col_lt p hp k hlt)]

/-- **What a DPU leaves** for a partition. -/
theorem outcome_row (hfits : Fits v f threads) (hrows : RowsOk f.toCsr2DFormat) (hp : p < f.nrPart.toNat) {y : ℕ → R}
    (h : Outcome f input p y) {j : ℕ} (hj : j < f.height.toNat) : y j = partRow f input p j := by
  obtain ⟨i, ps, len, heap, store, acts, hi, hmem, hps, hlen, -, hfin, hy⟩ := h
  have hreads := dpuInput_reads input hfits hp hi (pushLength_bounds hfits hps hlen hp hmem) heap
  generalize dpuInput f input len p i heap = x at *
  have hheight : f.height.toNat + 1 ≤ slot f := le_evenNext _
  have hmram := hfits.mram
  have hptr : Kernel.Ascending x := by
    refine ⟨fun r hr => ?_, fun r hr => ?_⟩
    · rw [hreads.nrRows] at hr
      rw [hreads.rowPtr r hr.le, hreads.rowPtr (r + 1) hr]
      exact hrows.mono p hp r hr
    · rw [hreads.nrRows] at hr
      rw [hreads.rowPtr r hr]
      exact UInt32.toNat_lt _
  have hbig : x.nrRows.toNat ≠ 2 ^ 32 - 1 := by
    rw [hreads.nrRows]
    omega
  rw [hy, (Kernel.round_spec hbig hptr store hfin).1 j (by rwa [hreads.nrRows])]
  exact hreads.rowSum_eq hrows hp hj

/-- every round can be run to its end, whatever the heap had before -/
theorem exists_outcome (hfits : Fits v f threads) (hp : p < f.nrPart.toNat) (heap : ℕ → Kernel.Word R) :
    ∃ y, Outcome f input p y := by
  have hps : ∀ q ∈ [p], q < f.nrPart.toNat + 64 := fun q hq => by
    rw [List.mem_singleton.mp hq]
    omega
  obtain ⟨len, hlen, -⟩ := hfits.pushLength_le hps
  obtain ⟨i, hi⟩ : ∃ i, dpuInfo Ig.word f p = some i := ⟨_, hfits.info_eq hp⟩
  obtain ⟨acts, hfin⟩ := Phases.exists_finish (show 0 < 16 by decide)
    (Phases.start [Kernel.compute (dpuInput f input len p i heap)] (dpuInput f input len p i heap).store)
  exact ⟨_, i, [p], len, heap, _, acts, hi, List.mem_singleton.mpr rfl, hps, hlen, fun _ => rfl, hfin, fun _ => rfl⟩

end Row

/-! ## Adding up -/

section Adding

/-- additions to a vector, whatever their order -/
theorem foldl_addAt (xs : List (ℕ × R)) (vec : ℕ → R) (row : ℕ) :
    xs.foldl addAt vec row = vec row + (xs.map fun x => if x.1 = row then x.2 else 0).sum := by
  induction xs generalizing vec with
  | nil => exact (add_zero _).symm
  | cons x xs ih =>
    rw [List.foldl_cons, ih, List.map_cons, List.sum_cons, ← add_assoc, addAt]
    by_cases hx : x.1 = row
    · rw [if_pos hx, hx, Function.update_self]
    · rw [if_neg hx, Function.update_of_ne (Ne.symm hx), add_zero]

theorem sum_flatMap {ι κ : Type} (xs : List ι) (g : ι → List κ) (F : κ → R) :
    ((xs.flatMap g).map F).sum = (xs.map fun a => ((g a).map F).sum).sum := by
  induction xs with
  | nil => rfl
  | cons a xs ih => rw [List.flatMap_cons, List.map_append, List.sum_append, ih, List.map_cons, List.sum_cons]

/-- what is behind the first that does not count does not count either -/
theorem sum_takeWhile {ι : Type} {P : ι → Prop} [DecidablePred P] {F : ι → R} (hF : ∀ a, ¬P a → F a = 0) {l : List ι}
    (hl : l.Pairwise fun a b => P b → P a) : ((l.takeWhile fun a => decide (P a)).map F).sum = (l.map F).sum := by
  induction l with
  | nil => rfl
  | cons a l ih =>
    obtain ⟨hhead, htail⟩ := List.pairwise_cons.mp hl
    by_cases ha : P a
    · rw [List.takeWhile_cons, if_pos (decide_eq_true ha), List.map_cons, List.sum_cons, ih htail, List.map_cons, List.sum_cons]
    · rw [List.takeWhile_cons, if_neg (by simpa using ha), List.map_nil, List.sum_nil]
      refine (List.sum_eq_zero fun q hq => ?_).symm
      obtain ⟨b, hb, rfl⟩ := List.mem_map.mp hq
      rcases List.mem_cons.mp hb with rfl | hb
      · exact hF b ha
      · exact hF b fun hPb => ha (hhead b hb hPb)

end Adding

/-! ## The two sums -/

section Sums

variable {f : Csr2DFile R} {input : ℕ → R} {v : ValDt} {threads : ℕ}

/-- the product of the matrix with the vector, part by part -/
def product (f : Csr2DFile R) (input : ℕ → R) (row : ℕ) : R :=
  ((List.range f.nrPart.toNat).map fun p => ((List.range f.height.toNat).map fun j =>
    if p / f.nrVert.toNat * f.height.toNat + j = row then partRow f input p j else 0).sum).sum

omit [CommSemiring R] in
theorem row_lt (hfits : Fits v f threads) {p j : ℕ} (hp : p < f.nrPart.toNat) (hj : j < f.height.toNat) :
    p / f.nrVert.toNat * f.height.toNat + j < 2 ^ 32 := by
  calc p / f.nrVert.toNat * f.height.toNat + j < p / f.nrVert.toNat * f.height.toNat + f.height.toNat := Nat.add_lt_add_left hj _
    _ = (p / f.nrVert.toNat + 1) * f.height.toNat := (Nat.succ_mul _ _).symm
    _ ≤ f.nrHoriz.toNat * f.height.toNat := Nat.mul_le_mul_right _ (grid_lt hp).1
    _ ≤ evenNext (f.nrHoriz.toNat * f.height.toNat) := le_evenNext _
    _ < 2 ^ 32 := hfits.rows

omit [CommSemiring R] in
theorem word_row (hfits : Fits v f threads) {p j : ℕ} (hp : p < f.nrPart.toNat) (hj : j < f.height.toNat) :
    Ig.word (Ig.word (p / f.nrVert.toNat * f.height.toNat) + j) = p / f.nrVert.toNat * f.height.toNat + j := by
  have hrow := row_lt hfits hp hj
  rw [word_of_lt ((Nat.le_add_right _ j).trans_lt hrow), word_of_lt hrow]

/-- a word of `output_vec` is that of its partition -/
theorem outputVec_eq (hfits : Fits v f threads) {out : ℕ → Option (ℕ → R)} {p j : ℕ} (hp : p < f.nrPart.toNat)
    (hj : j < f.height.toNat) {y : ℕ → R} (hout : out p = some y) :
    outputVec f out (Ig.word (Ig.word (p * (sizes Ig.word f).maxNrRows) + j)) = y j := by
  have hslot : j < slot f := (Nat.lt_succ_of_lt hj).trans_le (le_evenNext _)
  have hend : (p + 1) * slot f ≤ f.nrPart.toNat * slot f := Nat.mul_le_mul_right _ hp
  have houtputs := hfits.outputs
  rw [Nat.succ_mul] at hend
  have hmax : (sizes Ig.word f).maxNrRows = slot f := by rw [hfits.sizes_eq, sizes_id]
  have hstart : Ig.word (p * slot f) = p * slot f := word_of_lt (by omega)
  have hplace : Ig.word (Ig.word (p * (sizes Ig.word f).maxNrRows) + j) = slot f * p + j := by
    rw [hmax, hstart, Nat.mul_comm]
    exact word_of_lt (by rw [Nat.mul_comm]; omega)
  have hdiv : (slot f * p + j) / slot f = p := by
    rw [Nat.mul_add_div (Nat.zero_lt_of_lt hslot), Nat.div_eq_of_lt hslot, Nat.add_zero]
  have hmod : (slot f * p + j) % slot f = j := by rw [Nat.mul_add_mod, Nat.mod_eq_of_lt hslot]
  rw [hplace, outputVec, hmax, hdiv, hout, hmod]

/-- **`result_vec`**, from whatever has been retrieved for the partitions. -/
theorem resultVec_eq (hfits : Fits v f threads) (hrows : RowsOk f.toCsr2DFormat) {out : ℕ → Option (ℕ → R)}
    (hout : ∀ p < f.nrPart.toNat, ∃ y, out p = some y ∧ Outcome f input p y) {order : List (ℕ × ℕ)}
    (horder : order.Perm (merged f)) {row : ℕ} (hrow : row < f.nrRows.toNat) :
    resultVec f out order row = product f input row := by
  rw [resultVec, foldl_addAt, zero_add, List.map_map, (horder.map _).sum_eq, merged, sum_flatMap, product]
  refine congrArg List.sum (List.map_congr_left fun p hp => ?_)
  have hp := List.mem_range.mp hp
  obtain ⟨y, hy, hy'⟩ := hout p hp
  -- rows behind the last one of the matrix are not this row
  have hbehind : ∀ j, ¬Ig.word (Ig.word (p / f.nrVert.toNat * f.height.toNat) + j) < f.nrRows.toNat →
      (if Ig.word (Ig.word (p / f.nrVert.toNat * f.height.toNat) + j) = row then partRow f input p j else 0) = 0 := by
    intro j hj
    exact if_neg fun heq => hj (by rwa [heq])
  calc (((Es.mergedRows f p).map fun j => (p, j)).map
          ((fun x : ℕ × R => if x.1 = row then x.2 else 0) ∘ mergeOne f out)).sum
      = ((Es.mergedRows f p).map fun j =>
          if Ig.word (Ig.word (p / f.nrVert.toNat * f.height.toNat) + j) = row then partRow f input p j else 0).sum := by
        rw [List.map_map]
        refine congrArg List.sum (List.map_congr_left fun j hj => ?_)
        have hj := Es.lt_of_mergedRows hj
        simp only [Function.comp, mergeOne]
        rw [outputVec_eq hfits hp hj hy, outcome_row hfits hrows hp hy' hj]
        rfl
    _ = ((List.range f.height.toNat).map fun j =>
          if Ig.word (Ig.word (p / f.nrVert.toNat * f.height.toNat) + j) = row then partRow f input p j else 0).sum := by
        refine sum_takeWhile hbehind (List.pairwise_lt_range.imp_of_mem fun ha hb hlt hrow => ?_)
        rw [word_row hfits hp (List.mem_range.mp hb)] at hrow
        rw [word_row hfits hp (List.mem_range.mp ha)]
        exact (Nat.add_lt_add_left hlt _).trans hrow
    _ = _ := by
        refine congrArg List.sum (List.map_congr_left fun j hj => ?_)
        rw [word_row hfits hp (List.mem_range.mp hj)]

omit [CommSemiring R] in
/-- the two outer loops of `spmv_host` go through the partitions in their order -/
theorem hostOrder_eq (f : Csr2DFile R) : hostOrder f = (List.range f.nrPart.toNat).flatMap fun p =>
    (List.range f.height.toNat).map fun k => (p / f.nrVert.toNat, p % f.nrVert.toNat, k) := by
  have hloops : ∀ n, ((List.range n).flatMap fun i => (List.range f.nrVert.toNat).flatMap fun j =>
      (List.range f.height.toNat).map fun k => (i, j, k)) = (List.range (n * f.nrVert.toNat)).flatMap fun p =>
        (List.range f.height.toNat).map fun k => (p / f.nrVert.toNat, p % f.nrVert.toNat, k) := by
    intro n
    induction n with
    | zero => rw [Nat.zero_mul]; rfl
    | succ n ih =>
      rw [List.range_succ, List.flatMap_append, ih, Nat.succ_mul, List.range_add, List.flatMap_append, List.flatMap_singleton,
        List.flatMap_map]
      refine congrArg _ (List.flatMap_congr fun j hj => ?_)
      have hj := List.mem_range.mp hj
      have hdiv : (n * f.nrVert.toNat + j) / f.nrVert.toNat = n := by
        rw [Nat.mul_comm, Nat.mul_add_div f.vert_pos, Nat.div_eq_of_lt hj, Nat.add_zero]
      have hmod : (n * f.nrVert.toNat + j) % f.nrVert.toNat = j := by
        rw [Nat.mul_comm, Nat.mul_add_mod, Nat.mod_eq_of_lt hj]
      rw [hdiv, hmod]
  rw [hostOrder, hloops, f.part_eq]

/-- what `spmv_host` adds for a row -/
theorem hostRow_eq (hfits : Fits v f threads) (hrows : RowsOk f.toCsr2DFormat) {p k : ℕ} (hp : p < f.nrPart.toNat)
    (hk : k < f.height.toNat) (vec : ℕ → R) :
    hostRow f input (f.start p + f.ptr p k, vec) (p / f.nrVert.toNat, p % f.nrVert.toNat, k) =
      (f.start p + f.ptr p (k + 1), addAt vec (p / f.nrVert.toNat * f.height.toNat + k, partRow f input p k)) := by
  have hmram := hfits.mram
  have hheight : f.height.toNat + 1 < 2 ^ 32 := (le_evenNext _).trans_lt (show slot f < 2 ^ 32 by omega)
  have hmono := hrows.mono p hp k hk
  have hend := hrows.ptr_le hp (j := k + 1) hk
  have hptr : (p / f.nrVert.toNat * f.nrVert.toNat + p % f.nrVert.toNat) * Ig.word (f.height.toNat + 1) =
      p * (f.height.toNat + 1) := by
    rw [Nat.div_add_mod', word_of_lt hheight]
  have hsum : (List.range' (f.start p + f.ptr p k) (f.ptr p (k + 1) - f.ptr p k)).foldl (fun sum acc =>
      sum + input (Ig.word (Ig.word (p % f.nrVert.toNat * f.width.toNat) + (f.colIdx.cell acc).toNat)) * f.values.cell acc) 0 =
        partRow f input p k := by
    rw [← List.map_add_range', List.foldl_map, ← List.foldl_map (f := fun e =>
      input (Ig.word (Ig.word (p % f.nrVert.toNat * f.width.toNat) + (f.colIdx.cell (f.start p + e)).toNat)) *
        f.values.cell (f.start p + e)) (g := fun a b => a + b), ← List.sum_eq_foldl, partRow]
    refine congrArg List.sum (List.map_congr_left fun e he => ?_)
    have he := List.mem_range'_1.mp he
    have hcol := hrows.col_lt p hp e (by omega)
    have hplace : p % f.nrVert.toNat * f.width.toNat + (f.entry p e).1 < 2 ^ 32 := by
      calc p % f.nrVert.toNat * f.width.toNat + (f.entry p e).1
          < p % f.nrVert.toNat * f.width.toNat + f.width.toNat := Nat.add_lt_add_left hcol _
        _ = (p % f.nrVert.toNat + 1) * f.width.toNat := (Nat.succ_mul _ _).symm
        _ ≤ f.nrVert.toNat * f.width.toNat := Nat.mul_le_mul_right _ (grid_lt hp).2
        _ ≤ evenNext (f.nrVert.toNat * f.width.toNat) := le_evenNext _
        _ < 2 ^ 32 := hfits.cols
    rw [word_of_lt ((Nat.le_add_right _ _).trans_lt hplace), mul_comm]
    exact congrArg (fun c => f.values.cell (f.start p + e) * input c) (word_of_lt hplace)
  have hrow : Ig.word (Ig.word (p / f.nrVert.toNat * f.height.toNat) + k) = p / f.nrVert.toNat * f.height.toNat + k :=
    word_row hfits hp hk
  simp only [hostRow, hptr]
  change (f.start p + f.ptr p k + (f.ptr p (k + 1) - f.ptr p k), addAt vec (_, _)) = _
  rw [hrow, Nat.add_assoc, Nat.add_sub_of_le hmono]
  exact congrArg (fun q => (f.start p + f.ptr p (k + 1), addAt vec (p / f.nrVert.toNat * f.height.toNat + k, q))) hsum

/-- the rows of a partition -/
theorem hostRows_eq (hfits : Fits v f threads) (hrows : RowsOk f.toCsr2DFormat) {p : ℕ} (hp : p < f.nrPart.toNat) (vec : ℕ → R)
    {n : ℕ} (hn : n ≤ f.height.toNat) :
    ((List.range n).map fun k => (p / f.nrVert.toNat, p % f.nrVert.toNat, k)).foldl (hostRow f input) (f.start p, vec) =
      (f.start p + f.ptr p n,
        ((List.range n).map fun k => (p / f.nrVert.toNat * f.height.toNat + k, partRow f input p k)).foldl addAt vec) := by
  induction n with
  | zero => rw [hrows.first p hp]; rfl
  | succ n ih =>
    rw [List.range_succ, List.map_append, List.foldl_append, ih (Nat.le_of_succ_le hn), List.map_singleton, List.foldl_cons,
      List.foldl_nil, hostRow_eq hfits hrows hp hn, List.map_append, List.foldl_append]
    rfl

/-- **What `spmv_host` computes.** -/
theorem spmvHost_eq (hfits : Fits v f threads) (hrows : RowsOk f.toCsr2DFormat) (row : ℕ) :
    spmvHost f input row = product f input row := by
  have hparts : ∀ n ≤ f.nrPart.toNat, ((List.range n).flatMap fun p => (List.range f.height.toNat).map fun k =>
        (p / f.nrVert.toNat, p % f.nrVert.toNat, k)).foldl (hostRow f input) (0, fun _ => 0) =
      (f.start n, ((List.range n).flatMap fun p => (List.range f.height.toNat).map fun k =>
        (p / f.nrVert.toNat * f.height.toNat + k, partRow f input p k)).foldl addAt fun _ => 0) := by
    intro n hn
    induction n with
    | zero => rfl
    | succ n ih =>
      rw [List.range_succ, List.flatMap_append, List.foldl_append, ih (Nat.le_of_succ_le hn), List.flatMap_singleton,
        hostRows_eq hfits hrows hn _ le_rfl, hrows.last n hn, f.start_succ, List.flatMap_append, List.flatMap_singleton,
        List.foldl_append]
  rw [spmvHost, hostOrder_eq, hparts _ le_rfl]
  dsimp only
  rw [foldl_addAt, zero_add, sum_flatMap, product]
  refine congrArg List.sum (List.map_congr_left fun p _ => ?_)
  rw [List.map_map]
  rfl

/-- the product, by the entries of the matrix -/
theorem product_eq (f : Csr2DFile R) (input : ℕ → R) (row : ℕ) :
    product f input row = (f.triples.map fun t => if t.1 = row then t.2.2 * input t.2.1 else 0).sum := by
  rw [Csr2DFormat.triples, sum_flatMap, product]
  refine congrArg List.sum (List.map_congr_left fun p _ => ?_)
  rw [Csr2DFormat.partTriples, List.map_map, Csr.decode, sum_flatMap]
  refine congrArg List.sum (List.map_congr_left fun j _ => ?_)
  rw [List.map_map]
  by_cases hrow : p / f.nrVert.toNat * f.height.toNat + j = row
  · rw [if_pos hrow, partRow]
    refine congrArg List.sum (List.map_congr_left fun k _ => ?_)
    exact (if_pos hrow).symm
  · rw [if_neg hrow]
    refine (List.sum_eq_zero fun q hq => ?_).symm
    obtain ⟨k, -, rfl⟩ := List.mem_map.mp hq
    exact if_neg hrow

end Sums

/-! ## The matrix -/

section Matrix

variable {α : Type} {m : CooFormat α} {A B : Csr2DFormat α}

/-- a matrix that comes back from its file is the same matrix -/
theorem preserved_of_reads (h : Preserved m A) (hrest : DcsrRestored A B) (hreads : DcsrSameReads A B) : Preserved m B := by
  have hscalars := hrest.scalars
  simp only [Prod.mk.injEq] at hscalars
  obtain ⟨-, -, -, -, hvert, hpart, hheight, hwidth⟩ := hscalars
  have hread : ∀ {β : Type} {a b : Buf β} {i : ℕ}, SameRead a b i → b.cell i = a.cell i := by
    rintro β a b i ⟨e, ha, hb⟩
    unfold Buf.read at ha hb
    split_ifs at ha hb
    exact (Option.some.inj hb).trans (Option.some.inj ha).symm
  have hptr : ∀ p < A.nrPart.toNat, ∀ j ≤ A.height.toNat, B.ptr p j = A.ptr p j := fun p hp j hj => by
    rw [Csr2DFormat.ptr, hheight, hread (hreads.ptr p hp j hj)]
    rfl
  have hnnz : ∀ p < A.nrPart.toNat, B.nnzOf p = A.nnzOf p := fun p hp => congrArg UInt32.toNat (hread (hreads.count p hp))
  have hstart : ∀ p ≤ A.nrPart.toNat, B.start p = A.start p := fun p hp =>
    Finset.sum_congr rfl fun q hq => hnnz q ((Finset.mem_range.mp hq).trans_le hp)
  have hentry : ∀ p < A.nrPart.toNat, ∀ k < A.nnzOf p, B.entry p k = A.entry p k := fun p hp k hk => by
    obtain ⟨hcol, hval⟩ := hreads.entry p hp k hk
    rw [Csr2DFormat.entry, hstart p hp.le, hread hcol, hread hval]
    rfl
  refine ⟨?_, fun e he => ?_, fun p hp k hk => ?_, fun p hp => ?_, fun p hp j hj => ?_, fun p hp => ?_⟩
  · have htriples : B.triples = A.triples := by
      rw [Csr2DFormat.triples, Csr2DFormat.triples, hpart]
      refine List.flatMap_congr fun p hp => ?_
      have hp := List.mem_range.mp hp
      rw [Csr2DFormat.partTriples, Csr2DFormat.partTriples, hvert, hheight, hwidth]
      refine congrArg (List.map _) ?_
      rw [Csr.decode, Csr.decode]
      refine List.flatMap_congr fun j hj => ?_
      have hj := List.mem_range.mp hj
      rw [hptr p hp j hj.le, hptr p hp (j + 1) hj]
      refine List.map_congr_left fun k hk => ?_
      have hk := List.mem_range'_1.mp hk
      have hmono := h.mono p hp j hj
      have hend := (rowsOk_of_preserved h).ptr_le (j := j + 1) hp hj
      rw [hentry p hp k (by omega)]
    rw [htriples]
    exact h.triples
  · have hlayout : B.layout = A.layout := by rw [Csr2DFormat.layout, Csr2DFormat.layout, hvert, hheight, hwidth]
    rw [hlayout, hheight, hwidth]
    exact h.local_lt e he
  · rw [hpart] at hp
    rw [hnnz p hp] at hk
    rw [hentry p hp k hk, hwidth]
    exact h.col_lt p hp k hk
  · rw [hpart] at hp
    rw [hptr p hp 0 (Nat.zero_le _)]
    exact h.first p hp
  · rw [hpart] at hp
    rw [hheight] at hj
    rw [hptr p hp j hj.le, hptr p hp (j + 1) hj]
    exact h.mono p hp j hj
  · rw [hpart] at hp
    rw [hheight, hptr p hp _ le_rfl, hnnz p hp]
    exact h.last p hp

theorem nrRows_of_csr2d [Zero α] {v : ValDt} {nrHoriz nrVert scale : UInt32}
    (h : cooToCsr2D v .ofis m nrHoriz nrVert = some (A, scale)) : A.nrRows = m.nrRows := by
  unfold cooToCsr2D cooToCsr2DOfis cooToCsr2DWith at h
  simp only [Option.bind_eq_bind, Option.bind_eq_some_iff, Option.pure_def, Option.some.injEq, Prod.mk.injEq] at h
  obtain ⟨counted, -, rowPtr, -, nnzIdx, -, max, -, filled, -, rfl, -⟩ := h
  rfl

/-- the parts have all entries -/
theorem start_of_csr2d [Zero α] {v : ValDt} {nrHoriz nrVert scale : UInt32} (hfits : m.elems.length < 2 ^ 32)
    (h : cooToCsr2D v .ofis m nrHoriz nrVert = some (A, scale)) : A.start A.nrPart.toNat = m.nnz.toNat := by
  have hmade := made_of_run hfits h
  have hnnz : m.nnz.toNat = m.elems.length := UInt32.toNat_ofNat_of_lt' hfits
  rw [hnnz, hmade.nrPart, ← (Scatter.starts_cuts hmade.parts).last]
  refine Finset.sum_congr rfl fun p hp => ?_
  rw [Csr2DFormat.nnzOf, hmade.counts.2 p (Finset.mem_range.mp hp)]
  exact UInt32.toNat_ofNat_of_lt' (List.countP_le_length.trans_lt hfits)

/-- what is loaded is a matrix file -/
theorem file_of_restored (f : Csr2DFile α) (hrest : DcsrRestored f.toCsr2DFormat B) :
    ∃ f' : Csr2DFile α, f'.toCsr2DFormat = B := by
  have hscalars := hrest.scalars
  simp only [Prod.mk.injEq] at hscalars
  obtain ⟨hrows, hcols, hnnz, hhoriz, hvert, hpart, hheight, hwidth⟩ := hscalars
  have hstart : B.start B.nrPart.toNat = f.start f.nrPart.toNat := by
    rw [hpart]
    exact Finset.sum_congr rfl fun p hp => congrArg UInt32.toNat (hrest.nnzPerPart.cell p (Finset.mem_range.mp hp))
  exact ⟨⟨B, hhoriz ▸ f.horiz_pos, hvert ▸ f.vert_pos, by rw [hpart, hhoriz, hvert, f.part_eq],
    by rw [hheight, hrows, hhoriz, f.height_eq], by rw [hwidth, hcols, hvert, f.width_eq], by rw [hstart, hnnz, f.nnz_eq]⟩, rfl⟩

end Matrix

/-- in every run of the host program that comes to its end, with every end of the DPU program for each partition and every
order of the last additions, both results are `y` -/
def AllRuns (v : ValDt) (f : Csr2DFile R) (input y : ℕ → R) : Prop :=
  ∀ threads, 0 < threads → Sized threads f.nrPart.toNat → Fits v f threads →
  ∀ kernel : (Fin 5 → ℕ) → ℕ → R, (∀ p < f.nrPart.toNat, Outcome f input p (kernel fun _ => p)) →
  ∀ acts, Returned threads (run igMode kernel threads f.nrPart.toNat (init threads) acts) →
  ∀ order : List (ℕ × ℕ), order.Perm (merged f) → ∀ row < f.nrRows.toNat,
    resultVec f (run igMode kernel threads f.nrPart.toNat (init threads) acts).out order row = y row ∧
    spmvHost f input row = y row

/-- the product of a COO matrix with a vector -/
def matVec (m : CooFormat R) (input : ℕ → R) (row : ℕ) : R :=
  (m.elems.map fun e => if e.row = row then e.values * input e.colIdx.toNat else 0).sum

/-- a matrix of 32-bit integers with one entry -/
def oneWord : CooInput UInt32 where
  nrRows := 8
  nrCols := 16
  nnzOfRows := Buf.zeros 8
  elems := [⟨3, 5, 7⟩]
  nonempty := List.cons_ne_nil _ _
  fits := by decide
  row_lt := by decide
  col_lt := by decide
  counts := Buf.zeros_holds 8

end PimOfis.SpMV.EndToEnd
