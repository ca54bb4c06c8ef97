/-
The rows of a partition shared over the 16 tasklets of a DPU: `find_start` and the row loop of `CSR_dpu.c`.

`find_start` rounds an odd row count up and cuts at even rows; the kernel takes the difference of two starts and clamps
it to `nr_rows`. The clamp subtracts without a test that the start is within the rows, and that is what goes wrong: for
an odd count below 31 the last tasklets start at `nr_rows + 1`, their `rows_per_tasklets` becomes 2^32 - 1, and the guard
that shall keep a tasklet without rows from reading lets them read `row_ptr` behind its end. The row loop itself ends at
once for them, so no row is lost. For 2^32 - 1 rows the rounding wraps to 0 and only row 0 is processed.

Results:
- `findStart_toNat`: the starts as numbers;
- `workES_piece`: what a tasklet does that starts within the rows;
- `rowSplitExact_iff`: the split is exact if and only if the count is even, or odd from 31 on and not 2^32 - 1.
-/
import Mathlib.Tactic
import PimOfis.Lib.Bits
import PimOfis.SpMV.RowWork

namespace PimOfis.SpMV

open Lib

/-! ## Model -/

def NR_TASKLETS : UInt32 := 16

/-- `find_start`; the `int` it returns goes back into an unsigned variable -/
def findStart (taskletId nrRows : UInt32) : UInt32 :=
  let boolPad := nrRows % 2 != 0
  let nrRows := if boolPad then nrRows + 1 else nrRows
  let baseRow := (nrRows / NR_TASKLETS) &&& ~~~1
  let remainRow := nrRows - baseRow * NR_TASKLETS
  let returnVal := taskletId * baseRow + (if taskletId ≤ remainRow / 2 then taskletId * 2 else remainRow)
  if boolPad && taskletId == NR_TASKLETS then returnVal - (0 - 1) else returnVal

/-- `rows_per_tasklets`, after the clamp -/
def rowsPerTasklets (taskletId nrRows : UInt32) : UInt32 :=
  let startRow := findStart taskletId nrRows
  let rows := findStart (taskletId + 1) nrRows - startRow
  if startRow + rows > nrRows then nrRows - startRow else rows

/-- `main` of `SpMV_OFIS/CSR_dpu.c` -/
def workOFIS (taskletId nrRows : UInt32) : Work :=
  let rows := rowsPerTasklets taskletId nrRows
  if rows ≠ 0 ∧ nrRows ≠ 0 then walk 2 [0, 1] (findStart taskletId nrRows) rows else Work.none

/-- `main` of `SparseP_ES/CSR_dpu.c` -/
def workES (taskletId nrRows : UInt32) : Work :=
  let rows := rowsPerTasklets taskletId nrRows
  if rows = 0 then Work.none else walk 2 [0, 1] (findStart taskletId nrRows) rows

/-- the row split does what it is for -/
structure RowSplitExact (work : UInt32 → UInt32 → Work) (nrRows : UInt32) : Prop where
  shared : Shared (fun t => work (UInt32.ofNat t) nrRows) 16 nrRows.toNat 2
  even : ∀ t < 16, findStart (UInt32.ofNat t) nrRows % 2 = 0
  start_le : ∀ t < 16, findStart (UInt32.ofNat t) nrRows ≤ nrRows
  /-- the difference, the sum and the clamp are those of the numbers -/
  no_wrap : ∀ t < 16, findStart (UInt32.ofNat t) nrRows ≤ findStart (UInt32.ofNat t + 1) nrRows ∧
    (rowsPerTasklets (UInt32.ofNat t) nrRows).toNat =
      min (findStart (UInt32.ofNat t + 1) nrRows).toNat nrRows.toNat - (findStart (UInt32.ofNat t) nrRows).toNat
  reads : ∀ t < 16, ∀ e ∈ (work (UInt32.ofNat t) nrRows).rowPtrReads, e ≤ nrRows.toNat

/-! ## The starts as numbers -/

/-- the row count rounded up, in 32 bits -/
def paddedRows (nrRows : UInt32) : ℕ := (nrRows.toNat + nrRows.toNat % 2) % 2 ^ 32

/-- where tasklet `t` starts in the padded rows -/
def evenStart (padded t : ℕ) : ℕ := t * (padded / 32 * 2) + min (2 * t) (padded % 32)

theorem evenStart_le {padded t : ℕ} (ht : t ≤ 16) : evenStart padded t ≤ padded := by
  have hmul : t * (padded / 32 * 2) ≤ 16 * (padded / 32 * 2) := Nat.mul_le_mul_right _ ht
  have hmin : min (2 * t) (padded % 32) ≤ padded % 32 := Nat.min_le_right _ _
  unfold evenStart
  omega

theorem padded_toNat (nrRows : UInt32) :
    (if nrRows % 2 != 0 then nrRows + 1 else nrRows).toNat = paddedRows nrRows := by
  have hlt := nrRows.toNat_lt
  have hmod : (nrRows % 2).toNat = nrRows.toNat % 2 := UInt32.toNat_mod nrRows 2
  unfold paddedRows
  rcases Nat.mod_two_eq_zero_or_one nrRows.toNat with h | h
  · have hz : nrRows % 2 = 0 := UInt32.toNat_inj.mp (by rw [hmod, h]; rfl)
    simp only [hz, bne_self_eq_false, Bool.false_eq_true, if_false, h, Nat.add_zero]
    exact (Nat.mod_eq_of_lt hlt).symm
  · have hz : nrRows % 2 = 1 := UInt32.toNat_inj.mp (by rw [hmod, h]; rfl)
    rw [hz, if_pos (by decide), UInt32.toNat_add, h]
    rfl

theorem findStart_toNat {t : ℕ} (ht : t ≤ 16) (nrRows : UInt32) :
    (findStart (UInt32.ofNat t) nrRows).toNat =
      evenStart (paddedRows nrRows) t + if nrRows.toNat % 2 = 1 ∧ t = 16 then 1 else 0 := by
  have hpad := padded_toNat nrRows
  dsimp only [findStart]
  generalize (if nrRows % 2 != 0 then nrRows + 1 else nrRows) = n at hpad
  have hn := n.toNat_lt
  have ht' : (UInt32.ofNat t).toNat = t := UInt32.toNat_ofNat_of_lt' (lt_of_le_of_lt ht (by decide))
  have hbase : ((n / NR_TASKLETS) &&& ~~~1).toNat = n.toNat / 32 * 2 := by
    rw [and_not_one, UInt32.toNat_div]
    show n.toNat / 16 / 2 * 2 = _
    omega
  generalize hb : ((n / NR_TASKLETS) &&& ~~~1) = b at hbase
  have hremain : (n - b * NR_TASKLETS).toNat = n.toNat % 32 := by
    have hmul : (b * NR_TASKLETS).toNat = b.toNat * 16 := by
      rw [UInt32.toNat_mul]
      exact Nat.mod_eq_of_lt (by show b.toNat * 16 < 2 ^ 32; omega)
    rw [UInt32.toNat_sub_of_le _ _ (UInt32.le_iff_toNat_le.mpr (by omega)), hmul]
    omega
  generalize hr : n - b * NR_TASKLETS = r at hremain
  have hhalf : (r / 2).toNat = n.toNat % 32 / 2 := by
    rw [UInt32.toNat_div, hremain]
    rfl
  have hhand : (if UInt32.ofNat t ≤ r / 2 then UInt32.ofNat t * 2 else r).toNat = min (2 * t) (n.toNat % 32) := by
    have htwice : (UInt32.ofNat t * 2).toNat = 2 * t := by
      rw [UInt32.toNat_mul, ht']
      show t * 2 % 2 ^ 32 = 2 * t
      omega
    have heven : n.toNat % 2 = 0 := by
      rw [hpad, paddedRows]
      omega
    split_ifs with hle
    · rw [UInt32.le_iff_toNat_le, ht', hhalf] at hle
      rw [htwice]
      omega
    · rw [UInt32.le_iff_toNat_le, ht', hhalf] at hle
      rw [hremain]
      omega
  generalize (if UInt32.ofNat t ≤ r / 2 then UInt32.ofNat t * 2 else r) = u at hhand
  have hstart : (UInt32.ofNat t * b + u).toNat = evenStart n.toNat t := by
    have hle : evenStart n.toNat t ≤ n.toNat := evenStart_le ht
    have hmul : (UInt32.ofNat t * b).toNat = t * (n.toNat / 32 * 2) := by
      rw [UInt32.toNat_mul, ht', hbase]
      apply Nat.mod_eq_of_lt
      exact lt_of_le_of_lt (le_trans (Nat.le_add_right _ _) hle) hn
    rw [UInt32.toNat_add, hmul, hhand]
    exact Nat.mod_eq_of_lt (lt_of_le_of_lt hle hn)
  have hodd : (nrRows % 2 != 0) = decide (nrRows.toNat % 2 = 1) := by
    have hmod : (nrRows % 2).toNat = nrRows.toNat % 2 := UInt32.toNat_mod nrRows 2
    have hz : nrRows % 2 = 0 ↔ nrRows.toNat % 2 = 0 := by
      rw [← UInt32.toNat_inj, hmod]
      rfl
    rw [bne, beq_eq_decide, ← decide_not, decide_eq_decide, hz]
    omega
  have hlast : (UInt32.ofNat t == NR_TASKLETS) = decide (t = 16) := by
    rw [beq_eq_decide, decide_eq_decide, ← UInt32.toNat_inj, ht']
    rfl
  simp only [hodd, hlast, Bool.and_eq_true, decide_eq_true_eq]
  rw [← hpad, ← hstart]
  split_ifs with hcorr
  · have hle : evenStart n.toNat t ≤ n.toNat := evenStart_le ht
    have heven : n.toNat % 2 = 0 := by
      rw [hpad, paddedRows]
      omega
    have hone : ((0 : UInt32) - 1).toNat = 2 ^ 32 - 1 := rfl
    rw [UInt32.toNat_sub, hone, hstart]
    omega
  · rfl

theorem evenStart_mono (padded t : ℕ) : evenStart padded t ≤ evenStart padded (t + 1) := by
  unfold evenStart
  have hmul : t * (padded / 32 * 2) ≤ (t + 1) * (padded / 32 * 2) := Nat.mul_le_mul_right _ (Nat.le_succ t)
  have hmin : min (2 * t) (padded % 32) ≤ min (2 * (t + 1)) (padded % 32) := min_le_min_right _ (by omega)
  exact Nat.add_le_add hmul hmin

theorem evenStart_last (padded : ℕ) : evenStart padded 16 = padded := by
  unfold evenStart
  omega

theorem evenStart_even {padded : ℕ} (h : padded % 2 = 0) (t : ℕ) : evenStart padded t % 2 = 0 := by
  have hmul : t * (padded / 32 * 2) = 2 * (t * (padded / 32)) := by ring
  unfold evenStart
  omega

theorem paddedRows_even (nrRows : UInt32) : paddedRows nrRows % 2 = 0 := by
  unfold paddedRows
  omega

theorem workOFIS_eq (taskletId nrRows : UInt32) : workOFIS taskletId nrRows = workES taskletId nrRows := by
  have hnone : rowsPerTasklets taskletId 0 = 0 := by
    have hstart : ∀ t : UInt32, findStart t 0 = 0 := by
      intro t
      have hzero : (if t ≤ 0 then t * 2 else 0) = 0 := by
        split_ifs with ht
        · rw [UInt32.le_zero_iff.mp ht]
          rfl
        · rfl
      show t * 0 + (if t ≤ 0 then t * 2 else 0) = 0
      rw [hzero]
      simp
    simp only [rowsPerTasklets, hstart]
    rfl
  unfold workOFIS workES
  by_cases hrows : rowsPerTasklets taskletId nrRows = 0
  · simp [hrows]
  · have hne : nrRows ≠ 0 := by
      rintro rfl
      exact hrows hnone
    simp [hrows, hne]

/-! ## The split -/

/-- where the rows of tasklet `t` begin; behind the last tasklet, where they end -/
def rowCut (nrRows : UInt32) (t : ℕ) : ℕ := min (evenStart (paddedRows nrRows) t) nrRows.toNat

theorem rowCut_cuts {nrRows : UInt32} (h : nrRows.toNat ≤ paddedRows nrRows) :
    Cuts (rowCut nrRows) 16 0 nrRows.toNat where
  first := by simp [rowCut, evenStart]
  last := by rw [rowCut, evenStart_last, min_eq_right h]
  mono t _ := min_le_min_right _ (evenStart_mono _ t)

/-- the row counts for which the split is exact -/
def SplitFits (nrRows : UInt32) : Prop :=
  nrRows.toNat % 2 = 0 ∨ 31 ≤ nrRows.toNat ∧ nrRows.toNat ≠ 2 ^ 32 - 1

theorem SplitFits.le_padded {nrRows : UInt32} (h : SplitFits nrRows) : nrRows.toNat ≤ paddedRows nrRows := by
  have hlt := nrRows.toNat_lt
  unfold paddedRows
  rcases h with h | h <;> omega

theorem SplitFits.start_le {nrRows : UInt32} (h : SplitFits nrRows) {t : ℕ} (ht : t < 16) :
    evenStart (paddedRows nrRows) t ≤ nrRows.toNat := by
  have hlt := nrRows.toNat_lt
  rcases Nat.mod_two_eq_zero_or_one nrRows.toNat with heven | hodd
  · have hpad : paddedRows nrRows = nrRows.toNat := by
      unfold paddedRows
      omega
    calc evenStart (paddedRows nrRows) t ≤ paddedRows nrRows := evenStart_le ht.le
      _ = nrRows.toNat := hpad
  · obtain ⟨hmin, hmax⟩ := h.resolve_left (by omega)
    have hpad : paddedRows nrRows = nrRows.toNat + 1 := by
      unfold paddedRows
      omega
    have hmul : t * (paddedRows nrRows / 32 * 2) ≤ 15 * (paddedRows nrRows / 32 * 2) :=
      Nat.mul_le_mul_right _ (by omega)
    unfold evenStart
    omega

variable {nrRows : UInt32} {t : ℕ}

theorem findStart_eq_rowCut (ht : t < 16) (hle : evenStart (paddedRows nrRows) t ≤ nrRows.toNat) :
    (findStart (UInt32.ofNat t) nrRows).toNat = rowCut nrRows t := by
  rw [findStart_toNat ht.le, if_neg (by omega), rowCut, min_eq_left hle, Nat.add_zero]

/-- the end of the range, clamped -/
theorem next_eq_rowCut (h : nrRows.toNat ≤ paddedRows nrRows) (ht : t < 16) :
    min (findStart (UInt32.ofNat t + 1) nrRows).toNat nrRows.toNat = rowCut nrRows (t + 1) := by
  have hsucc : t + 1 ≤ 16 := ht
  rw [show UInt32.ofNat t + 1 = UInt32.ofNat (t + 1) from (UInt32.ofNat_add t 1).symm, findStart_toNat hsucc, rowCut]
  split_ifs with hcorr
  · obtain ⟨_, hlast⟩ := hcorr
    rw [hlast, evenStart_last]
    omega
  · rfl

theorem rowsPerTasklets_toNat (h : nrRows.toNat ≤ paddedRows nrRows) (ht : t < 16)
    (hle : evenStart (paddedRows nrRows) t ≤ nrRows.toNat) :
    findStart (UInt32.ofNat t) nrRows ≤ findStart (UInt32.ofNat t + 1) nrRows ∧
      (rowsPerTasklets (UInt32.ofNat t) nrRows).toNat = rowCut nrRows (t + 1) - rowCut nrRows t := by
  have hstart := findStart_eq_rowCut ht hle
  have hnext := next_eq_rowCut h ht
  have hmono := (rowCut_cuts h).mono t ht
  have hbound := (rowCut_cuts h).le_hi ht.le
  unfold rowsPerTasklets
  generalize findStart (UInt32.ofNat t) nrRows = a at *
  generalize findStart (UInt32.ofNat t + 1) nrRows = b at *
  have hab : a ≤ b := UInt32.le_iff_toNat_le.mpr (by omega)
  have hdiff : (b - a).toNat = b.toNat - a.toNat := UInt32.toNat_sub_of_le _ _ hab
  have hsum : (a + (b - a)).toNat = b.toNat := by
    have hlt := b.toNat_lt
    have hnat : a.toNat ≤ b.toNat := UInt32.le_iff_toNat_le.mp hab
    rw [UInt32.toNat_add, hdiff]
    omega
  refine ⟨hab, ?_⟩
  dsimp only
  split_ifs with hclamp
  · have hclamp' : nrRows.toNat < b.toNat := by
      rw [← hsum]
      exact UInt32.lt_iff_toNat_lt.mp hclamp
    rw [UInt32.toNat_sub_of_le _ _ (UInt32.le_iff_toNat_le.mpr (by omega)), hstart]
    omega
  · have hclamp' : b.toNat ≤ nrRows.toNat := by
      rw [← hsum]
      exact UInt32.le_iff_toNat_le.mp (UInt32.not_lt.mp hclamp)
    rw [hdiff, hstart]
    omega

/-- what tasklet `t` does where its start is within the rows -/
theorem workES_piece (h : nrRows.toNat ≤ paddedRows nrRows) (ht : t < 16)
    (hle : evenStart (paddedRows nrRows) t ≤ nrRows.toNat) :
    (workES (UInt32.ofNat t) nrRows).rows = List.range' (rowCut nrRows t) (rowCut nrRows (t + 1) - rowCut nrRows t) ∧
      (∀ o ∈ (workES (UInt32.ofNat t) nrRows).outRows,
        ∃ k, rowCut nrRows t + k * 2 < rowCut nrRows (t + 1) ∧ o = rowCut nrRows t + k * 2) ∧
      ∀ e ∈ (workES (UInt32.ofNat t) nrRows).rowPtrReads, e ≤ nrRows.toNat := by
  have hstart := findStart_eq_rowCut ht hle
  have hrows := (rowsPerTasklets_toNat h ht hle).2
  have hbound := (rowCut_cuts h).le_hi (i := t + 1) ht
  have hlt := nrRows.toNat_lt
  unfold workES
  dsimp only
  split_ifs with hnone
  · rw [hnone] at hrows
    rw [← hrows]
    exact ⟨rfl, fun o ho => absurd ho List.not_mem_nil, fun e he => absurd he List.not_mem_nil⟩
  · have hpos : (rowsPerTasklets (UInt32.ofNat t) nrRows).toNat ≠ 0 := by
      intro hzero
      exact hnone (UInt32.toNat_inj.mp hzero)
    have hsum : (findStart (UInt32.ofNat t) nrRows).toNat + (rowsPerTasklets (UInt32.ofNat t) nrRows).toNat < 2 ^ 32 := by
      omega
    refine ⟨?_, ?_, ?_⟩
    · rw [walk_rows hsum, hstart, hrows]
    · intro o ho
      obtain ⟨k, hk, rfl⟩ := (walk_outRows Nat.two_pos hsum).mp ho
      exact ⟨k, by omega, by rw [hstart]⟩
    · intro e he
      rcases walk_reads hsum he with hfirst | hread
      · have hsmall : e ≤ 1 := by
          simp only [List.mem_cons, List.not_mem_nil, or_false] at hfirst
          omega
        omega
      · omega

theorem SplitFits.exact (h : SplitFits nrRows) : RowSplitExact workES nrRows where
  shared := by
    refine shared_of_cuts (rowCut_cuts h.le_padded) ?_ ?_ ?_
    · intro t ht _
      rw [rowCut, min_eq_left (h.start_le ht)]
      exact Nat.dvd_of_mod_eq_zero (evenStart_even (paddedRows_even nrRows) t)
    · exact fun t ht => (workES_piece h.le_padded ht (h.start_le ht)).1
    · exact fun t ht => (workES_piece h.le_padded ht (h.start_le ht)).2.1
  even t ht := by
    refine UInt32.toNat_inj.mp ?_
    rw [UInt32.toNat_mod, findStart_eq_rowCut ht (h.start_le ht), rowCut, min_eq_left (h.start_le ht)]
    exact evenStart_even (paddedRows_even nrRows) t
  start_le t ht := by
    rw [UInt32.le_iff_toNat_le, findStart_eq_rowCut ht (h.start_le ht)]
    exact (rowCut_cuts h.le_padded).le_hi ht.le
  no_wrap t ht := by
    rw [next_eq_rowCut h.le_padded ht, findStart_eq_rowCut ht (h.start_le ht)]
    exact rowsPerTasklets_toNat h.le_padded ht (h.start_le ht)
  reads t ht := (workES_piece h.le_padded ht (h.start_le ht)).2.2

/-- **The tasklet row split.** The rows go to the 16 tasklets without loss, overlap or a read behind `row_ptr` if and only
if their number is even, or odd from 31 on and not 2^32 - 1; so it is in both kernels. -/
theorem rowSplitExact_iff (nrRows : UInt32) :
    (RowSplitExact workOFIS nrRows ↔ SplitFits nrRows) ∧ (RowSplitExact workES nrRows ↔ SplitFits nrRows) := by
  have hkernels : workOFIS = workES := funext fun t => funext fun n => workOFIS_eq t n
  rw [hkernels, and_self]
  refine ⟨fun hexact => ?_, SplitFits.exact⟩
  by_contra hfits
  have hlt := nrRows.toNat_lt
  unfold SplitFits at hfits
  push Not at hfits
  obtain ⟨hodd, hbig⟩ := hfits
  rcases lt_or_ge nrRows.toNat 31 with hsmall | hlarge
  · -- tasklet (nr_rows + 1) / 2 starts one row behind the rows
    have ht : (nrRows.toNat + 1) / 2 < 16 := by omega
    have hle := hexact.start_le ((nrRows.toNat + 1) / 2) ht
    have hpad : paddedRows nrRows = nrRows.toNat + 1 := by
      unfold paddedRows
      omega
    rw [UInt32.le_iff_toNat_le, findStart_toNat ht.le, if_neg (by omega), hpad, evenStart] at hle
    have hbase : (nrRows.toNat + 1) / 32 = 0 := by omega
    rw [hbase] at hle
    omega
  · -- all 16 starts are 0, and only the last tasklet has a row
    have hmax : nrRows = 4294967295 := UInt32.toNat_inj.mp (hbig hlarge)
    subst hmax
    obtain ⟨t, ht, hr⟩ := (hexact.shared.covers 1).mpr (by decide)
    have hnone : ∀ i < 16, 1 ∉ (workES (UInt32.ofNat i) 4294967295).rows := by decide
    exact hnone t ht hr

/-- seven rows: tasklet 4 starts at row 8, its count wraps, and it reads entry 8 of a `row_ptr` with entries 0 to 7 -/
theorem sevenRows_overread : findStart 4 7 = 8 ∧ rowsPerTasklets 4 7 = 4294967295 ∧
    8 ∈ (workOFIS 4 7).rowPtrReads ∧ ¬ RowSplitExact workOFIS 7 := by
  refine ⟨by decide, by decide, by decide, fun h => ?_⟩
  have := h.start_le 4 (by decide)
  exact absurd this (by decide)

end PimOfis.SpMV
