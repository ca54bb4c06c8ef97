/-
`partition_tsklt_by_nnz` (`partition.h`, SparseP_EW): the rows of a DPU shared over its tasklets, and the kernel
`CSR_dpu.c` that takes `start_row[t]` and `rows_per_tasklet[t]` from the split.

Without entries the rows are dealt out in groups of `8 / byte_dt`; with entries the greedy split of `splitRows` is used,
where a part may end only at a full group. None of the patches of the tail looks at a last group that is not full: where
the scan has closed `nr_of_tasklets` parts and the open part has its share too, but its last group is not full, nothing
extends the last part, and the rows behind it belong to no tasklet.

Results:
- `dealRows_spec`: the split without entries;
- `taskletSplitExact_iff`: all rows are covered exactly if no division by zero occurs and no full share is left over;
- `thirtyThreeRows_lost`: 33 rows of 4-byte values with one entry, and row 32 is lost.
-/
import Mathlib.Tactic
import PimOfis.SpMV.NnzSplit
import PimOfis.SpMV.RowWork

namespace PimOfis.SpMV

open Lib Greedy

/-! ## Model -/

/-- the value types the host can be compiled for -/
inductive ValDt where
  | int8 | int16 | int32 | int64 | fp32 | fp64

def ValDt.byteDt : ValDt → UInt32
  | .int8 => 1
  | .int16 => 2
  | .int32 => 4
  | .int64 => 8
  | .fp32 => 4
  | .fp64 => 8

/-- how many values an 8-byte word holds -/
def ValDt.granularity (v : ValDt) : UInt32 := 8 / v.byteDt

/-- the arguments of the split: the row pointers of a DPU, its rows and entries, and the number of tasklets -/
structure DpuRows where
  drowptr : UInt32 → UInt32
  ptrOffset : UInt32
  rowsPerDpu : UInt32
  nnzPerDpu : UInt32
  nrOfTasklets : UInt32
  /-- the counts are passed as `int` and not negative -/
  rows_int : rowsPerDpu.toNat < 2 ^ 31
  nnz_int : nnzPerDpu.toNat < 2 ^ 31
  tasklets_int : nrOfTasklets.toNat < 2 ^ 31
  sorted : Sorted (fun t => drowptr (ptrOffset + t)) rowsPerDpu.toNat
  nnz_eq : entries (fun t => drowptr (ptrOffset + t)) 0 rowsPerDpu.toNat = nnzPerDpu.toNat

/-- the row pointers of the DPU -/
def DpuRows.ptr (d : DpuRows) (t : UInt32) : UInt32 := d.drowptr (d.ptrOffset + t)

/-- tasklet `i` is given its groups; `curr_row` and the array are carried along -/
def dealRow (granularity chunks restRows rows : UInt32) (c : UInt32 × Slots) (i : UInt32) : UInt32 × Slots :=
  let rowsPerTasklet := granularity * chunks
  let rowsPerTasklet := if i < restRows then rowsPerTasklet + granularity else rowsPerTasklet
  let currRow := c.1 + rowsPerTasklet
  let currRow := if currRow > rows then rows else currRow
  (currRow, c.2.put (i + 1) currRow)

/-- the first `k` tasklets -/
def dealRows (granularity chunks restRows rows : UInt32) (split : Slots) (k : ℕ) : UInt32 × Slots :=
  (List.range k).foldl (fun c i => dealRow granularity chunks restRows rows c (UInt32.ofNat i)) (0, split.put 0 0)

/-- `partition_tsklt_by_nnz`; nothing comes out of a division by zero -/
def partitionTskltByNnz (v : ValDt) (d : DpuRows) (split : Slots) : Option Slots :=
  if d.nnzPerDpu = 0 then
    let group := v.granularity * d.nrOfTasklets
    if group = 0 then none
    else some (dealRows v.granularity (d.rowsPerDpu / group) (d.rowsPerDpu % group) d.rowsPerDpu split d.nrOfTasklets.toNat).2
  else if d.nrOfTasklets = 0 then none
  else splitRows v.granularity (d.nnzPerDpu / d.nrOfTasklets) d.nrOfTasklets 0 d.rowsPerDpu d.ptr split

/-- `main` of `SparseP_EW/CSR_dpu.c` for one tasklet -/
def workEW (v : ValDt) (startRow rowsPerTasklet nrows : UInt32) : Work :=
  if rowsPerTasklet = 0 then Work.none
  else
    let rows := if startRow + rowsPerTasklet > nrows then nrows - startRow else rowsPerTasklet
    walk v.granularity.toNat [] startRow rows

/-- the split of a DPU and the tasklets that work by it -/
structure TaskletSplit (v : ValDt) (d : DpuRows) (split : UInt32 → UInt32) : Prop where
  /-- from 0 to `rows_per_dpu`, not decreasing -/
  cuts : Cuts (fun t => (split (UInt32.ofNat t)).toNat) d.nrOfTasklets.toNat 0 d.rowsPerDpu.toNat
  /-- every start of a range that is not empty begins a word -/
  aligned : ∀ t < d.nrOfTasklets.toNat, (split (UInt32.ofNat t)).toNat < (split (UInt32.ofNat (t + 1))).toNat →
    v.granularity.toNat ∣ (split (UInt32.ofNat t)).toNat
  shared : Shared (fun t => workEW v (split (UInt32.ofNat t)) (split (UInt32.ofNat (t + 1)) - split (UInt32.ofNat t))
    d.rowsPerDpu) d.nrOfTasklets.toNat d.rowsPerDpu.toNat v.granularity.toNat

/-- whatever the array holds before -/
def TaskletSplitExact (v : ValDt) (d : DpuRows) : Prop :=
  ∀ split, ∃ split', partitionTskltByNnz v d split = some split' ∧ TaskletSplit v d split'.get

/-- no division by zero, and no full share of entries left over behind `nr_of_tasklets` parts -/
def TaskletSplitFits (v : ValDt) (d : DpuRows) : Prop :=
  if d.nnzPerDpu = 0 then v.granularity.toNat * d.nrOfTasklets.toNat % 2 ^ 32 ≠ 0
  else d.nrOfTasklets.toNat ≠ 0 ∧
    ¬ LeftOver v.granularity.toNat (d.nnzPerDpu.toNat / d.nrOfTasklets.toNat) d.ptr d.nrOfTasklets.toNat d.rowsPerDpu.toNat

theorem granularity_dvd (v : ValDt) : v.granularity.toNat ∣ 8 := by cases v <;> decide

theorem granularity_pos (v : ValDt) : 0 < v.granularity.toNat := by cases v <;> decide

/-! ## Tasklets that work by cuts -/

/-- cuts that start words make a correct split -/
theorem taskletSplit_of_cuts {v : ValDt} {d : DpuRows} {split : UInt32 → UInt32}
    (hcuts : Cuts (fun t => (split (UInt32.ofNat t)).toNat) d.nrOfTasklets.toNat 0 d.rowsPerDpu.toNat)
    (haligned : ∀ t < d.nrOfTasklets.toNat, (split (UInt32.ofNat t)).toNat < (split (UInt32.ofNat (t + 1))).toNat →
      v.granularity.toNat ∣ (split (UInt32.ofNat t)).toNat) : TaskletSplit v d split := by
  refine ⟨hcuts, haligned, ?_⟩
  have hwork : ∀ t < d.nrOfTasklets.toNat,
      let w := workEW v (split (UInt32.ofNat t)) (split (UInt32.ofNat (t + 1)) - split (UInt32.ofNat t)) d.rowsPerDpu
      w.rows = List.range' (split (UInt32.ofNat t)).toNat
          ((split (UInt32.ofNat (t + 1))).toNat - (split (UInt32.ofNat t)).toNat) ∧
        ∀ o ∈ w.outRows, ∃ k, (split (UInt32.ofNat t)).toNat + k * v.granularity.toNat < (split (UInt32.ofNat (t + 1))).toNat ∧
          o = (split (UInt32.ofNat t)).toNat + k * v.granularity.toNat := by
    intro t ht
    have hmono := hcuts.mono t ht
    have hend := hcuts.le_hi (i := t + 1) ht
    dsimp only at hmono hend ⊢
    generalize split (UInt32.ofNat t) = a at *
    generalize split (UInt32.ofNat (t + 1)) = b at *
    have hdiff : (b - a).toNat = b.toNat - a.toNat := UInt32.toNat_sub_of_le _ _ (UInt32.le_iff_toNat_le.mpr hmono)
    have hlt := b.toNat_lt
    unfold workEW
    by_cases hzero : b - a = 0
    · rw [if_pos hzero, ← hdiff, hzero]
      exact ⟨rfl, fun o ho => absurd ho List.not_mem_nil⟩
    · have hsum : a.toNat + (b - a).toNat < 2 ^ 32 := by omega
      have hclamp : ¬ a + (b - a) > d.rowsPerDpu := by
        rw [gt_iff_lt, UInt32.lt_iff_toNat_lt, UInt32.toNat_add, Nat.mod_eq_of_lt hsum]
        omega
      rw [if_neg hzero]
      dsimp only
      rw [if_neg hclamp, walk_rows hsum, hdiff]
      refine ⟨rfl, ?_⟩
      intro o ho
      obtain ⟨k, hk, rfl⟩ := (walk_outRows (granularity_pos v) hsum).mp ho
      exact ⟨k, by omega, rfl⟩
  exact shared_of_cuts hcuts haligned (fun t ht => (hwork t ht).1) (fun t ht => (hwork t ht).2)

/-! ## The split without entries -/

/-- where the rows of tasklet `k` start when groups are dealt out -/
def dealt (g chunks rest rows k : ℕ) : ℕ := min rows (k * (g * chunks) + g * min k rest)

theorem dealt_succ (g chunks rest rows k : ℕ) :
    dealt g chunks rest rows (k + 1) = min rows (dealt g chunks rest rows k + (g * chunks + if k < rest then g else 0)) := by
  have hmul : (k + 1) * (g * chunks) = k * (g * chunks) + g * chunks := Nat.succ_mul _ _
  unfold dealt
  split_ifs with hk
  · have hnext : g * min (k + 1) rest = g * min k rest + g := by
      rw [min_eq_left hk, min_eq_left hk.le, Nat.mul_succ]
    omega
  · have hnext : min (k + 1) rest = min k rest := by omega
    rw [hnext]
    omega

theorem dealt_dvd {g chunks rest rows k : ℕ} (hlt : dealt g chunks rest rows k < rows) : g ∣ dealt g chunks rest rows k := by
  unfold dealt at *
  rw [min_eq_right (by omega)]
  exact ((Nat.dvd_mul_right g chunks).mul_left k).add (Nat.dvd_mul_right g _)

section Deal

variable {granularity chunks restRows rows : UInt32} {m : Slots}

theorem dealRow_spec {k : ℕ} {c : UInt32 × Slots} (hk : k + 1 < 2 ^ 32)
    (hroom : rows.toNat + granularity.toNat * chunks.toNat + granularity.toNat < 2 ^ 32)
    (hcur : c.1 = UInt32.ofNat (dealt granularity.toNat chunks.toNat restRows.toNat rows.toNat k))
    (hfill : Fills m c.2 0 (fun x => x.toNat ≤ k)
      (fun x => UInt32.ofNat (dealt granularity.toNat chunks.toNat restRows.toNat rows.toNat x.toNat))) :
    (dealRow granularity chunks restRows rows c (UInt32.ofNat k)).1 =
        UInt32.ofNat (dealt granularity.toNat chunks.toNat restRows.toNat rows.toNat (k + 1)) ∧
      Fills m (dealRow granularity chunks restRows rows c (UInt32.ofNat k)).2 0 (fun x => x.toNat ≤ k + 1)
        (fun x => UInt32.ofNat (dealt granularity.toNat chunks.toNat restRows.toNat rows.toNat x.toNat)) := by
  have hk' : (UInt32.ofNat k).toNat = k := UInt32.toNat_ofNat_of_lt' (lt_trans (Nat.lt_succ_self k) hk)
  have hsucc : UInt32.ofNat k + 1 = UInt32.ofNat (k + 1) := (UInt32.ofNat_add k 1).symm
  have hle : dealt granularity.toNat chunks.toNat restRows.toNat rows.toNat k ≤ rows.toNat := min_le_left _ _
  have hcur' : c.1.toNat = dealt granularity.toNat chunks.toNat restRows.toNat rows.toNat k := by
    rw [hcur]
    exact UInt32.toNat_ofNat_of_lt' (lt_of_le_of_lt hle rows.toNat_lt)
  have hchunk : (granularity * chunks).toNat = granularity.toNat * chunks.toNat := by
    rw [UInt32.toNat_mul]
    exact Nat.mod_eq_of_lt (by omega)
  have hshare : (if UInt32.ofNat k < restRows then granularity * chunks + granularity else granularity * chunks).toNat =
      granularity.toNat * chunks.toNat + if k < restRows.toNat then granularity.toNat else 0 := by
    have hcond : UInt32.ofNat k < restRows ↔ k < restRows.toNat := by rw [UInt32.lt_iff_toNat_lt, hk']
    by_cases hlt : k < restRows.toNat
    · rw [if_pos (hcond.mpr hlt), if_pos hlt, UInt32.toNat_add, hchunk]
      exact Nat.mod_eq_of_lt (by omega)
    · rw [if_neg (fun h => hlt (hcond.mp h)), if_neg hlt, hchunk, Nat.add_zero]
  generalize hshare' : (if UInt32.ofNat k < restRows then granularity * chunks + granularity else granularity * chunks) = share
    at hshare
  have hsum : (c.1 + share).toNat = dealt granularity.toNat chunks.toNat restRows.toNat rows.toNat k +
      (granularity.toNat * chunks.toNat + if k < restRows.toNat then granularity.toNat else 0) := by
    rw [UInt32.toNat_add, hcur', hshare]
    apply Nat.mod_eq_of_lt
    split_ifs <;> omega
  have hnew : (if c.1 + share > rows then rows else c.1 + share) =
      UInt32.ofNat (dealt granularity.toNat chunks.toNat restRows.toNat rows.toNat (k + 1)) := by
    have hbound : dealt granularity.toNat chunks.toNat restRows.toNat rows.toNat (k + 1) < 2 ^ 32 :=
      lt_of_le_of_lt (min_le_left _ _) rows.toNat_lt
    rw [← UInt32.toNat_inj, UInt32.toNat_ofNat_of_lt' hbound, dealt_succ, ← hsum]
    split_ifs with hclamp
    · exact (min_eq_left (UInt32.lt_iff_toNat_lt.mp hclamp).le).symm
    · exact (min_eq_right (UInt32.le_iff_toNat_le.mp (UInt32.not_lt.mp hclamp))).symm
  have hrow : dealRow granularity chunks restRows rows c (UInt32.ofNat k) =
      (UInt32.ofNat (dealt granularity.toNat chunks.toNat restRows.toNat rows.toNat (k + 1)),
        c.2.put (0 + UInt32.ofNat (k + 1)) (UInt32.ofNat (dealt granularity.toNat chunks.toNat restRows.toNat rows.toNat (k + 1)))) := by
    dsimp only [dealRow]
    rw [hshare', hnew, hsucc, UInt32.zero_add]
  rw [hrow]
  refine ⟨rfl, (hfill.put hk _).congr ?_ ?_⟩
  · intro x
    omega
  · intro x _
    split_ifs with hx
    · rw [hx]
    · rfl

theorem dealRows_spec (m : Slots) (restRows : UInt32)
    (hroom : rows.toNat + granularity.toNat * chunks.toNat + granularity.toNat < 2 ^ 32) {k : ℕ} (hk : k < 2 ^ 32) :
    (dealRows granularity chunks restRows rows m k).1 =
        UInt32.ofNat (dealt granularity.toNat chunks.toNat restRows.toNat rows.toNat k) ∧
      Fills m (dealRows granularity chunks restRows rows m k).2 0 (fun x => x.toNat ≤ k)
        (fun x => UInt32.ofNat (dealt granularity.toNat chunks.toNat restRows.toNat rows.toNat x.toNat)) := by
  induction k with
  | zero =>
    have hzero : dealt granularity.toNat chunks.toNat restRows.toNat rows.toNat 0 = 0 := by simp [dealt]
    refine ⟨by rw [hzero]; rfl, ?_⟩
    have hfirst := (Fills.refl m 0 fun _ => 0).put (k := 0) (by decide) 0
    apply hfirst.congr
    · intro x
      rw [false_or, Nat.le_zero]
    · intro x hx
      rw [Nat.le_zero.mp hx, hzero]
      rfl
  | succ k ih =>
    obtain ⟨hcur, hfill⟩ := ih (lt_trans (Nat.lt_succ_self k) hk)
    rw [dealRows, List.range_succ, List.foldl_append]
    exact dealRow_spec hk hroom hcur hfill

end Deal

/-- `group` groups of the largest shares hold all rows -/
theorem dealt_last {g tasklets group rows : ℕ} (hg : 0 < g) (hgroup : 0 < group) (hle : group ≤ g * tasklets) :
    dealt g (rows / group) (rows % group) rows tasklets = rows := by
  have hsplit := Nat.div_add_mod rows group
  have hrest := Nat.mod_lt rows hgroup
  have hshares : group * (rows / group) ≤ tasklets * (g * (rows / group)) := by
    calc group * (rows / group) ≤ g * tasklets * (rows / group) := Nat.mul_le_mul_right _ hle
      _ = tasklets * (g * (rows / group)) := by ring
  have hmore : rows % group ≤ g * min tasklets (rows % group) := by
    rcases le_total tasklets (rows % group) with h | h
    · rw [min_eq_left h]
      exact hrest.le.trans hle
    · rw [min_eq_right h]
      exact Nat.le_mul_of_pos_left _ hg
  unfold dealt
  omega

theorem dealt_cuts {g tasklets group rows : ℕ} (hg : 0 < g) (hgroup : 0 < group) (hle : group ≤ g * tasklets) :
    Cuts (dealt g (rows / group) (rows % group) rows) tasklets 0 rows where
  first := by simp [dealt]
  last := dealt_last hg hgroup hle
  mono t _ := by
    rw [dealt_succ]
    exact le_min (min_le_left _ _) (Nat.le_add_right _ _)

/-- the groups of a tasklet leave room for one more in 31 bits -/
theorem chunk_room {g group rows : ℕ} (hg : g ∣ 2 ^ 31) (hdvd : g ∣ group) (hrows : rows < 2 ^ 31) :
    rows + g * (rows / group) + g < 2 ^ 32 := by
  have hchunk : g * (rows / group) ≤ rows := by
    rcases Nat.eq_zero_or_pos group with rfl | hgroup
    · rw [Nat.div_zero, Nat.mul_zero]
      exact Nat.zero_le _
    · calc g * (rows / group) ≤ group * (rows / group) := Nat.mul_le_mul_right _ (Nat.le_of_dvd hgroup hdvd)
        _ ≤ rows := Nat.mul_div_le rows group
  obtain ⟨q, hq⟩ := hg
  have hless : rows / group < q := by
    apply Nat.lt_of_mul_lt_mul_left (a := g)
    rw [← hq]
    exact hchunk.trans_lt hrows
  have hmul : g * (rows / group + 1) ≤ g * q := Nat.mul_le_mul_left g hless
  rw [Nat.mul_succ, ← hq] at hmul
  omega

variable {v : ValDt} {d : DpuRows}

theorem group_toNat (v : ValDt) (d : DpuRows) :
    (v.granularity * d.nrOfTasklets).toNat = v.granularity.toNat * d.nrOfTasklets.toNat % 2 ^ 32 := UInt32.toNat_mul ..

/-- **The split without entries** covers the rows unless its division is one by zero. -/
theorem exact_of_empty (hnnz : d.nnzPerDpu = 0) (hgroup : v.granularity.toNat * d.nrOfTasklets.toNat % 2 ^ 32 ≠ 0) :
    TaskletSplitExact v d := by
  intro m
  have hne : ¬ v.granularity * d.nrOfTasklets = 0 := by
    rw [← UInt32.toNat_inj, group_toNat]
    exact hgroup
  have hpow : v.granularity.toNat ∣ 2 ^ 31 := (granularity_dvd v).trans (by decide)
  have hdvd : v.granularity.toNat ∣ (v.granularity * d.nrOfTasklets).toNat := by
    rw [group_toNat]
    exact (Nat.dvd_mod_iff ((granularity_dvd v).trans (by decide))).mpr (Nat.dvd_mul_right _ _)
  have hroom : d.rowsPerDpu.toNat + v.granularity.toNat * (d.rowsPerDpu / (v.granularity * d.nrOfTasklets)).toNat +
      v.granularity.toNat < 2 ^ 32 := by
    rw [UInt32.toNat_div]
    exact chunk_room hpow hdvd d.rows_int
  have hrun : partitionTskltByNnz v d m = some (dealRows v.granularity (d.rowsPerDpu / (v.granularity * d.nrOfTasklets))
      (d.rowsPerDpu % (v.granularity * d.nrOfTasklets)) d.rowsPerDpu m d.nrOfTasklets.toNat).2 := by
    unfold partitionTskltByNnz
    rw [if_pos hnnz]
    exact if_neg hne
  refine ⟨_, hrun, ?_⟩
  have hfill := (dealRows_spec m (d.rowsPerDpu % (v.granularity * d.nrOfTasklets)) hroom d.nrOfTasklets.toNat_lt).2
  generalize (dealRows v.granularity (d.rowsPerDpu / (v.granularity * d.nrOfTasklets))
    (d.rowsPerDpu % (v.granularity * d.nrOfTasklets)) d.rowsPerDpu m d.nrOfTasklets.toNat).2 = out at hfill ⊢
  rw [UInt32.toNat_div, UInt32.toNat_mod, group_toNat] at hfill
  have hle := Nat.mod_le (v.granularity.toNat * d.nrOfTasklets.toNat) (2 ^ 32)
  generalize v.granularity.toNat * d.nrOfTasklets.toNat % 2 ^ 32 = group at hgroup hfill hle
  have hget : ∀ t ≤ d.nrOfTasklets.toNat, (out.get (UInt32.ofNat t)).toNat =
      dealt v.granularity.toNat (d.rowsPerDpu.toNat / group) (d.rowsPerDpu.toNat % group) d.rowsPerDpu.toNat t := by
    intro t ht
    have ht' : (UInt32.ofNat t).toNat = t := UInt32.toNat_ofNat_of_lt' (lt_of_le_of_lt ht d.nrOfTasklets.toNat_lt)
    have h := hfill.get (UInt32.ofNat t) (by rw [ht']; exact ht)
    rw [UInt32.zero_add, ht'] at h
    rw [h]
    exact UInt32.toNat_ofNat_of_lt' (lt_of_le_of_lt (min_le_left _ _) d.rowsPerDpu.toNat_lt)
  apply taskletSplit_of_cuts
  · exact (dealt_cuts (granularity_pos v) (Nat.pos_of_ne_zero hgroup) hle).congr hget
  · intro t ht hlt
    rw [hget t ht.le, hget (t + 1) ht] at hlt
    rw [hget t ht.le]
    exact dealt_dvd (hlt.trans_le (min_le_left _ _))

/-- **The split with entries** covers the rows exactly if no full share is left over. -/
theorem exact_iff_of_entries (hnnz : d.nnzPerDpu ≠ 0) (hpos : d.nrOfTasklets.toNat ≠ 0) : TaskletSplitExact v d ↔
    ¬ LeftOver v.granularity.toNat (d.nnzPerDpu.toNat / d.nrOfTasklets.toNat) d.ptr d.nrOfTasklets.toNat d.rowsPerDpu.toNat := by
  have hsorted : Sorted d.ptr d.rowsPerDpu.toNat := d.sorted
  have hT := d.tasklets_int
  have hR := d.rows_int
  have hsplit : ∀ m, partitionTskltByNnz v d m = splitRows v.granularity (d.nnzPerDpu / d.nrOfTasklets) d.nrOfTasklets 0
      (UInt32.ofNat d.rowsPerDpu.toNat) d.ptr m := by
    intro m
    unfold partitionTskltByNnz
    rw [if_neg hnnz, if_neg (fun h => hpos (by rw [h]; rfl)), UInt32.ofNat_toNat]
  rw [← UInt32.toNat_div, leftOver_iff hsorted]
  generalize d.nnzPerDpu / d.nrOfTasklets = perSplit at hsplit ⊢
  have hinv : Inv (closable v.granularity.toNat perSplit.toNat d.ptr) d.rowsPerDpu.toNat
    (rowScan v.granularity perSplit d.ptr d.rowsPerDpu.toNat) := scan_inv _
  have hcount := hinv.count_le
  rw [← last_iff]
  have hspec := fun m => splitRows_spec v.granularity perSplit d.nrOfTasklets 0 m hsorted d.rowsPerDpu.toNat_lt (by omega)
  generalize rowScan v.granularity perSplit d.ptr d.rowsPerDpu.toNat = s at hinv hcount hspec ⊢
  have hwrap : ¬ filled perSplit d.ptr d.nrOfTasklets.toNat d.rowsPerDpu.toNat s + 1 = 2 ^ 32 := by
    unfold filled
    split_ifs <;> omega
  have hget : ∀ {m m' : Slots}, partitionTskltByNnz v d m = some m' → ∀ t ≤ d.nrOfTasklets.toNat,
      (m'.get (UInt32.ofNat t)).toNat = splitAt perSplit d.ptr d.nrOfTasklets.toNat d.rowsPerDpu.toNat s t := by
    intro m m' hm t ht
    obtain ⟨m'', hm'', hfill⟩ := hspec m
    rw [hsplit, hm''] at hm
    cases hm
    have ht' : (UInt32.ofNat t).toNat = t := UInt32.toNat_ofNat_of_lt' (lt_of_le_of_lt ht d.nrOfTasklets.toNat_lt)
    have h := hfill.get (UInt32.ofNat t) (by rw [ht']; exact Or.inl ht)
    rw [UInt32.zero_add, ht', slotAt, if_neg hwrap] at h
    rw [h]
    exact UInt32.toNat_ofNat_of_lt' (lt_of_le_of_lt (splitAt_le hinv t) d.rowsPerDpu.toNat_lt)
  constructor
  · intro hexact
    obtain ⟨m', hm', hright⟩ := hexact ⟨fun _ => 0, []⟩
    rw [← hget hm' _ le_rfl]
    exact hright.cuts.last
  · intro hlast m
    obtain ⟨m', hm', _⟩ := hspec m
    rw [← hsplit] at hm'
    refine ⟨m', hm', taskletSplit_of_cuts ?_ ?_⟩
    · exact (splitAt_cuts hinv (Nat.pos_of_ne_zero hpos) hlast).congr (hget hm')
    · intro t ht hlt
      rw [hget hm' t ht.le, hget hm' (t + 1) ht] at hlt
      rw [hget hm' t ht.le]
      exact splitAt_aligned hinv ht hlt

/-- **The rows of a DPU are shared over its tasklets** exactly if `TaskletSplitFits`. -/
theorem taskletSplitExact_iff (v : ValDt) (d : DpuRows) : TaskletSplitExact v d ↔ TaskletSplitFits v d := by
  unfold TaskletSplitFits
  split_ifs with hnnz
  · refine ⟨?_, exact_of_empty hnnz⟩
    intro hexact hgroup
    obtain ⟨m', hm', _⟩ := hexact ⟨fun _ => 0, []⟩
    have hzero : v.granularity * d.nrOfTasklets = 0 := by
      rw [← UInt32.toNat_inj, group_toNat]
      exact hgroup
    unfold partitionTskltByNnz at hm'
    rw [if_pos hnnz] at hm'
    dsimp only at hm'
    rw [if_pos hzero] at hm'
    cases hm'
  · by_cases hpos : d.nrOfTasklets.toNat = 0
    · simp only [hpos, ne_eq, not_true_eq_false, false_and, iff_false]
      intro hexact
      obtain ⟨m', hm', _⟩ := hexact ⟨fun _ => 0, []⟩
      unfold partitionTskltByNnz at hm'
      rw [if_neg hnnz, if_pos (UInt32.toNat_inj.mp hpos)] at hm'
      cases hm'
    · rw [exact_iff_of_entries hnnz hpos, and_iff_right hpos]

/-- 33 rows of which the last has one entry, for 16 tasklets -/
def thirtyThreeRows : DpuRows where
  drowptr t := if t ≤ 32 then 0 else 1
  ptrOffset := 0
  rowsPerDpu := 33
  nnzPerDpu := 1
  nrOfTasklets := 16
  rows_int := by decide
  nnz_int := by decide
  tasklets_int := by decide
  sorted := by
    unfold Sorted
    decide
  nnz_eq := by decide

/-- with 4-byte values the last tasklet ends at row 32, and the row with the entry belongs to nobody -/
theorem thirtyThreeRows_lost :
    (partitionTskltByNnz .fp32 thirtyThreeRows ⟨fun _ => 0, []⟩).map (fun m => m.get 16) = some 32 ∧
      ¬ TaskletSplitExact .fp32 thirtyThreeRows := by
  have hrun : (partitionTskltByNnz .fp32 thirtyThreeRows ⟨fun _ => 0, []⟩).map (fun m => m.get 16) = some 32 := by
    decide +kernel
  refine ⟨hrun, ?_⟩
  intro hexact
  obtain ⟨m', hm', hright⟩ := hexact ⟨fun _ => 0, []⟩
  rw [hm'] at hrun
  have hlast : (m'.get 16).toNat = 33 := hright.cuts.last
  have hend : m'.get 16 = 32 := Option.some.inj hrun
  rw [hend] at hlast
  exact absurd hlast (by decide)

end PimOfis.SpMV
