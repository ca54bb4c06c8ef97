/-
The OFIS calls that move MRAM muxes (`OFIS_set_mux_ig`, `OFIS_set_mux_rank` and `OFIS_dpu_launch` of `dpu_runner.c`).

They select DPUs and set the mux through the control interface. What they do not do is what `dpu_switch_mux_for_dpu_line`
and `dpu_switch_mux_for_rank` do beside: look at the record of the muxes, refuse while a DPU runs, write the record, and
check that the mux has moved.

Results:
- `ofisSetMuxIg_spec`, `ofisSetMuxRank_spec`, `ofisDpuLaunchRank_mux`: the muxes that move, and that the record does not.
-/
import Mathlib.Tactic
import PimOfis.Api.Launch

namespace PimOfis.Api

open Ufi

/-! ## Model -/

/-- `OFIS_set_mux_ig`, whose calls' statuses are dropped; `dir` is the host side -/
def ofisSetMuxIg (r : Rank) (igId : ℕ) (dir : Bool) : Rank :=
  let (_, mask, r1) := ufiSelectDpu r Mask8.all igId
  (ufiSetMramMux r1 mask fun _ => dir).2

/-- `OFIS_set_mux_rank` -/
def ofisSetMuxRank (r : Rank) (dir : Bool) : Rank :=
  let (_, mask, r1) := ufiSelectAll r Mask8.all
  (ufiSetMramMux r1 mask fun _ => dir).2

/-! ## Muxes and record -/

/-- the muxes of these pairs have moved to `dir`, no other mux has, and the record and the enabled DPUs are as they were -/
structure MuxMoved (r r' : Rank) (P : Ci → Member → Prop) [∀ ci i, Decidable (P ci i)] (dir : Bool) : Prop where
  mux : ∀ ci i, (r'.chips ci).muxHost i = if P ci i then dir else (r.chips ci).muxHost i
  record : ∀ ci, (r'.sliceInfo ci).hostMuxMramState = (r.sliceInfo ci).hostMuxMramState
  enabled : ∀ ci, (r'.sliceInfo ci).enabledDpus = (r.sliceInfo ci).enabledDpus

/-- the pair of this DPU has an enabled DPU -/
def PairEnabled (r : Rank) (ci : Ci) (i : Member) : Prop :=
  ∃ j : Member, j.val / 2 = i.val / 2 ∧ (r.sliceInfo ci).enabledDpus j = true

instance (r : Rank) (ci : Ci) (i : Member) : Decidable (PairEnabled r ci i) := by unfold PairEnabled; infer_instance

/-- `ufi_select_all`, then `ufi_set_mram_mux` -/
theorem selectAll_setMux {r : Rank} (hr : Ready r) (ciMask : Mask8) (dir : Bool) :
    ∃ r1 r2, ufiSelectAll r ciMask = (.ok, selectAllMask r ciMask, r1) ∧
      ufiSetMramMux r1 (selectAllMask r ciMask) (fun _ => dir) = (.ok, r2) ∧ r2.BusOk ∧ Coherent r2 ∧
      MuxMoved r r2 (fun ci i => ciMask ci = true ∧ PairEnabled r ci i) dir := by
  obtain ⟨r1, e1, hb1, hc1, hq1, hchip1, hinfo1, hsel⟩ := ufiSelectAll_ready hr ciMask
  obtain ⟨r2, e2, hb2, hc2, hi2, -, hmux2, -⟩ :=
    ufiSetMramMux_spec hb1 hc1 (selectAllMask r ciMask) (fun _ => dir) fun ci _ => hq1 ci
  refine ⟨r1, r2, e1, e2, hb2, hc2, fun ci i => ?_, fun ci => ?_, fun ci => ?_⟩
  · have hold : (r1.chips ci).muxHost i = (r.chips ci).muxHost i := by simp only [Chip.muxHost, (hchip1 ci).1]
    have hpair : selectAllMask r ciMask ci = true ∧ (r1.chips ci).PairSelected i ↔ ciMask ci = true ∧ PairEnabled r ci i := by
      constructor
      · rintro ⟨hm, j, hj, hs⟩
        rw [hsel ci hm] at hs
        rw [selectAllMask_ready hr, Bool.and_eq_true] at hm
        exact ⟨hm.1, j, hj, hs⟩
      · rintro ⟨hm, j, hj, he⟩
        have hmask : selectAllMask r ciMask ci = true := by
          rw [selectAllMask_ready hr, hm]
          exact decide_eq_true ⟨j, he⟩
        exact ⟨hmask, j, hj, by rw [hsel ci hmask]; exact he⟩
    rw [hmux2, hold]
    simp only [hpair]
  · obtain ⟨v, hv⟩ := hi2 ci
    rw [hv]
    exact (hinfo1 ci).1
  · obtain ⟨v, hv⟩ := hi2 ci
    rw [hv]
    exact (hinfo1 ci).2

/-- **`OFIS_set_mux_rank`** moves the muxes of all pairs with an enabled DPU. -/
theorem ofisSetMuxRank_spec {r : Rank} (hr : Ready r) (dir : Bool) :
    MuxMoved r (ofisSetMuxRank r dir) (fun ci i => PairEnabled r ci i) dir := by
  obtain ⟨r1, r2, e1, e2, -, -, hmoved⟩ := selectAll_setMux hr Mask8.all dir
  have hcall : ofisSetMuxRank r dir = r2 := by simp only [ofisSetMuxRank, e1, e2]
  rw [hcall]
  refine ⟨fun ci i => ?_, hmoved.record, hmoved.enabled⟩
  have hmux := hmoved.mux ci i
  simpa only [Mask8.all, true_and] using hmux

/-- **`OFIS_dpu_launch`** moves the muxes of the pairs with an enabled DPU, on the chips its mask still has, to the DPU
side. -/
theorem ofisDpuLaunchRank_mux {r : Rank} (hr : Ready r) (ciMask : Mask8) :
    MuxMoved r (ofisDpuLaunchRank r ciMask).2 (fun ci i => ciMask ci = true ∧ PairEnabled r ci i) false := by
  obtain ⟨r1, r2, e1, e2, hb2, hc2, hmoved⟩ := selectAll_setMux hr ciMask false
  obtain ⟨r3, e3, -, -, hi3, hmux3, -⟩ := ufiThreadBoot_spec hb2 hc2 (selectAllMask r ciMask) 0
  have hcall : (ofisDpuLaunchRank r ciMask).2 = r3 := by simp only [ofisDpuLaunchRank, e1, e2, e3]
  rw [hcall]
  refine ⟨fun ci i => (hmux3 ci i).trans (hmoved.mux ci i), fun ci => ?_, fun ci => ?_⟩
  · obtain ⟨v, hv⟩ := hi3 ci
    rw [hv]
    exact hmoved.record ci
  · obtain ⟨v, hv⟩ := hi3 ci
    rw [hv]
    exact hmoved.enabled ci

/-- **`OFIS_set_mux_ig`** moves the muxes of the pairs of this IG's DPUs, where they are enabled. -/
theorem ofisSetMuxIg_spec {r : Rank} (hr : Ready r) (igId : ℕ) (dir : Bool) :
    MuxMoved r (ofisSetMuxIg r igId dir)
      (fun ci i => (r.sliceInfo ci).enabledDpus.bit igId = true ∧ i.val / 2 = igId / 2) dir := by
  obtain ⟨r1, n, e1, hel, hc1, htgt, hclean, hsame⟩ := ufiSelectDpu_spec hr.bus hr.coherent Mask8.all igId
  set mask := selectDpuMask r Mask8.all igId with hmask
  have hbit : ∀ ci, mask ci = (r.sliceInfo ci).enabledDpus.bit igId := fun ci => Bool.true_and _
  have hq1 : ∀ ci, mask ci = false → (r1.cmds ci).Quiet := by
    intro ci hm
    by_cases hsel : DoSelect r mask igId
    · rw [hclean hsel ci hm]
      trivial
    · rw [hsame hsel]
      exact hr.quiet ci
  obtain ⟨r2, e2, -, -, hi2, -, hmux2, -⟩ := ufiSetMramMux_spec (hel.busOk hr.bus) hc1 mask (fun _ => dir) hq1
  have hcall : ofisSetMuxIg r igId dir = r2 := by simp only [ofisSetMuxIg, e1, e2]
  rw [hcall]
  refine ⟨fun ci i => ?_, fun ci => ?_, fun ci => ?_⟩
  · have hold : (r1.chips ci).muxHost i = (r.chips ci).muxHost i := by simp only [Chip.muxHost, hel.wavegen ci]
    have hpair : mask ci = true ∧ (r1.chips ci).PairSelected i ↔
        (r.sliceInfo ci).enabledDpus.bit igId = true ∧ i.val / 2 = igId / 2 := by
      rw [hbit]
      refine and_congr_right fun hb => ?_
      have hsel : (r1.chips ci).selected = Mask8.one igId :=
        hc1.target ci _ (by simp only [ciFillSelectedDpuMask, htgt ci ((hbit ci).trans hb)])
      have hlt : igId < 8 := by
        by_contra hge
        simp [Mask8.bit, hge] at hb
      simp only [Chip.PairSelected, hsel, Mask8.one, decide_eq_true_eq]
      constructor
      · rintro ⟨j, hj, hji⟩
        rw [← hj, hji]
      · intro hi
        exact ⟨⟨igId, hlt⟩, hi.symm, rfl⟩
    rw [hmux2, hold]
    simp only [hpair]
  · obtain ⟨v, hv⟩ := hi2 ci
    rw [hv]
    exact hel.mux ci
  · obtain ⟨v, hv⟩ := hi2 ci
    rw [hv]
    exact hel.enabled ci

end PimOfis.Api
