/-
Which DPUs of a rank are enabled, as an allocation sees it. The driver keeps it twice: a mask and a flag for each control
interface (`slice_info`), and a flag for each DPU (`dpus[].enabled`). The count `get_nr_of_dpus_in_rank` is made of the
masks, the search of `disable_one_dpu` and the iterators use the flags.

A rank is obtained with both alike (`dpu_rank_handler_get_rank`) and with a DPU enabled. Its reset enables all DPUs for a
while, disables those whose memories cannot be repaired, and puts the DPUs back that were enabled before and are still:
`ci_reset_rank` of `ufi_config.c`, of which the parts that touch masks are here. A DPU with a defect is disabled when the
rank is obtained (`fill_sram_repairs_and_update_enabled_dpus`), so a reset changes nothing.

Results:
- `getNrOfDpusInRank_eq`: the count of the masks is the count of the flags;
- `ciResetRank_same`: a reset that succeeds leaves the enabled DPUs as they were;
- `Coherent.disable`, `nrEnabled_disable`: disabling a DPU changes both alike, and the count by one.
-/
import Mathlib.Tactic
import PimOfis.Api.DpuSet
import PimOfis.Ufi.Chip

namespace PimOfis.Api.DpuAlloc

open DpuSets
open Ufi (Mask8)

/-! ## Model -/

/-- `struct dpu_configuration_slice_info_t`, as far as it says which DPUs are enabled -/
@[ext] structure SliceInfo where
  enabledDpus : Mask8
  allDpusAreEnabled : Bool

/-- `struct dpu_rank_t` with its slices, and what is known of the memories of its DPUs -/
structure RankState extends Rank where
  sliceInfo : ℕ → SliceInfo
  doIramRepair : Bool
  doWramRepair : Bool
  /-- `extract_memory_repair_configuration` fails for the IRAM of the DPU -/
  iramFails : ℕ → Bool
  /-- or for a bank of its WRAM -/
  wramFails : ℕ → Bool

/-- `DPU_INDEX` -/
def dpuIndex (t : Topology) (ci dpu : ℕ) : ℕ := t.nrOfDpusPerControlInterface * ci + dpu

def dpuMaskAll (nbOfDpus : ℕ) : Mask8 := fun d => decide (d.val < nbOfDpus)

/-- `mask != 0` -/
def dpuMaskSome (mask : Mask8) : Prop := ∃ d, mask d = true

instance (mask : Mask8) : Decidable (dpuMaskSome mask) := inferInstanceAs (Decidable (∃ d, mask d = true))

/-- `__builtin_popcount` -/
def dpuMaskCount (mask : Mask8) : ℕ := ((Finset.range 8).filter fun d => mask.bit d = true).card

def getNrOfDpusInRank (r : RankState) : ℕ :=
  (List.range r.topology.nrOfControlInterfaces).foldl (fun count eachCi =>
    if (r.sliceInfo eachCi).allDpusAreEnabled = true then count + r.topology.nrOfDpusPerControlInterface
    else count + dpuMaskCount (r.sliceInfo eachCi).enabledDpus) 0

/-- `save_enabled_dpus`; without a `save` it starts one. The control interfaces with a DPU get all DPUs enabled. -/
def saveEnabledDpus (save : Option (ℕ → SliceInfo)) (r : RankState) : (ℕ → SliceInfo) × RankState :=
  let saved := fun ci =>
    match save with
    | none => r.sliceInfo ci
    | some s => ⟨fun d => (s ci).enabledDpus d && (r.sliceInfo ci).enabledDpus d,
        (s ci).allDpusAreEnabled && (r.sliceInfo ci).allDpusAreEnabled⟩
  let talkedTo := fun ci => ci < r.topology.nrOfControlInterfaces ∧ dpuMaskSome (r.sliceInfo ci).enabledDpus
  (saved, { r with
    sliceInfo := fun ci =>
      if talkedTo ci then ⟨dpuMaskAll r.topology.nrOfDpusPerControlInterface, true⟩ else r.sliceInfo ci
    enabled := fun idx => if talkedTo (idx / r.topology.nrOfDpusPerControlInterface) then true else r.enabled idx })

/-- `try_to_repair_iram`, `try_to_repair_wram`: the DPUs that cannot be repaired are disabled; it fails if none is left -/
def tryToRepair (fails : ℕ → Bool) (r : RankState) : Option RankState :=
  let failsOn := fun ci => (List.range r.topology.nrOfDpusPerControlInterface).any fun d => fails (dpuIndex r.topology ci d)
  let repaired : RankState := { r with
    sliceInfo := fun ci =>
      ⟨fun d => (r.sliceInfo ci).enabledDpus d && !fails (dpuIndex r.topology ci d.val),
        (r.sliceInfo ci).allDpusAreEnabled && !failsOn ci⟩
    enabled := fun idx => r.enabled idx && !fails idx }
  if ∃ ci < r.topology.nrOfControlInterfaces, dpuMaskSome (repaired.sliceInfo ci).enabledDpus then some repaired else none

/-- `dpu_init_groups`: the saved masks -/
def dpuInitGroups (save : ℕ → SliceInfo) (r : RankState) : RankState :=
  { r with
    sliceInfo := fun ci => if ci < r.topology.nrOfControlInterfaces then save ci else r.sliceInfo ci
    enabled := fun idx =>
      (save (idx / r.topology.nrOfDpusPerControlInterface)).enabledDpus.bit (idx % r.topology.nrOfDpusPerControlInterface) }

/-- `ci_reset_rank`; `commands` is false when one of the commands to the rank fails -/
def ciResetRank (commands : Bool) (r : RankState) : Option RankState :=
  if commands = false then none
  else
    let s0 := saveEnabledDpus none r
    (if r.doIramRepair = true then tryToRepair r.iramFails s0.2 else some s0.2).bind fun r1 =>
      let s1 := saveEnabledDpus (some s0.1) r1
      (if r.doWramRepair = true then tryToRepair r.wramFails s1.2 else some s1.2).bind fun r2 =>
        let s2 := saveEnabledDpus (some s1.1) r2
        some (dpuInitGroups s2.1 s2.2)

/-- what `dpu_disable_one_dpu` does to the rank; it fails on a disabled DPU and when the command fails -/
def dpuDisableOneDpu (command : Bool) (r : RankState) (sliceId dpuId : ℕ) : Option RankState :=
  if r.enabled (dpuIndex r.topology sliceId dpuId) = false ∨ command = false then none
  else some { r with
    sliceInfo := Function.update r.sliceInfo sliceId
      ⟨fun d => (r.sliceInfo sliceId).enabledDpus d && decide (d.val ≠ dpuId), false⟩
    enabled := Function.update r.enabled (dpuIndex r.topology sliceId dpuId) false }

/-! ## Ranks as they are obtained -/

/-- masks and flags say the same -/
structure Coherent (r : RankState) : Prop where
  mask : ∀ ci < r.topology.nrOfControlInterfaces, ∀ d < r.topology.nrOfDpusPerControlInterface,
    r.enabled (dpuIndex r.topology ci d) = (r.sliceInfo ci).enabledDpus.bit d
  within : ∀ ci < r.topology.nrOfControlInterfaces, ∀ d, (r.sliceInfo ci).enabledDpus.bit d = true →
    d < r.topology.nrOfDpusPerControlInterface
  all : ∀ ci < r.topology.nrOfControlInterfaces, (r.sliceInfo ci).allDpusAreEnabled = true →
    ∀ d < r.topology.nrOfDpusPerControlInterface, (r.sliceInfo ci).enabledDpus.bit d = true

/-- the number of DPUs whose flag is set -/
def nrEnabled (r : RankState) : ℕ := ((Finset.range r.topology.nrDpus).filter fun idx => r.enabled idx = true).card

/-- what `dpu_rank_handler_get_rank` returns -/
structure Obtained where
  rank : RankState
  coherent : Coherent rank
  /-- a DPU whose memories cannot be repaired is disabled -/
  defects : ∀ ci < rank.topology.nrOfControlInterfaces, ∀ d < rank.topology.nrOfDpusPerControlInterface,
    rank.enabled (dpuIndex rank.topology ci d) = true →
      rank.iramFails (dpuIndex rank.topology ci d) = false ∧ rank.wramFails (dpuIndex rank.topology ci d) = false
  /-- otherwise there is no rank: `all_disabled` -/
  some_enabled : 1 ≤ nrEnabled rank

/-! ## Counts -/

section Counts

variable {r : RankState}

theorem sum_blocks (f : ℕ → ℕ) (c n : ℕ) :
    ∑ i ∈ Finset.range (c * n), f i = ∑ ci ∈ Finset.range c, ∑ d ∈ Finset.range n, f (n * ci + d) := by
  induction c with
  | zero => rw [Nat.zero_mul, Finset.sum_range_zero, Finset.sum_range_zero]
  | succ c ih => rw [Nat.succ_mul, Finset.sum_range_add, ih, Finset.sum_range_succ, Nat.mul_comm n c]

/-- one slice of the count -/
theorem Coherent.count (h : Coherent r) {ci : ℕ} (hci : ci < r.topology.nrOfControlInterfaces) :
    (if (r.sliceInfo ci).allDpusAreEnabled = true then r.topology.nrOfDpusPerControlInterface
      else dpuMaskCount (r.sliceInfo ci).enabledDpus) =
    ((Finset.range r.topology.nrOfDpusPerControlInterface).filter
      fun d => r.enabled (dpuIndex r.topology ci d) = true).card := by
  split_ifs with hall
  · rw [Finset.filter_true_of_mem fun d hd => ?_, Finset.card_range]
    rw [Finset.mem_range] at hd
    rw [h.mask ci hci d hd]
    exact h.all ci hci hall d hd
  · refine congrArg Finset.card (Finset.ext fun d => ?_)
    simp only [Finset.mem_filter, Finset.mem_range]
    constructor
    · rintro ⟨_, hbit⟩
      have hd := h.within ci hci d hbit
      exact ⟨hd, (h.mask ci hci d hd).trans hbit⟩
    · rintro ⟨hd, hen⟩
      exact ⟨hd.trans_le r.topology.dpus_le, (h.mask ci hci d hd).symm.trans hen⟩

theorem getNrOfDpusInRank_eq (h : Coherent r) : getNrOfDpusInRank r = nrEnabled r := by
  have hslices : ∀ n ≤ r.topology.nrOfControlInterfaces,
      (List.range n).foldl (fun count eachCi =>
        if (r.sliceInfo eachCi).allDpusAreEnabled = true then count + r.topology.nrOfDpusPerControlInterface
        else count + dpuMaskCount (r.sliceInfo eachCi).enabledDpus) 0 =
      ∑ ci ∈ Finset.range n, ((Finset.range r.topology.nrOfDpusPerControlInterface).filter
        fun d => r.enabled (dpuIndex r.topology ci d) = true).card := by
    intro n hn
    induction n with
    | zero => rfl
    | succ n ih =>
      rw [List.range_succ, List.foldl_append, ih (Nat.le_of_succ_le hn), Finset.sum_range_succ, ← h.count hn]
      simp only [List.foldl_cons, List.foldl_nil]
      split_ifs
      · rfl
      · rfl
  rw [getNrOfDpusInRank, hslices _ le_rfl]
  simp only [nrEnabled, Topology.nrDpus, Finset.card_filter, sum_blocks]
  rfl

end Counts

/-! ## Indexes -/

section Indexes

variable {t : Topology} {ci d : ℕ}

theorem dpuIndex_lt (hci : ci < t.nrOfControlInterfaces) (hd : d < t.nrOfDpusPerControlInterface) :
    dpuIndex t ci d < t.nrDpus := by
  calc dpuIndex t ci d < t.nrOfDpusPerControlInterface * ci + t.nrOfDpusPerControlInterface := Nat.add_lt_add_left hd _
    _ = (ci + 1) * t.nrOfDpusPerControlInterface := by rw [Nat.succ_mul, Nat.mul_comm]
    _ ≤ t.nrDpus := Nat.mul_le_mul_right _ hci

theorem dpuIndex_div (hd : d < t.nrOfDpusPerControlInterface) : dpuIndex t ci d / t.nrOfDpusPerControlInterface = ci := by
  rw [dpuIndex, Nat.mul_add_div (Nat.zero_lt_of_lt hd), Nat.div_eq_of_lt hd, Nat.add_zero]

theorem dpuIndex_mod (hd : d < t.nrOfDpusPerControlInterface) : dpuIndex t ci d % t.nrOfDpusPerControlInterface = d := by
  rw [dpuIndex, Nat.mul_add_mod, Nat.mod_eq_of_lt hd]

/-- every index is that of a control interface and a DPU on it -/
theorem exists_dpuIndex {idx : ℕ} (h : idx < t.nrDpus) :
    ∃ ci < t.nrOfControlInterfaces, ∃ d < t.nrOfDpusPerControlInterface, idx = dpuIndex t ci d := by
  have hpos : 0 < t.nrOfDpusPerControlInterface := Nat.pos_of_ne_zero fun h0 => by
    rw [Topology.nrDpus, h0, Nat.mul_zero] at h
    exact absurd h (Nat.not_lt_zero _)
  refine ⟨idx / t.nrOfDpusPerControlInterface, Nat.div_lt_of_lt_mul ?_, idx % t.nrOfDpusPerControlInterface,
    Nat.mod_lt _ hpos, (Nat.div_add_mod _ _).symm⟩
  rw [Nat.mul_comm]
  exact h

end Indexes

/-! ## The reset -/

section Reset

/-- two states of a rank with the same DPUs enabled -/
structure SameDpus (r r' : RankState) : Prop where
  topology : r'.topology = r.topology
  sliceInfo : ∀ ci < r.topology.nrOfControlInterfaces, r'.sliceInfo ci = r.sliceInfo ci
  enabled : ∀ ci < r.topology.nrOfControlInterfaces, ∀ d < r.topology.nrOfDpusPerControlInterface,
    r'.enabled (dpuIndex r.topology ci d) = r.enabled (dpuIndex r.topology ci d)

theorem SameDpus.coherent {r r' : RankState} (h : SameDpus r r') (hr : Coherent r) : Coherent r' := by
  refine ⟨?_, ?_, ?_⟩
  · rw [h.topology]
    intro ci hci d hd
    rw [h.enabled ci hci d hd, h.sliceInfo ci hci]
    exact hr.mask ci hci d hd
  · rw [h.topology]
    intro ci hci d hbit
    rw [h.sliceInfo ci hci] at hbit
    exact hr.within ci hci d hbit
  · rw [h.topology]
    intro ci hci hall d hd
    rw [h.sliceInfo ci hci] at hall ⊢
    exact hr.all ci hci hall d hd

theorem SameDpus.nrEnabled {r r' : RankState} (h : SameDpus r r') : nrEnabled r' = nrEnabled r := by
  rw [DpuAlloc.nrEnabled, h.topology]
  refine congrArg Finset.card (Finset.filter_congr fun idx hidx => ?_)
  obtain ⟨ci, hci, d, hd, rfl⟩ := exists_dpuIndex (Finset.mem_range.mp hidx)
  rw [h.enabled ci hci d hd]

/-- during the reset of `r`, the DPUs that were enabled still are -/
structure Keeps (r r' : RankState) : Prop where
  topology : r'.topology = r.topology
  iramFails : r'.iramFails = r.iramFails
  wramFails : r'.wramFails = r.wramFails
  doWramRepair : r'.doWramRepair = r.doWramRepair
  mask : ∀ ci < r.topology.nrOfControlInterfaces, ∀ d, (r.sliceInfo ci).enabledDpus d = true →
    (r'.sliceInfo ci).enabledDpus d = true
  all : ∀ ci < r.topology.nrOfControlInterfaces, (r.sliceInfo ci).allDpusAreEnabled = true →
    (r'.sliceInfo ci).allDpusAreEnabled = true

variable {r r' : RankState}

theorem Coherent.lt_of_mask (h : Coherent r) {ci : ℕ} (hci : ci < r.topology.nrOfControlInterfaces) {d : Fin 8}
    (hd : (r.sliceInfo ci).enabledDpus d = true) : d.val < r.topology.nrOfDpusPerControlInterface :=
  h.within ci hci d.val ((Mask8.bit_val _ d).trans hd)

theorem Keeps.save (hr : Coherent r) (h : Keeps r r') (save : Option (ℕ → SliceInfo)) :
    Keeps r (saveEnabledDpus save r').2 where
  topology := h.topology
  iramFails := h.iramFails
  wramFails := h.wramFails
  doWramRepair := h.doWramRepair
  mask ci hci d hd := by
    dsimp only [saveEnabledDpus]
    split_ifs
    · rw [h.topology]
      exact decide_eq_true (hr.lt_of_mask hci hd)
    · exact h.mask ci hci d hd
  all ci hci hall := by
    dsimp only [saveEnabledDpus]
    split_ifs
    · rfl
    · exact h.all ci hci hall

theorem Keeps.repair (hr : Coherent r) (h : Keeps r r') {fails : ℕ → Bool} {r'' : RankState}
    (hfails : ∀ ci < r.topology.nrOfControlInterfaces, ∀ d < r.topology.nrOfDpusPerControlInterface,
      r.enabled (dpuIndex r.topology ci d) = true → fails (dpuIndex r.topology ci d) = false)
    (hrepair : tryToRepair fails r' = some r'') : Keeps r r'' := by
  rw [tryToRepair, h.topology] at hrepair
  split_ifs at hrepair
  rw [← Option.some.inj hrepair]
  refine ⟨rfl, h.iramFails, h.wramFails, h.doWramRepair, fun ci hci d hd => ?_, fun ci hci hall => ?_⟩
  · have hlt := hr.lt_of_mask hci hd
    have hen := (hr.mask ci hci d.val hlt).trans ((Mask8.bit_val _ d).trans hd)
    dsimp only
    rw [h.mask ci hci d hd, hfails ci hci d.val hlt hen]
    rfl
  · have hnone : ((List.range r.topology.nrOfDpusPerControlInterface).any
        fun d => fails (dpuIndex r.topology ci d)) = false := by
      refine List.any_eq_false.mpr fun d hd => ?_
      rw [List.mem_range] at hd
      have hen := (hr.mask ci hci d hd).trans (hr.all ci hci hall d hd)
      rw [hfails ci hci d hd hen]
      exact Bool.false_ne_true
    dsimp only
    rw [h.all ci hci hall, hnone]
    rfl

/-- a step that is made only if it is configured -/
theorem Keeps.repair_if (hr : Coherent r) (h : Keeps r r') {repair : Bool} {fails : ℕ → Bool} {r'' : RankState}
    (hfails : ∀ ci < r.topology.nrOfControlInterfaces, ∀ d < r.topology.nrOfDpusPerControlInterface,
      r.enabled (dpuIndex r.topology ci d) = true → fails (dpuIndex r.topology ci d) = false)
    (hrepair : (if repair = true then tryToRepair fails r' else some r') = some r'') : Keeps r r'' := by
  split_ifs at hrepair
  · exact h.repair hr hfails hrepair
  · rw [← Option.some.inj hrepair]
    exact h

/-- a save that is updated stays what it was -/
theorem Keeps.saved (h : Keeps r r') {save : ℕ → SliceInfo}
    (hsave : ∀ ci < r.topology.nrOfControlInterfaces, save ci = r.sliceInfo ci) :
    ∀ ci < r.topology.nrOfControlInterfaces, (saveEnabledDpus (some save) r').1 ci = r.sliceInfo ci := by
  intro ci hci
  dsimp only [saveEnabledDpus]
  rw [hsave ci hci]
  apply SliceInfo.ext
  · funext d
    exact Bool.and_eq_left_iff_imp.mpr (h.mask ci hci d)
  · exact Bool.and_eq_left_iff_imp.mpr (h.all ci hci)

/-- the saved masks put back -/
theorem Keeps.initGroups (h : Keeps r r') (hr : Coherent r) {save : ℕ → SliceInfo}
    (hsave : ∀ ci < r.topology.nrOfControlInterfaces, save ci = r.sliceInfo ci) : SameDpus r (dpuInitGroups save r') := by
  refine ⟨h.topology, fun ci hci => ?_, fun ci hci d hd => ?_⟩
  · dsimp only [dpuInitGroups]
    rw [h.topology, if_pos hci]
    exact hsave ci hci
  · dsimp only [dpuInitGroups]
    rw [h.topology, dpuIndex_div hd, dpuIndex_mod hd, hsave ci hci]
    exact (hr.mask ci hci d hd).symm

/-- **A reset** that succeeds leaves the enabled DPUs as they were. -/
theorem ciResetRank_same (o : Obtained) {commands : Bool} (h : ciResetRank commands o.rank = some r') :
    SameDpus o.rank r' := by
  obtain ⟨r, hr, hdefects, _⟩ := o
  dsimp only at h ⊢
  unfold ciResetRank at h
  by_cases hcommands : commands = false
  · rw [if_pos hcommands] at h
    cases h
  rw [if_neg hcommands] at h
  obtain ⟨r1, h1, h⟩ := Option.bind_eq_some_iff.mp h
  obtain ⟨r2, h2, h⟩ := Option.bind_eq_some_iff.mp h
  have hkeeps : Keeps r r := ⟨rfl, rfl, rfl, rfl, fun _ _ _ h => h, fun _ _ h => h⟩
  have hk1 : Keeps r r1 :=
    (hkeeps.save hr none).repair_if hr (fun ci hci d hd hen => (hdefects ci hci d hd hen).1) h1
  have hsave1 := hk1.saved (show ∀ ci < _, r.sliceInfo ci = r.sliceInfo ci from fun _ _ => rfl)
  have hk2 : Keeps r r2 := by
    refine (hk1.save hr _).repair_if hr (fun ci hci d hd hen => ?_) h2
    exact (hdefects ci hci d hd hen).2
  have hsave2 := hk2.saved hsave1
  rw [← Option.some.inj h]
  exact (hk2.save hr _).initGroups hr hsave2

end Reset

/-! ## Disabling a DPU -/

section Disable

variable {r r' : RankState} {command : Bool} {ci d : ℕ}

/-- the mask without a DPU -/
theorem bit_without (mask : Mask8) (dpuId k : ℕ) :
    Mask8.bit (fun d => mask d && decide (d.val ≠ dpuId)) k = (mask.bit k && decide (k ≠ dpuId)) := by
  unfold Mask8.bit
  split_ifs
  · rfl
  · rfl

theorem topology_disable (h : dpuDisableOneDpu command r ci d = some r') : r'.topology = r.topology := by
  unfold dpuDisableOneDpu at h
  split_ifs at h
  rw [← Option.some.inj h]

theorem Coherent.disable (hr : Coherent r) (hd : d < r.topology.nrOfDpusPerControlInterface)
    (h : dpuDisableOneDpu command r ci d = some r') : Coherent r' := by
  unfold dpuDisableOneDpu at h
  split_ifs at h
  rw [← Option.some.inj h]
  refine ⟨fun ci' hci' d' hd' => ?_, fun ci' hci' d' hbit => ?_, fun ci' hci' hall d' hd' => ?_⟩
  · dsimp only at hci' hd' ⊢
    by_cases hci : ci' = ci
    · subst hci
      rw [Function.update_self, bit_without, ← hr.mask ci' hci' d' hd']
      by_cases hdd : d' = d
      · subst hdd
        rw [Function.update_self, decide_eq_false (not_not.mpr rfl), Bool.and_false]
      · have hne : dpuIndex r.topology ci' d' ≠ dpuIndex r.topology ci' d := fun he => hdd (Nat.add_left_cancel he)
        rw [Function.update_of_ne hne, decide_eq_true hdd, Bool.and_true]
    · have hne : dpuIndex r.topology ci' d' ≠ dpuIndex r.topology ci d := by
        intro he
        have hdiv : dpuIndex r.topology ci' d' / r.topology.nrOfDpusPerControlInterface = ci' := dpuIndex_div hd'
        rw [he, dpuIndex_div hd] at hdiv
        exact hci hdiv.symm
      rw [Function.update_of_ne hci, Function.update_of_ne hne]
      exact hr.mask ci' hci' d' hd'
  · dsimp only at hci' hbit ⊢
    by_cases hci : ci' = ci
    · subst hci
      rw [Function.update_self, bit_without, Bool.and_eq_true] at hbit
      exact hr.within ci' hci' d' hbit.1
    · rw [Function.update_of_ne hci] at hbit
      exact hr.within ci' hci' d' hbit
  · dsimp only at hci' hall hd' ⊢
    by_cases hci : ci' = ci
    · subst hci
      rw [Function.update_self] at hall
      cases hall
    · rw [Function.update_of_ne hci] at hall ⊢
      exact hr.all ci' hci' hall d' hd'

/-- **One DPU less.** -/
theorem nrEnabled_disable (hci : ci < r.topology.nrOfControlInterfaces) (hd : d < r.topology.nrOfDpusPerControlInterface)
    (h : dpuDisableOneDpu command r ci d = some r') : nrEnabled r' + 1 = nrEnabled r := by
  unfold dpuDisableOneDpu at h
  split_ifs at h with hfail
  have hen : r.enabled (dpuIndex r.topology ci d) = true := Bool.not_eq_false _ |>.mp fun hoff => hfail (Or.inl hoff)
  have hmem : dpuIndex r.topology ci d ∈ (Finset.range r.topology.nrDpus).filter fun idx => r.enabled idx = true :=
    Finset.mem_filter.mpr ⟨Finset.mem_range.mpr (dpuIndex_lt hci hd), hen⟩
  rw [← Option.some.inj h, nrEnabled, nrEnabled, ← Finset.card_erase_add_one hmem]
  refine congrArg (· + 1) (congrArg Finset.card (Finset.ext fun idx => ?_))
  simp only [Finset.mem_filter, Finset.mem_erase]
  by_cases hidx : idx = dpuIndex r.topology ci d
  · subst hidx
    simp
  · rw [Function.update_of_ne hidx]
    simp only [hidx, ne_eq, not_false_eq_true, true_and]

end Disable

end PimOfis.Api.DpuAlloc
