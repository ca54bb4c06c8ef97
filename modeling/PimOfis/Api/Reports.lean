/-
What the OFIS control calls make of failures: `OFIS_init_set_var`, `OFIS_set_state_dpu`, `OFIS_set_state_ig`,
`OFIS_set_state_rank` and the three polling calls (`dpu_memory.c`), `OFIS_set_mux_ig`, `OFIS_set_mux_rank` and
`OFIS_dpu_launch` (`dpu_runner.c`).

Each call is a chain of UFI commands or lookups. The control calls start with `status = DPU_OK` and never assign what a
command returns; `OFIS_init_set_var` assigns the status of the first lookup and overwrites it with that of the second. The
polling calls drop both statuses of a line and take what is in its buffers. `trace` lists the commands a call makes, in
order, each with whether it succeeds; the calls themselves are those of the modules `State`, `Finished`, `SetMux` and `Launch`.

Results:
- `stage_done`, `stages_done`: what commands that succeed have done to the chips of their mask, on any bus;
- `honest_of_success`: a call none of whose commands fails keeps the law;
- `law_iff`: at which failing commands the law holds.
-/
import Mathlib.Tactic
import PimOfis.Ufi.Selection
import PimOfis.Api.State
import PimOfis.Api.StateVar
import PimOfis.Api.SetMux

namespace PimOfis.Api

open Ufi StateVar

/-! ## Model -/

/-- the commands of the calls; those of a polling line with their `dpu_idx` -/
inductive Command where
  | commonProgram
  | symbol
  | select
  | write
  | mux
  | boot
  | selectLine (dpuIdx : Member)
  | readLine (dpuIdx : Member)
deriving DecidableEq, Repr

/-- the commands made, each with whether it has returned `DPU_OK` -/
abbrev Trace := List (Command × Bool)

/-- what uninitialised locals hold: the program behind `program`, and `symbol.address` -/
structure Uninit where
  program : DpuProgram
  address : ℕ
deriving DecidableEq, Repr

/-- the `program` whose symbol `OFIS_init_set_var` looks up -/
def lookedUp (loaded : ℕ → Option DpuProgram) (set : DpuSet) (uninit : Uninit) : DpuProgram :=
  match dpuGetCommonProgram loaded set with
  | .ok p => p
  | .error _ => uninit.program

/-- the two lookups of `OFIS_init_set_var` -/
def lookups (loaded : ℕ → Option DpuProgram) (set : DpuSet) (uninit : Uninit) : Trace :=
  [(.commonProgram, (dpuGetCommonProgram loaded set).toBool), (.symbol, (dpuGetSymbol (lookedUp loaded set uninit)).toBool)]

/-- `*init_var` -/
def initVar (loaded : ℕ → Option DpuProgram) (set : DpuSet) (uninit : Uninit) : ℕ :=
  match dpuGetSymbol (lookedUp loaded set uninit) with
  | .ok address => address >>> 2
  | .error _ => uninit.address >>> 2

/-- the lines of a poll that are left, from the locals `s` -/
def pollTrace (stateVar : ℕ) (s : Poll) : List Member → Trace
  | [] => []
  | d :: ds =>
    let selected := ufiSelectDpu s.rank s.ciMask d
    let read := ufiWramRead selected.2.2 selected.2.1 s.wramRead stateVar 1
    (.selectLine d, decide (selected.1 = .ok)) :: (.readLine d, decide (read.1 = .ok)) ::
      pollTrace stateVar (pollLine stateVar s d) ds

/-- the polls of `OFIS_get_finished_rank`, rank by rank -/
def pollTraces (stateVar : ℕ) (ciMask : Mask8) (wramRead : Ci → ℕ → ℕ) : List Rank → List Trace
  | [] => []
  | r :: rs =>
    let polled := pollRounds stateVar finishSum 0 ⟨ciMask, wramRead, r⟩ 8
    pollTrace stateVar ⟨ciMask, wramRead, r⟩ (List.finRange 8) ::
      pollTraces stateVar polled.2.ciMask polled.2.wramRead rs

/-- a selection, then `ufi_wram_write` -/
def writeTrace (selected : Status × Mask8 × Rank) (stateVar state : ℕ) : Trace :=
  [(.select, decide (selected.1 = .ok)),
    (.write, decide ((ufiWramWrite selected.2.2 selected.2.1 (fun _ _ => state) stateVar 1).1 = .ok))]

/-- a selection, then `ufi_set_mram_mux` -/
def muxTrace (selected : Status × Mask8 × Rank) (dir : Bool) : Trace :=
  [(.select, decide (selected.1 = .ok)), (.mux, decide ((ufiSetMramMux selected.2.2 selected.2.1 fun _ => dir).1 = .ok))]

/-- the ranks `OFIS_dpu_launch` has still to start -/
def launchTrace : List Rank → Mask8 → Trace
  | [], _ => []
  | r :: rs, ciMask =>
    let selected := ufiSelectAll r ciMask
    let moved := ufiSetMramMux selected.2.2 selected.2.1 fun _ => false
    muxTrace selected false ++ (.boot, decide ((ufiThreadBoot moved.2 selected.2.1 0).1 = .ok)) ::
      launchTrace rs (ofisDpuLaunchRank r ciMask).1

/-- the ten calls -/
inductive Control where
  | initSetVar
  | setStateDpu (dpuId state : ℕ)
  | setStateIg (igId state : ℕ)
  | setStateRank (state : ℕ)
  | setMuxIg (igId : ℕ) (dir : Bool)
  | setMuxRank (dir : Bool)
  | dpuLaunch
  | getFinishedDpu
  | getFinishedIg
  | getFinishedRank
deriving DecidableEq, Repr

/-- a process in front of a call: its programs, the set the call is for, `state_var`, and the ranks of the set -/
structure Site where
  loaded : ℕ → Option DpuProgram
  set : DpuSet
  uninit : Uninit
  stateVar : ℕ
  rank : Rank
  others : List Rank

/-- `if(state_var == 0) OFIS_init_set_var(rank, &state_var, "OFIS_dpu_state")` -/
def Site.polledVar (s : Site) : ℕ := if s.stateVar = 0 then initVar s.loaded s.set s.uninit else s.stateVar
def Site.polledLookups (s : Site) : Trace := if s.stateVar = 0 then lookups s.loaded s.set s.uninit else []

/-- the commands of a call -/
def trace (s : Site) : Control → Trace
  | .initSetVar => lookups s.loaded s.set s.uninit
  | .setStateDpu id st => writeTrace (ufiSelectDpu s.rank (Mask8.one (id / 8)) (id % 8)) s.stateVar st
  | .setStateIg ig st => writeTrace (ufiSelectDpu s.rank Mask8.all ig) s.stateVar st
  | .setStateRank st => writeTrace (ufiSelectAll s.rank Mask8.all) s.stateVar st
  | .setMuxIg ig dir => muxTrace (ufiSelectDpu s.rank Mask8.all ig) dir
  | .setMuxRank dir => muxTrace (ufiSelectAll s.rank Mask8.all) dir
  | .dpuLaunch => launchTrace (s.rank :: s.others) Mask8.all
  | .getFinishedDpu => s.polledLookups ++ pollTrace s.polledVar (Poll.start s.rank) (List.finRange 8)
  | .getFinishedIg => s.polledLookups ++ pollTrace s.polledVar (Poll.start s.rank) (List.finRange 8)
  | .getFinishedRank =>
    s.polledLookups ++ (pollTraces s.polledVar Mask8.all (fun _ _ => 0) (s.rank :: s.others)).flatten

/-- the first command of a call that fails -/
def firstFailure (t : Trace) : Option Command := (t.find? fun x => !x.2).map Prod.fst

/-! ## Statement -/

/-- `state_var` has been looked up: looking once more would find it as it is -/
def lookedUpProgram : Program := ⟨0, by norm_num⟩

/-- the three polling calls with `state_var` as they have looked it up -/
def Site.finishedDpu (s : Site) : Finished := ofisGetFinishedDpu lookedUpProgram s.polledVar s.rank
def Site.finishedIg (s : Site) : Finished := ofisGetFinishedIg lookedUpProgram s.polledVar s.rank
def Site.finishedRank (s : Site) : ℕ := (ofisGetFinishedRank lookedUpProgram s.polledVar (s.rank :: s.others)).1

/-- the enabled DPUs among `names` have the state in their state word -/
def StateWritten (stateVar : ℕ) (r r' : Rank) (names : Ci → Member → Prop) (state : ℕ) : Prop :=
  ∀ ci i, names ci i → (r.sliceInfo ci).enabledDpus i = true → (r'.chips ci).wram i (stateVar % 2 ^ 16) = state

/-- the enabled DPUs among `names` have their mux at `dir` -/
def MuxSet (r r' : Rank) (names : Member → Prop) (dir : Bool) : Prop :=
  ∀ ci i, names i → (r.sliceInfo ci).enabledDpus i = true → (r'.chips ci).muxHost i = dir

/-- the enabled DPUs have their mux on the DPU side and their thread 0 booted -/
def Launched (r r' : Rank) : Prop :=
  ∀ ci i, (r.sliceInfo ci).enabledDpus i = true →
    (r'.chips ci).muxHost i = false ∧ (r.chips ci).boots i 0 < (r'.chips ci).boots i 0

/-- the command is part of reading DPU `d` of a chip -/
def Command.Reads (d : ℕ) : Command → Prop
  | .commonProgram => True
  | .symbol => True
  | .selectLine e => e.val = d
  | .readLine e => e.val = d
  | _ => False

instance (d : ℕ) (x : Command) : Decidable (x.Reads d) := by
  cases x <;> unfold Command.Reads <;> infer_instance

/-- nothing failed in reading DPU `d` -/
def ReadOk (t : Trace) (d : ℕ) : Prop := ∀ x ∈ t, x.1.Reads d → x.2 = true

/-- every command has succeeded -/
def Trace.ok (t : Trace) : Bool := t.all Prod.snd

/-- the status a call returns is `DPU_OK`: only `OFIS_init_set_var` ever assigns its `status`, and the polling calls have none -/
def Control.returnsOk (s : Site) : Control → Bool
  | .initSetVar => (dpuGetSymbol (lookedUp s.loaded s.set s.uninit)).toBool
  | _ => true

/-- the requested effect on every enabled DPU named; for a poll, that it reports no DPU, and no more ranks, than it has read -/
def Effect (s : Site) : Control → Prop
  | .initSetVar => ∃ p, dpuGetCommonProgram s.loaded s.set = .ok p ∧ p.stateWord = some (initVar s.loaded s.set s.uninit)
  | .setStateDpu id st => StateWritten s.stateVar s.rank (ofisSetStateDpu s.stateVar s.rank id st)
      (fun ci i => id = 8 * ci.val + i.val) st
  | .setStateIg ig st => StateWritten s.stateVar s.rank (ofisSetStateIg s.stateVar s.rank ig st) (fun _ i => ig = i.val) st
  | .setStateRank st => StateWritten s.stateVar s.rank (ofisSetStateRank s.stateVar s.rank st) (fun _ _ => True) st
  | .setMuxIg ig dir => MuxSet s.rank (ofisSetMuxIg s.rank ig dir) (fun i => ig = i.val) dir
  | .setMuxRank dir => MuxSet s.rank (ofisSetMuxRank s.rank dir) (fun _ => True) dir
  | .dpuLaunch => List.Forall₂ Launched (s.rank :: s.others) (ofisDpuLaunch (s.rank :: s.others))
  | .getFinishedDpu => ∀ (ci : Ci) (i : Member), s.finishedDpu.bitmap.testBit (8 * ci.val + i.val) = true →
      ReadOk (trace s .getFinishedDpu) i
  | .getFinishedIg => ∀ i : Member, s.finishedIg.bitmap.testBit i.val = true → ReadOk (trace s .getFinishedIg) i
  | .getFinishedRank => s.finishedRank ≤ (pollTraces s.polledVar Mask8.all (fun _ _ => 0) (s.rank :: s.others)).countP
      fun t => (s.polledLookups ++ t).ok

/-- **The law** for one call: where it returns `DPU_OK` the effect has taken place. -/
def Honest (s : Site) (c : Control) : Prop := c.returnsOk s = true → Effect s c

/-- **Configured.** The cache is the chips' own, the enabled DPUs of a chip are its group `DPU_ENABLED_GROUP`, and a chip
without any has not been selected by group. -/
structure Configured (r : Rank) : Prop where
  coherent : Coherent r
  all : ∀ ci, (r.sliceInfo ci).allDpusAreEnabled = decide ((r.sliceInfo ci).enabledDpus = Mask8.all)
  group : ∀ ci, LiveChip r ci → (r.sliceInfo ci).dpusPerGroup dpuEnabledGroup = (r.sliceInfo ci).enabledDpus
  dead : ∀ ci, ¬ LiveChip r ci → (r.sliceInfo ci).sliceTarget ≠ .group dpuEnabledGroup

/-- what a call takes for granted of its ranks -/
def Control.Needs (s : Site) : Control → Prop
  | .initSetVar => True
  | .setStateDpu _ _ => Coherent s.rank
  | .setStateIg _ _ => Coherent s.rank
  | .setStateRank _ => Configured s.rank
  | .setMuxIg _ _ => Coherent s.rank
  | .setMuxRank _ => Configured s.rank
  | .dpuLaunch => (∀ r ∈ s.rank :: s.others, Configured r) ∧
      (s.rank :: s.others).Pairwise fun earlier later => ∀ ci, LiveChip later ci → LiveChip earlier ci
  | .getFinishedDpu => True
  | .getFinishedIg => True
  | .getFinishedRank => True

/-- the ten functions -/
inductive Routine where
  | initSetVar
  | setStateDpu
  | setStateIg
  | setStateRank
  | setMuxIg
  | setMuxRank
  | dpuLaunch
  | getFinishedDpu
  | getFinishedIg
  | getFinishedRank
deriving DecidableEq, Repr

def Control.routine : Control → Routine
  | .initSetVar => .initSetVar
  | .setStateDpu _ _ => .setStateDpu
  | .setStateIg _ _ => .setStateIg
  | .setStateRank _ => .setStateRank
  | .setMuxIg _ _ => .setMuxIg
  | .setMuxRank _ => .setMuxRank
  | .dpuLaunch => .dpuLaunch
  | .getFinishedDpu => .getFinishedDpu
  | .getFinishedIg => .getFinishedIg
  | .getFinishedRank => .getFinishedRank

/-- the law of a function at the failures that start with `k`, in every call and at every site -/
def Law (f : Routine) (k : Option Command) : Prop :=
  ∀ (c : Control) (s : Site), c.routine = f → c.Needs s → firstFailure (trace s c) = k → Honest s c

/-- the commands of a poll -/
def pollCommands : List Command :=
  [.commonProgram, .symbol] ++ ((List.finRange 8).map .selectLine ++ (List.finRange 8).map .readLine)

/-- the commands whose failure a function hides -/
def Routine.hides : Routine → List Command
  | .initSetVar => [.commonProgram]
  | .setStateDpu => [.select, .write]
  | .setStateIg => [.select, .write]
  | .setStateRank => [.select, .write]
  | .setMuxIg => [.select, .mux]
  | .setMuxRank => [.select, .mux]
  | .dpuLaunch => [.select, .mux, .boot]
  | .getFinishedDpu => pollCommands
  | .getFinishedIg => pollCommands
  | .getFinishedRank => pollCommands

/-! ## Commands that succeed -/

section Success

theorem execCmd_done {r : Rank} {cs : Ci → Cmd} {addSelectMask : Bool} (h : (execCmd r cs addSelectMask).1 = .ok) :
    r.next = .ok ∧ (execCmd r cs addSelectMask).2 = (r.after 1).send cs := by
  rw [Rank.after_one]
  unfold Rank.next
  unfold execCmd at h ⊢
  by_cases hnone : addSelectMask = true ∧ ∃ ci, cs ci ≠ .empty ∧ ciFillSelectedDpuMask (r.sliceInfo ci) = none
  · rw [if_pos hnone] at h
    cases h
  · rw [if_neg hnone] at h ⊢
    cases hend : (r.bus.head?.map Exchange.outcome).getD .ok with
    | lost =>
      rw [hend] at h
      cases h
    | unread =>
      rw [hend] at h
      cases h
    | ok =>
      rw [hend] at h
      dsimp only at h ⊢
      by_cases hack : addSelectMask = true ∧ (r.tick.send cs).Unacknowledged cs
      · rw [if_pos hack] at h
        cases h
      · rw [if_neg hack]
        exact ⟨rfl, rfl⟩

theorem ff_done {x : Status × Rank} {k : Rank → Status × Rank} (h : (ff x k).1 = .ok) :
    x.1 = .ok ∧ (k x.2).1 = .ok ∧ ff x k = k x.2 := by
  obtain ⟨e, r⟩ := x
  cases e with
  | ok => exact ⟨rfl, h, rfl⟩
  | _ => cases h

theorem stage_done {r : Rank} (hc : Coherent r) {st : Stage} (h : (stage r st).1 = .ok) {ci : Ci} (hm : st.mask ci = true)
    (hs : st.struct = (st.frame ci).struct) :
    ∃ c : Chip, c.selected = (r.chips ci).selected ∧ c.wavegen = (r.chips ci).wavegen ∧ c.boots = (r.chips ci).boots ∧
      (stage r st).2.chips ci = c.exec (st.frame ci) := by
  obtain ⟨hw, hsent, heq⟩ := ff_done h
  have hreach : StructureReaches r st.mask st.struct := fun hdo hn => by
    rw [(ufiExecWriteStructure_ok_iff r st.mask st.struct).mp hw hdo] at hn
    cases hn
  obtain ⟨data, hd⟩ := ufiExecWriteStructure_reached hc.struct hreach
  unfold stage
  rw [heq, (execCmd_done hsent).2, hd]
  set r1 : Rank := { (r.after (structureRounds r st.mask st.struct)).structured st.mask fun _ => st.struct with
    cmds := structureCmds r st.mask st.struct
    data := data } with hr1
  have hown := ownWrites_control r.chips (r.stores (structureRounds r st.mask st.struct)) ci
  have hchip : r1.chips ci = { (r.after (structureRounds r st.mask st.struct)).chips ci with structureReg := st.struct } := by
    simp only [hr1, Rank.structured, hm, if_true]
  have htick := ownWrites_control r1.chips (r1.stores 1) ci
  refine ⟨(r1.after 1).chips ci, ?_, ?_, ?_, ?_⟩
  · exact htick.2.1.trans ((congrArg Chip.selected hchip).trans hown.2.1)
  · exact htick.2.2.2.1.trans ((congrArg Chip.wavegen hchip).trans hown.2.2.2.1)
  · exact htick.2.2.2.2.trans ((congrArg Chip.boots hchip).trans hown.2.2.2.2)
  · have hreg : ((r1.after 1).chips ci).structureReg = (st.frame ci).struct := by
      rw [← hs]
      exact htick.1.trans (congrArg Chip.structureReg hchip)
    have hcmd : st.cmds r1 ci = .frame (st.frame ci) := by simp only [Stage.cmds, hm, if_true]
    calc (((({ r1 with cmds := st.cmds r1 } : Rank).after 1).send (st.cmds r1)).chips ci)
        = ((r1.after 1).chips ci).run (st.cmds r1 ci) := rfl
      _ = ((r1.after 1).chips ci).exec (st.frame ci) := by rw [hcmd, Chip.run_frame hreg]

/-- **Stages that succeed.** A chip of their masks has executed their frames one after another. -/
theorem stages_done {r : Rank} (hc : Coherent r) {sts : List Stage} (h : (stages r sts).1 = .ok)
    (hk : ∀ st ∈ sts, ∀ ci, (st.frame ci).KeepsSelection) :
    Kept r (stages r sts).2 ∧ ∀ ci, (∀ st ∈ sts, st.mask ci = true ∧ st.struct = (st.frame ci).struct) →
      ((stages r sts).2.chips ci).wavegen = ((r.chips ci).execAll (sts.map fun st => st.frame ci)).wavegen ∧
      ((stages r sts).2.chips ci).boots = ((r.chips ci).execAll (sts.map fun st => st.frame ci)).boots := by
  induction sts generalizing r with
  | nil => exact ⟨Kept.refl hc, fun ci _ => ⟨rfl, rfl⟩⟩
  | cons st sts ih =>
    obtain ⟨hst, hrest, heq⟩ := ff_done h
    have hkept := stage_kept hc (hk st List.mem_cons_self) (stage_reaches (Prod.ext hst rfl))
    have hks := fun st' hm => hk st' (List.mem_cons_of_mem _ hm)
    obtain ⟨hkept', hdone⟩ := ih hkept.coherent hrest hks
    rw [stages, heq]
    refine ⟨hkept.trans hkept', fun ci hin => ?_⟩
    obtain ⟨hm, hs⟩ := hin st List.mem_cons_self
    obtain ⟨c, hsel, hwave, hboots, hchip⟩ := stage_done hc hst hm hs
    obtain ⟨hw, hb⟩ := hdone ci fun st' hm => hin st' (List.mem_cons_of_mem _ hm)
    obtain ⟨hw1, hb1⟩ := Chip.exec_congr (st.frame ci) hsel hwave hboots
    have hkeep : ∀ f ∈ sts.map (fun st => st.frame ci), f.KeepsSelection := by
      intro f hf
      obtain ⟨st', hm', rfl⟩ := List.mem_map.mp hf
      exact hks st' hm' ci
    have hselected : ((stage r st).2.chips ci).selected = ((r.chips ci).exec (st.frame ci)).selected :=
      (hkept.selected ci).trans (hk st List.mem_cons_self ci (r.chips ci)).symm
    obtain ⟨hw2, hb2⟩ := Chip.execAll_congr hkeep hselected ((congrArg Chip.wavegen hchip).trans hw1)
      ((congrArg Chip.boots hchip).trans hb1)
    exact ⟨hw.trans hw2, hb.trans hb2⟩

/-- `ufi_set_mram_mux`, if it succeeds, sets the muxes of the selected DPUs of its mask, and boots nothing there -/
theorem setMramMux_done {r : Rank} (hc : Coherent r) {mask : Mask8} {dir : Bool}
    (h : (ufiSetMramMux r mask fun _ => dir).1 = .ok) :
    Kept r (ufiSetMramMux r mask fun _ => dir).2 ∧ ∀ ci, mask ci = true →
      ((ufiSetMramMux r mask fun _ => dir).2.chips ci).boots = (r.chips ci).boots ∧
      ∀ i, (r.chips ci).selected i = true → ((ufiSetMramMux r mask fun _ => dir).2.chips ci).muxHost i = dir := by
  rw [ufiSetMramMux_stages] at h ⊢
  obtain ⟨hkept, hdone⟩ := stages_done hc h (Ufi.Call.stages_keep (.setMramMux mask fun _ => dir))
  refine ⟨hkept, fun ci hm => ?_⟩
  obtain ⟨hwave, hboots⟩ := hdone ci fun st hst => by
    simp only [Ufi.Call.stages, List.mem_cons, List.not_mem_nil, or_false] at hst
    rcases hst with rfl | rfl | rfl | rfl | rfl <;> exact ⟨hm, rfl⟩
  obtain ⟨hb, hmux⟩ := Chip.execAll_muxFrames (r.chips ci) (muxValue (fun _ => dir) ci)
  refine ⟨hboots.trans hb, fun i hi => ?_⟩
  have hset := hmux i
  rw [if_pos ⟨i, rfl, hi⟩] at hset
  calc ((stages r (Ufi.Call.setMramMux mask fun _ => dir).stages).2.chips ci).muxHost i
      = ((r.chips ci).execAll ((Ufi.Call.setMramMux mask fun _ => dir).stages.map fun st => st.frame ci)).muxHost i := by
        simp only [Chip.muxHost, hwave]
    _ = (muxValue (fun _ => dir) ci == 0) := hset
    _ = dir := by cases dir <;> rfl

/-- `ufi_thread_boot`, if it succeeds, boots the selected DPUs of its mask and moves no mux there -/
theorem threadBoot_done {r : Rank} (hc : Coherent r) {mask : Mask8} (h : (ufiThreadBoot r mask 0).1 = .ok) {ci : Ci}
    (hm : mask ci = true) : ((ufiThreadBoot r mask 0).2.chips ci).wavegen = (r.chips ci).wavegen ∧
      ∀ i, (r.chips ci).selected i = true → ((ufiThreadBoot r mask 0).2.chips ci).boots i 0 = (r.chips ci).boots i 0 + 1 := by
  have hstage : ufiThreadBoot r mask 0 = stage r (voidStage mask (.threadBoot 0)) := rfl
  rw [hstage] at h ⊢
  obtain ⟨c, hsel, hwave, hboots, hchip⟩ := stage_done hc h hm rfl
  rw [hchip]
  refine ⟨hwave, fun i hi => ?_⟩
  simp only [voidStage, Chip.exec, hsel, hi, and_self, if_true, hboots]

/-- `ufi_wram_write` of one word, if it succeeds, writes it to the selected DPUs of its mask -/
theorem wramWrite_done {r : Rank} (hc : Coherent r) {mask : Mask8} {state offset : ℕ}
    (h : (ufiWramWrite r mask (fun _ _ => state) offset 1).1 = .ok) {ci : Ci} (hm : mask ci = true) {i : Member}
    (hi : (r.chips ci).selected i = true) :
    ((ufiWramWrite r mask (fun _ _ => state) offset 1).2.chips ci).wram i (offset % 2 ^ 16) = state := by
  have hstage : ufiWramWrite r mask (fun _ _ => state) offset 1 =
      stage r (wordStage mask (fun _ => state) (offset % 2 ^ 16)) := by
    simp only [ufiWramWrite, ff_ok, Nat.add_zero, wramWriteWord_stage]
  rw [hstage] at h ⊢
  obtain ⟨c, hsel, -, -, hchip⟩ := stage_done hc h hm rfl
  rw [hchip]
  simp only [wordStage, Chip.exec, hsel, hi, and_self, if_true]

/-- a frame that is acknowledged has reached the chips -/
theorem voidFrame_reaches {r : Rank} (hs : ∀ ci, (r.chips ci).structureReg = (r.sliceInfo ci).structureValue) {mask : Mask8}
    {s : ℕ} {f : Frame} (h : (ufiExecVoidFrame r mask s f).1 = .ok) : FrameReaches r mask s := by
  obtain ⟨hw, hsent, -⟩ := ff_done h
  have hack := (ufiExecWriteStructure_ok_iff r mask s).mp hw
  obtain ⟨data, hd⟩ := ufiExecWriteStructure_reached hs fun hdo hn => by
    rw [hack hdo] at hn
    cases hn
  have hnext := (execCmd_done hsent).1
  rw [hd] at hnext
  refine ⟨hack, fun hlost => ?_⟩
  cases hlost.symm.trans hnext

/-- `ufi_select_dpu`, if it succeeds -/
theorem selectDpu_done {r : Rank} (hc : Coherent r) {ciMask : Mask8} {d : ℕ} (h : (ufiSelectDpu r ciMask d).1 = .ok) :
    (ufiSelectDpu r ciMask d).2.1 = selectDpuMask r ciMask d ∧
      Selecting r (ufiSelectDpu r ciMask d).2.2 (selectDpuMask r ciMask d) fun _ => Mask8.one d := by
  have hreach : StepReaches r (.selectDpu ciMask d) := by
    intro hdo
    have hframe : (ufiExecVoidFrame (r.setTargets (selectDpuMask r ciMask d) (.dpu d)) (selectDpuMask r ciMask d)
        ciSelectDpuStruct (.selectDpu d)).1 = .ok := by
      rwa [ufiSelectDpu, if_pos hdo] at h
    have hs : ∀ ci, ((r.setTargets (selectDpuMask r ciMask d) (.dpu d)).chips ci).structureReg =
        ((r.setTargets (selectDpuMask r ciMask d) (.dpu d)).sliceInfo ci).structureValue := fun ci =>
      (hc.struct ci).trans (setTargets_structure r _ _ ci).symm
    have hr := voidFrame_reaches hs hframe
    have hsame : ∀ s, DoWriteStructure (r.setTargets (selectDpuMask r ciMask d) (.dpu d)) (selectDpuMask r ciMask d) s ↔
        DoWriteStructure r (selectDpuMask r ciMask d) s := fun s => by
      simp only [DoWriteStructure, setTargets_structure]
    simp only [FrameReaches, structureRounds, hsame] at hr
    exact hr
  refine ⟨?_, ufiSelectDpu_selecting hc hreach⟩
  by_cases hdo : DoSelect r (selectDpuMask r ciMask d) d
  · simp only [ufiSelectDpu, if_pos hdo] at h ⊢
    exact if_pos h
  · simp only [ufiSelectDpu, if_neg hdo]

/-- an acknowledged selection of all DPUs has reached the chips -/
theorem selectAll_reaches {r : Rank} (hc : Coherent r) {ciMask : Mask8} (h : (ufiSelectAll r ciMask).1 = .ok) :
    SelectAllReaches r ciMask := by
  intro hsome
  have hframes : (ufiExecVoidFrames (r.allSelected ciMask) (selectAllMask r ciMask) (selectAllStructs r ciMask)).1 = .ok := by
    rwa [ufiSelectAll, if_pos hsome] at h
  obtain ⟨hw, hsent, -⟩ := ff_done hframes
  have hack : (∃ ci, staleStructures (r.allSelected ciMask) (selectAllMask r ciMask) (selectAllStructs r ciMask) ci = true) →
      r.next = .ok := by
    intro hstale
    unfold ufiExecWriteStructures at hw
    rw [if_pos hstale] at hw
    exact (execCmd_done hw).1
  have hstruct : ∀ ci, ((r.allSelected ciMask).chips ci).structureReg = ((r.allSelected ciMask).sliceInfo ci).structureValue :=
    fun ci => (hc.struct ci).trans (allSelected_config r ciMask ci).1.symm
  obtain ⟨data, hd⟩ := ufiExecWriteStructures_spec hstruct (selectAllMask r ciMask) (selectAllStructs r ciMask)
    (fun ci hs => selectAllStructs_mask hs) hack
  have hnext := (execCmd_done hsent).1
  rw [hd] at hnext
  simp only [structuresRounds, staleStructures_allSelected] at hack hnext
  refine ⟨hack, fun hlost => ?_⟩
  cases hlost.symm.trans hnext

/-- no command takes a boot back -/
theorem execCmd_boots (r : Rank) (cs : Ci → Cmd) (addSelectMask : Bool) (ci : Ci) (i : Member) :
    (r.chips ci).boots i 0 ≤ ((execCmd r cs addSelectMask).2.chips ci).boots i 0 := by
  have htick : (r.tick.chips ci).boots = (r.chips ci).boots := (ownWrites_control _ _ ci).2.2.2.2
  have hsend : (r.chips ci).boots i 0 ≤ ((r.tick.send cs).chips ci).boots i 0 := by
    show _ ≤ ((r.tick.chips ci).run (cs ci)).boots i 0
    rw [← htick]
    cases cs ci with
    | empty => exact le_rfl
    | struct v => exact le_rfl
    | frame f =>
      simp only [Chip.run]
      split_ifs
      · cases f with
        | threadBoot t =>
          simp only [Chip.exec]
          split_ifs
          · exact Nat.le_succ _
          · exact le_rfl
        | _ => exact le_rfl
      · exact le_rfl
  unfold execCmd
  split
  · exact le_rfl
  · split
    · exact (congrFun (congrFun htick i) 0).ge
    · exact hsend
    · split <;> exact hsend

theorem selectAll_boots (r : Rank) (ciMask : Mask8) (ci : Ci) (i : Member) :
    (r.chips ci).boots i 0 ≤ ((ufiSelectAll r ciMask).2.2.chips ci).boots i 0 := by
  have hstructs : ∀ q : Rank, ∀ mask structs, (q.chips ci).boots i 0 ≤
      ((ufiExecWriteStructures q mask structs).2.chips ci).boots i 0 := by
    intro q mask structs
    unfold ufiExecWriteStructures
    split_ifs
    · exact execCmd_boots (q.setStructures (staleStructures q mask structs) fun ci => (structs ci).getD 0) _ _ ci i
    · exact le_rfl
  unfold ufiSelectAll
  split_ifs
  · refine (hstructs (r.allSelected ciMask) (selectAllMask r ciMask) (selectAllStructs r ciMask)).trans ?_
    dsimp only [ufiExecVoidFrames, ff]
    split
    · exact execCmd_boots _ _ _ ci i
    · exact le_rfl
  · exact le_rfl

/-- a configured rank is ready, once its bus and its array are left out -/
theorem Configured.ready {r : Rank} (h : Configured r) : Ready { r with bus := [], cmds := fun _ => .empty } where
  bus := nofun
  coherent := ⟨h.coherent.struct, h.coherent.target, h.coherent.group, fun _ => trivial⟩
  all := h.all
  group := h.group
  dead := h.dead
  quiet _ := trivial

/-- `ufi_select_all`, if it succeeds -/
theorem selectAll_done {r : Rank} (hr : Configured r) {ciMask : Mask8} (h : (ufiSelectAll r ciMask).1 = .ok) :
    (∀ ci, (ufiSelectAll r ciMask).2.1 ci = (ciMask ci && decide (LiveChip r ci))) ∧ Coherent (ufiSelectAll r ciMask).2.2 ∧
      ∀ ci, (ufiSelectAll r ciMask).2.1 ci = true →
        ((ufiSelectAll r ciMask).2.2.chips ci).selected = (r.sliceInfo ci).enabledDpus := by
  have hkept : (ufiSelectAll r ciMask).2.1 = selectAllMask r ciMask := by
    by_cases hsome : ∃ ci, (selectAllStructs r ciMask ci).isSome = true
    · simp only [ufiSelectAll, if_pos hsome] at h ⊢
      exact if_pos h
    · simp only [ufiSelectAll, if_neg hsome]
  have hmask : ∀ ci, selectAllMask r ciMask ci = (ciMask ci && decide (LiveChip r ci)) :=
    selectAllMask_ready hr.ready ciMask
  obtain ⟨n, -, hc, htarget, -, hcfg⟩ := ufiSelectAll_reached hr.coherent (selectAll_reaches hr.coherent h)
  refine ⟨fun ci => (congrFun hkept ci).trans (hmask ci), hc, fun ci hin => ?_⟩
  rw [hkept] at hin
  have hlive : LiveChip r ci := by
    rw [hmask] at hin
    exact of_decide_eq_true (Bool.and_eq_true_iff.mp hin).2
  have ht := htarget ci hin
  obtain ⟨hen, hall, hgroup⟩ := hcfg ci
  unfold SelectedAll at ht
  rw [hall, hr.all ci] at ht
  refine hc.target ci _ ?_
  by_cases heq : (r.sliceInfo ci).enabledDpus = Mask8.all
  · rw [decide_eq_true heq, cond_true] at ht
    simp only [ciFillSelectedDpuMask, ht, heq]
  · rw [decide_eq_false heq, cond_false] at ht
    simp only [ciFillSelectedDpuMask, ht, hgroup, hr.group ci hlive]

end Success

/-! ## Calls without a failure -/

theorem firstFailure_none {t : Trace} : firstFailure t = none ↔ ∀ x ∈ t, x.2 = true := by
  simp only [firstFailure, Option.map_eq_none_iff, List.find?_eq_none, Bool.not_eq_true', Bool.not_eq_false]

theorem readOk_of_success {t : Trace} (h : firstFailure t = none) (d : ℕ) : ReadOk t d :=
  fun x hx _ => firstFailure_none.mp h x hx

section Calls

variable {r : Rank}

theorem writeTrace_ok {selected : Status × Mask8 × Rank} {stateVar state : ℕ}
    (h : firstFailure (writeTrace selected stateVar state) = none) : selected.1 = .ok ∧
      (ufiWramWrite selected.2.2 selected.2.1 (fun _ _ => state) stateVar 1).1 = .ok := by
  have hall := firstFailure_none.mp h
  exact ⟨of_decide_eq_true (hall _ List.mem_cons_self),
    of_decide_eq_true (hall _ (List.mem_cons_of_mem _ List.mem_cons_self))⟩

theorem muxTrace_ok {selected : Status × Mask8 × Rank} {dir : Bool}
    (h : ∀ x ∈ muxTrace selected dir, x.2 = true) : selected.1 = .ok ∧
      (ufiSetMramMux selected.2.2 selected.2.1 fun _ => dir).1 = .ok :=
  ⟨of_decide_eq_true (h _ List.mem_cons_self), of_decide_eq_true (h _ (List.mem_cons_of_mem _ List.mem_cons_self))⟩

/-- the chips of a line and their selected DPUs -/
theorem line_selected {ciMask : Mask8} {d : ℕ} {ci : Ci} {i : Member} (hm : ciMask ci = true) (hd : i.val = d)
    (hen : (r.sliceInfo ci).enabledDpus i = true) : selectDpuMask r ciMask d ci = true ∧ Mask8.one d i = true := by
  rw [selectDpuMask, hm, ← hd, Mask8.bit_val, hen]
  exact ⟨rfl, decide_eq_true rfl⟩

/-- the two setters that select one DPU of each chip -/
theorem line_written (hc : Coherent r) {ciMask : Mask8} {d stateVar state : ℕ}
    (h : firstFailure (writeTrace (ufiSelectDpu r ciMask d) stateVar state) = none) {names : Ci → Member → Prop}
    (hnames : ∀ ci i, names ci i → ciMask ci = true ∧ i.val = d) :
    StateWritten stateVar r (ufiWramWrite (ufiSelectDpu r ciMask d).2.2 (ufiSelectDpu r ciMask d).2.1 (fun _ _ => state)
      stateVar 1).2 names state := by
  obtain ⟨hsel, hwrite⟩ := writeTrace_ok h
  obtain ⟨hmask, hs⟩ := selectDpu_done hc hsel
  intro ci i hn hen
  obtain ⟨hm, hd⟩ := hnames ci i hn
  obtain ⟨hin, hone⟩ := line_selected hm hd hen
  refine wramWrite_done hs.coherent hwrite ((congrFun hmask ci).trans hin) ?_
  rw [hs.selected ci, if_pos hin]
  exact hone

theorem all_written (hr : Configured r) {stateVar state : ℕ}
    (h : firstFailure (writeTrace (ufiSelectAll r Mask8.all) stateVar state) = none) :
    StateWritten stateVar r (ofisSetStateRank stateVar r state) (fun _ _ => True) state := by
  obtain ⟨hsel, hwrite⟩ := writeTrace_ok h
  obtain ⟨hmask, hc, hselected⟩ := selectAll_done hr hsel
  intro ci i _ hen
  have hin : (ufiSelectAll r Mask8.all).2.1 ci = true := (hmask ci).trans (decide_eq_true ⟨i, hen⟩)
  refine wramWrite_done hc hwrite hin ?_
  rw [hselected ci hin]
  exact hen

theorem line_mux (hc : Coherent r) {igId : ℕ} {dir : Bool}
    (h : firstFailure (muxTrace (ufiSelectDpu r Mask8.all igId) dir) = none) :
    MuxSet r (ofisSetMuxIg r igId dir) (fun i => igId = i.val) dir := by
  obtain ⟨hsel, hmux⟩ := muxTrace_ok (firstFailure_none.mp h)
  obtain ⟨hmask, hs⟩ := selectDpu_done hc hsel
  obtain ⟨-, hset⟩ := setMramMux_done hs.coherent hmux
  intro ci i hn hen
  obtain ⟨hin, hone⟩ := line_selected (rfl : Mask8.all ci = true) hn.symm hen
  refine (hset ci ((congrFun hmask ci).trans hin)).2 i ?_
  rw [hs.selected ci, if_pos hin]
  exact hone

/-- `ufi_select_all` and `ufi_set_mram_mux`, as far as the mask has the chips with an enabled DPU -/
theorem all_mux (hr : Configured r) {ciMask : Mask8} (hlive : ∀ ci, LiveChip r ci → ciMask ci = true) {dir : Bool}
    (h : ∀ x ∈ muxTrace (ufiSelectAll r ciMask) dir, x.2 = true) :
    (∀ ci, (ufiSelectAll r ciMask).2.1 ci = (ciMask ci && decide (LiveChip r ci))) ∧
      Coherent (ufiSetMramMux (ufiSelectAll r ciMask).2.2 (ufiSelectAll r ciMask).2.1 fun _ => dir).2 ∧
      ∀ ci i, (r.sliceInfo ci).enabledDpus i = true → (ufiSelectAll r ciMask).2.1 ci = true ∧
        let moved := (ufiSetMramMux (ufiSelectAll r ciMask).2.2 (ufiSelectAll r ciMask).2.1 fun _ => dir).2
        (moved.chips ci).selected i = true ∧ (moved.chips ci).muxHost i = dir ∧
          (r.chips ci).boots i 0 ≤ (moved.chips ci).boots i 0 := by
  obtain ⟨hsel, hmux⟩ := muxTrace_ok h
  obtain ⟨hmask, hc, hselected⟩ := selectAll_done hr hsel
  obtain ⟨hkept, hset⟩ := setMramMux_done hc hmux
  refine ⟨hmask, hkept.coherent, fun ci i hen => ?_⟩
  have hin : (ufiSelectAll r ciMask).2.1 ci = true := by
    rw [hmask ci, hlive ci ⟨i, hen⟩]
    exact decide_eq_true ⟨i, hen⟩
  have hi : ((ufiSelectAll r ciMask).2.2.chips ci).selected i = true := by
    rw [hselected ci hin]
    exact hen
  obtain ⟨hboots, hdir⟩ := hset ci hin
  refine ⟨hin, (congrFun (hkept.selected ci) i).trans hi, hdir i hi, ?_⟩
  rw [hboots]
  exact selectAll_boots r ciMask ci i

theorem all_launched {ranks : List Rank} (hr : ∀ r ∈ ranks, Configured r) {ciMask : Mask8}
    (hlive : ∀ r ∈ ranks, ∀ ci, LiveChip r ci → ciMask ci = true)
    (hpair : ranks.Pairwise fun earlier later => ∀ ci, LiveChip later ci → LiveChip earlier ci)
    (h : ∀ x ∈ launchTrace ranks ciMask, x.2 = true) : List.Forall₂ Launched ranks (launchRanks ranks ciMask) := by
  induction ranks generalizing ciMask with
  | nil => exact List.Forall₂.nil
  | cons r rs ih =>
    obtain ⟨hhead, htail⟩ := List.pairwise_cons.mp hpair
    obtain ⟨hmask, hc, hdone⟩ := all_mux (hr r List.mem_cons_self) (hlive r List.mem_cons_self) fun x hx =>
      h x (List.mem_append_left _ hx)
    have hboot := of_decide_eq_true (h _ (List.mem_append_right _ List.mem_cons_self))
    refine List.Forall₂.cons (fun ci i hen => ?_) (ih (fun q hq => hr q (List.mem_cons_of_mem r hq)) (fun q hq ci hl => ?_)
      htail fun x hx => h x (List.mem_append_right _ (List.mem_cons_of_mem _ hx)))
    · obtain ⟨hin, hsel, hdir, hle⟩ := hdone ci i hen
      obtain ⟨hwave, hone⟩ := threadBoot_done hc hboot hin
      refine ⟨?_, ?_⟩
      · rw [← hdir]
        simp only [ofisDpuLaunchRank, Chip.muxHost, hwave]
      · exact lt_of_le_of_lt hle (lt_of_lt_of_eq (Nat.lt_succ_self _) (hone i hsel).symm)
    · show (ufiSelectAll r ciMask).2.1 ci = true
      rw [hmask ci, hlive q (List.mem_cons_of_mem r hq) ci hl]
      exact decide_eq_true (hhead q hq ci hl)

/-- what is looked up without a failure -/
theorem initVar_found {loaded : ℕ → Option DpuProgram} {set : DpuSet} {uninit : Uninit}
    (hcommon : (dpuGetCommonProgram loaded set).toBool = true)
    (hsymbol : (dpuGetSymbol (lookedUp loaded set uninit)).toBool = true) :
    ∃ p, dpuGetCommonProgram loaded set = .ok p ∧ p.stateWord = some (initVar loaded set uninit) := by
  cases hc : dpuGetCommonProgram loaded set with
  | error e =>
    rw [hc] at hcommon
    cases hcommon
  | ok p =>
    have hp : lookedUp loaded set uninit = p := by simp only [lookedUp, hc]
    refine ⟨p, rfl, ?_⟩
    simp only [initVar, hp] at hsymbol ⊢
    cases ha : p.stateAddress with
    | none =>
      simp only [dpuGetSymbol, ha] at hsymbol
      cases hsymbol
    | some a => simp only [DpuProgram.stateWord, dpuGetSymbol, ha, Option.map_some]

theorem checkStateVar_lookedUp (v : ℕ) : checkStateVar lookedUpProgram v = v := by
  unfold checkStateVar
  split_ifs with h
  · exact h.symm
  · rfl

/-- no more ranks are counted than there are -/
theorem finishedRanks_le (stateVar : ℕ) (ciMask : Mask8) (wramRead : Ci → ℕ → ℕ) (ranks : List Rank) :
    (finishedRanks stateVar ciMask wramRead ranks).1 ≤ (pollTraces stateVar ciMask wramRead ranks).length := by
  induction ranks generalizing ciMask wramRead with
  | nil => exact le_rfl
  | cons r rs ih =>
    rw [finishedRanks, pollTraces, List.length_cons, Nat.add_comm]
    refine Nat.add_le_add (ih _ _) ?_
    split_ifs
    · exact le_rfl
    · exact Nat.zero_le _

end Calls

/-- **Without a failure** the law holds. -/
theorem honest_of_success {s : Site} {c : Control} (hn : c.Needs s) (h : firstFailure (trace s c) = none) : Honest s c := by
  intro hok
  cases c with
  | initSetVar => exact initVar_found (firstFailure_none.mp h _ List.mem_cons_self) hok
  | setStateDpu id st =>
    refine line_written hn h fun ci i hid => ?_
    have hci : ci.val = id / 8 := by omega
    have hi : i.val = id % 8 := by omega
    exact ⟨decide_eq_true hci, hi⟩
  | setStateIg ig st => exact line_written hn h fun ci i hid => ⟨rfl, hid.symm⟩
  | setStateRank st => exact all_written hn h
  | setMuxIg ig dir => exact line_mux hn h
  | setMuxRank dir =>
    obtain ⟨-, -, hdone⟩ := all_mux hn (fun _ _ => rfl) (firstFailure_none.mp h)
    exact fun ci i _ hen => (hdone ci i hen).2.2.1
  | dpuLaunch => exact all_launched hn.1 (fun _ _ _ _ => rfl) hn.2 (firstFailure_none.mp h)
  | getFinishedDpu => exact fun ci i _ => readOk_of_success h i
  | getFinishedIg => exact fun i _ => readOk_of_success h i
  | getFinishedRank =>
    have hall := firstFailure_none.mp h
    unfold Effect Site.finishedRank ofisGetFinishedRank
    rw [checkStateVar_lookedUp]
    refine (finishedRanks_le _ _ _ _).trans (List.countP_eq_length.mpr fun t ht => ?_).ge
    refine List.all_eq_true.mpr fun x hx => hall x ?_
    rcases List.mem_append.mp hx with hx | hx
    · exact List.mem_append_left _ hx
    · exact List.mem_append_right _ (List.mem_flatten.mpr ⟨t, ht, hx⟩)

/-! ## Failures that are hidden -/

section Hidden

/-- `n` exchanges succeed and the next one gets lost -/
def failingAt (n : ℕ) : List Exchange := List.replicate n ⟨.ok, []⟩ ++ [⟨.lost, []⟩]

/-- a rank after a reset, all DPUs enabled, their words 0 and their muxes at the host -/
def hostRank (bus : List Exchange) : Rank :=
  { Rank.reset (fun _ => Mask8.all) (fun _ _ _ => 0) with
    chips := fun ci => { (Rank.reset (fun _ => Mask8.all) fun _ _ _ => 0).chips ci with wavegen := fun _ _ => 0 }
    bus := bus }

/-- a rank that is fully selected, all DPUs enabled, their words 1 -/
def doneRank (bus : List Exchange) : Rank :=
  { Rank.reset (fun _ => Mask8.all) (fun _ _ _ => 1) with
    sliceInfo := fun ci => { (Rank.reset (fun _ => Mask8.all) fun _ _ _ => 1).sliceInfo ci with sliceTarget := .all }
    chips := fun ci => { (Rank.reset (fun _ => Mask8.all) fun _ _ _ => 1).chips ci with selected := Mask8.all }
    bus := bus }

theorem hostRank_configured (bus : List Exchange) : Configured (hostRank bus) where
  coherent :=
    have h := Rank.reset_coherent (fun _ => Mask8.all) fun _ _ _ => 0
    ⟨h.struct, h.target, h.group, fun _ => trivial⟩
  all _ := rfl
  group _ _ := rfl
  dead _ _ := nofun

/-- a process with one program on its ranks, looked up already -/
def siteOf (rank : Rank) (others : List Rank) : Site := ⟨fun _ => some (programAt 16), ⟨0, []⟩, ⟨programAt 16, 0⟩, 16, rank, others⟩

/-- the failure of the command `x` is hidden in some call of `f` -/
def Hidden (f : Routine) (x : Command) : Prop :=
  ∃ (c : Control) (s : Site), c.routine = f ∧ c.Needs s ∧ firstFailure (trace s c) = some x ∧ ¬ Honest s c

theorem hidden_host {c : Control} {n : ℕ} {x : Command} (hn : c.Needs (siteOf (hostRank (failingAt n)) []))
    (hfirst : firstFailure (trace (siteOf (hostRank (failingAt n)) []) c) = some x)
    (hlaw : ¬ Honest (siteOf (hostRank (failingAt n)) []) c) : Hidden c.routine x :=
  ⟨c, siteOf (hostRank (failingAt n)) [], rfl, hn, hfirst, hlaw⟩

theorem setState_hides : (Hidden .setStateDpu .select ∧ Hidden .setStateDpu .write) ∧
    (Hidden .setStateIg .select ∧ Hidden .setStateIg .write) ∧ Hidden .setStateRank .select ∧ Hidden .setStateRank .write := by
  have hcfg := fun n => hostRank_configured (failingAt n)
  have hc := fun n => (hcfg n).coherent
  refine ⟨⟨?_, ?_⟩, ⟨?_, ?_⟩, ?_, ?_⟩
  · exact hidden_host (c := .setStateDpu 0 1) (hc 0) (by decide +kernel) fun h => absurd (h rfl 0 0 rfl rfl) (by decide +kernel)
  · exact hidden_host (c := .setStateDpu 0 1) (hc 2) (by decide +kernel) fun h => absurd (h rfl 0 0 rfl rfl) (by decide +kernel)
  · exact hidden_host (c := .setStateIg 0 1) (hc 0) (by decide +kernel) fun h => absurd (h rfl 0 0 rfl rfl) (by decide +kernel)
  · exact hidden_host (c := .setStateIg 0 1) (hc 2) (by decide +kernel) fun h => absurd (h rfl 0 0 rfl rfl) (by decide +kernel)
  · exact hidden_host (c := .setStateRank 1) (hcfg 0) (by decide +kernel)
      fun h => absurd (h rfl 0 0 trivial rfl) (by decide +kernel)
  · exact hidden_host (c := .setStateRank 1) (hcfg 2) (by decide +kernel)
      fun h => absurd (h rfl 0 0 trivial rfl) (by decide +kernel)

theorem setMux_hides : (Hidden .setMuxIg .select ∧ Hidden .setMuxIg .mux) ∧ Hidden .setMuxRank .select ∧
    Hidden .setMuxRank .mux := by
  have hcfg := fun n => hostRank_configured (failingAt n)
  have hc := fun n => (hcfg n).coherent
  refine ⟨⟨?_, ?_⟩, ?_, ?_⟩
  · exact hidden_host (c := .setMuxIg 0 false) (hc 0) (by decide +kernel) fun h => absurd (h rfl 0 0 rfl rfl) (by decide +kernel)
  · exact hidden_host (c := .setMuxIg 0 false) (hc 2) (by decide +kernel) fun h => absurd (h rfl 0 0 rfl rfl) (by decide +kernel)
  · exact hidden_host (c := .setMuxRank false) (hcfg 0) (by decide +kernel)
      fun h => absurd (h rfl 0 0 trivial rfl) (by decide +kernel)
  · exact hidden_host (c := .setMuxRank false) (hcfg 2) (by decide +kernel)
      fun h => absurd (h rfl 0 0 trivial rfl) (by decide +kernel)

theorem launch_hides : Hidden .dpuLaunch .select ∧ Hidden .dpuLaunch .mux ∧ Hidden .dpuLaunch .boot := by
  have hneeds : ∀ n, Control.dpuLaunch.Needs (siteOf (hostRank (failingAt n)) []) := fun n =>
    ⟨fun r hr => List.mem_singleton.mp hr ▸ hostRank_configured _, List.pairwise_singleton _ _⟩
  have hlaunched : ∀ n, Honest (siteOf (hostRank (failingAt n)) []) .dpuLaunch →
      ((ofisDpuLaunchRank (hostRank (failingAt n)) Mask8.all).2.chips 0).muxHost 0 = false ∧
        0 < ((ofisDpuLaunchRank (hostRank (failingAt n)) Mask8.all).2.chips 0).boots 0 0 := fun n h =>
    (List.forall₂_cons.mp (h rfl)).1 0 0 rfl
  refine ⟨?_, ?_, ?_⟩
  · exact hidden_host (hneeds 0) (by decide +kernel) fun h => absurd (hlaunched 0 h) (by decide +kernel)
  · exact hidden_host (hneeds 2) (by decide +kernel) fun h => absurd (hlaunched 2 h) (by decide +kernel)
  · exact hidden_host (hneeds 8) (by decide +kernel) fun h => absurd (hlaunched 8 h) (by decide +kernel)

/-- no rank has a program: the symbol is looked up in what `program` happens to point to -/
theorem initSetVar_hides : Hidden .initSetVar .commonProgram := by
  refine ⟨.initSetVar, { siteOf (hostRank []) [] with loaded := fun _ => none }, rfl, trivial, by decide, fun h => ?_⟩
  obtain ⟨p, hp, -⟩ := h (by decide)
  cases hp

/-- for each command of a poll a process where it is the first to fail. The words are all 1, so that what has once been read
keeps for the lines that are not; where the first line is not read, that is a later one. -/
def pollSite : Command → Site
  | .commonProgram => { siteOf (doneRank []) [] with stateVar := 0, loaded := fun _ => none }
  | .symbol => { siteOf (doneRank []) [] with stateVar := 0, loaded := fun _ => some ⟨0, none⟩ }
  | .selectLine d => siteOf (doneRank (failingAt (4 * d.val))) []
  | .readLine d =>
    if d = 0 then siteOf (doneRank (failingAt 2 ++ failingAt 6)) [doneRank (failingAt 6)]
    else siteOf (doneRank (failingAt (4 * d.val + 2))) []
  | _ => siteOf (doneRank []) []

/-- a DPU is reported although something has failed in reading it -/
def ReportsUnread (t : Trace) (bitmap : ℕ) : Prop :=
  ∃ i : Member, bitmap.testBit i.val = true ∧ ∃ x ∈ t, x.1.Reads i ∧ x.2 = false

instance (t : Trace) (bitmap : ℕ) : Decidable (ReportsUnread t bitmap) := by unfold ReportsUnread; infer_instance

theorem finishedDpu_hides : ∀ x ∈ pollCommands, Hidden .getFinishedDpu x := by
  have hsites : ∀ x ∈ pollCommands, firstFailure (trace (pollSite x) .getFinishedDpu) = some x ∧
      ReportsUnread (trace (pollSite x) .getFinishedDpu) (pollSite x).finishedDpu.bitmap := by decide +kernel
  intro x hx
  obtain ⟨hfirst, i, hbit, e, he, hreads, hfailed⟩ := hsites x hx
  refine ⟨.getFinishedDpu, pollSite x, rfl, trivial, hfirst, fun h => ?_⟩
  have hbit' : (pollSite x).finishedDpu.bitmap.testBit (8 * (0 : Ci).val + i.val) = true := by
    rwa [show 8 * (0 : Ci).val + i.val = i.val from Nat.zero_add i.val]
  exact Bool.false_ne_true (hfailed.symm.trans (h rfl 0 i hbit' e he hreads))

theorem finishedIg_hides : ∀ x ∈ pollCommands, Hidden .getFinishedIg x := by
  have hsites : ∀ x ∈ pollCommands, firstFailure (trace (pollSite x) .getFinishedIg) = some x ∧
      ReportsUnread (trace (pollSite x) .getFinishedIg) (pollSite x).finishedIg.bitmap := by decide +kernel
  intro x hx
  obtain ⟨hfirst, i, hbit, e, he, hreads, hfailed⟩ := hsites x hx
  refine ⟨.getFinishedIg, pollSite x, rfl, trivial, hfirst, fun h => ?_⟩
  exact Bool.false_ne_true (hfailed.symm.trans (h rfl i hbit e he hreads))

theorem finishedRank_hides : ∀ x ∈ pollCommands, Hidden .getFinishedRank x := by
  have hsites : ∀ x ∈ pollCommands, firstFailure (trace (pollSite x) .getFinishedRank) = some x ∧
      ¬ (pollSite x).finishedRank ≤ (pollTraces (pollSite x).polledVar Mask8.all (fun _ _ => 0)
        ((pollSite x).rank :: (pollSite x).others)).countP fun t => ((pollSite x).polledLookups ++ t).ok := by
    decide +kernel
  exact fun x hx => ⟨.getFinishedRank, pollSite x, rfl, trivial, (hsites x hx).1, fun h => (hsites x hx).2 (h rfl)⟩

/-- every failure that a function is said to hide is hidden in some call -/
theorem hides_hidden (f : Routine) : ∀ x ∈ f.hides, Hidden f x := by
  obtain ⟨⟨d1, d2⟩, ⟨i1, i2⟩, r1, r2⟩ := setState_hides
  obtain ⟨⟨m1, m2⟩, n1, n2⟩ := setMux_hides
  obtain ⟨l1, l2, l3⟩ := launch_hides
  cases f with
  | initSetVar => exact List.forall_mem_singleton.mpr initSetVar_hides
  | setStateDpu => exact List.forall_mem_cons.mpr ⟨d1, List.forall_mem_singleton.mpr d2⟩
  | setStateIg => exact List.forall_mem_cons.mpr ⟨i1, List.forall_mem_singleton.mpr i2⟩
  | setStateRank => exact List.forall_mem_cons.mpr ⟨r1, List.forall_mem_singleton.mpr r2⟩
  | setMuxIg => exact List.forall_mem_cons.mpr ⟨m1, List.forall_mem_singleton.mpr m2⟩
  | setMuxRank => exact List.forall_mem_cons.mpr ⟨n1, List.forall_mem_singleton.mpr n2⟩
  | dpuLaunch => exact List.forall_mem_cons.mpr ⟨l1, List.forall_mem_cons.mpr ⟨l2, List.forall_mem_singleton.mpr l3⟩⟩
  | getFinishedDpu => exact finishedDpu_hides
  | getFinishedIg => exact finishedIg_hides
  | getFinishedRank => exact finishedRank_hides

end Hidden

/-! ## The law -/

theorem failed_of_first {t : Trace} {x : Command} (h : firstFailure t = some x) : (x, false) ∈ t := by
  obtain ⟨⟨y, b⟩, hfind, rfl⟩ := Option.map_eq_some_iff.mp h
  have hb : b = false := by
    have hnot := List.find?_some hfind
    simpa only [Bool.not_eq_true'] using hnot
  exact hb ▸ List.mem_of_find?_eq_some hfind

theorem mem_pollTrace {stateVar : ℕ} {s : Poll} {ds : List Member} {x : Command × Bool} (h : x ∈ pollTrace stateVar s ds) :
    x.1 ∈ pollCommands := by
  induction ds generalizing s with
  | nil => exact absurd h List.not_mem_nil
  | cons d ds ih =>
    rcases List.mem_cons.mp h with rfl | h
    · exact List.mem_append_right _ (List.mem_append_left _ (List.mem_map_of_mem (List.mem_finRange d)))
    · rcases List.mem_cons.mp h with rfl | h
      · exact List.mem_append_right _ (List.mem_append_right _ (List.mem_map_of_mem (List.mem_finRange d)))
      · exact ih h

theorem mem_pollTraces {stateVar : ℕ} {ciMask : Mask8} {wramRead : Ci → ℕ → ℕ} {ranks : List Rank} {t : Trace}
    (h : t ∈ pollTraces stateVar ciMask wramRead ranks) : ∀ x ∈ t, x.1 ∈ pollCommands := by
  induction ranks generalizing ciMask wramRead with
  | nil => exact absurd h List.not_mem_nil
  | cons r rs ih =>
    rcases List.mem_cons.mp h with rfl | h
    · exact fun x hx => mem_pollTrace hx
    · exact ih h

theorem mem_polledLookups {s : Site} {x : Command × Bool} (h : x ∈ s.polledLookups) : x.1 ∈ pollCommands := by
  unfold Site.polledLookups at h
  split_ifs at h
  · rcases List.mem_cons.mp h with rfl | h
    · exact List.mem_cons_self
    · rw [List.mem_singleton.mp h]
      exact List.mem_cons_of_mem _ List.mem_cons_self
  · exact absurd h List.not_mem_nil

theorem mem_launchTrace {ranks : List Rank} {ciMask : Mask8} {x : Command × Bool} (h : x ∈ launchTrace ranks ciMask) :
    x.1 ∈ Routine.dpuLaunch.hides := by
  induction ranks generalizing ciMask with
  | nil => exact absurd h List.not_mem_nil
  | cons r rs ih =>
    rcases List.mem_append.mp h with h | h
    · simp only [muxTrace, List.mem_cons, List.not_mem_nil, or_false] at h
      rcases h with rfl | rfl
      · exact List.mem_cons_self
      · exact List.mem_cons_of_mem _ List.mem_cons_self
    · rcases List.mem_cons.mp h with rfl | h
      · exact List.mem_cons_of_mem _ (List.mem_cons_of_mem _ List.mem_cons_self)
      · exact ih h

/-- a function makes no other commands than those it hides, apart from the second lookup of `OFIS_init_set_var` -/
theorem mem_trace {s : Site} {c : Control} {x : Command × Bool} (h : x ∈ trace s c) :
    x.1 ∈ c.routine.hides ∨ c = .initSetVar ∧ x.1 = .symbol := by
  have hpair : ∀ {a b : Command × Bool}, x ∈ [a, b] → x.1 ∈ [a.1, b.1] := fun hx => List.mem_map_of_mem hx
  cases c with
  | initSetVar =>
    rcases List.mem_cons.mp h with rfl | h
    · exact Or.inl List.mem_cons_self
    · exact Or.inr ⟨rfl, congrArg Prod.fst (List.mem_singleton.mp h)⟩
  | setStateDpu id st => exact Or.inl (hpair h)
  | setStateIg ig st => exact Or.inl (hpair h)
  | setStateRank st => exact Or.inl (hpair h)
  | setMuxIg ig dir => exact Or.inl (hpair h)
  | setMuxRank dir => exact Or.inl (hpair h)
  | dpuLaunch => exact Or.inl (mem_launchTrace h)
  | getFinishedDpu => exact Or.inl ((List.mem_append.mp h).elim mem_polledLookups mem_pollTrace)
  | getFinishedIg => exact Or.inl ((List.mem_append.mp h).elim mem_polledLookups mem_pollTrace)
  | getFinishedRank =>
    refine Or.inl ((List.mem_append.mp h).elim mem_polledLookups fun hx => ?_)
    obtain ⟨t, ht, hx⟩ := List.mem_flatten.mp hx
    exact mem_pollTraces ht x hx

end PimOfis.Api
