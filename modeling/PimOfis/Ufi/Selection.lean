/-
The selection a rank keeps in its cache, when hardware commands fail (`ufi_select_all`, `ufi_select_dpu` and
`ufi_select_group` of `ufi.c` against `ufi_wram_write`, `ufi_wram_read`, `ufi_thread_boot` and `ufi_set_mram_mux`).

A selection call writes the new target and the new structure of each chip into the cache before it sends the commands that
make them true. If the exchange with the structure fails, the one with the selection is not even tried.

Everything else a caller sends is a list of `Stage`s: a structure, written where the cache has another one, and an array of
frames under it. The first stage that fails ends its call.

`requested` is what the caller has asked for: the DPUs named by the last selection call that kept the chip in its mask. A
chip that the call drops from `*ci_mask`, because it has no such DPU enabled, keeps what it had. No function of the source
reads it.

Results:
- `stages_kept`: frames that do not select, and failures of theirs, leave selections and cache right;
- `ufiSelectDpu_selecting`, `ufiSelectGroup_selecting`, `ufiSelectAll_selecting`: a selection that reaches the chips moves
  the selections it names and no others;
- `run_selection_right`: in every run whose structures and selections reach the chips, every frame meets the selection its
  caller asked for, whatever else fails;
- `lost_selection`: a lost selection is not made up for by asking again.
-/
import Mathlib.Tactic
import PimOfis.Ufi.Mux

namespace PimOfis.Ufi

/-! ## Model -/

/-- the mask `ufi_select_group` leaves in `*ci_mask`: the chips with a DPU in the group -/
def selectGroupMask (r : Rank) (ciMask : Mask8) (group : ℕ) : Mask8 := fun ci =>
  ciMask ci && decide ((r.sliceInfo ci).dpusPerGroup group ≠ fun _ => false)

/-- `do_select`: a chip of the mask has another target in the cache -/
def DoSelectTarget (r : Rank) (mask : Mask8) (t : SliceTarget) : Prop :=
  ∃ ci, mask ci = true ∧ (r.sliceInfo ci).sliceTarget ≠ t

instance (r : Rank) (mask : Mask8) (t : SliceTarget) : Decidable (DoSelectTarget r mask t) := by
  unfold DoSelectTarget; infer_instance

/-- `ufi_select_group` -/
def ufiSelectGroup (r : Rank) (ciMask : Mask8) (group : ℕ) : Status × Mask8 × Rank :=
  let mask := selectGroupMask r ciMask group
  let r1 := r.setTargets mask (.group group)
  if DoSelectTarget r mask (.group group) then
    let (status, r2) := ufiExecVoidFrame r1 mask ciSelectGroupStruct (.selectGroup group)
    (status, if status = .ok then mask else ciMask, r2)
  else (.ok, mask, r1)

/-- the calls of a caller of the UFI -/
inductive Call where
  | selectAll (ciMask : Mask8)
  | selectDpu (ciMask : Mask8) (dpu : ℕ)
  | selectGroup (ciMask : Mask8) (group : ℕ)
  | wramWrite (ciMask : Mask8) (src : Ci → ℕ → ℕ) (offset len : ℕ)
  | wramRead (ciMask : Mask8) (dst : Ci → ℕ → ℕ) (offset len : ℕ)
  | threadBoot (ciMask : Mask8) (thread : ℕ)
  | setMramMux (ciMask ciMuxPos : Mask8)

/-- a rank, and what has been asked for on each chip -/
structure Session where
  rank : Rank
  requested : Ci → Option Mask8

def Session.request (s : Session) (mask : Mask8) (named : Ci → Mask8) : Ci → Option Mask8 := fun ci =>
  if mask ci then some (named ci) else s.requested ci

/-- a call, whether it succeeds or not -/
def step (s : Session) : Call → Session
  | .selectAll ciMask =>
    { rank := (ufiSelectAll s.rank ciMask).2.2
      requested := s.request (selectAllMask s.rank ciMask) fun ci => (s.rank.sliceInfo ci).enabledDpus }
  | .selectDpu ciMask dpu =>
    { rank := (ufiSelectDpu s.rank ciMask dpu).2.2
      requested := s.request (selectDpuMask s.rank ciMask dpu) fun _ => Mask8.one dpu }
  | .selectGroup ciMask group =>
    { rank := (ufiSelectGroup s.rank ciMask group).2.2
      requested := s.request (selectGroupMask s.rank ciMask group) fun ci => (s.rank.sliceInfo ci).dpusPerGroup group }
  | .wramWrite ciMask src offset len => { s with rank := (ufiWramWrite s.rank ciMask src offset len).2 }
  | .wramRead ciMask dst offset len => { s with rank := (ufiWramRead s.rank ciMask dst offset len).2.2 }
  | .threadBoot ciMask thread => { s with rank := (ufiThreadBoot s.rank ciMask thread).2 }
  | .setMramMux ciMask ciMuxPos => { s with rank := (ufiSetMramMux s.rank ciMask ciMuxPos).2 }

def run (s : Session) (calls : List Call) : Session := calls.foldl step s

/-! ## Stages -/

/-- one structure and one array of frames -/
structure Stage where
  mask : Mask8
  struct : ℕ
  frame : Ci → Frame
  /-- the frames are written into `rank->cmds` in place, so that what was left there for the other chips is sent again -/
  inPlace : Bool
  /-- the selected DPUs must acknowledge -/
  addSelectMask : Bool

def Stage.cmds (st : Stage) (r : Rank) : Ci → Cmd := fun ci =>
  if st.mask ci then .frame (st.frame ci) else if st.inPlace then r.cmds ci else .empty

def stage (r : Rank) (st : Stage) : Status × Rank :=
  ff (ufiExecWriteStructure r st.mask st.struct) fun r1 =>
    let r2 := { r1 with cmds := st.cmds r1 }
    execCmd r2 r2.cmds st.addSelectMask

def stages (r : Rank) : List Stage → Status × Rank
  | [] => (.ok, r)
  | st :: sts => ff (stage r st) fun r1 => stages r1 sts

/-- the same frame for all chips, as `ufi_exec_void_frame` sends it -/
def voidStage (mask : Mask8) (f : Frame) : Stage := ⟨mask, f.struct, fun _ => f, false, false⟩

/-- one of the data of `ufi_write_dma_ctrl_datas` -/
def datasStage (mask : Mask8) (address : ℕ) (datas : Ci → ℕ) : Stage :=
  ⟨mask, ciDmaCtrlWriteStruct, fun ci => .dmaCtrlWrite address (datas ci), true, false⟩

/-- one word of `ufi_wram_write` -/
def wordStage (mask : Mask8) (word : Ci → ℕ) (address : ℕ) : Stage :=
  ⟨mask, ciWramWriteWordStruct address, fun ci => .wramWriteWord (word ci) address, true, true⟩

/-- the stages of a call, none for those that select -/
def Call.stages : Call → List Stage
  | .selectAll _ => []
  | .selectDpu _ _ => []
  | .selectGroup _ _ => []
  | .wramWrite mask src offset len =>
    (List.range len).map fun k => wordStage mask (fun ci => src ci k) ((offset + k) % 2 ^ 16)
  | .wramRead mask _ offset len => (List.range len).map fun k => voidStage mask (.wramReadWord ((offset + k) % 2 ^ 16))
  | .threadBoot mask thread => [voidStage mask (.threadBoot thread)]
  | .setMramMux mask ciMuxPos =>
    [datasStage mask 0x80 (muxValue ciMuxPos), voidStage mask (.dmaCtrlWrite 0x81 0),
      datasStage mask 0x82 (muxValue ciMuxPos), datasStage mask 0x84 (muxValue ciMuxPos), voidStage mask .dmaCtrlClear]

theorem ff_assoc (x : Status × Rank) (k l : Rank → Status × Rank) : ff (ff x k) l = ff x fun r => ff (k r) l := by
  obtain ⟨e, r⟩ := x
  cases e <;> rfl

theorem stages_append (r : Rank) (as bs : List Stage) : stages r (as ++ bs) = ff (stages r as) fun r1 => stages r1 bs := by
  induction as generalizing r with
  | nil => rfl
  | cons a as ih =>
    simp only [List.cons_append, stages, ff_assoc, ih]

theorem ff_return (x : Status × Rank) : ff x (fun r => (.ok, r)) = x := by
  obtain ⟨e, r⟩ := x
  cases e <;> rfl

theorem ufiExecVoidFrame_stage (r : Rank) (mask : Mask8) (f : Frame) :
    ufiExecVoidFrame r mask f.struct f = stage r (voidStage mask f) := rfl

theorem ufiWriteDmaCtrlDatas_stage (r : Rank) (mask : Mask8) (address : ℕ) (datas : Ci → ℕ) :
    ufiWriteDmaCtrlDatas r mask address datas = stage r (datasStage mask address datas) := rfl

theorem wramWriteWord_stage (r : Rank) (mask : Mask8) (word : Ci → ℕ) (address : ℕ) :
    wramWriteWord r mask word address = stage r (wordStage mask word address) := rfl

theorem ufiWramWrite_stages (r : Rank) (mask : Mask8) (src : Ci → ℕ → ℕ) (offset len : ℕ) :
    ufiWramWrite r mask src offset len = stages r (Call.wramWrite mask src offset len).stages := by
  induction len with
  | zero => rfl
  | succ n ih =>
    have hsplit : (Call.wramWrite mask src offset (n + 1)).stages =
        (Call.wramWrite mask src offset n).stages ++ [wordStage mask (fun ci => src ci n) ((offset + n) % 2 ^ 16)] := by
      simp [Call.stages, List.range_succ]
    rw [hsplit, stages_append, ← ih]
    simp only [ufiWramWrite, stages, ff_return, wramWriteWord_stage]

theorem ufiWramRead_stages (r : Rank) (mask : Mask8) (dst : Ci → ℕ → ℕ) (offset len : ℕ) :
    ((ufiWramRead r mask dst offset len).1, (ufiWramRead r mask dst offset len).2.2) =
      stages r (Call.wramRead mask dst offset len).stages := by
  induction len with
  | zero => rfl
  | succ n ih =>
    have hsplit : (Call.wramRead mask dst offset (n + 1)).stages =
        (Call.wramRead mask dst offset n).stages ++ [voidStage mask (.wramReadWord ((offset + n) % 2 ^ 16))] := by
      simp [Call.stages, List.range_succ]
    rw [hsplit, stages_append, ← ih]
    rcases hread : ufiWramRead r mask dst offset n with ⟨e, d, r1⟩
    simp only [ufiWramRead, hread]
    cases e with
    | ok =>
      simp only [ff_ok, stages, ff_return, ← ufiExecVoidFrame_stage, Frame.struct]
      rcases ufiExecVoidFrame r1 mask ciWramReadWordStruct (.wramReadWord ((offset + n) % 2 ^ 16)) with ⟨e2, r2⟩
      cases e2 <;> rfl
    | _ => rfl

theorem ufiSetMramMux_stages (r : Rank) (mask ciMuxPos : Mask8) :
    ufiSetMramMux r mask ciMuxPos = stages r (Call.setMramMux mask ciMuxPos).stages := by
  simp only [Call.stages, stages, ff_return]
  rfl

/-- the rank after a call that does not select is the rank its stages have left -/
theorem step_stages (s : Session) {c : Call} (hc : c.stages ≠ []) :
    step s c = { s with rank := (stages s.rank c.stages).2 } := by
  cases c with
  | selectAll mask => exact absurd rfl hc
  | selectDpu mask dpu => exact absurd rfl hc
  | selectGroup mask group => exact absurd rfl hc
  | wramWrite mask src offset len => rw [step, ufiWramWrite_stages]
  | wramRead mask dst offset len => rw [step, ← ufiWramRead_stages]
  | threadBoot mask thread =>
    simp only [step, Call.stages, stages, ff_return]
    rfl
  | setMramMux mask ciMuxPos => rw [step, ufiSetMramMux_stages]

/-! ## The property -/

/-- **One frame.** When a stage sends its array, each chip has selected exactly the DPUs requested for it, and the chips of
the mask decode their frame under its structure. -/
def FrameRight (requested : Ci → Option Mask8) (r : Rank) (st : Stage) : Prop :=
  ∀ r1, ufiExecWriteStructure r st.mask st.struct = (.ok, r1) →
    (∀ ci, st.mask ci = true → (r1.tick.chips ci).structureReg = st.struct) ∧
      ∀ ci m, requested ci = some m → (r1.tick.chips ci).selected = m

/-- every stage a call gets to is right -/
def StagesRight (requested : Ci → Option Mask8) : Rank → List Stage → Prop
  | _, [] => True
  | r, st :: sts => FrameRight requested r st ∧ ∀ r1, stage r st = (.ok, r1) → StagesRight requested r1 sts

/-- each chip has selected exactly the DPUs that were requested last -/
def Session.Agrees (s : Session) : Prop := ∀ ci m, s.requested ci = some m → (s.rank.chips ci).selected = m

/-- a target or a structure that stands in the cache is the chip's own -/
def CacheAgrees (r : Rank) : Prop :=
  ∀ ci, (r.chips ci).structureReg = (r.sliceInfo ci).structureValue ∧
    ∀ m, ciFillSelectedDpuMask (r.sliceInfo ci) = some m → (r.chips ci).selected = m

/-! ## The condition -/

/-- every structure the stages send, up to the first that fails, reaches the chips -/
def StagesReach (r : Rank) : List Stage → Prop
  | [] => True
  | st :: sts =>
    StructureReaches r st.mask st.struct ∧
      match stage r st with
      | (.ok, r1) => StagesReach r1 sts
      | _ => True

/-- **The condition on a call.** A selection that is sent is acknowledged in its structure and reaches the chips; a structure
that is sent before other frames reaches the chips. The frames that do not select may get lost. -/
def StepReaches (r : Rank) : Call → Prop
  | .selectAll ciMask => SelectAllReaches r ciMask
  | .selectDpu ciMask dpu =>
    DoSelect r (selectDpuMask r ciMask dpu) dpu → FrameReaches r (selectDpuMask r ciMask dpu) ciSelectDpuStruct
  | .selectGroup ciMask group =>
    DoSelectTarget r (selectGroupMask r ciMask group) (.group group) →
      FrameReaches r (selectGroupMask r ciMask group) ciSelectGroupStruct
  | c => StagesReach r c.stages

def RunReaches (s : Session) : List Call → Prop
  | [] => True
  | c :: cs => StepReaches s.rank c ∧ RunReaches (step s c) cs

/-! ## Stages keep the selection -/

/-- no selection has moved, and the cache is right -/
structure Kept (r r' : Rank) : Prop where
  coherent : Coherent r'
  selected : ∀ ci, (r'.chips ci).selected = (r.chips ci).selected
  info : ∀ ci, ∃ v, r'.sliceInfo ci = { r.sliceInfo ci with structureValue := v }

theorem Kept.refl {r : Rank} (h : Coherent r) : Kept r r := ⟨h, fun _ => rfl, fun _ => ⟨_, rfl⟩⟩

theorem Kept.trans {r r1 r2 : Rank} (h1 : Kept r r1) (h2 : Kept r1 r2) : Kept r r2 where
  coherent := h2.coherent
  selected ci := (h2.selected ci).trans (h1.selected ci)
  info ci := by
    obtain ⟨v, hv⟩ := h1.info ci
    obtain ⟨w, hw⟩ := h2.info ci
    exact ⟨w, by rw [hw, hv]⟩

theorem Kept.tick {r : Rank} (h : Coherent r) : Kept r r.tick := by
  rw [← Rank.after_one]
  exact ⟨h.after 1, fun ci => (ownWrites_control _ _ ci).2.1, fun _ => ⟨_, rfl⟩⟩

theorem Kept.send {r : Rank} (h : Coherent r) : Kept r (r.send r.cmds) :=
  ⟨h.send, fun ci => (Chip.run_settled (h.left ci)).2, fun _ => ⟨_, rfl⟩⟩

/-- sending a settled array keeps all selections, however the exchange ends -/
theorem execCmd_kept {r : Rank} (h : Coherent r) (addSelectMask : Bool) : Kept r (execCmd r r.cmds addSelectMask).2 := by
  have htick : Kept r r.tick := Kept.tick h
  have hsend : Kept r (r.tick.send r.cmds) := htick.trans (Kept.send htick.coherent)
  unfold execCmd
  split_ifs
  · exact Kept.refl h
  · split
    · exact htick
    · exact hsend
    · exact hsend
  · split
    · exact htick
    · exact hsend
    · exact hsend

/-- a structure that reaches the chips, and what is in the array then -/
theorem ufiExecWriteStructure_kept {r : Rank} (hc : Coherent r) {mask : Mask8} {s : ℕ} (h : StructureReaches r mask s) :
    Kept r (ufiExecWriteStructure r mask s).2 ∧
      ∀ ci, mask ci = true → ((ufiExecWriteStructure r mask s).2.chips ci).structureReg = s := by
  obtain ⟨data, he⟩ := ufiExecWriteStructure_reached hc.struct h
  rw [he]
  set k := structureRounds r mask s
  obtain ⟨h1, h2, h3⟩ := (hc.after k).structured mask s
  have hleft : ∀ ci, (((r.after k).structured mask fun _ => s).chips ci).Settled (structureCmds r mask s ci) := by
    intro ci
    by_cases hw : DoWriteStructure r mask s
    · simp only [structureCmds, if_pos hw, ciPrepareMask]
      split_ifs with hm
      · simp only [Chip.Settled, Rank.structured, hm, if_true]
      · trivial
    · simp only [structureCmds, if_neg hw]
      refine ((hc.after k).left ci).congr ?_ ?_ ?_
      · have hreg := ((hc.after k).struct ci).symm
        simp only [Rank.structured]
        split_ifs with hm
        · by_contra hne
          exact hw ⟨ci, hm, fun he => hne (he.symm.trans hreg)⟩
        · rfl
      · simp only [Rank.structured]
        split_ifs <;> rfl
      · simp only [Rank.structured]
        split_ifs <;> rfl
  refine ⟨⟨⟨h1, h2, h3, hleft⟩, fun ci => ?_, fun ci => ?_⟩, fun ci hm => ?_⟩
  · simp only [Rank.structured, Rank.after]
    have hown := (ownWrites_control r.chips (r.stores k) ci).2.1
    split_ifs
    · exact hown
    · exact hown
  · simp only [Rank.structured, Rank.after]
    split_ifs
    · exact ⟨s, rfl⟩
    · exact ⟨_, rfl⟩
  · simp only [Rank.structured, hm, if_true]

theorem stage_kept {r : Rank} (hc : Coherent r) {st : Stage} (hk : ∀ ci, (st.frame ci).KeepsSelection)
    (h : StructureReaches r st.mask st.struct) : Kept r (stage r st).2 := by
  obtain ⟨h1, -⟩ := ufiExecWriteStructure_kept hc h
  unfold stage
  rcases he : ufiExecWriteStructure r st.mask st.struct with ⟨e, r1⟩
  rw [he] at h1
  cases e with
  | ok =>
    have hleft : ∀ ci, (r1.chips ci).Settled (st.cmds r1 ci) := by
      intro ci
      unfold Stage.cmds
      split_ifs
      · exact hk ci (r1.chips ci)
      · exact h1.coherent.left ci
      · trivial
    have h2 : Kept r1 { r1 with cmds := st.cmds r1 } :=
      ⟨⟨h1.coherent.struct, h1.coherent.target, h1.coherent.group, hleft⟩, fun _ => rfl, fun _ => ⟨_, rfl⟩⟩
    exact (h1.trans h2).trans (execCmd_kept h2.coherent st.addSelectMask)
  | _ => exact h1

/-- a stage that succeeds has had its structure acknowledged -/
theorem stage_reaches {r r1 : Rank} {st : Stage} (h : stage r st = (.ok, r1)) : StructureReaches r st.mask st.struct := by
  have hok : (ufiExecWriteStructure r st.mask st.struct).1 = .ok := by
    unfold stage at h
    rcases he : ufiExecWriteStructure r st.mask st.struct with ⟨e, r2⟩
    rw [he] at h
    cases e with
    | ok => rfl
    | _ => exact absurd (congrArg Prod.fst h) nofun
  intro hw hn
  rw [(ufiExecWriteStructure_ok_iff r st.mask st.struct).mp hok hw] at hn
  exact absurd hn nofun

theorem stages_kept {r : Rank} (hc : Coherent r) {sts : List Stage} (hk : ∀ st ∈ sts, ∀ ci, (st.frame ci).KeepsSelection)
    (h : StagesReach r sts) : Kept r (stages r sts).2 := by
  induction sts generalizing r with
  | nil => exact Kept.refl hc
  | cons st sts ih =>
    obtain ⟨hst, hrest⟩ := h
    have h1 := stage_kept hc (hk st List.mem_cons_self) hst
    unfold stages
    rcases he : stage r st with ⟨e, r1⟩
    rw [he] at h1 hrest
    cases e with
    | ok => exact h1.trans (ih h1.coherent (fun st' hm => hk st' (List.mem_cons_of_mem _ hm)) hrest)
    | _ => exact h1

theorem frame_right {requested : Ci → Option Mask8} {r : Rank} (hc : Coherent r)
    (ha : ∀ ci m, requested ci = some m → (r.chips ci).selected = m) (st : Stage) : FrameRight requested r st := by
  intro r1 he
  have hreach : StructureReaches r st.mask st.struct := by
    intro hw hn
    rw [(ufiExecWriteStructure_ok_iff r st.mask st.struct).mp (by rw [he]) hw] at hn
    exact absurd hn nofun
  obtain ⟨h1, h2⟩ := ufiExecWriteStructure_kept hc hreach
  rw [he] at h1 h2
  refine ⟨fun ci hm => (ownWrites_control _ _ ci).1.trans (h2 ci hm), fun ci m hm => ?_⟩
  calc (r1.tick.chips ci).selected = (r1.chips ci).selected := (Kept.tick h1.coherent).selected ci
    _ = (r.chips ci).selected := h1.selected ci
    _ = m := ha ci m hm

theorem stages_right {requested : Ci → Option Mask8} {r : Rank} (hc : Coherent r)
    (ha : ∀ ci m, requested ci = some m → (r.chips ci).selected = m) {sts : List Stage}
    (hk : ∀ st ∈ sts, ∀ ci, (st.frame ci).KeepsSelection) : StagesRight requested r sts := by
  induction sts generalizing r with
  | nil => trivial
  | cons st sts ih =>
    refine ⟨frame_right hc ha st, fun r1 he => ?_⟩
    have h1 := stage_kept hc (hk st List.mem_cons_self) (stage_reaches he)
    rw [he] at h1
    refine ih h1.coherent (fun ci m hm => ?_) fun st' hm => hk st' (List.mem_cons_of_mem _ hm)
    exact (h1.selected ci).trans (ha ci m hm)

/-- the frames of a call that does not select keep the selection -/
theorem Call.stages_keep (c : Call) : ∀ st ∈ c.stages, ∀ ci, (st.frame ci).KeepsSelection := by
  intro st hst ci
  cases c with
  | selectAll mask => exact absurd hst List.not_mem_nil
  | selectDpu mask dpu => exact absurd hst List.not_mem_nil
  | selectGroup mask group => exact absurd hst List.not_mem_nil
  | wramWrite mask src offset len =>
    obtain ⟨k, -, rfl⟩ := List.mem_map.mp hst
    exact fun _ => rfl
  | wramRead mask dst offset len =>
    obtain ⟨k, -, rfl⟩ := List.mem_map.mp hst
    exact fun _ => rfl
  | threadBoot mask thread =>
    rw [List.mem_singleton.mp hst]
    exact fun _ => rfl
  | setMramMux mask ciMuxPos =>
    simp only [Call.stages, List.mem_cons, List.not_mem_nil, or_false] at hst
    rcases hst with rfl | rfl | rfl | rfl | rfl <;> exact fun _ => rfl

/-! ## Selections move it where they say -/

/-- **Selecting.** The chips of the mask have selected what is named, no other selection has moved, and the cache is right. -/
structure Selecting (r r' : Rank) (mask : Mask8) (named : Ci → Mask8) : Prop where
  coherent : Coherent r'
  selected : ∀ ci, (r'.chips ci).selected = if mask ci then named ci else (r.chips ci).selected
  config : ∀ ci, (r'.sliceInfo ci).enabledDpus = (r.sliceInfo ci).enabledDpus ∧
    (r'.sliceInfo ci).allDpusAreEnabled = (r.sliceInfo ci).allDpusAreEnabled ∧
    (r'.sliceInfo ci).dpusPerGroup = (r.sliceInfo ci).dpusPerGroup

theorem setTargets_structure (r : Rank) (mask : Mask8) (t : SliceTarget) (ci : Ci) :
    ((r.setTargets mask t).sliceInfo ci).structureValue = (r.sliceInfo ci).structureValue := by
  simp only [Rank.setTargets]
  split_ifs <;> rfl

theorem frameReaches_setTargets {r : Rank} {mask : Mask8} {s : ℕ} (t : SliceTarget) (h : FrameReaches r mask s) :
    FrameReaches (r.setTargets mask t) mask s := by
  have hw : DoWriteStructure (r.setTargets mask t) mask s ↔ DoWriteStructure r mask s := by
    simp only [DoWriteStructure, setTargets_structure]
  have hk : structureRounds (r.setTargets mask t) mask s = structureRounds r mask s := by
    simp only [structureRounds, hw]
  refine ⟨fun hd => h.1 (hw.mp hd), ?_⟩
  rw [hk]
  exact h.2

/-- a selection that is sent with one frame: the frame selects what the new target stands for -/
theorem selectFrame_selecting {r : Rank} (hc : Coherent r) {mask : Mask8} {t : SliceTarget} {f : Frame} {named : Ci → Mask8}
    (hfill : ∀ ci, mask ci = true → ciFillSelectedDpuMask { r.sliceInfo ci with sliceTarget := t } = some (named ci))
    (hf : ∀ ci (c : Chip), mask ci = true → c.group = (r.chips ci).group → (c.exec f).selected = named ci)
    (hr : FrameReaches r mask f.struct) :
    Selecting r (ufiExecVoidFrame (r.setTargets mask t) mask f.struct f).2 mask named := by
  set r1 := r.setTargets mask t with hr1
  have hs : ∀ ci, (r1.chips ci).structureReg = (r1.sliceInfo ci).structureValue := by
    intro ci
    rw [hr1, setTargets_structure]
    exact hc.struct ci
  rw [ufiExecVoidFrame_reached hs (frameReaches_setTargets t hr)]
  set n := structureRounds r1 mask f.struct + 1
  have hca := hc.after n
  have hin : ∀ ci, mask ci = true → (r1.after n).sliceInfo ci = { r.sliceInfo ci with sliceTarget := t } := by
    intro ci hm
    simp [Rank.after, hr1, Rank.setTargets, hm]
  have hout : ∀ ci, mask ci = false → (r1.after n).sliceInfo ci = r.sliceInfo ci := by
    intro ci hm
    simp [Rank.after, hr1, Rank.setTargets, hm]
  have hchips : (r1.after n).chips = (r.after n).chips := rfl
  have hgroup : ∀ ci, ((r.after n).chips ci).group = (r.chips ci).group := fun ci => (ownWrites_control _ _ ci).2.2.1
  refine ⟨Rank.framed_coherent ?_ ?_ ?_ ?_, fun ci => ?_, fun ci => ?_⟩
  · intro ci
    exact (ownWrites_control _ _ ci).1.trans (hs ci)
  · intro ci m hm hm'
    rw [hin ci hm, hfill ci hm] at hm'
    rw [← Option.some.inj hm', hchips]
    exact hf ci _ hm (hgroup ci)
  · intro ci m hm hm'
    rw [hout ci hm] at hm'
    exact hca.target ci m hm'
  · intro ci g i
    rw [hchips]
    cases hm : mask ci with
    | true =>
      rw [hin ci hm]
      exact hca.group ci g i
    | false =>
      rw [hout ci hm]
      exact hca.group ci g i
  · simp only [Rank.framed, hchips]
    split_ifs with hm
    · exact hf ci { (r.after n).chips ci with structureReg := f.struct } hm (hgroup ci)
    · exact (ownWrites_control _ _ ci).2.1
  · simp only [Rank.framed, Rank.structured]
    cases hm : mask ci with
    | true => simp [hin ci hm]
    | false => simp [hout ci hm]

/-- a selection that is not sent, because the cache has its target on every chip of the mask -/
theorem cached_selecting {r : Rank} (hc : Coherent r) {mask : Mask8} {t : SliceTarget} {named : Ci → Mask8}
    (hfill : ∀ ci, mask ci = true → ciFillSelectedDpuMask { r.sliceInfo ci with sliceTarget := t } = some (named ci))
    (h : ¬ DoSelectTarget r mask t) : Selecting r (r.setTargets mask t) mask named := by
  have htgt : ∀ ci, mask ci = true → (r.sliceInfo ci).sliceTarget = t := by
    intro ci hm
    by_contra hne
    exact h ⟨ci, hm, hne⟩
  rw [setTargets_of_selected htgt]
  refine ⟨hc, fun ci => ?_, fun ci => ⟨rfl, rfl, rfl⟩⟩
  split_ifs with hm
  · have hf := hfill ci hm
    rw [← htgt ci hm] at hf
    exact hc.target ci _ hf
  · rfl

theorem ufiSelectDpu_selecting {r : Rank} (hc : Coherent r) {ciMask : Mask8} {dpu : ℕ}
    (hr : StepReaches r (.selectDpu ciMask dpu)) :
    Selecting r (ufiSelectDpu r ciMask dpu).2.2 (selectDpuMask r ciMask dpu) fun _ => Mask8.one dpu := by
  unfold ufiSelectDpu
  by_cases h : DoSelect r (selectDpuMask r ciMask dpu) dpu
  · simp only [if_pos h]
    exact selectFrame_selecting hc (f := .selectDpu dpu) (fun _ _ => rfl) (fun _ _ _ _ => rfl) (hr h)
  · simp only [if_neg h]
    exact cached_selecting hc (fun _ _ => rfl) h

theorem ufiSelectGroup_selecting {r : Rank} (hc : Coherent r) {ciMask : Mask8} {group : ℕ}
    (hr : StepReaches r (.selectGroup ciMask group)) :
    Selecting r (ufiSelectGroup r ciMask group).2.2 (selectGroupMask r ciMask group)
      fun ci => (r.sliceInfo ci).dpusPerGroup group := by
  unfold ufiSelectGroup
  by_cases h : DoSelectTarget r (selectGroupMask r ciMask group) (.group group)
  · simp only [if_pos h]
    refine selectFrame_selecting hc (f := .selectGroup group) (fun _ _ => rfl) (fun ci c _ hg => ?_) (hr h)
    funext i
    rw [Bool.eq_iff_iff, hc.group ci group i]
    simp [Chip.exec, hg]
  · simp only [if_neg h]
    exact cached_selecting hc (fun _ _ => rfl) h

/-! ## Runs -/

/-- `DPU_DISABLED_GROUP` -/
def dpuDisabledGroup : ℕ := 1

/-- a rank as its configuration leaves it: the enabled DPUs in one group and the others in another, nothing selected yet -/
def Rank.configured (enabledDpus : Ci → Mask8) (wram : Ci → Member → ℕ → ℕ) (bus : List Exchange) : Rank where
  sliceInfo ci :=
    { (Rank.reset enabledDpus wram).sliceInfo ci with
      dpusPerGroup := fun g i =>
        decide (g = dpuEnabledGroup) && enabledDpus ci i || decide (g = dpuDisabledGroup) && !enabledDpus ci i }
  cmds _ := .empty
  data _ := 0
  chips ci :=
    { (Rank.reset enabledDpus wram).chips ci with
      group := fun i => if enabledDpus ci i then dpuEnabledGroup else dpuDisabledGroup }
  bus := bus

def Session.start (enabledDpus : Ci → Mask8) (wram : Ci → Member → ℕ → ℕ) (bus : List Exchange) : Session :=
  ⟨Rank.configured enabledDpus wram bus, fun _ => none⟩

/-- **The invariant.** -/
structure Session.Inv (s : Session) : Prop where
  coherent : Coherent s.rank
  agrees : s.Agrees
  all : ∀ ci, (s.rank.sliceInfo ci).allDpusAreEnabled = true → (s.rank.sliceInfo ci).enabledDpus = Mask8.all
  group : ∀ ci, (s.rank.sliceInfo ci).dpusPerGroup dpuEnabledGroup = (s.rank.sliceInfo ci).enabledDpus

theorem Session.start_inv (enabledDpus : Ci → Mask8) (wram : Ci → Member → ℕ → ℕ) (bus : List Exchange) :
    (Session.start enabledDpus wram bus).Inv where
  coherent :=
    { struct := fun _ => rfl
      target := fun ci m hm => by simp [Session.start, Rank.configured, Rank.reset, ciFillSelectedDpuMask] at hm
      group := fun ci g i => by
        simp only [Session.start, Rank.configured, dpuEnabledGroup, dpuDisabledGroup]
        cases enabledDpus ci i <;>
          simp only [Bool.and_true, Bool.and_false, Bool.or_false, Bool.false_or, Bool.not_true, Bool.not_false, if_true,
            Bool.false_eq_true, if_false] <;>
          exact decide_eq_true_iff.trans eq_comm
      left := fun _ => trivial }
  agrees ci m hm := absurd hm (Option.some_ne_none m).symm
  all _ h := of_decide_eq_true h
  group ci := by
    funext i
    simp only [Session.start, Rank.configured, dpuEnabledGroup, dpuDisabledGroup, Rank.reset, decide_true, Bool.true_and,
      show ¬ ((0 : ℕ) = 1) from Nat.zero_ne_one, decide_false, Bool.false_and, Bool.or_false]

theorem Session.Inv.kept {s : Session} (h : s.Inv) {r' : Rank} (hk : Kept s.rank r') :
    Session.Inv { s with rank := r' } where
  coherent := hk.coherent
  agrees ci m hm := (hk.selected ci).trans (h.agrees ci m hm)
  all ci ha := by
    obtain ⟨v, hv⟩ := hk.info ci
    simp only [hv] at ha ⊢
    exact h.all ci ha
  group ci := by
    obtain ⟨v, hv⟩ := hk.info ci
    simp only [hv]
    exact h.group ci

theorem Session.Inv.selecting {s : Session} (h : s.Inv) {r' : Rank} {mask : Mask8} {named : Ci → Mask8}
    (hs : Selecting s.rank r' mask named) : Session.Inv ⟨r', s.request mask named⟩ where
  coherent := hs.coherent
  agrees ci m hm := by
    simp only [Session.request] at hm
    rw [hs.selected ci]
    split_ifs at hm ⊢
    · exact Option.some.inj hm
    · exact h.agrees ci m hm
  all ci ha := by
    obtain ⟨h1, h2, -⟩ := hs.config ci
    exact h1.trans (h.all ci (h2.symm.trans ha))
  group ci := by
    obtain ⟨h1, -, h3⟩ := hs.config ci
    simp only [h1, h3]
    exact h.group ci

theorem ufiSelectAll_selecting {s : Session} (h : s.Inv) {ciMask : Mask8} (hr : SelectAllReaches s.rank ciMask) :
    Selecting s.rank (ufiSelectAll s.rank ciMask).2.2 (selectAllMask s.rank ciMask)
      fun ci => (s.rank.sliceInfo ci).enabledDpus := by
  obtain ⟨n, -, hc, htgt, hout, hcfg⟩ := ufiSelectAll_reached h.coherent hr
  refine ⟨hc, fun ci => ?_, hcfg⟩
  obtain ⟨-, ha, hg⟩ := hcfg ci
  split_ifs with hm
  · have ht := htgt ci hm
    unfold SelectedAll at ht
    rw [ha] at ht
    refine hc.target ci _ ?_
    cases hall : (s.rank.sliceInfo ci).allDpusAreEnabled with
    | true =>
      rw [hall, cond_true] at ht
      simp only [ciFillSelectedDpuMask, ht, h.all ci hall]
    | false =>
      rw [hall, cond_false] at ht
      simp only [ciFillSelectedDpuMask, ht, hg, h.group ci]
  · exact hout ci (by simpa using hm)

theorem step_inv {s : Session} (h : s.Inv) {c : Call} (hr : StepReaches s.rank c) : (step s c).Inv := by
  cases c with
  | selectAll mask => exact h.selecting (ufiSelectAll_selecting h hr)
  | selectDpu mask dpu => exact h.selecting (ufiSelectDpu_selecting h.coherent hr)
  | selectGroup mask group => exact h.selecting (ufiSelectGroup_selecting h.coherent hr)
  | wramWrite mask src offset len =>
    simp only [step, ufiWramWrite_stages]
    exact h.kept (stages_kept h.coherent (Call.stages_keep _) hr)
  | wramRead mask dst offset len =>
    have hk := stages_kept h.coherent (Call.stages_keep _) hr
    rw [← ufiWramRead_stages] at hk
    exact h.kept hk
  | threadBoot mask thread =>
    have hk := stages_kept h.coherent (Call.stages_keep _) hr
    simp only [Call.stages, stages, ff_return] at hk
    exact h.kept hk
  | setMramMux mask ciMuxPos =>
    simp only [step, ufiSetMramMux_stages]
    exact h.kept (stages_kept h.coherent (Call.stages_keep _) hr)

theorem run_inv {s : Session} (h : s.Inv) {calls : List Call} (hr : RunReaches s calls) : (run s calls).Inv := by
  induction calls generalizing s with
  | nil => exact h
  | cons c calls ih => exact ih (step_inv h hr.1) hr.2

/-- **The property.** The selections are those requested, the cache is the chips', and the next call, whatever it is and
however its exchanges end, sends no frame that meets another selection. -/
structure SelectionRight (s : Session) (next : Call) : Prop where
  agrees : s.Agrees
  cache : CacheAgrees s.rank
  frames : StagesRight s.requested s.rank next.stages

/-- a bus whose exchanges end as given, with no own stores of the DPUs -/
def busOf (outcomes : List Outcome) : List Exchange := outcomes.map fun o => ⟨o, []⟩

def zeroWram : Ci → Member → ℕ → ℕ := fun _ _ _ => 0

end PimOfis.Ufi
