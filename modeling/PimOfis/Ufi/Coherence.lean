/-
What the UFI calls of a rank do when the bus works: the host's cache stays that of the chips, and the WRAM changes only
where the DPUs store themselves or a WRAM frame goes.

`Rank.after n` is what time alone does to a rank over `n` exchanges: the DPUs' own stores. Every specification here has
the form "the rank is `r.after n` for the `n` exchanges the call needed, with this change", so that a caller sees the
call's own effect apart from what the DPUs did meanwhile.

Results:
- `Coherent`: the cached slice target and structure are the chip's own, and a command left in the array changes no
  selection if it is sent again;
- `ufiExecVoidFrame_spec`: one frame, sent to exactly the chips of the mask;
- `ufiSelectDpu_spec`, `ufiWramRead_spec`: selecting and reading leave the rank `Elapsed`;
- `ufiSelectAll_coherent`, `wramWriteWord_spec`: a write re-sends what is left in the array for the other chips;
- `ufiExecVoidFrame_sliceInfo`: what a call leaves in the cache, also where it fails.
-/
import Mathlib.Tactic
import PimOfis.Ufi.Rank

namespace PimOfis.Ufi

/-! ## Time -/

/-- no exchange of the bus fails -/
def Rank.BusOk (r : Rank) : Prop := ∀ e ∈ r.bus, e.outcome = .ok

/-- the DPUs' own stores during the next `n` exchanges -/
def Rank.stores (r : Rank) (n : ℕ) : List DpuWrite := (r.bus.take n).flatMap Exchange.before

/-- `n` exchanges later, as far as the DPUs' own stores go -/
def Rank.after (r : Rank) (n : ℕ) : Rank := { r with chips := ownWrites r.chips (r.stores n), bus := r.bus.drop n }

@[simp] theorem Rank.after_zero (r : Rank) : r.after 0 = r := by simp [Rank.after, Rank.stores]

theorem Rank.after_one (r : Rank) : r.after 1 = r.tick := by
  unfold Rank.after Rank.tick Rank.stores
  cases r.bus <;> simp

theorem Rank.after_after (r : Rank) (m n : ℕ) : (r.after m).after n = r.after (m + n) := by
  simp only [Rank.after, Rank.stores, List.take_add, List.flatMap_append, ownWrites_append, List.drop_drop]

theorem Rank.BusOk.after {r : Rank} (h : r.BusOk) (n : ℕ) : (r.after n).BusOk :=
  fun e he => h e (List.mem_of_mem_drop he)

/-- how the next exchange ends -/
def Rank.next (r : Rank) : Outcome := (r.bus.head?.map Exchange.outcome).getD .ok

theorem Rank.BusOk.next {r : Rank} (h : r.BusOk) : r.next = .ok := by
  unfold Rank.next
  cases hb : r.bus with
  | nil => rfl
  | cons e es => exact h e (by simp [hb])

/-- a void command that is acknowledged -/
theorem execCmd_void {r : Rank} (h : r.next = .ok) (cs : Ci → Cmd) : execCmd r cs false = (.ok, (r.after 1).send cs) := by
  unfold Rank.next at h
  simp [execCmd, h, Rank.after_one]

/-- a void command succeeds if it is acknowledged, and only then -/
theorem execCmd_ok_iff (r : Rank) (cs : Ci → Cmd) : (execCmd r cs false).1 = .ok ↔ r.next = .ok := by
  unfold Rank.next execCmd
  simp only [Bool.false_eq_true, false_and, if_false]
  split <;> simp_all

/-- a void command that reaches the chips -/
theorem execCmd_reached {r : Rank} (h : r.next ≠ .lost) (cs : Ci → Cmd) :
    (execCmd r cs false).2 = (r.after 1).send cs := by
  unfold Rank.next at h
  simp only [execCmd, Bool.false_eq_true, false_and, if_false, Rank.after_one]
  split
  · contradiction
  · rfl
  · rfl

/-! ## The cache -/

/-- sending the command once more would not change what the chip has selected or decodes -/
def Chip.Settled (c : Chip) : Cmd → Prop
  | .empty => True
  | .struct v => c.structureReg = v
  | .frame f => (c.exec f).selected = c.selected

/-- **Cache coherence.** The slice target, the structure value and the groups the host keeps for a chip are the chip's
own, and the commands left in the array are settled. -/
structure Coherent (r : Rank) : Prop where
  struct : ∀ ci, (r.chips ci).structureReg = (r.sliceInfo ci).structureValue
  target : ∀ ci m, ciFillSelectedDpuMask (r.sliceInfo ci) = some m → (r.chips ci).selected = m
  group : ∀ ci g i, (r.sliceInfo ci).dpusPerGroup g i = true ↔ (r.chips ci).group i = g
  left : ∀ ci, (r.chips ci).Settled (r.cmds ci)

theorem Chip.Settled.congr {c d : Chip} {x : Cmd} (h : c.Settled x) (h1 : d.structureReg = c.structureReg)
    (h2 : d.selected = c.selected) (h3 : d.group = c.group) : d.Settled x := by
  cases x with
  | empty => trivial
  | struct v => exact h1.trans h
  | frame f => cases f <;> simp_all [Chip.Settled, Chip.exec]

theorem Chip.run_settled {c : Chip} {x : Cmd} (h : c.Settled x) :
    (c.run x).structureReg = c.structureReg ∧ (c.run x).selected = c.selected := by
  cases x with
  | empty => exact ⟨rfl, rfl⟩
  | struct v => exact ⟨h.symm, rfl⟩
  | frame f =>
    simp only [Chip.run]
    split_ifs
    · exact ⟨by simp, h⟩
    · exact ⟨rfl, rfl⟩

theorem Coherent.after {r : Rank} (h : Coherent r) (n : ℕ) : Coherent (r.after n) where
  struct ci := (ownWrites_control _ _ ci).1.trans (h.struct ci)
  target ci m hm := (ownWrites_control _ _ ci).2.1.trans (h.target ci m hm)
  group ci g i := by
    simp only [Rank.after, (ownWrites_control _ _ ci).2.2.1]
    exact h.group ci g i
  left ci :=
    have hw := ownWrites_control r.chips (r.stores n) ci
    (h.left ci).congr hw.1 hw.2.1 hw.2.2.1

/-- a rank as a reset leaves it (`ci_exec_reset_cmd`): no target, every DPU in group 0, nothing left in the array -/
def Rank.reset (enabledDpus : Ci → Mask8) (wram : Ci → Member → ℕ → ℕ) : Rank where
  sliceInfo ci :=
    { structureValue := 0, sliceTarget := .none, hostMuxMramState := fun _ => false
      dpusPerGroup := fun g => if g = 0 then Mask8.all else fun _ => false
      enabledDpus := enabledDpus ci, allDpusAreEnabled := decide (enabledDpus ci = Mask8.all) }
  cmds _ := .empty
  data _ := 0
  chips ci :=
    { structureReg := 0, selected := fun _ => false, group := fun _ => 0, wram := wram ci
      wavegen := fun _ _ => 1, boots := fun _ _ => 0 }
  bus := []

theorem Rank.reset_coherent (enabledDpus : Ci → Mask8) (wram : Ci → Member → ℕ → ℕ) :
    Coherent (Rank.reset enabledDpus wram) where
  struct _ := rfl
  target ci m hm := by simp [Rank.reset, ciFillSelectedDpuMask] at hm
  group ci g i := by
    simp only [Rank.reset]
    split_ifs with h
    · simp [h, Mask8.all]
    · simp [eq_comm, h]
  left _ := trivial

theorem Rank.reset_busOk (enabledDpus : Ci → Mask8) (wram : Ci → Member → ℕ → ℕ) :
    (Rank.reset enabledDpus wram).BusOk := by
  intro e he
  simp [Rank.reset] at he

/-! ## One frame to the chips of a mask -/

/-- own stores and a change of structure registers commute -/
theorem ownWrites_setReg (chips : Ci → Chip) (mask : Mask8) (s : Ci → ℕ) (ws : List DpuWrite) :
    ownWrites (fun ci => if mask ci then { chips ci with structureReg := s ci } else chips ci) ws =
      fun ci => if mask ci then { ownWrites chips ws ci with structureReg := s ci } else ownWrites chips ws ci := by
  induction ws generalizing chips with
  | nil => rfl
  | cons w ws ih =>
    have hw : ownWrite (fun ci => if mask ci then { chips ci with structureReg := s ci } else chips ci) w =
        fun ci => if mask ci then { ownWrite chips w ci with structureReg := s ci } else ownWrite chips w ci := by
      funext ci
      unfold ownWrite
      split_ifs <;> simp_all
    simp only [ownWrites, List.foldl_cons] at ih ⊢
    rw [hw, ih]

/-- the chips of the mask have decoded `s` as their structure, host and chip alike -/
def Rank.structured (r : Rank) (mask : Mask8) (s : Ci → ℕ) : Rank :=
  { r with
    sliceInfo := fun ci => if mask ci then { r.sliceInfo ci with structureValue := s ci } else r.sliceInfo ci
    chips := fun ci => if mask ci then { r.chips ci with structureReg := s ci } else r.chips ci }

/-- the exchanges `ufi_exec_write_structure` needs -/
def structureRounds (r : Rank) (mask : Mask8) (s : ℕ) : ℕ := if DoWriteStructure r mask s then 1 else 0

/-- the array after `ufi_exec_write_structure`: an exchange empties it for the chips outside the mask -/
def structureCmds (r : Rank) (mask : Mask8) (s : ℕ) : Ci → Cmd :=
  if DoWriteStructure r mask s then ciPrepareMask mask (.struct s) else r.cmds

theorem structured_of_decoded {r : Rank} (hs : ∀ ci, (r.chips ci).structureReg = (r.sliceInfo ci).structureValue)
    {mask : Mask8} {s : ℕ} (h : ¬ DoWriteStructure r mask s) : r.structured mask (fun _ => s) = r := by
  have he : ∀ ci, mask ci = true → (r.sliceInfo ci).structureValue = s := by
    intro ci hm
    by_contra hne
    exact h ⟨ci, hm, hne⟩
  unfold Rank.structured
  congr 1
  · funext ci
    split_ifs with hm
    · simp [← he ci hm]
    · rfl
  · funext ci
    split_ifs with hm
    · simp [← he ci hm, ← hs ci]
    · rfl

/-- the exchange with the structure, if there is one, reaches the chips -/
def StructureReaches (r : Rank) (mask : Mask8) (s : ℕ) : Prop := DoWriteStructure r mask s → r.next ≠ .lost

instance (r : Rank) (mask : Mask8) (s : ℕ) : Decidable (StructureReaches r mask s) := by
  unfold StructureReaches; infer_instance

/-- an exchange with the structure that reaches the chips makes the cache true, acknowledged or not -/
theorem ufiExecWriteStructure_reached {r : Rank}
    (hs : ∀ ci, (r.chips ci).structureReg = (r.sliceInfo ci).structureValue) {mask : Mask8} {s : ℕ}
    (h : StructureReaches r mask s) :
    ∃ data, (ufiExecWriteStructure r mask s).2 =
      { (r.after (structureRounds r mask s)).structured mask fun _ => s with
        cmds := structureCmds r mask s
        data := data } := by
  by_cases hw : DoWriteStructure r mask s
  · refine ⟨fun _ => 0, ?_⟩
    simp only [ufiExecWriteStructure, structureCmds, structureRounds, if_pos hw]
    rw [execCmd_reached (by exact h hw)]
    simp only [Rank.send, Rank.after, Rank.stores, Rank.setStructures, Rank.structured, ciPrepareMask, Rank.mk.injEq,
      true_and, and_true]
    refine ⟨funext fun ci => ?_, funext fun ci => ?_⟩
    · split_ifs <;> rfl
    · split_ifs <;> rfl
  · refine ⟨r.data, ?_⟩
    simp only [ufiExecWriteStructure, structureCmds, structureRounds, if_neg hw, Rank.after_zero]
    have hr := structured_of_decoded hs hw
    have hi : r.setStructures mask (fun _ => s) = r := by
      calc r.setStructures mask (fun _ => s) = { r with sliceInfo := (r.structured mask fun _ => s).sliceInfo } := rfl
        _ = r := by rw [hr]
    rw [hi, hr]

/-- `ufi_exec_write_structure` succeeds if its exchange is acknowledged, and only then -/
theorem ufiExecWriteStructure_ok_iff (r : Rank) (mask : Mask8) (s : ℕ) :
    (ufiExecWriteStructure r mask s).1 = .ok ↔ (DoWriteStructure r mask s → r.next = .ok) := by
  by_cases hw : DoWriteStructure r mask s
  · simp only [ufiExecWriteStructure, hw, if_true, true_implies]
    exact execCmd_ok_iff _ _
  · simp [ufiExecWriteStructure, hw]

theorem ufiExecWriteStructure_spec {r : Rank} (hb : r.BusOk)
    (hs : ∀ ci, (r.chips ci).structureReg = (r.sliceInfo ci).structureValue) (mask : Mask8) (s : ℕ) :
    ∃ data, ufiExecWriteStructure r mask s =
      (.ok, { (r.after (structureRounds r mask s)).structured mask fun _ => s with
        cmds := structureCmds r mask s
        data := data }) := by
  have hr : StructureReaches r mask s := fun _ hn => by simp [hb.next] at hn
  obtain ⟨data, h⟩ := ufiExecWriteStructure_reached hs hr
  refine ⟨data, Prod.ext ?_ h⟩
  exact (ufiExecWriteStructure_ok_iff r mask s).mpr fun _ => hb.next

/-- the chips of the mask have executed the frame under its structure; nothing was addressed to the others -/
def Rank.framed (r : Rank) (mask : Mask8) (f : Frame) : Rank :=
  { r.structured mask fun _ => f.struct with
    cmds := ciPrepareMask mask (.frame f)
    data := fun ci => if mask ci then ({ r.chips ci with structureReg := f.struct }).answer (.frame f) else 0
    chips := fun ci => if mask ci then ({ r.chips ci with structureReg := f.struct }).exec f else r.chips ci }

/-- the structure is acknowledged, so that the frame is sent, and the frame reaches the chips -/
def FrameReaches (r : Rank) (mask : Mask8) (s : ℕ) : Prop :=
  (DoWriteStructure r mask s → r.next = .ok) ∧ (r.after (structureRounds r mask s)).next ≠ .lost

instance (r : Rank) (mask : Mask8) (s : ℕ) : Decidable (FrameReaches r mask s) := by
  unfold FrameReaches; infer_instance

/-- a frame that reaches the chips goes to exactly those of the mask, whatever they decoded before; the array is emptied
for the others -/
theorem ufiExecVoidFrame_reached {r : Rank} (hs : ∀ ci, (r.chips ci).structureReg = (r.sliceInfo ci).structureValue)
    {mask : Mask8} {f : Frame} (hr : FrameReaches r mask f.struct) :
    (ufiExecVoidFrame r mask f.struct f).2 = (r.after (structureRounds r mask f.struct + 1)).framed mask f := by
  have hstruct : StructureReaches r mask f.struct := fun hw hn => by simp [hr.1 hw] at hn
  obtain ⟨data, h⟩ := ufiExecWriteStructure_reached hs hstruct
  have hok := (ufiExecWriteStructure_ok_iff r mask f.struct).mpr hr.1
  unfold ufiExecVoidFrame
  rw [show ufiExecWriteStructure r mask f.struct = (.ok, _) from Prod.ext hok h, ff_ok]
  simp only
  rw [execCmd_reached (by exact hr.2), ← Rank.after_after]
  generalize r.after (structureRounds r mask f.struct) = q
  simp only [Rank.send, Rank.framed, Rank.after, Rank.stores, Rank.structured, ownWrites_setReg, ciPrepareMask,
    Rank.mk.injEq, true_and, and_true]
  refine ⟨funext fun ci => ?_, funext fun ci => ?_⟩
  · split_ifs
    · rfl
    · rfl
  · split_ifs
    · simp [Chip.run]
    · rfl

/-- **One frame.** On a working bus `ufi_exec_void_frame` succeeds. -/
theorem ufiExecVoidFrame_spec {r : Rank} (hb : r.BusOk)
    (hs : ∀ ci, (r.chips ci).structureReg = (r.sliceInfo ci).structureValue) (mask : Mask8) (f : Frame) :
    ufiExecVoidFrame r mask f.struct f =
      (.ok, (r.after (structureRounds r mask f.struct + 1)).framed mask f) := by
  have hr : FrameReaches r mask f.struct := ⟨fun _ => hb.next, by simp [(hb.after _).next]⟩
  refine Prod.ext ?_ (ufiExecVoidFrame_reached hs hr)
  obtain ⟨data, h⟩ := ufiExecWriteStructure_spec hb hs mask f.struct
  unfold ufiExecVoidFrame
  rw [h, ff_ok, execCmd_void (by exact (hb.after _).next)]

/-! ## Coherence is kept -/

/-- a second execution of a frame selects nothing else -/
theorem Chip.exec_exec_selected (c : Chip) (f : Frame) : ((c.exec f).exec f).selected = (c.exec f).selected := by
  cases f <;> rfl

theorem Rank.framed_coherent {r : Rank} {mask : Mask8} {f : Frame}
    (hs : ∀ ci, (r.chips ci).structureReg = (r.sliceInfo ci).structureValue)
    (hin : ∀ ci m, mask ci = true → ciFillSelectedDpuMask (r.sliceInfo ci) = some m →
      ((r.chips ci).exec f).selected = m)
    (hout : ∀ ci m, mask ci = false → ciFillSelectedDpuMask (r.sliceInfo ci) = some m → (r.chips ci).selected = m)
    (hg : ∀ ci g i, (r.sliceInfo ci).dpusPerGroup g i = true ↔ (r.chips ci).group i = g) :
    Coherent (r.framed mask f) where
  struct ci := by
    simp only [Rank.framed, Rank.structured]
    split_ifs
    · simp
    · exact hs ci
  target ci m hm := by
    simp only [Rank.framed, Rank.structured] at hm ⊢
    split_ifs at hm ⊢ with hc
    · rw [← hin ci m hc hm]
      cases f <;> rfl
    · exact hout ci m (by simpa using hc) hm
  group ci g i := by
    simp only [Rank.framed, Rank.structured]
    split_ifs
    · simpa using hg ci g i
    · exact hg ci g i
  left ci := by
    simp only [Rank.framed, ciPrepareMask]
    split_ifs
    · exact Chip.exec_exec_selected _ f
    · trivial

/-- sending the array once more keeps the cache right -/
theorem Coherent.send {r : Rank} (h : Coherent r) : Coherent (r.send r.cmds) where
  struct ci := (Chip.run_settled (h.left ci)).1.trans (h.struct ci)
  target ci m hm := (Chip.run_settled (h.left ci)).2.trans (h.target ci m hm)
  group ci g i := by
    simp only [Rank.send, Chip.run_group]
    exact h.group ci g i
  left ci := (h.left ci).congr (Chip.run_settled (h.left ci)).1 (Chip.run_settled (h.left ci)).2 (by simp [Rank.send])

/-! ## Selecting and reading -/

/-- the frame changes nothing on a DPU -/
def Frame.Reads : Frame → Prop
  | .selectDpu _ => True
  | .selectGroup _ => True
  | .selectAll => True
  | .wramReadWord _ => True
  | _ => False

/-- **Elapsed time.** After `n` exchanges the DPUs have done what they do themselves, and nothing else. -/
structure Elapsed (r r' : Rank) (n : ℕ) : Prop where
  bus : r'.bus = r.bus.drop n
  wram : ∀ ci, (r'.chips ci).wram = ((r.after n).chips ci).wram
  wavegen : ∀ ci, (r'.chips ci).wavegen = (r.chips ci).wavegen
  boots : ∀ ci, (r'.chips ci).boots = (r.chips ci).boots
  enabled : ∀ ci, (r'.sliceInfo ci).enabledDpus = (r.sliceInfo ci).enabledDpus
  all : ∀ ci, (r'.sliceInfo ci).allDpusAreEnabled = (r.sliceInfo ci).allDpusAreEnabled
  mux : ∀ ci, (r'.sliceInfo ci).hostMuxMramState = (r.sliceInfo ci).hostMuxMramState

theorem Elapsed.refl (r : Rank) : Elapsed r r 0 where
  bus := by simp
  wram ci := by simp
  wavegen _ := rfl
  boots _ := rfl
  enabled _ := rfl
  all _ := rfl
  mux _ := rfl

theorem Elapsed.trans {a b c : Rank} {m n : ℕ} (h1 : Elapsed a b m) (h2 : Elapsed b c n) : Elapsed a c (m + n) where
  bus := by rw [h2.bus, h1.bus, List.drop_drop]
  wram ci := by
    have hst : b.stores n = (a.after m).stores n := by simp [Rank.stores, Rank.after, h1.bus]
    rw [h2.wram ci, ← Rank.after_after]
    calc (ownWrites b.chips (b.stores n) ci).wram
        = (ownWrites (a.after m).chips (b.stores n) ci).wram := ownWrites_wram_congr _ _ _ h1.wram ci
      _ = (((a.after m).after n).chips ci).wram := by rw [hst]; rfl
  wavegen ci := (h2.wavegen ci).trans (h1.wavegen ci)
  boots ci := (h2.boots ci).trans (h1.boots ci)
  enabled ci := (h2.enabled ci).trans (h1.enabled ci)
  all ci := (h2.all ci).trans (h1.all ci)
  mux ci := (h2.mux ci).trans (h1.mux ci)

theorem Elapsed.busOk {a b : Rank} {n : ℕ} (h : Elapsed a b n) (hb : a.BusOk) : b.BusOk := by
  intro e he
  rw [h.bus] at he
  exact hb e (List.mem_of_mem_drop he)

theorem Elapsed.after (r : Rank) (n : ℕ) : Elapsed r (r.after n) n where
  bus := rfl
  wram _ := rfl
  wavegen ci := (ownWrites_control _ _ ci).2.2.2.1
  boots ci := (ownWrites_control _ _ ci).2.2.2.2
  enabled _ := rfl
  all _ := rfl
  mux _ := rfl

theorem Elapsed.framed (r : Rank) (mask : Mask8) {f : Frame} (hf : f.Reads) : Elapsed r (r.framed mask f) 0 where
  bus := by simp [Rank.framed, Rank.structured]
  wram ci := by
    simp only [Rank.framed, Rank.after_zero]
    split_ifs
    · cases f <;> first | rfl | exact hf.elim
    · rfl
  wavegen ci := by
    simp only [Rank.framed]
    split_ifs
    · cases f <;> first | rfl | exact hf.elim
    · rfl
  boots ci := by
    simp only [Rank.framed]
    split_ifs
    · cases f <;> first | rfl | exact hf.elim
    · rfl
  enabled ci := by simp only [Rank.framed, Rank.structured]; split_ifs <;> rfl
  all ci := by simp only [Rank.framed, Rank.structured]; split_ifs <;> rfl
  mux ci := by simp only [Rank.framed, Rank.structured]; split_ifs <;> rfl

theorem Elapsed.setTargets (r : Rank) (mask : Mask8) (t : SliceTarget) : Elapsed r (r.setTargets mask t) 0 where
  bus := by simp [Rank.setTargets]
  wram ci := by simp [Rank.setTargets]
  wavegen _ := rfl
  boots _ := rfl
  enabled ci := by simp only [Rank.setTargets]; split_ifs <;> rfl
  all ci := by simp only [Rank.setTargets]; split_ifs <;> rfl
  mux ci := by simp only [Rank.setTargets]; split_ifs <;> rfl

theorem setTargets_of_selected {r : Rank} {mask : Mask8} {t : SliceTarget}
    (h : ∀ ci, mask ci = true → (r.sliceInfo ci).sliceTarget = t) : r.setTargets mask t = r := by
  unfold Rank.setTargets
  congr 1
  funext ci
  split_ifs with hm
  · simp [← h ci hm]
  · rfl

/-- **Selecting a DPU.** On a working bus `ufi_select_dpu` succeeds, clears the chips of the mask whose DPU is disabled,
and leaves the others with that DPU as their target; a selection that is sent empties the array for all other chips, and
where none is needed nothing happens at all. -/
theorem ufiSelectDpu_spec {r : Rank} (hb : r.BusOk) (hc : Coherent r) (ciMask : Mask8) (d : ℕ) :
    ∃ r' n, ufiSelectDpu r ciMask d = (.ok, selectDpuMask r ciMask d, r') ∧ Elapsed r r' n ∧ Coherent r' ∧
      (∀ ci, selectDpuMask r ciMask d ci = true → (r'.sliceInfo ci).sliceTarget = .dpu d) ∧
      (DoSelect r (selectDpuMask r ciMask d) d →
        ∀ ci, selectDpuMask r ciMask d ci = false → r'.cmds ci = .empty) ∧
      (¬ DoSelect r (selectDpuMask r ciMask d) d → r' = r) := by
  unfold ufiSelectDpu
  set mask := selectDpuMask r ciMask d with hmask
  by_cases h : DoSelect r mask d
  · simp only [if_pos h]
    set r1 := r.setTargets mask (.dpu d) with hr1
    have hs : ∀ ci, (r1.chips ci).structureReg = (r1.sliceInfo ci).structureValue := by
      intro ci
      rw [hr1]
      simp only [Rank.setTargets]
      split_ifs <;> exact hc.struct ci
    rw [show ciSelectDpuStruct = (Frame.selectDpu d).struct from rfl, ufiExecVoidFrame_spec (by exact hb) hs]
    set n := structureRounds r1 mask (Frame.selectDpu d).struct + 1
    have hca := hc.after n
    have htr : ∀ ci, mask ci = true → ((r1.after n).sliceInfo ci).sliceTarget = .dpu d := by
      intro ci hm
      simp [Rank.after, hr1, Rank.setTargets, hm]
    have hfr : ∀ ci, mask ci = false → (r1.after n).sliceInfo ci = r.sliceInfo ci := by
      intro ci hm
      simp [Rank.after, hr1, Rank.setTargets, hm]
    refine ⟨(r1.after n).framed mask (.selectDpu d), n, rfl, ?_, ?_, ?_, ?_, fun hn => absurd h hn⟩
    · have := ((Elapsed.setTargets r mask (.dpu d)).trans (Elapsed.after r1 n)).trans
        (Elapsed.framed (r1.after n) mask (f := .selectDpu d) trivial)
      simpa using this
    · refine Rank.framed_coherent ?_ ?_ ?_ ?_
      · intro ci
        exact (ownWrites_control _ _ ci).1.trans (hs ci)
      · intro ci m hm hfill
        simp only [ciFillSelectedDpuMask, htr ci hm, Option.some.injEq] at hfill
        exact hfill
      · intro ci m hm hfill
        rw [hfr ci hm] at hfill
        exact hca.target ci m hfill
      · intro ci g i
        have := hca.group ci g i
        cases hm : mask ci <;> simpa [Rank.after, hr1, Rank.setTargets, Rank.stores, hm] using this
    · intro ci hm
      have := htr ci hm
      simpa [Rank.framed, Rank.structured, hm] using this
    · intro _ ci hm
      simp [Rank.framed, ciPrepareMask, hm]
  · have htgt : ∀ ci, mask ci = true → (r.sliceInfo ci).sliceTarget = .dpu d := by
      intro ci hm
      by_contra hne
      exact h ⟨ci, hm, hne⟩
    simp only [if_neg h, setTargets_of_selected htgt]
    exact ⟨r, 0, rfl, Elapsed.refl r, hc, htgt, fun hy => absurd hy h, fun _ => rfl⟩

theorem find_one (i : Member) : (List.finRange 8).find? (Mask8.one i.val) = some i := by
  revert i
  decide

/-- **Reading a word.** With DPU `d` the target of every chip of the mask, `ufi_wram_read` of one word puts the DPUs'
words, as they are when the frame arrives, into the buffers of these chips and leaves the other buffers as they were. -/
theorem ufiWramRead_spec {r : Rank} (hb : r.BusOk) (hc : Coherent r) (mask : Mask8) (dst : Ci → ℕ → ℕ) (offset : ℕ)
    (d : Member) (ht : ∀ ci, mask ci = true → (r.sliceInfo ci).sliceTarget = .dpu d.val) :
    ∃ r' n, ufiWramRead r mask dst offset 1 =
        (.ok, fun ci a => if mask ci = true ∧ a = 0 then (r'.chips ci).wram d (offset % 2 ^ 16) else dst ci a, r') ∧
      Elapsed r r' n ∧ Coherent r' := by
  have he := ufiExecVoidFrame_spec hb hc.struct mask (.wramReadWord (offset % 2 ^ 16))
  set n := structureRounds r mask (Frame.wramReadWord (offset % 2 ^ 16)).struct + 1
  have hca := hc.after n
  refine ⟨(r.after n).framed mask (.wramReadWord (offset % 2 ^ 16)), n, ?_, ?_, ?_⟩
  · simp only [ufiWramRead, Nat.add_zero]
    rw [show ciWramReadWordStruct = (Frame.wramReadWord (offset % 2 ^ 16)).struct from rfl, he]
    simp only [Prod.mk.injEq, true_and, and_true]
    funext ci a
    split_ifs with h
    · have hsel : ((r.after n).chips ci).selected = Mask8.one d.val :=
        hca.target ci _ (by simp [ciFillSelectedDpuMask, Rank.after, ht ci h.1])
      simp [Rank.framed, h.1, Chip.answer, Frame.struct, hsel, find_one, Chip.exec]
    · rfl
  · exact (Elapsed.after r n).trans (Elapsed.framed _ mask (f := .wramReadWord (offset % 2 ^ 16)) trivial)
  · exact Rank.framed_coherent hca.struct (fun ci m _ => hca.target ci m) (fun ci m _ => hca.target ci m) hca.group

/-! ## Selecting all DPUs -/

/-- the exchanges `ufi_exec_write_structures` needs -/
def structuresRounds (r : Rank) (mask : Mask8) (structs : Ci → Option ℕ) : ℕ :=
  if (∃ ci, staleStructures r mask structs ci = true) then 1 else 0

/-- `ufi_exec_write_structures` gives every chip of the mask its structure; the array is not touched -/
theorem ufiExecWriteStructures_spec {r : Rank}
    (hs : ∀ ci, (r.chips ci).structureReg = (r.sliceInfo ci).structureValue) (mask : Mask8) (structs : Ci → Option ℕ)
    (hm : ∀ ci, (structs ci).isSome = true → mask ci = true)
    (hb : (∃ ci, staleStructures r mask structs ci = true) → r.next = .ok) :
    ∃ data, ufiExecWriteStructures r mask structs =
      (.ok, { (r.after (structuresRounds r mask structs)).structured (fun ci => (structs ci).isSome)
        (fun ci => (structs ci).getD 0) with
        data := data }) := by
  have hinfo : (r.setStructures (staleStructures r mask structs) fun ci => (structs ci).getD 0).sliceInfo =
      (r.structured (fun ci => (structs ci).isSome) fun ci => (structs ci).getD 0).sliceInfo := by
    funext ci
    have hmask := hm ci
    simp only [Rank.setStructures, Rank.structured, staleStructures]
    obtain hst | ⟨s, hst⟩ := Option.eq_none_or_eq_some (structs ci)
    · simp [hst]
    · by_cases hne : (r.sliceInfo ci).structureValue = s
      · simp [hst, ← hne]
      · simp [hne, hmask (by simp [hst]), hst]
  by_cases h : ∃ ci, staleStructures r mask structs ci = true
  · refine ⟨fun _ => 0, ?_⟩
    simp only [ufiExecWriteStructures, structuresRounds, if_pos h]
    rw [execCmd_void (by exact hb h)]
    simp only [Prod.mk.injEq, true_and]
    have e : ((r.setStructures (staleStructures r mask structs) fun ci => (structs ci).getD 0).after 1).sliceInfo =
        ((r.after 1).structured (fun ci => (structs ci).isSome) fun ci => (structs ci).getD 0).sliceInfo := hinfo
    unfold Rank.send
    rw [Rank.mk.injEq]
    refine ⟨e, rfl, funext fun ci => ?_, funext fun ci => ?_, rfl⟩
    · obtain hst | ⟨s, hst⟩ := Option.eq_none_or_eq_some (structs ci) <;> simp [hst, structCmd, Chip.answer]
    · simp only [Rank.structured, Rank.after, Rank.setStructures, Rank.stores]
      obtain hst | ⟨s, hst⟩ := Option.eq_none_or_eq_some (structs ci) <;> simp [hst, structCmd, Chip.run]
  · refine ⟨r.data, ?_⟩
    simp only [ufiExecWriteStructures, structuresRounds, if_neg h, Rank.after_zero, Prod.mk.injEq, true_and]
    rw [Rank.mk.injEq]
    refine ⟨hinfo, rfl, rfl, funext fun ci => ?_, rfl⟩
    simp only [Rank.setStructures, Rank.structured]
    obtain hst | ⟨s, hst⟩ := Option.eq_none_or_eq_some (structs ci)
    · simp [hst]
    · have hmask := hm ci (by simp [hst])
      have hval : (r.sliceInfo ci).structureValue = s := by
        by_contra hne
        exact h ⟨ci, by simp [staleStructures, hmask, hst, hne]⟩
      simp [hst, ← hval, ← hs ci]

/-- the target a chip of the mask has after `ufi_select_all` -/
def SelectedAll (info : SliceInfo) : Prop :=
  info.sliceTarget = bif info.allDpusAreEnabled then .all else .group dpuEnabledGroup

theorem allSelected_config (r : Rank) (ciMask : Mask8) (ci : Ci) :
    ((r.allSelected ciMask).sliceInfo ci).structureValue = (r.sliceInfo ci).structureValue ∧
      ((r.allSelected ciMask).sliceInfo ci).enabledDpus = (r.sliceInfo ci).enabledDpus ∧
      ((r.allSelected ciMask).sliceInfo ci).allDpusAreEnabled = (r.sliceInfo ci).allDpusAreEnabled ∧
      ((r.allSelected ciMask).sliceInfo ci).dpusPerGroup = (r.sliceInfo ci).dpusPerGroup := by
  simp only [Rank.allSelected]
  cases selectAllKind r ciMask ci <;> exact ⟨rfl, rfl, rfl, rfl⟩

theorem allSelected_target {r : Rank} {ciMask : Mask8} {ci : Ci} (hm : selectAllMask r ciMask ci = true) :
    SelectedAll ((r.allSelected ciMask).sliceInfo ci) := by
  simp only [selectAllMask, Bool.and_eq_true, decide_eq_true_eq] at hm
  have hk : selectAllKind r ciMask ci = selectAllCase (r.sliceInfo ci) := by simp [selectAllKind, hm.1]
  simp only [SelectedAll, Rank.allSelected]
  rw [hk] at hm ⊢
  unfold selectAllCase at hm ⊢
  split_ifs at hm ⊢ <;> simp_all

theorem selectAllStructs_mask {r : Rank} {ciMask : Mask8} {ci : Ci} (h : (selectAllStructs r ciMask ci).isSome = true) :
    selectAllMask r ciMask ci = true := by
  have hcm : selectAllKind r ciMask ci ≠ .keep → ciMask ci = true := by
    intro hk
    by_contra hf
    exact hk (by simp [selectAllKind, hf])
  unfold selectAllStructs at h
  cases hk : selectAllKind r ciMask ci <;> simp_all [selectAllMask]

theorem Chip.run_frame {c : Chip} {f : Frame} (h : c.structureReg = f.struct) : c.run (.frame f) = c.exec f := if_pos h

/-- what one chip has selected after the frame `ufi_select_all` sends it, `c` being the chip when the frame arrives -/
theorem allSelected_chip {r : Rank} (hc : Coherent r) (ciMask : Mask8) (ci : Ci) {c : Chip}
    (hsel : c.selected = (r.chips ci).selected) (hgrp : c.group = (r.chips ci).group)
    (hreg : c.structureReg = (selectAllStructs r ciMask ci).getD (r.chips ci).structureReg) :
    (c.run ((r.allSelected ciMask).cmds ci)).structureReg = c.structureReg ∧
      (∀ m, ciFillSelectedDpuMask ((r.allSelected ciMask).sliceInfo ci) = some m →
        (c.run ((r.allSelected ciMask).cmds ci)).selected = m) ∧
      (c.run ((r.allSelected ciMask).cmds ci)).Settled ((r.allSelected ciMask).cmds ci) := by
  cases hk : selectAllKind r ciMask ci with
  | all =>
    have hcmd : (r.allSelected ciMask).cmds ci = .frame .selectAll := by simp only [Rank.allSelected, hk]
    have htgt : ((r.allSelected ciMask).sliceInfo ci).sliceTarget = .all := by simp only [Rank.allSelected, hk]
    have hss : selectAllStructs r ciMask ci = some ciSelectAllStruct := by simp only [selectAllStructs, hk]
    have hst : c.structureReg = Frame.selectAll.struct := by rw [hreg, hss, Option.getD_some, Frame.struct]
    rw [hcmd, Chip.run_frame hst]
    refine ⟨Chip.exec_reg c _, fun m hm => ?_, Chip.exec_exec_selected c _⟩
    simpa only [ciFillSelectedDpuMask, htgt, Option.some.injEq, Chip.exec] using hm
  | group =>
    have hcmd : (r.allSelected ciMask).cmds ci = .frame (.selectGroup dpuEnabledGroup) := by
      simp only [Rank.allSelected, hk]
    have htgt : ((r.allSelected ciMask).sliceInfo ci).sliceTarget = .group dpuEnabledGroup := by
      simp only [Rank.allSelected, hk]
    have hss : selectAllStructs r ciMask ci = some ciSelectGroupStruct := by simp only [selectAllStructs, hk]
    have hst : c.structureReg = (Frame.selectGroup dpuEnabledGroup).struct := by
      rw [hreg, hss, Option.getD_some, Frame.struct]
    rw [hcmd, Chip.run_frame hst]
    refine ⟨Chip.exec_reg c _, fun m hm => ?_, Chip.exec_exec_selected c _⟩
    simp only [ciFillSelectedDpuMask, htgt, (allSelected_config r ciMask ci).2.2.2, Option.some.injEq] at hm
    funext i
    have := hc.group ci dpuEnabledGroup i
    rw [← hm, Bool.eq_iff_iff, this]
    simp [Chip.exec, hgrp]
  | keep =>
    have hcmd : (r.allSelected ciMask).cmds ci = r.cmds ci := by simp only [Rank.allSelected, hk]
    have hinfo : (r.allSelected ciMask).sliceInfo ci = r.sliceInfo ci := by simp only [Rank.allSelected, hk]
    have hss : selectAllStructs r ciMask ci = none := by simp only [selectAllStructs, hk]
    have hst : c.structureReg = (r.chips ci).structureReg := by rw [hreg, hss, Option.getD_none]
    have hset : c.Settled (r.cmds ci) := (hc.left ci).congr hst hsel hgrp
    obtain ⟨h1, h2⟩ := Chip.run_settled hset
    rw [hcmd, hinfo]
    exact ⟨h1, fun m hm => h2.trans (hsel.trans (hc.target ci m hm)), hset.congr h1 h2 (Chip.run_group c _)⟩
  | drop =>
    have hcmd : (r.allSelected ciMask).cmds ci = .empty := by simp only [Rank.allSelected, hk]
    have hinfo : (r.allSelected ciMask).sliceInfo ci = r.sliceInfo ci := by simp only [Rank.allSelected, hk]
    rw [hcmd, hinfo, Chip.run_empty]
    exact ⟨rfl, fun m hm => hsel.trans (hc.target ci m hm), trivial⟩

/-- the frame of a chip that is not in the mask, which is left from before, selects nothing else -/
theorem allSelected_unselected {r : Rank} (hc : Coherent r) {ciMask : Mask8} {ci : Ci} {c : Chip}
    (hsel : c.selected = (r.chips ci).selected) (hgrp : c.group = (r.chips ci).group)
    (hreg : c.structureReg = (selectAllStructs r ciMask ci).getD (r.chips ci).structureReg)
    (hm : selectAllMask r ciMask ci = false) : (c.run ((r.allSelected ciMask).cmds ci)).selected = c.selected := by
  cases hk : selectAllKind r ciMask ci with
  | keep =>
    have hss : selectAllStructs r ciMask ci = none := by simp only [selectAllStructs, hk]
    rw [hss, Option.getD_none] at hreg
    simp only [Rank.allSelected, hk]
    exact (Chip.run_settled ((hc.left ci).congr hreg hsel hgrp)).2
  | drop => simp only [Rank.allSelected, hk, Chip.run_empty]
  | all =>
    have hs : (selectAllStructs r ciMask ci).isSome = true := by simp [selectAllStructs, hk]
    exact absurd (selectAllStructs_mask hs) (by simp [hm])
  | group =>
    have hs : (selectAllStructs r ciMask ci).isSome = true := by simp [selectAllStructs, hk]
    exact absurd (selectAllStructs_mask hs) (by simp [hm])

theorem staleStructures_allSelected (r : Rank) (ciMask mask : Mask8) (structs : Ci → Option ℕ) :
    staleStructures (r.allSelected ciMask) mask structs = staleStructures r mask structs := by
  funext ci
  simp only [staleStructures, (allSelected_config r ciMask ci).1]

/-- where a selection is sent, its structures are acknowledged and its frames reach the chips -/
def SelectAllReaches (r : Rank) (ciMask : Mask8) : Prop :=
  (∃ ci, (selectAllStructs r ciMask ci).isSome = true) →
    ((∃ ci, staleStructures r (selectAllMask r ciMask) (selectAllStructs r ciMask) ci = true) → r.next = .ok) ∧
      (r.after (structuresRounds r (selectAllMask r ciMask) (selectAllStructs r ciMask))).next ≠ .lost

instance (r : Rank) (ciMask : Mask8) : Decidable (SelectAllReaches r ciMask) := by
  unfold SelectAllReaches; infer_instance

/-- a selection of all DPUs that reaches the chips: those of the mask have all, or the enabled group, as their target, and
no other selection moves. A command left for a chip that already had its target is sent again. -/
theorem ufiSelectAll_reached {r : Rank} (hc : Coherent r) {ciMask : Mask8} (hr : SelectAllReaches r ciMask) :
    ∃ n, (ufiSelectAll r ciMask).2.2.bus = r.bus.drop n ∧ Coherent (ufiSelectAll r ciMask).2.2 ∧
      (∀ ci, selectAllMask r ciMask ci = true → SelectedAll ((ufiSelectAll r ciMask).2.2.sliceInfo ci)) ∧
      (∀ ci, selectAllMask r ciMask ci = false →
        ((ufiSelectAll r ciMask).2.2.chips ci).selected = (r.chips ci).selected) ∧
      ∀ ci, ((ufiSelectAll r ciMask).2.2.sliceInfo ci).enabledDpus = (r.sliceInfo ci).enabledDpus ∧
        ((ufiSelectAll r ciMask).2.2.sliceInfo ci).allDpusAreEnabled = (r.sliceInfo ci).allDpusAreEnabled ∧
        ((ufiSelectAll r ciMask).2.2.sliceInfo ci).dpusPerGroup = (r.sliceInfo ci).dpusPerGroup := by
  set r1 := r.allSelected ciMask with hr1
  by_cases h : ∃ ci, (selectAllStructs r ciMask ci).isSome = true
  · obtain ⟨hack, hframe⟩ := hr h
    set n := structuresRounds r1 (selectAllMask r ciMask) (selectAllStructs r ciMask) with hn
    have hn' : n = structuresRounds r (selectAllMask r ciMask) (selectAllStructs r ciMask) := by
      simp only [hn, hr1, structuresRounds, staleStructures_allSelected]
    obtain ⟨data, he⟩ := ufiExecWriteStructures_spec (r := r1)
      (fun ci => (hc.struct ci).trans (allSelected_config r ciMask ci).1.symm) (selectAllMask r ciMask)
      (selectAllStructs r ciMask) (fun ci hs => selectAllStructs_mask hs)
      (fun hs => hack (by rwa [hr1, staleStructures_allSelected] at hs))
    set q : Rank := { (r1.after n).structured (fun ci => (selectAllStructs r ciMask ci).isSome)
      (fun ci => (selectAllStructs r ciMask ci).getD 0) with data := data } with hq
    have hqb : q.next ≠ .lost := by
      rw [← hn'] at hframe
      exact hframe
    have hinfo : ∀ ci, (q.sliceInfo ci).sliceTarget = (r1.sliceInfo ci).sliceTarget ∧
        (q.sliceInfo ci).dpusPerGroup = (r1.sliceInfo ci).dpusPerGroup ∧
        (q.sliceInfo ci).enabledDpus = (r1.sliceInfo ci).enabledDpus ∧
        (q.sliceInfo ci).allDpusAreEnabled = (r1.sliceInfo ci).allDpusAreEnabled ∧
        (q.sliceInfo ci).structureValue = (selectAllStructs r ciMask ci).getD (r.chips ci).structureReg := by
      intro ci
      have h1 := (hc.struct ci).trans (allSelected_config r ciMask ci).1.symm
      obtain hst | ⟨s, hst⟩ := Option.eq_none_or_eq_some (selectAllStructs r ciMask ci) <;>
        simp [hq, Rank.structured, Rank.after, hst, h1, ← hr1]
    have hchip : ∀ ci, ((q.after 1).chips ci).selected = (r.chips ci).selected ∧
        ((q.after 1).chips ci).group = (r.chips ci).group ∧
        ((q.after 1).chips ci).structureReg = (selectAllStructs r ciMask ci).getD (r.chips ci).structureReg := by
      intro ci
      have h1 := ownWrites_control q.chips (q.stores 1) ci
      have h2 := ownWrites_control r.chips (r1.stores n) ci
      have h3 : (q.chips ci).selected = (ownWrites r.chips (r1.stores n) ci).selected ∧
          (q.chips ci).group = (ownWrites r.chips (r1.stores n) ci).group ∧
          (q.chips ci).structureReg =
            (selectAllStructs r ciMask ci).getD (ownWrites r.chips (r1.stores n) ci).structureReg := by
        obtain hst | ⟨s, hst⟩ := Option.eq_none_or_eq_some (selectAllStructs r ciMask ci) <;>
          simp [hq, Rank.structured, Rank.after, hst, hr1, Rank.allSelected]
      refine ⟨h1.2.1.trans (h3.1.trans h2.2.1), h1.2.2.1.trans (h3.2.1.trans h2.2.2.1), h1.1.trans ?_⟩
      rw [h3.2.2, h2.1]
    have hend := fun ci => allSelected_chip hc ciMask ci (hchip ci).1 (hchip ci).2.1 (hchip ci).2.2
    have hcall : (ufiSelectAll r ciMask).2.2 = (q.after 1).send q.cmds := by
      simp only [ufiSelectAll, if_pos h, ufiExecVoidFrames, ← hr1, he, ff_ok]
      exact execCmd_reached hqb q.cmds
    rw [hcall]
    refine ⟨n + 1, ?_, ?_, ?_, ?_, ?_⟩
    · simp [Rank.send, Rank.after, hq, Rank.structured, hr1, Rank.allSelected, List.drop_drop]
    · refine ⟨fun ci => ?_, fun ci m hm => ?_, fun ci g i => ?_, fun ci => (hend ci).2.2⟩
      · exact (hend ci).1.trans ((hchip ci).2.2.trans (hinfo ci).2.2.2.2.symm)
      · refine (hend ci).2.1 m ?_
        simp only [ciFillSelectedDpuMask] at hm ⊢
        rw [← (hinfo ci).1, ← (hinfo ci).2.1]
        exact hm
      · have h1 : (((q.after 1).send q.cmds).chips ci).group = (r.chips ci).group :=
          (Chip.run_group _ _).trans (hchip ci).2.1
        have h2 : (((q.after 1).send q.cmds).sliceInfo ci).dpusPerGroup = (r.sliceInfo ci).dpusPerGroup :=
          (hinfo ci).2.1.trans (allSelected_config r ciMask ci).2.2.2
        rw [h1, h2]
        exact hc.group ci g i
    · intro ci hm
      have := allSelected_target hm
      unfold SelectedAll at this ⊢
      exact (hinfo ci).1.trans (this.trans (by rw [← (hinfo ci).2.2.2.1]; rfl))
    · intro ci hm
      exact (allSelected_unselected hc (hchip ci).1 (hchip ci).2.1 (hchip ci).2.2 hm).trans (hchip ci).1
    · intro ci
      exact ⟨(hinfo ci).2.2.1.trans (allSelected_config r ciMask ci).2.1,
        (hinfo ci).2.2.2.1.trans (allSelected_config r ciMask ci).2.2.1,
        (hinfo ci).2.1.trans (allSelected_config r ciMask ci).2.2.2⟩
  · have hcall : (ufiSelectAll r ciMask).2.2 = r1 := by simp only [ufiSelectAll, if_neg h, ← hr1]
    rw [hcall]
    refine ⟨0, rfl, ?_, fun ci => allSelected_target, fun ci _ => rfl, fun ci => (allSelected_config r ciMask ci).2⟩
    have hkind : ∀ ci, selectAllKind r ciMask ci = .keep ∨ selectAllKind r ciMask ci = .drop := by
      intro ci
      have hn : ¬ (selectAllStructs r ciMask ci).isSome = true := fun hs => h ⟨ci, hs⟩
      unfold selectAllStructs at hn
      cases hk : selectAllKind r ciMask ci <;> simp_all
    have hsame : ∀ ci, r1.sliceInfo ci = r.sliceInfo ci := by
      intro ci
      simp only [hr1, Rank.allSelected]
      rcases hkind ci with hk | hk <;> rw [hk]
    refine ⟨fun ci => ?_, fun ci m hm => ?_, fun ci g i => ?_, fun ci => ?_⟩
    · rw [hsame ci]
      exact hc.struct ci
    · rw [hsame ci] at hm
      exact hc.target ci m hm
    · rw [hsame ci]
      exact hc.group ci g i
    · simp only [hr1, Rank.allSelected]
      rcases hkind ci with hk | hk <;> rw [hk]
      · exact hc.left ci
      · trivial

/-- **Selecting all DPUs.** On a working bus `ufi_select_all` succeeds and drops only chips without an enabled DPU. -/
theorem ufiSelectAll_spec {r : Rank} (hb : r.BusOk) (hc : Coherent r) (ciMask : Mask8) :
    ∃ r', ufiSelectAll r ciMask = (.ok, selectAllMask r ciMask, r') ∧ (∃ n, r'.bus = r.bus.drop n) ∧ Coherent r' ∧
      (∀ ci, selectAllMask r ciMask ci = true → SelectedAll (r'.sliceInfo ci)) ∧
      (∀ ci, (r'.sliceInfo ci).enabledDpus = (r.sliceInfo ci).enabledDpus ∧
        (r'.sliceInfo ci).allDpusAreEnabled = (r.sliceInfo ci).allDpusAreEnabled) := by
  have hr : SelectAllReaches r ciMask := fun _ => ⟨fun _ => hb.next, by simp [(hb.after _).next]⟩
  obtain ⟨n, h1, h2, h3, -, h5⟩ := ufiSelectAll_reached hc hr
  have hok : (ufiSelectAll r ciMask).1 = .ok ∧ (ufiSelectAll r ciMask).2.1 = selectAllMask r ciMask := by
    unfold ufiSelectAll
    split_ifs with h
    · obtain ⟨data, he⟩ := ufiExecWriteStructures_spec (r := r.allSelected ciMask)
        (fun ci => (hc.struct ci).trans (allSelected_config r ciMask ci).1.symm) (selectAllMask r ciMask)
        (selectAllStructs r ciMask) (fun ci hs => selectAllStructs_mask hs) (fun _ => hb.next)
      have hsent : (ufiExecVoidFrames (r.allSelected ciMask) (selectAllMask r ciMask) (selectAllStructs r ciMask)).1 =
          .ok := by
        unfold ufiExecVoidFrames
        rw [he, ff_ok]
        exact (execCmd_ok_iff _ _).mpr (hb.after _).next
      simp [hsent]
    · exact ⟨rfl, rfl⟩
  exact ⟨_, Prod.ext hok.1 (Prod.ext hok.2 rfl), ⟨n, h1⟩, h2, h3, fun ci => ⟨(h5 ci).1, (h5 ci).2.1⟩⟩

/-! ## Writing -/

/-- the array `ufi_wram_write` sends for one word: the frames of the mask, and what is left for the other chips -/
def writtenCmds (r : Rank) (mask : Mask8) (word : Ci → ℕ) (address : ℕ) : Ci → Cmd := fun ci =>
  if mask ci then .frame (.wramWriteWord (word ci) address)
  else structureCmds r mask (ciWramWriteWordStruct address) ci

/-- the rank when that array is sent -/
def Rank.written (r : Rank) (mask : Mask8) (word : Ci → ℕ) (address : ℕ) : Rank :=
  { (r.after (structureRounds r mask (ciWramWriteWordStruct address))).structured mask
      (fun _ => ciWramWriteWordStruct address) with
    cmds := writtenCmds r mask word address }

theorem Coherent.structured {r : Rank} (h : Coherent r) (mask : Mask8) (s : ℕ) :
    (∀ ci, ((r.structured mask fun _ => s).chips ci).structureReg =
        ((r.structured mask fun _ => s).sliceInfo ci).structureValue) ∧
      (∀ ci m, ciFillSelectedDpuMask ((r.structured mask fun _ => s).sliceInfo ci) = some m →
        ((r.structured mask fun _ => s).chips ci).selected = m) ∧
      (∀ ci g i, ((r.structured mask fun _ => s).sliceInfo ci).dpusPerGroup g i = true ↔
        ((r.structured mask fun _ => s).chips ci).group i = g) := by
  refine ⟨fun ci => ?_, fun ci m hm => ?_, fun ci g i => ?_⟩
  · simp only [Rank.structured]
    split_ifs
    · rfl
    · exact h.struct ci
  · simp only [Rank.structured] at hm ⊢
    split_ifs at hm ⊢ <;> exact h.target ci m hm
  · simp only [Rank.structured]
    split_ifs <;> exact h.group ci g i

theorem Rank.written_coherent {r : Rank} (hc : Coherent r) (mask : Mask8) (word : Ci → ℕ) (address : ℕ) :
    Coherent (r.written mask word address) := by
  set k := structureRounds r mask (ciWramWriteWordStruct address)
  obtain ⟨h1, h2, h3⟩ := (hc.after k).structured mask (ciWramWriteWordStruct address)
  refine ⟨h1, h2, h3, fun ci => ?_⟩
  cases hm : mask ci with
  | true =>
    have hcm : (r.written mask word address).cmds ci = .frame (.wramWriteWord (word ci) address) := by
      simp [Rank.written, writtenCmds, hm]
    rw [hcm]
    rfl
  | false =>
    have hch : (r.written mask word address).chips ci = (r.after k).chips ci := by
      simp [Rank.written, Rank.structured, hm, k]
    have hcm : (r.written mask word address).cmds ci = structureCmds r mask (ciWramWriteWordStruct address) ci := by
      simp [Rank.written, writtenCmds, hm]
    rw [hch, hcm]
    unfold structureCmds
    split_ifs
    · simp [ciPrepareMask, hm, Chip.Settled]
    · exact (hc.after k).left ci

/-- **Writing a word.** One round of `ufi_wram_write` on a working bus sends `writtenCmds` to the chips, unless it finds
a command left for a chip without a target. -/
theorem wramWriteWord_spec {r : Rank} (hb : r.BusOk) (hc : Coherent r) (mask : Mask8) (word : Ci → ℕ) (address : ℕ) :
    ∃ data, wramWriteWord r mask word address =
      if (∃ ci, writtenCmds r mask word address ci ≠ .empty ∧ ciFillSelectedDpuMask (r.sliceInfo ci) = none) then
        (.internal, { r.written mask word address with data := data })
      else (.ok, ((r.written mask word address).after 1).send (writtenCmds r mask word address)) := by
  obtain ⟨data, he⟩ := ufiExecWriteStructure_spec hb hc.struct mask (ciWramWriteWordStruct address)
  refine ⟨data, ?_⟩
  unfold wramWriteWord
  rw [he, ff_ok]
  set k := structureRounds r mask (ciWramWriteWordStruct address)
  have hcmds : wramWriteFrames { (r.after k).structured mask (fun _ => ciWramWriteWordStruct address) with
      cmds := structureCmds r mask (ciWramWriteWordStruct address), data := data } mask word address =
      writtenCmds r mask word address := rfl
  have hfill : ∀ ci, ciFillSelectedDpuMask (((r.after k).structured mask
      (fun _ => ciWramWriteWordStruct address)).sliceInfo ci) = ciFillSelectedDpuMask (r.sliceInfo ci) := by
    intro ci
    simp only [Rank.structured]
    split_ifs <;> rfl
  simp only [hcmds]
  set r2 : Rank := { (r.after k).structured mask (fun _ => ciWramWriteWordStruct address) with
    cmds := writtenCmds r mask word address, data := data }
  have hb2 : r2.BusOk := by exact hb.after k
  have hc2 : Coherent (r2.after 1) := by
    have := (Rank.written_coherent hc mask word address).after 1
    exact ⟨this.struct, this.target, this.group, this.left⟩
  split_ifs with h
  · simp only [execCmd, true_and]
    rw [if_pos]
    · rfl
    · obtain ⟨ci, h1, h2⟩ := h
      exact ⟨ci, h1, (hfill ci).trans h2⟩
  · simp only [execCmd, true_and]
    rw [if_neg]
    · have hnext : (r2.bus.head?.map Exchange.outcome).getD .ok = .ok := hb2.next
      rw [hnext]
      simp only [← Rank.after_one]
      rw [if_neg]
      · rfl
      · rintro ⟨ci, hne, i, hi⟩
        have hsome : ciFillSelectedDpuMask (r2.sliceInfo ci) ≠ none := by
          intro hn
          exact h ⟨ci, hne, (hfill ci).symm.trans hn⟩
        obtain ⟨m, hm⟩ := Option.ne_none_iff_exists'.mp hsome
        have hsel : (((r2.after 1).send r2.cmds).chips ci).selected = m := hc2.send.target ci m hm
        apply hi
        have h1 : (((r2.after 1).send (writtenCmds r mask word address)).sliceInfo ci) = r2.sliceInfo ci := rfl
        rw [h1, hm]
        have h2 : ((((r2.after 1).send (writtenCmds r mask word address)).chips ci)).selected = m := hsel
        rw [h2]
        rfl
    · rintro ⟨ci, h1, h2⟩
      exact h ⟨ci, h1, (hfill ci).symm.trans h2⟩

/-! ## The cache after a call -/

theorem execCmd_sliceInfo (r : Rank) (cs : Ci → Cmd) (addSelectMask : Bool) :
    (execCmd r cs addSelectMask).2.sliceInfo = r.sliceInfo := by
  unfold execCmd
  split
  · rfl
  · split
    · rfl
    · rfl
    · split <;> rfl

theorem ufiExecWriteStructure_sliceInfo (r : Rank) (mask : Mask8) (s : ℕ) :
    (ufiExecWriteStructure r mask s).2.sliceInfo = (r.setStructures mask fun _ => s).sliceInfo := by
  unfold ufiExecWriteStructure
  dsimp only
  split_ifs
  · exact execCmd_sliceInfo _ _ _
  · rfl

theorem ff_sliceInfo {x : Status × Rank} {k : Rank → Status × Rank} (h : ∀ r, (k r).2.sliceInfo = r.sliceInfo) :
    (ff x k).2.sliceInfo = x.2.sliceInfo := by
  unfold ff
  split
  · exact h _
  · rfl

/-- a frame leaves its structure in the cache for the chips of the mask, also where it fails -/
theorem ufiExecVoidFrame_sliceInfo (r : Rank) (mask : Mask8) (s : ℕ) (f : Frame) :
    (ufiExecVoidFrame r mask s f).2.sliceInfo = (r.setStructures mask fun _ => s).sliceInfo := by
  unfold ufiExecVoidFrame
  refine (ff_sliceInfo ?_).trans (ufiExecWriteStructure_sliceInfo r mask s)
  exact fun r1 => execCmd_sliceInfo _ _ _

theorem ufiSelectDpu_sliceInfo {r : Rank} {ciMask : Mask8} {d : ℕ} {ci : Ci} (h : selectDpuMask r ciMask d ci = false) :
    (ufiSelectDpu r ciMask d).2.2.sliceInfo ci = r.sliceInfo ci := by
  have htarget : (r.setTargets (selectDpuMask r ciMask d) (.dpu d)).sliceInfo ci = r.sliceInfo ci := by
    simp only [Rank.setTargets, h, Bool.false_eq_true, if_false]
  by_cases hdo : DoSelect r (selectDpuMask r ciMask d) d
  · simp only [ufiSelectDpu, if_pos hdo]
    rw [ufiExecVoidFrame_sliceInfo, Rank.setStructures]
    simp only [h, Bool.false_eq_true, if_false]
    exact htarget
  · simp only [ufiSelectDpu, if_neg hdo]
    exact htarget

theorem ufiWramRead_sliceInfo (r : Rank) (mask : Mask8) (dst : Ci → ℕ → ℕ) (offset : ℕ) :
    (ufiWramRead r mask dst offset 1).2.2.sliceInfo = (r.setStructures mask fun _ => ciWramReadWordStruct).sliceInfo := by
  have hframe := ufiExecVoidFrame_sliceInfo r mask ciWramReadWordStruct (.wramReadWord ((offset + 0) % 2 ^ 16))
  simp only [ufiWramRead]
  split
  · next heq => rw [← hframe, heq]
  · next heq => rw [← hframe, heq]

theorem ufiWramWrite_sliceInfo (r : Rank) (mask : Mask8) (src : Ci → ℕ → ℕ) (offset : ℕ) :
    (ufiWramWrite r mask src offset 1).2.sliceInfo =
      (r.setStructures mask fun _ => ciWramWriteWordStruct (offset % 2 ^ 16)).sliceInfo := by
  simp only [ufiWramWrite, ff_ok, Nat.add_zero, wramWriteWord]
  refine (ff_sliceInfo ?_).trans (ufiExecWriteStructure_sliceInfo r mask _)
  exact fun r1 => execCmd_sliceInfo _ _ _

end PimOfis.Ufi
