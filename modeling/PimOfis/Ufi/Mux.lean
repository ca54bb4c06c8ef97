/-
Setting the MRAM mux and booting threads (`ufi_write_dma_ctrl`, `ufi_write_dma_ctrl_datas`, `ufi_clear_dma_ctrl`,
`ufi_set_mram_mux` and `ufi_thread_boot` of `ufi.c`), on a working bus.

`ufi_write_dma_ctrl_datas` writes the frames of the chips in its mask into the array and leaves the others as they are, so
a command left there by an earlier call is sent again if no structure had to be written before. Where what is left is
`Quiet` that does no harm to muxes and run states.

Results:
- `ufiSetMramMux_spec`: the mux registers of the pairs with a selected DPU are set, on the chips of the mask and on no
  other;
- `ufiThreadBoot_spec`: the selected DPUs of the chips of the mask boot the thread once;
- `ufiSelectAll_quiet`: selecting moves no mux and boots nothing.
-/
import Mathlib.Tactic
import PimOfis.Ufi.Coherence

namespace PimOfis.Ufi

/-! ## Model -/

/-- `ufi_write_dma_ctrl` -/
def ufiWriteDmaCtrl (r : Rank) (ciMask : Mask8) (address data : ℕ) : Status × Rank :=
  ufiExecVoidFrame r ciMask ciDmaCtrlWriteStruct (.dmaCtrlWrite address data)

/-- the frames of `ufi_write_dma_ctrl_datas`, written into `rank->cmds` in place -/
def dmaCtrlFrames (r : Rank) (ciMask : Mask8) (address : ℕ) (datas : Ci → ℕ) : Ci → Cmd := fun ci =>
  if ciMask ci then .frame (.dmaCtrlWrite address (datas ci)) else r.cmds ci

/-- `ufi_write_dma_ctrl_datas` -/
def ufiWriteDmaCtrlDatas (r : Rank) (ciMask : Mask8) (address : ℕ) (datas : Ci → ℕ) : Status × Rank :=
  ff (ufiExecWriteStructure r ciMask ciDmaCtrlWriteStruct) fun r1 =>
    let r2 := { r1 with cmds := dmaCtrlFrames r1 ciMask address datas }
    execCmd r2 r2.cmds false

/-- `ufi_clear_dma_ctrl` -/
def ufiClearDmaCtrl (r : Rank) (ciMask : Mask8) : Status × Rank :=
  ufiExecVoidFrame r ciMask ciDmaCtrlClearStruct .dmaCtrlClear

/-- `mux_value` -/
def muxValue (ciMuxPos : Mask8) : Ci → ℕ := fun ci => if ciMuxPos ci then 0 else 1

/-- `ufi_set_mram_mux` -/
def ufiSetMramMux (r : Rank) (ciMask ciMuxPos : Mask8) : Status × Rank :=
  ff (ufiWriteDmaCtrlDatas r ciMask 0x80 (muxValue ciMuxPos)) fun r1 =>
    ff (ufiWriteDmaCtrl r1 ciMask 0x81 0) fun r2 =>
      ff (ufiWriteDmaCtrlDatas r2 ciMask 0x82 (muxValue ciMuxPos)) fun r3 =>
        ff (ufiWriteDmaCtrlDatas r3 ciMask 0x84 (muxValue ciMuxPos)) fun r4 => ufiClearDmaCtrl r4 ciMask

/-- `ufi_thread_boot` without `previous` -/
def ufiThreadBoot (r : Rank) (ciMask : Mask8) (thread : ℕ) : Status × Rank :=
  ufiExecVoidFrame r ciMask ciThreadBootStruct (.threadBoot thread)

/-! ## Muxes and run states -/

/-- the command moves no mux and boots no thread -/
def Cmd.Quiet : Cmd → Prop
  | .frame (.dmaCtrlWrite _ _) => False
  | .frame (.threadBoot _) => False
  | _ => True

theorem Chip.run_quiet (c : Chip) {x : Cmd} (h : x.Quiet) : (c.run x).wavegen = c.wavegen ∧ (c.run x).boots = c.boots := by
  cases x with
  | empty => exact ⟨rfl, rfl⟩
  | struct v => exact ⟨rfl, rfl⟩
  | frame f =>
    simp only [Chip.run]
    split_ifs
    · cases f <;> first | exact ⟨rfl, rfl⟩ | exact h.elim
    · exact ⟨rfl, rfl⟩

/-- the frame selects nothing -/
def Frame.KeepsSelection (f : Frame) : Prop := ∀ c : Chip, (c.exec f).selected = c.selected

/-- a chip executes one frame after another -/
def Chip.execAll (c : Chip) (fs : List Frame) : Chip := fs.foldl Chip.exec c

/-- **What a call did.** The chips of the mask have executed their frames; no other chip has been touched, apart from the
DPUs' own stores. -/
structure Acted (r r' : Rank) (mask : Mask8) (fs : List (Ci → Frame)) : Prop where
  keeps : ∀ f ∈ fs, ∀ ci, (f ci).KeepsSelection
  bus : ∃ n, r'.bus = r.bus.drop n
  coherent : Coherent r'
  selected : ∀ ci, (r'.chips ci).selected = (r.chips ci).selected
  wavegen : ∀ ci, (r'.chips ci).wavegen =
    if mask ci then ((r.chips ci).execAll (fs.map fun f => f ci)).wavegen else (r.chips ci).wavegen
  boots : ∀ ci, (r'.chips ci).boots =
    if mask ci then ((r.chips ci).execAll (fs.map fun f => f ci)).boots else (r.chips ci).boots
  info : ∀ ci, ∃ v, r'.sliceInfo ci = { r.sliceInfo ci with structureValue := v }
  left : ∀ ci, mask ci = false → r'.cmds ci = .empty ∨ r'.cmds ci = r.cmds ci

theorem Acted.busOk {r r' : Rank} {mask : Mask8} {fs : List (Ci → Frame)} (h : Acted r r' mask fs) (hb : r.BusOk) : r'.BusOk := by
  obtain ⟨n, hn⟩ := h.bus
  intro e he
  rw [hn] at he
  exact hb e (List.mem_of_mem_drop he)

/-- what a frame does to muxes and run states depends on these and on the selection alone -/
theorem Chip.exec_congr {c d : Chip} (f : Frame) (h1 : d.selected = c.selected) (h2 : d.wavegen = c.wavegen)
    (h3 : d.boots = c.boots) : (d.exec f).wavegen = (c.exec f).wavegen ∧ (d.exec f).boots = (c.exec f).boots := by
  cases f <;> simp only [Chip.exec, h1, h2, h3, and_self]

theorem Chip.execAll_selected {c : Chip} {fs : List Frame} (h : ∀ f ∈ fs, f.KeepsSelection) :
    (c.execAll fs).selected = c.selected := by
  induction fs generalizing c with
  | nil => rfl
  | cons f fs ih =>
    exact (ih (c := c.exec f) fun g hg => h g (List.mem_cons_of_mem _ hg)).trans (h f List.mem_cons_self c)

theorem Chip.execAll_congr {c d : Chip} {fs : List Frame} (h : ∀ f ∈ fs, f.KeepsSelection)
    (h1 : d.selected = c.selected) (h2 : d.wavegen = c.wavegen) (h3 : d.boots = c.boots) :
    (d.execAll fs).wavegen = (c.execAll fs).wavegen ∧ (d.execAll fs).boots = (c.execAll fs).boots := by
  induction fs generalizing c d with
  | nil => exact ⟨h2, h3⟩
  | cons f fs ih =>
    obtain ⟨e2, e3⟩ := Chip.exec_congr f h1 h2 h3
    have hf := h f List.mem_cons_self
    exact ih (fun g hg => h g (List.mem_cons_of_mem _ hg)) ((hf d).trans (h1.trans (hf c).symm)) e2 e3

/-- one call after another on the same chips -/
theorem Acted.trans {r r1 r2 : Rank} {mask : Mask8} {fs gs : List (Ci → Frame)} (h1 : Acted r r1 mask fs)
    (h2 : Acted r1 r2 mask gs) : Acted r r2 mask (fs ++ gs) := by
  have hfs : ∀ ci, ∀ f ∈ fs.map (fun f => f ci), f.KeepsSelection := by
    intro ci f hf
    obtain ⟨g, hg, rfl⟩ := List.mem_map.mp hf
    exact h1.keeps g hg ci
  have hgs : ∀ ci, ∀ f ∈ gs.map (fun f => f ci), f.KeepsSelection := by
    intro ci f hf
    obtain ⟨g, hg, rfl⟩ := List.mem_map.mp hf
    exact h2.keeps g hg ci
  have happ : ∀ ci, (r.chips ci).execAll ((fs ++ gs).map fun f => f ci) =
      ((r.chips ci).execAll (fs.map fun f => f ci)).execAll (gs.map fun f => f ci) := by
    intro ci
    rw [List.map_append, Chip.execAll, List.foldl_append]
    rfl
  have hstep : ∀ ci, mask ci = true →
      ((r1.chips ci).execAll (gs.map fun f => f ci)).wavegen =
        (((r.chips ci).execAll (fs.map fun f => f ci)).execAll (gs.map fun f => f ci)).wavegen ∧
      ((r1.chips ci).execAll (gs.map fun f => f ci)).boots =
        (((r.chips ci).execAll (fs.map fun f => f ci)).execAll (gs.map fun f => f ci)).boots := by
    intro ci hm
    refine Chip.execAll_congr (hgs ci) ?_ ?_ ?_
    · rw [h1.selected, Chip.execAll_selected (hfs ci)]
    · rw [h1.wavegen, if_pos hm]
    · rw [h1.boots, if_pos hm]
  refine ⟨fun f hf => ?_, ?_, h2.coherent, fun ci => (h2.selected ci).trans (h1.selected ci), fun ci => ?_, fun ci => ?_,
    fun ci => ?_, fun ci hm => ?_⟩
  · rcases List.mem_append.mp hf with hf | hf
    · exact h1.keeps f hf
    · exact h2.keeps f hf
  · obtain ⟨m, hm⟩ := h1.bus
    obtain ⟨n, hn⟩ := h2.bus
    exact ⟨m + n, by rw [hn, hm, List.drop_drop]⟩
  · rw [h2.wavegen, happ]
    split_ifs with hm
    · exact (hstep ci hm).1
    · rw [h1.wavegen, if_neg hm]
  · rw [h2.boots, happ]
    split_ifs with hm
    · exact (hstep ci hm).2
    · rw [h1.boots, if_neg hm]
  · obtain ⟨v, hv⟩ := h1.info ci
    obtain ⟨w, hw⟩ := h2.info ci
    exact ⟨w, by rw [hw, hv]⟩
  · rcases h2.left ci hm with h | h
    · exact .inl h
    · rw [h]
      exact h1.left ci hm

/-- **One frame.** -/
theorem ufiExecVoidFrame_acted {r : Rank} (hb : r.BusOk) (hc : Coherent r) (mask : Mask8) {f : Frame}
    (hf : f.KeepsSelection) :
    ∃ r', ufiExecVoidFrame r mask f.struct f = (.ok, r') ∧ Acted r r' mask [fun _ => f] ∧
      ∀ ci, mask ci = false → r'.cmds ci = .empty := by
  refine ⟨_, ufiExecVoidFrame_spec hb hc.struct mask f, ?_, fun ci hm => ?_⟩
  · set n := structureRounds r mask f.struct + 1
    have hca := hc.after n
    have hown := fun ci => ownWrites_control r.chips (r.stores n) ci
    have hchip : ∀ ci, (((r.after n).framed mask f).chips ci) =
        if mask ci then ({ (r.after n).chips ci with structureReg := f.struct }).exec f else (r.after n).chips ci :=
      fun _ => rfl
    have hexec : ∀ ci, (({ (r.after n).chips ci with structureReg := f.struct } : Chip).exec f).wavegen =
        ((r.chips ci).exec f).wavegen ∧ (({ (r.after n).chips ci with structureReg := f.struct } : Chip).exec f).boots =
        ((r.chips ci).exec f).boots :=
      fun ci => Chip.exec_congr f (hown ci).2.1 (hown ci).2.2.2.1 (hown ci).2.2.2.2
    refine ⟨fun g hg ci => ?_, ⟨n, rfl⟩, ?_, fun ci => ?_, fun ci => ?_, fun ci => ?_, fun ci => ?_, fun ci hm => ?_⟩
    · rw [List.mem_singleton.mp hg]
      exact hf
    · refine Rank.framed_coherent hca.struct (fun ci m _ hm => ?_) (fun ci m _ => hca.target ci m) hca.group
      exact (hf _).trans (hca.target ci m hm)
    · rw [hchip]
      split_ifs
      · exact (hf _).trans (hown ci).2.1
      · exact (hown ci).2.1
    · rw [hchip]
      split_ifs
      · exact (hexec ci).1
      · exact (hown ci).2.2.2.1
    · rw [hchip]
      split_ifs
      · exact (hexec ci).2
      · exact (hown ci).2.2.2.2
    · simp only [Rank.framed, Rank.structured, Rank.after]
      split_ifs
      · exact ⟨_, rfl⟩
      · exact ⟨_, rfl⟩
    · exact .inl (by simp [Rank.framed, ciPrepareMask, hm])
  · simp [Rank.framed, ciPrepareMask, hm]

/-- a frame that moves muxes is decoded under the structure of its chip, whatever its data -/
theorem dmaCtrlWrite_keeps (address data : ℕ) : (Frame.dmaCtrlWrite address data).KeepsSelection := fun _ => rfl

/-- the rank when `ufi_write_dma_ctrl_datas` sends its array -/
def Rank.dmaWritten (r : Rank) (mask : Mask8) (address : ℕ) (datas : Ci → ℕ) : Rank :=
  { (r.after (structureRounds r mask ciDmaCtrlWriteStruct)).structured mask fun _ => ciDmaCtrlWriteStruct with
    cmds := fun ci =>
      if mask ci then .frame (.dmaCtrlWrite address (datas ci)) else structureCmds r mask ciDmaCtrlWriteStruct ci }

theorem Rank.dmaWritten_coherent {r : Rank} (hc : Coherent r) (mask : Mask8) (address : ℕ) (datas : Ci → ℕ) :
    Coherent (r.dmaWritten mask address datas) := by
  set k := structureRounds r mask ciDmaCtrlWriteStruct
  obtain ⟨h1, h2, h3⟩ := (hc.after k).structured mask ciDmaCtrlWriteStruct
  refine ⟨h1, h2, h3, fun ci => ?_⟩
  cases hm : mask ci with
  | true =>
    have hcm : (r.dmaWritten mask address datas).cmds ci = .frame (.dmaCtrlWrite address (datas ci)) := by
      simp [Rank.dmaWritten, hm]
    rw [hcm]
    rfl
  | false =>
    have hch : (r.dmaWritten mask address datas).chips ci = (r.after k).chips ci := by
      simp [Rank.dmaWritten, Rank.structured, hm, k]
    have hcm : (r.dmaWritten mask address datas).cmds ci = structureCmds r mask ciDmaCtrlWriteStruct ci := by
      simp [Rank.dmaWritten, hm]
    rw [hch, hcm]
    unfold structureCmds
    split_ifs
    · simp [ciPrepareMask, hm, Chip.Settled]
    · exact (hc.after k).left ci

/-- **One frame with its own data for each chip.** -/
theorem ufiWriteDmaCtrlDatas_acted {r : Rank} (hb : r.BusOk) (hc : Coherent r) (mask : Mask8) (address : ℕ)
    (datas : Ci → ℕ) (hq : ∀ ci, mask ci = false → (r.cmds ci).Quiet) :
    ∃ r', ufiWriteDmaCtrlDatas r mask address datas = (.ok, r') ∧
      Acted r r' mask [fun ci => .dmaCtrlWrite address (datas ci)] := by
  obtain ⟨data, hs⟩ := ufiExecWriteStructure_spec hb hc.struct mask ciDmaCtrlWriteStruct
  set k := structureRounds r mask ciDmaCtrlWriteStruct with hk
  set w : Rank := { r.dmaWritten mask address datas with data := data } with hw
  have hwc : Coherent w :=
    have h := Rank.dmaWritten_coherent hc mask address datas
    ⟨h.struct, h.target, h.group, h.left⟩
  have hwb : w.BusOk := hb.after k
  have hcall : ufiWriteDmaCtrlDatas r mask address datas = (.ok, (w.after 1).send w.cmds) := by
    unfold ufiWriteDmaCtrlDatas
    rw [hs, ff_ok]
    exact execCmd_void hwb.next w.cmds
  refine ⟨_, hcall, ?_⟩
  have hown1 := fun ci => ownWrites_control r.chips (r.stores k) ci
  have hown2 := fun ci => ownWrites_control w.chips (w.stores 1) ci
  -- the chip when its command arrives
  have hchip : ∀ ci, ((w.after 1).chips ci).selected = (r.chips ci).selected ∧
      ((w.after 1).chips ci).wavegen = (r.chips ci).wavegen ∧ ((w.after 1).chips ci).boots = (r.chips ci).boots ∧
      (mask ci = true → ((w.after 1).chips ci).structureReg = ciDmaCtrlWriteStruct) := by
    intro ci
    have hstruct : (w.chips ci).selected = ((r.after k).chips ci).selected ∧
        (w.chips ci).wavegen = ((r.after k).chips ci).wavegen ∧ (w.chips ci).boots = ((r.after k).chips ci).boots ∧
        (mask ci = true → (w.chips ci).structureReg = ciDmaCtrlWriteStruct) := by
      simp only [hw, Rank.dmaWritten, Rank.structured, ← hk]
      split_ifs with hm
      · exact ⟨rfl, rfl, rfl, fun _ => rfl⟩
      · exact ⟨rfl, rfl, rfl, fun h => absurd h hm⟩
    exact ⟨(hown2 ci).2.1.trans (hstruct.1.trans (hown1 ci).2.1),
      (hown2 ci).2.2.2.1.trans (hstruct.2.1.trans (hown1 ci).2.2.2.1),
      (hown2 ci).2.2.2.2.trans (hstruct.2.2.1.trans (hown1 ci).2.2.2.2), fun hm => (hown2 ci).1.trans (hstruct.2.2.2 hm)⟩
  have hin : ∀ ci, mask ci = true → ((w.after 1).chips ci).run (w.cmds ci) =
      ((w.after 1).chips ci).exec (.dmaCtrlWrite address (datas ci)) := by
    intro ci hm
    have hcm : w.cmds ci = .frame (.dmaCtrlWrite address (datas ci)) := by simp [hw, Rank.dmaWritten, hm]
    rw [hcm]
    exact Chip.run_frame ((hchip ci).2.2.2 hm)
  have hout : ∀ ci, mask ci = false → w.cmds ci = .empty ∨ w.cmds ci = r.cmds ci := by
    intro ci hm
    have hcm : w.cmds ci = structureCmds r mask ciDmaCtrlWriteStruct ci := by simp [hw, Rank.dmaWritten, hm]
    rw [hcm, structureCmds]
    split_ifs
    · exact .inl (by simp [ciPrepareMask, hm])
    · exact .inr rfl
  have hquiet : ∀ ci, mask ci = false → (w.cmds ci).Quiet := by
    intro ci hm
    rcases hout ci hm with h | h
    · rw [h]
      trivial
    · rw [h]
      exact hq ci hm
  refine ⟨fun g hg ci => ?_, ⟨k + 1, List.drop_drop⟩, ?_, fun ci => ?_, fun ci => ?_, fun ci => ?_, fun ci => ?_, hout⟩
  · rw [List.mem_singleton.mp hg]
    exact dmaCtrlWrite_keeps _ _
  · exact (hwc.after 1).send
  · exact (Chip.run_settled ((hwc.after 1).left ci)).2.trans (hchip ci).1
  · split_ifs with hm
    · exact (congrArg Chip.wavegen (hin ci hm)).trans
        (Chip.exec_congr _ (hchip ci).1 (hchip ci).2.1 (hchip ci).2.2.1).1
    · exact (Chip.run_quiet _ (hquiet ci (by simpa using hm))).1.trans (hchip ci).2.1
  · split_ifs with hm
    · exact (congrArg Chip.boots (hin ci hm)).trans
        (Chip.exec_congr _ (hchip ci).1 (hchip ci).2.1 (hchip ci).2.2.1).2
    · exact (Chip.run_quiet _ (hquiet ci (by simpa using hm))).2.trans (hchip ci).2.2.1
  · simp only [Rank.send, Rank.after, hw, Rank.dmaWritten, Rank.structured]
    split_ifs
    · exact ⟨_, rfl⟩
    · exact ⟨_, rfl⟩

/-- the frames of `ufi_set_mram_mux` -/
def muxFrames (value : Ci → ℕ) : List (Ci → Frame) :=
  [fun ci => .dmaCtrlWrite 0x80 (value ci), fun _ => .dmaCtrlWrite 0x81 0, fun ci => .dmaCtrlWrite 0x82 (value ci),
    fun ci => .dmaCtrlWrite 0x84 (value ci), fun _ => .dmaCtrlClear]

/-- what is left for the chips outside the mask stays quiet -/
theorem Acted.quiet {r r' : Rank} {mask : Mask8} {fs : List (Ci → Frame)} (h : Acted r r' mask fs)
    (hq : ∀ ci, mask ci = false → (r.cmds ci).Quiet) : ∀ ci, mask ci = false → (r'.cmds ci).Quiet := by
  intro ci hm
  rcases h.left ci hm with he | he
  · rw [he]
    trivial
  · rw [he]
    exact hq ci hm

theorem ufiSetMramMux_acted {r : Rank} (hb : r.BusOk) (hc : Coherent r) (mask ciMuxPos : Mask8)
    (hq : ∀ ci, mask ci = false → (r.cmds ci).Quiet) :
    ∃ r', ufiSetMramMux r mask ciMuxPos = (.ok, r') ∧ Acted r r' mask (muxFrames (muxValue ciMuxPos)) ∧
      ∀ ci, mask ci = false → r'.cmds ci = .empty := by
  obtain ⟨r1, e1, h1⟩ := ufiWriteDmaCtrlDatas_acted hb hc mask 0x80 (muxValue ciMuxPos) hq
  have b1 := h1.busOk hb
  obtain ⟨r2, e2, h2, l2⟩ := ufiExecVoidFrame_acted b1 h1.coherent mask (dmaCtrlWrite_keeps 0x81 0)
  have b2 := h2.busOk b1
  have q2 := h2.quiet (h1.quiet hq)
  obtain ⟨r3, e3, h3⟩ := ufiWriteDmaCtrlDatas_acted b2 h2.coherent mask 0x82 (muxValue ciMuxPos) q2
  have b3 := h3.busOk b2
  obtain ⟨r4, e4, h4⟩ := ufiWriteDmaCtrlDatas_acted b3 h3.coherent mask 0x84 (muxValue ciMuxPos) (h3.quiet q2)
  obtain ⟨r5, e5, h5, l5⟩ := ufiExecVoidFrame_acted (h4.busOk b3) h4.coherent mask (f := .dmaCtrlClear) fun _ => rfl
  refine ⟨r5, ?_, ((((h1.trans h2).trans h3).trans h4).trans h5), l5⟩
  simp only [ufiSetMramMux, e1, ff_ok, ufiWriteDmaCtrl, show ciDmaCtrlWriteStruct = (Frame.dmaCtrlWrite 0x81 0).struct from rfl,
    e2, e3, e4, ufiClearDmaCtrl, show ciDmaCtrlClearStruct = Frame.dmaCtrlClear.struct from rfl, e5]

/-- a DPU of the pair is selected, so that frames reach the registers the pair shares -/
def Chip.PairSelected (c : Chip) (i : Member) : Prop := ∃ j : Member, j.val / 2 = i.val / 2 ∧ c.selected j = true

instance (c : Chip) (i : Member) : Decidable (c.PairSelected i) := by unfold Chip.PairSelected; infer_instance

/-- the frames of `ufi_set_mram_mux` at one chip -/
theorem Chip.execAll_muxFrames (c : Chip) (v : ℕ) :
    (c.execAll [.dmaCtrlWrite 0x80 v, .dmaCtrlWrite 0x81 0, .dmaCtrlWrite 0x82 v, .dmaCtrlWrite 0x84 v,
        .dmaCtrlClear]).boots = c.boots ∧
      ∀ i : Member, (c.execAll [.dmaCtrlWrite 0x80 v, .dmaCtrlWrite 0x81 0, .dmaCtrlWrite 0x82 v, .dmaCtrlWrite 0x84 v,
        .dmaCtrlClear]).muxHost i = if c.PairSelected i then v == 0 else c.muxHost i := by
  refine ⟨rfl, fun i => ?_⟩
  by_cases h : ∃ j : Member, j.val / 2 = i.val / 2 ∧ c.selected j = true
  · simp [Chip.execAll, Chip.exec, Chip.muxHost, Chip.PairSelected, h]
  · simp [Chip.execAll, Chip.exec, Chip.muxHost, Chip.PairSelected, h]

/-- **Setting the mux.** `ufi_set_mram_mux` puts the pairs with a selected DPU, on the chips of the mask, where `ciMuxPos`
says, moves no other mux and boots nothing. -/
theorem ufiSetMramMux_spec {r : Rank} (hb : r.BusOk) (hc : Coherent r) (mask ciMuxPos : Mask8)
    (hq : ∀ ci, mask ci = false → (r.cmds ci).Quiet) :
    ∃ r', ufiSetMramMux r mask ciMuxPos = (.ok, r') ∧ r'.BusOk ∧ Coherent r' ∧
      (∀ ci, ∃ v, r'.sliceInfo ci = { r.sliceInfo ci with structureValue := v }) ∧
      (∀ ci, (r'.chips ci).selected = (r.chips ci).selected ∧ (r'.chips ci).boots = (r.chips ci).boots) ∧
      (∀ ci i, (r'.chips ci).muxHost i =
        if mask ci = true ∧ (r.chips ci).PairSelected i then ciMuxPos ci else (r.chips ci).muxHost i) ∧
      ∀ ci, mask ci = false → r'.cmds ci = .empty := by
  obtain ⟨r', he, h, hl⟩ := ufiSetMramMux_acted hb hc mask ciMuxPos hq
  refine ⟨r', he, h.busOk hb, h.coherent, h.info, fun ci => ⟨h.selected ci, ?_⟩, fun ci i => ?_, hl⟩
  · rw [h.boots]
    split_ifs
    · exact (Chip.execAll_muxFrames _ _).1
    · rfl
  · have hw := h.wavegen ci
    by_cases hm : mask ci = true
    · rw [if_pos hm] at hw
      have hexec := (Chip.execAll_muxFrames (r.chips ci) (muxValue ciMuxPos ci)).2 i
      have hval : (muxValue ciMuxPos ci == 0) = ciMuxPos ci := by
        cases hp : ciMuxPos ci <;> simp [muxValue, hp]
      simp only [hm, true_and]
      rw [← hval, ← hexec]
      simp only [Chip.muxHost, hw, muxFrames, List.map_cons, List.map_nil]
    · rw [if_neg hm] at hw
      simp only [hm, false_and, if_false, Chip.muxHost, hw, Bool.false_eq_true]

/-- **Booting.** `ufi_thread_boot` boots the thread once on the selected DPUs of the chips of the mask, and moves no mux. -/
theorem ufiThreadBoot_spec {r : Rank} (hb : r.BusOk) (hc : Coherent r) (mask : Mask8) (thread : ℕ) :
    ∃ r', ufiThreadBoot r mask thread = (.ok, r') ∧ r'.BusOk ∧ Coherent r' ∧
      (∀ ci, ∃ v, r'.sliceInfo ci = { r.sliceInfo ci with structureValue := v }) ∧
      (∀ ci i, (r'.chips ci).muxHost i = (r.chips ci).muxHost i) ∧
      ∀ ci i u, (r'.chips ci).boots i u =
        if mask ci = true ∧ (r.chips ci).selected i = true ∧ u = thread then (r.chips ci).boots i u + 1
        else (r.chips ci).boots i u := by
  obtain ⟨r', he, h, -⟩ := ufiExecVoidFrame_acted hb hc mask (f := .threadBoot thread) fun _ => rfl
  refine ⟨r', he, h.busOk hb, h.coherent, h.info, fun ci i => ?_, fun ci i u => ?_⟩
  · have hw : (r'.chips ci).wavegen = (r.chips ci).wavegen := by
      rw [h.wavegen]
      split_ifs <;> rfl
    simp only [Chip.muxHost, hw]
  · rw [h.boots]
    by_cases hm : mask ci = true
    · simp [hm, Chip.execAll, Chip.exec]
    · simp [hm]

/-- **Selecting is quiet.** With quiet commands in the array `ufi_select_all` moves no mux and boots nothing. -/
theorem ufiSelectAll_quiet {r r' : Rank} (hb : r.BusOk) (hc : Coherent r) (ciMask : Mask8) (hq : ∀ ci, (r.cmds ci).Quiet)
    (h : ufiSelectAll r ciMask = (.ok, selectAllMask r ciMask, r')) :
    (∀ ci, (r'.chips ci).wavegen = (r.chips ci).wavegen ∧ (r'.chips ci).boots = (r.chips ci).boots) ∧
      (∀ ci, (r'.cmds ci).Quiet) ∧
      ∀ ci, (r'.sliceInfo ci).hostMuxMramState = (r.sliceInfo ci).hostMuxMramState ∧
        (r'.sliceInfo ci).dpusPerGroup = (r.sliceInfo ci).dpusPerGroup ∧
        (selectAllMask r ciMask ci = false → (r'.sliceInfo ci).sliceTarget = (r.sliceInfo ci).sliceTarget) := by
  set r1 := r.allSelected ciMask with hr1
  have hq1 : ∀ ci, (r1.cmds ci).Quiet := by
    intro ci
    simp only [hr1, Rank.allSelected]
    cases selectAllKind r ciMask ci with
    | keep => exact hq ci
    | _ => trivial
  have hinfo1 : ∀ ci, (r1.sliceInfo ci).hostMuxMramState = (r.sliceInfo ci).hostMuxMramState ∧
      (r1.sliceInfo ci).dpusPerGroup = (r.sliceInfo ci).dpusPerGroup ∧
      (selectAllMask r ciMask ci = false → (r1.sliceInfo ci).sliceTarget = (r.sliceInfo ci).sliceTarget) := by
    intro ci
    simp only [hr1, Rank.allSelected, selectAllMask]
    cases hk : selectAllKind r ciMask ci with
    | keep => exact ⟨rfl, rfl, fun _ => rfl⟩
    | drop => exact ⟨rfl, rfl, fun _ => rfl⟩
    | all =>
      refine ⟨rfl, rfl, fun hm => ?_⟩
      have hci : ciMask ci = true := by
        by_contra hn
        simp [selectAllKind, hn] at hk
      simp [hci] at hm
    | group =>
      refine ⟨rfl, rfl, fun hm => ?_⟩
      have hci : ciMask ci = true := by
        by_contra hn
        simp [selectAllKind, hn] at hk
      simp [hci] at hm
  by_cases hsel : ∃ ci, (selectAllStructs r ciMask ci).isSome = true
  · set n := structuresRounds r1 (selectAllMask r ciMask) (selectAllStructs r ciMask)
    obtain ⟨data, he⟩ := ufiExecWriteStructures_spec (r := r1)
      (fun ci => (hc.struct ci).trans (allSelected_config r ciMask ci).1.symm) (selectAllMask r ciMask)
      (selectAllStructs r ciMask) (fun ci hs => selectAllStructs_mask hs) fun _ => hb.next
    set q : Rank := { (r1.after n).structured (fun ci => (selectAllStructs r ciMask ci).isSome)
      (fun ci => (selectAllStructs r ciMask ci).getD 0) with data := data } with hqd
    have hqb : q.BusOk := hb.after n
    have hr' : r' = (q.after 1).send q.cmds := by
      have hcall : ufiSelectAll r ciMask = (.ok, selectAllMask r ciMask, (q.after 1).send q.cmds) := by
        simp only [ufiSelectAll, if_pos hsel, ufiExecVoidFrames, ← hr1, he, ff_ok, execCmd_void hqb.next, if_true]
      rw [hcall] at h
      exact (Prod.mk.inj (Prod.mk.inj h).2).2.symm
    subst hr'
    have hchip : ∀ ci, (q.chips ci).wavegen = (r.chips ci).wavegen ∧ (q.chips ci).boots = (r.chips ci).boots := by
      intro ci
      have hown := ownWrites_control r.chips (r1.stores n) ci
      simp only [hqd, Rank.structured, Rank.after]
      split_ifs
      · exact ⟨hown.2.2.2.1, hown.2.2.2.2⟩
      · exact ⟨hown.2.2.2.1, hown.2.2.2.2⟩
    refine ⟨fun ci => ?_, hq1, fun ci => ?_⟩
    · have hown := ownWrites_control q.chips (q.stores 1) ci
      have hrun := Chip.run_quiet ((q.after 1).chips ci) (hq1 ci)
      exact ⟨hrun.1.trans (hown.2.2.2.1.trans (hchip ci).1), hrun.2.trans (hown.2.2.2.2.trans (hchip ci).2)⟩
    · obtain ⟨h1, h2, h3⟩ := hinfo1 ci
      simp only [Rank.send, Rank.after, hqd, Rank.structured]
      split_ifs
      · exact ⟨h1, h2, h3⟩
      · exact ⟨h1, h2, h3⟩
  · have hr' : r' = r1 := by
      have hcall : ufiSelectAll r ciMask = (.ok, selectAllMask r ciMask, r1) := by
        simp only [ufiSelectAll, if_neg hsel, ← hr1]
      rw [hcall] at h
      exact (Prod.mk.inj (Prod.mk.inj h).2).2.symm
    subst hr'
    exact ⟨fun ci => ⟨rfl, rfl⟩, hq1, hinfo1⟩

end PimOfis.Ufi
