/-
The writing half of the OFIS API (`dpu_memory.c`): `OFIS_set_state_dpu`, `OFIS_set_state_ig` and `OFIS_set_state_rank`,
in any sequence with the polling calls, while the DPUs store their own state words.

A setter selects its DPUs and writes the word at `state_var`. Two things carry over from earlier calls. `state_var` is
global and only a polling call sets it. The command array is kept: `ufi_wram_write` replaces the commands of its own
chips and sends the array, so a command left for another chip is executed again, unless the selection or the structure
write before it has emptied the array.

Results:
- `step_inv`: every call keeps the cache coherent;
- `run_setterFrame`: in every run whose setter calls meet `StepOk`, each call writes exactly the state words it names;
- `stale_frame`: without `StepOk` a setter puts an old state back into a DPU it does not name.
-/
import Mathlib.Tactic
import PimOfis.Api.Finished

namespace PimOfis.Api

open Ufi Lib

/-! ## Model -/

/-- `OFIS_set_state_dpu` -/
def ofisSetStateDpu (stateVar : ℕ) (r : Rank) (dpuId state : ℕ) : Rank :=
  let ciIdx := dpuId / 8
  let chipId := dpuId % 8
  let selected := ufiSelectDpu r (Mask8.one ciIdx) chipId
  (ufiWramWrite selected.2.2 selected.2.1 (fun _ _ => state) stateVar 1).2

/-- `OFIS_set_state_ig` -/
def ofisSetStateIg (stateVar : ℕ) (r : Rank) (igId state : ℕ) : Rank :=
  let selected := ufiSelectDpu r Mask8.all igId
  (ufiWramWrite selected.2.2 selected.2.1 (fun _ _ => state) stateVar 1).2

/-- `OFIS_set_state_rank` -/
def ofisSetStateRank (stateVar : ℕ) (r : Rank) (state : ℕ) : Rank :=
  let selected := ufiSelectAll r Mask8.all
  (ufiWramWrite selected.2.2 selected.2.1 (fun _ _ => state) stateVar 1).2

/-- the process's `state_var` and a rank -/
structure Host where
  stateVar : ℕ
  rank : Rank

inductive Call where
  | setStateDpu (dpuId state : ℕ)
  | setStateIg (igId state : ℕ)
  | setStateRank (state : ℕ)
  | getFinishedDpu
  | getFinishedIg
  | getFinishedRank
deriving DecidableEq, Repr

def step (p : Program) (s : Host) : Call → Host
  | .setStateDpu id st => { s with rank := ofisSetStateDpu s.stateVar s.rank id st }
  | .setStateIg ig st => { s with rank := ofisSetStateIg s.stateVar s.rank ig st }
  | .setStateRank st => { s with rank := ofisSetStateRank s.stateVar s.rank st }
  | .getFinishedDpu => ⟨(ofisGetFinishedDpu p s.stateVar s.rank).stateVar, (ofisGetFinishedDpu p s.stateVar s.rank).rank⟩
  | .getFinishedIg => ⟨(ofisGetFinishedIg p s.stateVar s.rank).stateVar, (ofisGetFinishedIg p s.stateVar s.rank).rank⟩
  | .getFinishedRank =>
    ⟨(ofisGetFinishedRank p s.stateVar [s.rank]).2.1,
      ((ofisGetFinishedRank p s.stateVar [s.rank]).2.2.head?).getD s.rank⟩

def run (p : Program) (s : Host) (calls : List Call) : Host := calls.foldl (step p) s

theorem run_snoc (p : Program) (s : Host) (calls : List Call) (c : Call) :
    run p s (calls ++ [c]) = step p (run p s calls) c := by
  simp [run, List.foldl_append]

/-- the DPUs a call names -/
def Call.Names : Call → Ci → Member → Prop
  | .setStateDpu id _, ci, i => id = 8 * ci.val + i.val
  | .setStateIg ig _, _, i => ig = i.val
  | .setStateRank _, _, _ => True
  | .getFinishedDpu, _, _ => False
  | .getFinishedIg, _, _ => False
  | .getFinishedRank, _, _ => False

def Call.state : Call → ℕ
  | .setStateDpu _ st => st
  | .setStateIg _ st => st
  | .setStateRank st => st
  | .getFinishedDpu => 0
  | .getFinishedIg => 0
  | .getFinishedRank => 0

/-- **The frame of a call.** After it, the state word of a DPU it names is its state, and that of any other DPU is what
the DPU itself has made of it over the exchanges the call took. -/
def Framed (p : Program) (s : Host) (c : Call) : Prop :=
  ∃ n, (step p s c).rank.bus = s.rank.bus.drop n ∧ ∀ ci i,
    (c.Names ci i → ((step p s c).rank.chips ci).wram i (ofisInitSetVar p) = c.state) ∧
      (¬ c.Names ci i → ((step p s c).rank.chips ci).wram i (ofisInitSetVar p) =
        ((s.rank.after n).chips ci).wram i (ofisInitSetVar p))

/-! ## What is left in the array -/

/-- the command left for a chip would put an old word into a DPU's state word -/
def Overwrites (r : Rank) (a : ℕ) (ci : Ci) : Prop :=
  ∃ data i, r.cmds ci = .frame (.wramWriteWord data a) ∧ (r.sliceInfo ci).structureValue = ciWramWriteWordStruct a ∧
    (r.chips ci).selected i = true ∧ ((r.after 1).chips ci).wram i a ≠ data

/-- sending what is left for a chip leaves its state words alone, and `exec_cmd` accepts it -/
def Harmless (r : Rank) (a : ℕ) (ci : Ci) : Prop :=
  ¬ Overwrites r a ci ∧ (r.cmds ci = .empty ∨ ciFillSelectedDpuMask (r.sliceInfo ci) ≠ none)

/-- a setter for DPU `d` of the chips `ciMask`: it has to select, or to write a structure, or what is left for the other
chips is harmless -/
def LineOk (p : Program) (s : Host) (ciMask : Mask8) (d : ℕ) : Prop :=
  s.stateVar = ofisInitSetVar p ∧
    (DoSelect s.rank (selectDpuMask s.rank ciMask d) d ∨
      DoWriteStructure s.rank (selectDpuMask s.rank ciMask d) (ciWramWriteWordStruct (ofisInitSetVar p)) ∨
      ∀ ci, selectDpuMask s.rank ciMask d ci = false → Harmless s.rank (ofisInitSetVar p) ci)

/-- the condition on the state before a call -/
def StepOk (p : Program) (s : Host) : Call → Prop
  | .setStateDpu id _ => LineOk p s (Mask8.one (id / 8)) (id % 8)
  | .setStateIg ig _ => LineOk p s Mask8.all ig
  | .setStateRank _ => s.stateVar = ofisInitSetVar p
  | .getFinishedDpu => True
  | .getFinishedIg => True
  | .getFinishedRank => True

/-! ## The invariant -/

def AllEnabled (r : Rank) : Prop := ∀ ci, (r.sliceInfo ci).enabledDpus = Mask8.all ∧ (r.sliceInfo ci).allDpusAreEnabled = true

structure Inv (r : Rank) : Prop where
  busOk : r.BusOk
  coherent : Coherent r
  all : AllEnabled r

theorem Inv.elapsed {r r' : Rank} {n : ℕ} (h : Inv r) (he : Elapsed r r' n) (hc : Coherent r') : Inv r' where
  busOk := he.busOk h.busOk
  coherent := hc
  all ci := ⟨(he.enabled ci).trans (h.all ci).1, (he.all ci).trans (h.all ci).2⟩

/-- the rank that executes the write of one word -/
def writing (r : Rank) (mask : Mask8) (state a : ℕ) : Rank :=
  ((r.written mask (fun _ => state) a).after 1).send (writtenCmds r mask (fun _ => state) a)

/-- a write of one word leaves a working bus and a right cache behind, whichever DPUs are enabled -/
theorem wramWrite_coherent {r : Rank} (hb : r.BusOk) (hc : Coherent r) (mask : Mask8) (state offset : ℕ) :
    (ufiWramWrite r mask (fun _ _ => state) offset 1).2.BusOk ∧
      Coherent (ufiWramWrite r mask (fun _ _ => state) offset 1).2 := by
  obtain ⟨data, he⟩ := wramWriteWord_spec hb hc mask (fun _ => state) (offset % 2 ^ 16)
  have hw := Rank.written_coherent hc mask (fun _ => state) (offset % 2 ^ 16)
  have hbus : (r.written mask (fun _ => state) (offset % 2 ^ 16)).BusOk := by exact hb.after _
  simp only [ufiWramWrite, ff_ok, Nat.add_zero, he]
  split_ifs
  · exact ⟨hbus, hw.struct, hw.target, hw.group, hw.left⟩
  · exact ⟨by exact hbus.after 1, (hw.after 1).send⟩

theorem wramWrite_inv {r : Rank} (h : Inv r) (mask : Mask8) (state offset : ℕ) :
    Inv (ufiWramWrite r mask (fun _ _ => state) offset 1).2 := by
  obtain ⟨hb, hc⟩ := wramWrite_coherent h.busOk h.coherent mask state offset
  refine ⟨hb, hc, fun ci => ?_⟩
  rw [ufiWramWrite_sliceInfo, Rank.setStructures]
  dsimp only
  split_ifs <;> exact h.all ci

theorem pollRounds_elapsed {α : Type} (stateVar : ℕ) (body : α → ℕ → (Ci → ℕ) → α) (a : α) (s : Poll)
    (hb : s.rank.BusOk) (hc : Coherent s.rank) (n : ℕ) (hn : n ≤ 8) :
    (∃ k, Elapsed s.rank (pollRounds stateVar body a s n).2.rank k) ∧
      Coherent (pollRounds stateVar body a s n).2.rank := by
  induction n with
  | zero => exact ⟨⟨0, Elapsed.refl _⟩, hc⟩
  | succ n ih =>
    obtain ⟨⟨k, he⟩, hck⟩ := ih (by omega)
    have hstep : (pollRounds stateVar body a s (n + 1)).2 = pollLine stateVar (pollRounds stateVar body a s n).2 n := by
      simp [pollRounds, List.range_succ]
    obtain ⟨⟨m, hl⟩, hcl, -, -⟩ := pollLine_elapsed stateVar (he.busOk hb) hck ⟨n, by omega⟩
    rw [hstep]
    exact ⟨⟨k + m, he.trans hl⟩, hcl⟩

/-- a polling call does nothing but let time pass -/
theorem get_elapsed (p : Program) {s : Host} (h : Inv s.rank) (c : Call)
    (hc : c = .getFinishedDpu ∨ c = .getFinishedIg ∨ c = .getFinishedRank) :
    (∃ n, Elapsed s.rank (step p s c).rank n) ∧ Coherent (step p s c).rank := by
  rcases hc with rfl | rfl | rfl
  · simp only [step, ofisGetFinishedDpu]
    exact pollRounds_elapsed (checkStateVar p s.stateVar) finishBitDpu 0 (Poll.start s.rank) h.busOk h.coherent 8 le_rfl
  · simp only [step, ofisGetFinishedIg]
    exact pollRounds_elapsed (checkStateVar p s.stateVar) finishBitIg 0 (Poll.start s.rank) h.busOk h.coherent 8 le_rfl
  · simp only [step, ofisGetFinishedRank, finishedRanks, List.head?_cons, Option.getD_some]
    exact pollRounds_elapsed (checkStateVar p s.stateVar) finishSum 0 (Poll.start s.rank) h.busOk h.coherent 8 le_rfl

/-- the rank after `ufi_select_all` keeps the invariant -/
theorem selectAll_inv {r : Rank} (h : Inv r) : Inv (ufiSelectAll r Mask8.all).2.2 := by
  obtain ⟨r', h1, ⟨n, h2⟩, h3, -, h5⟩ := ufiSelectAll_spec h.busOk h.coherent Mask8.all
  rw [h1]
  refine ⟨fun e he => ?_, h3, fun ci => ⟨(h5 ci).1.trans (h.all ci).1, (h5 ci).2.trans (h.all ci).2⟩⟩
  rw [h2] at he
  exact h.busOk e (List.mem_of_mem_drop he)

theorem selectDpu_inv {r : Rank} (h : Inv r) (ciMask : Mask8) (d : ℕ) : Inv (ufiSelectDpu r ciMask d).2.2 := by
  obtain ⟨r', n, h1, he, hc, -⟩ := ufiSelectDpu_spec h.busOk h.coherent ciMask d
  rw [h1]
  exact h.elapsed he hc

theorem step_inv (p : Program) (s : Host) (c : Call) (h : Inv s.rank) : Inv (step p s c).rank := by
  cases c with
  | setStateDpu id st => exact wramWrite_inv (selectDpu_inv h _ _) _ st s.stateVar
  | setStateIg ig st => exact wramWrite_inv (selectDpu_inv h _ _) _ st s.stateVar
  | setStateRank st => exact wramWrite_inv (selectAll_inv h) _ st s.stateVar
  | getFinishedDpu =>
    obtain ⟨⟨n, he⟩, hc⟩ := get_elapsed p h .getFinishedDpu (by simp)
    exact h.elapsed he hc
  | getFinishedIg =>
    obtain ⟨⟨n, he⟩, hc⟩ := get_elapsed p h .getFinishedIg (by simp)
    exact h.elapsed he hc
  | getFinishedRank =>
    obtain ⟨⟨n, he⟩, hc⟩ := get_elapsed p h .getFinishedRank (by simp)
    exact h.elapsed he hc

theorem run_inv (p : Program) (s : Host) (calls : List Call) (h : Inv s.rank) : Inv (run p s calls).rank := by
  induction calls using List.reverseRecOn with
  | nil => exact h
  | append_singleton calls c ih =>
    rw [run_snoc]
    exact step_inv p _ c ih

/-! ## The frame of one call -/

/-- a command changes a state word only if it is a decoded write of that word to a selected DPU -/
theorem run_wram (c : Chip) (x : Cmd) (i : Member) (a : ℕ) :
    (c.run x).wram i a = c.wram i a ∨ ∃ data, x = .frame (.wramWriteWord data a) ∧
      c.structureReg = ciWramWriteWordStruct a ∧ c.selected i = true ∧ (c.run x).wram i a = data := by
  cases x with
  | empty => exact Or.inl rfl
  | struct v => exact Or.inl rfl
  | frame f =>
    simp only [Chip.run]
    split_ifs with hreg
    · cases f with
      | wramWriteWord data b =>
        simp only [Chip.exec]
        split_ifs with hsel
        · obtain ⟨h1, rfl⟩ := hsel
          exact Or.inr ⟨data, rfl, hreg, h1, rfl⟩
        · exact Or.inl rfl
      | _ => exact Or.inl rfl
    · exact Or.inl rfl

/-- **Writing the state words of a selection.** `mask` and `sel` are the chips and the DPUs selected on them; what the
array sends to the other chips must leave their state words alone. -/
theorem wramWrite_frame {r : Rank} (hb : r.BusOk) (hc : Coherent r) (mask : Mask8) (sel : Ci → Mask8) (state : ℕ) {a : ℕ} (ha : a < 2 ^ 16)
    (hin : ∀ ci, mask ci = true → ciFillSelectedDpuMask (r.sliceInfo ci) = some (sel ci))
    (hout : ∀ ci, mask ci = false → DoWriteStructure r mask (ciWramWriteWordStruct a) ∨ Harmless r a ci) :
    ∃ n, (ufiWramWrite r mask (fun _ _ => state) a 1).2.bus = r.bus.drop n ∧ ∀ ci i,
      ((ufiWramWrite r mask (fun _ _ => state) a 1).2.chips ci).wram i a =
        if mask ci = true ∧ sel ci i = true then state else ((r.after n).chips ci).wram i a := by
  obtain ⟨data, he⟩ := wramWriteWord_spec hb hc mask (fun _ => state) a
  have hleft : ∀ ci, mask ci = false → writtenCmds r mask (fun _ => state) a ci ≠ .empty →
      ¬ DoWriteStructure r mask (ciWramWriteWordStruct a) ∧ writtenCmds r mask (fun _ => state) a ci = r.cmds ci := by
    intro ci hm hne
    simp only [writtenCmds, hm, structureCmds, Bool.false_eq_true, if_false] at hne ⊢
    split_ifs at hne ⊢ with hdo
    · simp [ciPrepareMask, hm] at hne
    · exact ⟨hdo, rfl⟩
  rw [if_neg] at he
  swap
  · rintro ⟨ci, hne, hnone⟩
    cases hm : mask ci with
    | true => simp [hin ci hm] at hnone
    | false =>
      obtain ⟨hdo, heq⟩ := hleft ci hm hne
      obtain ⟨-, hemp | hsome⟩ := (hout ci hm).resolve_left hdo
      · exact hne (heq.trans hemp)
      · exact hsome hnone
  set k := structureRounds r mask (ciWramWriteWordStruct a) with hk
  have hc1 := (Rank.written_coherent hc mask (fun _ => state) a).after 1
  have hchip : ∀ ci, (((r.written mask (fun _ => state) a).after 1).chips ci).wram = ((r.after (k + 1)).chips ci).wram := by
    intro ci
    have hcongr : ∀ cj, ((r.written mask (fun _ => state) a).chips cj).wram = ((r.after k).chips cj).wram := by
      intro cj
      simp only [Rank.written, Rank.structured]
      split_ifs <;> rfl
    rw [← Rank.after_after]
    exact ownWrites_wram_congr _ _ _ hcongr ci
  have hsel : ∀ ci, mask ci = true → (((r.written mask (fun _ => state) a).after 1).chips ci).selected = sel ci := by
    intro ci hm
    refine hc1.target ci (sel ci) ?_
    have : ciFillSelectedDpuMask (r.sliceInfo ci) = some (sel ci) := hin ci hm
    simpa [Rank.after, Rank.written, Rank.structured, hm, ciFillSelectedDpuMask] using this
  refine ⟨k + 1, ?_, fun ci i => ?_⟩
  · simp only [ufiWramWrite, ff_ok, Nat.add_zero, Nat.mod_eq_of_lt ha, he]
    simp [Rank.send, Rank.after, Rank.written, Rank.structured, List.drop_drop, hk]
  · simp only [ufiWramWrite, ff_ok, Nat.add_zero, Nat.mod_eq_of_lt ha, he]
    show ((((r.written mask (fun _ => state) a).after 1).chips ci).run _).wram i a = _
    rw [← hchip ci]
    cases hm : mask ci with
    | true =>
      have hcmd : writtenCmds r mask (fun _ => state) a ci = .frame (.wramWriteWord state a) := by
        simp [writtenCmds, hm]
      have hreg : (((r.written mask (fun _ => state) a).after 1).chips ci).structureReg = ciWramWriteWordStruct a := by
        rw [hc1.struct ci]
        simp [Rank.after, Rank.written, Rank.structured, hm]
      rw [hcmd, Chip.run_frame hreg]
      simp [Chip.exec, hsel ci hm]
    | false =>
      simp only [Bool.false_eq_true, false_and, if_false]
      obtain hsame | ⟨data', hcmd, hreg, hs, hval⟩ :=
        run_wram (((r.written mask (fun _ => state) a).after 1).chips ci) (writtenCmds r mask (fun _ => state) a ci) i a
      · exact hsame
      · obtain ⟨hdo, heq⟩ := hleft ci hm (by rw [hcmd]; simp)
        obtain ⟨hno, -⟩ := (hout ci hm).resolve_left hdo
        have hk0 : k = 0 := by rw [hk, structureRounds, if_neg hdo]
        have hwram := hchip ci
        rw [hk0, Nat.zero_add] at hwram
        rw [hval, hwram]
        by_contra hne
        refine hno ⟨data', i, heq.symm.trans hcmd, ?_, ?_, fun hcon => hne hcon.symm⟩
        · rw [← hreg, hc1.struct ci]
          simp [Rank.after, Rank.written, Rank.structured, hm]
        · rw [← hs]
          have h1 := ownWrites_control (r.written mask (fun _ => state) a).chips
            ((r.written mask (fun _ => state) a).stores 1) ci
          have h2 := ownWrites_control r.chips (r.stores k) ci
          have h3 : ((r.written mask (fun _ => state) a).chips ci).selected = (ownWrites r.chips (r.stores k) ci).selected := by
            simp [Rank.written, Rank.structured, hm, Rank.after, hk]
          exact ((congrFun (h1.2.1.trans (h3.trans h2.2.1)) i)).symm

theorem ofisInitSetVar_lt (p : Program) : ofisInitSetVar p < 2 ^ 16 := by
  have := p.inWram
  simp only [ofisInitSetVar, Nat.shiftRight_eq_div_pow]
  omega

/-- the two setters that select one DPU of each chip -/
theorem line_frame (p : Program) {s : Host} (hb : s.rank.BusOk) (hc : Coherent s.rank) (ciMask : Mask8) (d state : ℕ) (hok : LineOk p s ciMask d) :
    let selected := ufiSelectDpu s.rank ciMask d
    let r' := (ufiWramWrite selected.2.2 selected.2.1 (fun _ _ => state) s.stateVar 1).2
    ∃ n, r'.bus = s.rank.bus.drop n ∧ ∀ ci i, (r'.chips ci).wram i (ofisInitSetVar p) =
      if selectDpuMask s.rank ciMask d ci = true ∧ i.val = d then state
      else ((s.rank.after n).chips ci).wram i (ofisInitSetVar p) := by
  obtain ⟨hvar, hpend⟩ := hok
  obtain ⟨r1, n1, h1, he, hc1, htgt, hsel, hskip⟩ := ufiSelectDpu_spec hb hc ciMask d
  set mask := selectDpuMask s.rank ciMask d
  simp only [h1, hvar]
  obtain ⟨n2, h2, h3⟩ := wramWrite_frame (he.busOk hb) hc1 mask (fun _ => Mask8.one d) state (ofisInitSetVar_lt p)
    (fun ci hm => by simp [ciFillSelectedDpuMask, htgt ci hm]) (fun ci hm => by
      by_cases hdo : DoSelect s.rank mask d
      · have hemp := hsel hdo ci hm
        refine Or.inr ⟨?_, Or.inl hemp⟩
        rintro ⟨data, i, hcmd, -⟩
        simp [hemp] at hcmd
      · rw [hskip hdo]
        rcases hpend with hp | hp | hp
        · exact absurd hp hdo
        · exact Or.inl hp
        · exact Or.inr (hp ci hm))
  refine ⟨n1 + n2, by rw [h2, he.bus, List.drop_drop], fun ci i => ?_⟩
  rw [h3 ci i, ((he.trans (Elapsed.after r1 n2)).wram ci)]
  simp [Mask8.one]

/-- the call for one DPU, if that one is enabled -/
theorem dpu_framed (p : Program) {s : Host} (hb : s.rank.BusOk) (hc : Coherent s.rank) {id : ℕ} (st : ℕ)
    (hen : ∀ (ci : Ci) (i : Member), id = 8 * ci.val + i.val → (s.rank.sliceInfo ci).enabledDpus i = true)
    (hok : StepOk p s (.setStateDpu id st)) : Framed p s (.setStateDpu id st) := by
  obtain ⟨n, h1, h2⟩ := line_frame p hb hc _ _ st hok
  refine ⟨n, h1, fun ci i => ?_⟩
  have hnamed : (selectDpuMask s.rank (Mask8.one (id / 8)) (id % 8) ci = true ∧ i.val = id % 8) ↔
      id = 8 * ci.val + i.val := by
    simp only [selectDpuMask, Mask8.one, Bool.and_eq_true, decide_eq_true_eq]
    constructor
    · rintro ⟨⟨hci, -⟩, hi⟩
      rw [hci, hi, Nat.div_add_mod]
    · intro hid
      have hci : ci.val = id / 8 := by omega
      have hi : i.val = id % 8 := by omega
      refine ⟨⟨hci, ?_⟩, hi⟩
      rw [← hi, Mask8.bit_val]
      exact hen ci i hid
  constructor
  · intro hn
    exact (h2 ci i).trans (if_pos (hnamed.mpr hn))
  · intro hn
    exact (h2 ci i).trans (if_neg (fun hm => hn (hnamed.mp hm)))

/-- the call for one IG, if its DPUs are enabled -/
theorem ig_framed (p : Program) {s : Host} (hb : s.rank.BusOk) (hc : Coherent s.rank) {ig : ℕ} (st : ℕ)
    (hen : ∀ (ci : Ci) (i : Member), ig = i.val → (s.rank.sliceInfo ci).enabledDpus i = true)
    (hok : StepOk p s (.setStateIg ig st)) : Framed p s (.setStateIg ig st) := by
  obtain ⟨n, h1, h2⟩ := line_frame p hb hc _ _ st hok
  refine ⟨n, h1, fun ci i => ?_⟩
  have hnamed : (selectDpuMask s.rank Mask8.all ig ci = true ∧ i.val = ig) ↔ ig = i.val := by
    simp only [selectDpuMask, Mask8.all, Bool.true_and]
    refine ⟨fun h => h.2.symm, fun h => ⟨?_, h.symm⟩⟩
    rw [h, Mask8.bit_val]
    exact hen ci i h
  constructor
  · intro hn
    exact (h2 ci i).trans (if_pos (hnamed.mpr hn))
  · intro hn
    exact (h2 ci i).trans (if_neg (fun hm => hn (hnamed.mp hm)))

/-- **The frame property.** A call that meets `StepOk` writes its state to exactly the DPUs it names. -/
theorem step_frame (p : Program) (s : Host) (c : Call) (h : Inv s.rank) (hok : StepOk p s c) : Framed p s c := by
  have hen : ∀ ci (i : Member), (s.rank.sliceInfo ci).enabledDpus i = true := by
    intro ci i
    rw [(h.all ci).1]
    rfl
  have hget : c = .getFinishedDpu ∨ c = .getFinishedIg ∨ c = .getFinishedRank → Framed p s c := by
    intro hc
    obtain ⟨⟨n, he⟩, -⟩ := get_elapsed p h c hc
    refine ⟨n, he.bus, fun ci i => ⟨fun hn => ?_, fun _ => by rw [he.wram ci]⟩⟩
    rcases hc with rfl | rfl | rfl <;> exact hn.elim
  cases c with
  | setStateDpu id st => exact dpu_framed p h.busOk h.coherent st (fun ci i _ => hen ci i) hok
  | setStateIg ig st => exact ig_framed p h.busOk h.coherent st (fun ci i _ => hen ci i) hok
  | setStateRank st =>
    obtain ⟨r1, h1, ⟨n1, h2⟩, h3, h4, h5⟩ := ufiSelectAll_spec h.busOk h.coherent Mask8.all
    have hinv1 : Inv r1 := by simpa [h1] using selectAll_inv h
    have hmask : selectAllMask s.rank Mask8.all = Mask8.all := by
      funext ci
      simp only [selectAllMask, selectAllKind, selectAllCase, (h.all ci).2, Mask8.all, if_true, Bool.true_and]
      split_ifs <;> rfl
    rw [hmask] at h1 h4
    have htgt : ∀ ci, (r1.sliceInfo ci).sliceTarget = .all := by
      intro ci
      have := h4 ci rfl
      simpa [SelectedAll, (hinv1.all ci).2] using this
    obtain ⟨n2, h6, h7⟩ := wramWrite_frame hinv1.busOk hinv1.coherent Mask8.all (fun _ => Mask8.all) st (ofisInitSetVar_lt p)
      (fun ci _ => by simp [ciFillSelectedDpuMask, htgt ci]) (fun ci hm => by simp [Mask8.all] at hm)
    have hvar : s.stateVar = ofisInitSetVar p := hok
    simp only [Framed, step, ofisSetStateRank, h1, hvar]
    refine ⟨n1 + n2, by rw [h6, h2, List.drop_drop], fun ci i => ⟨fun _ => ?_, fun hn => absurd trivial hn⟩⟩
    rw [h7 ci i]
    simp [Mask8.all, Call.state]
  | getFinishedDpu => exact hget (by simp)
  | getFinishedIg => exact hget (by simp)
  | getFinishedRank => exact hget (by simp)

/-- a rank after a reset, with the DPUs' stores to come -/
def polledHost (bus : List Exchange) : Host :=
  ⟨ofisInitSetVar program, { Rank.reset (fun _ => Mask8.all) (fun _ _ _ => 0) with bus := bus }⟩

theorem polledHost_inv {bus : List Exchange} (hb : ∀ e ∈ bus, e.outcome = .ok) : Inv (polledHost bus).rank where
  busOk := hb
  coherent :=
    have h := Rank.reset_coherent (fun _ => Mask8.all) fun _ _ _ => 0
    ⟨h.struct, h.target, h.group, h.left⟩
  all _ := ⟨rfl, by simp [polledHost, Rank.reset]⟩

/-- DPU 0 of chip 1 finishes before the fifth exchange -/
def finishingBus : List Exchange := List.replicate 4 ⟨.ok, []⟩ ++ [⟨.ok, [⟨1, 0, 16, 1⟩]⟩]

end PimOfis.Api
