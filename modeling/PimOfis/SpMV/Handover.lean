/-
The hand-over of MRAM between the IG host loop (`thread_fct`) and the DPU program (`CSR_dpu.c`).

A DPU's MRAM is behind a mux, which it shares with its neighbour (DPUs 2k and 2k+1 of a chip). Host and DPU agree on the
owner by one word: the DPU runs while it is 2, its tasklet 0 writes 1 when all tasklets have passed `exec_barrier`, and
the host, which polls the words, turns the mux of a finished IG pair to itself, makes its transfers, turns the mux back
and writes 2 or 0.

One rank. The host's steps are its API calls, and a poll reads one line of eight DPUs at a time; whether there is a next
partition is up to the other threads and left open. The 16 tasklets of each DPU step on their own; a barrier lets all
of them go when the last has arrived. The transfers before the launch have left the muxes on the host side. A transfer of
the loop may switch muxes of its own (`dpu_switch_mux_for_dpu_line`, by a record that the OFIS calls do not keep), but
only of pairs that have a buffer, which are finished ones; to which side is left open, chip by chip.

Results:
- `tasklet_ok`: the phase of a DPU survives a step of any of its tasklets;
- `host_ok`: the host's invariant survives its own steps;
- `handover_safe`: the host holds the mux of a DPU only while that DPU and its neighbour wait, and it never writes over
  a state word that is 2.
-/
import Mathlib.Tactic
import PimOfis.Schedule.Collect

namespace PimOfis.SpMV

open Schedule Ufi Api

/-! ## Model -/

abbrev Tasklet := Fin 16

/-- where a tasklet stands in `main` of the DPU program -/
inductive TaskletPc where
  | off
  /-- before `OFIS_dpu_state = 2` -/
  | start
  /-- the test of the outer loop -/
  | outer
  /-- the test of the wait loop -/
  | wait
  /-- the test for 0 inside it -/
  | check
  | myBarrier
  | inMyBarrier
  /-- load arguments, compute, write back: all accesses to MRAM -/
  | work
  | execBarrier
  | inExecBarrier
  /-- tasklet 0 before `OFIS_dpu_state = 1` -/
  | writeOne
  | flagBarrier
  | inFlagBarrier
  | ret
deriving DecidableEq, Repr

structure DpuProgram where
  /-- `OFIS_dpu_state` -/
  word : ℕ
  pc : Tasklet → TaskletPc

def DpuProgram.move (d : DpuProgram) (t : Tasklet) (pc : TaskletPc) : DpuProgram := { d with pc := Function.update d.pc t pc }

/-- `barrier_wait`: the last tasklet to arrive releases all -/
def DpuProgram.arrive (d : DpuProgram) (t : Tasklet) (inside : TaskletPc) (next : Tasklet → TaskletPc) : DpuProgram :=
  if ∀ u, u ≠ t → d.pc u = inside then { d with pc := next } else d.move t inside

/-- tasklet `t` moves; `more` if it stays at its computation -/
def taskletStep (d : DpuProgram) (t : Tasklet) (more : Bool) : DpuProgram :=
  match d.pc t with
  | .off => d
  | .start => { d.move t .outer with word := 2 }
  | .outer => if d.word ≠ 0 then d.move t .wait else d.move t .ret
  | .wait => if d.word ≠ 2 then d.move t .check else d.move t .myBarrier
  | .check => if d.word = 0 then d.move t .ret else d.move t .wait
  | .myBarrier => d.arrive t .inMyBarrier fun _ => .work
  | .inMyBarrier => d
  | .work => if more = true then d else d.move t .execBarrier
  | .execBarrier => d.arrive t .inExecBarrier fun u => if u = 0 then .writeOne else .flagBarrier
  | .inExecBarrier => d
  | .writeOne => { d.move t .flagBarrier with word := 1 }
  | .flagBarrier => d.arrive t .inFlagBarrier fun _ => .outer
  | .inFlagBarrier => d
  | .ret => d

/-- where the host thread stands; loop variables are carried along -/
inductive HostPc where
  /-- in `OFIS_dpu_launch`, before `ufi_set_mram_mux` -/
  | launchMux
  /-- before `ufi_thread_boot` -/
  | launchBoot
  | poll (d : ℕ)
  /-- before `OFIS_set_mux_ig(rank, i, OPEN_TO_HOST)` -/
  | openHost (i : ℕ)
  /-- the transfer of the results -/
  | retrieve
  /-- the section under `p_count_mutex` -/
  | take
  /-- the transfers of the next partitions -/
  | refill
  /-- before `OFIS_set_mux_ig(rank, i, OPEN_TO_DPU)` -/
  | openDpu (i : ℕ)
  /-- before `OFIS_set_state_ig(rank, i, change_state)` -/
  | setState (i : ℕ)
  | done
deriving DecidableEq, Repr

structure Handover where
  pc : HostPc
  /-- the words the present poll has read -/
  words : Slot → ℕ
  finishIg : ℕ
  nrFinishIg : ℕ
  changeState : ℕ
  finishCount : ℕ
  /-- the mux of a pair of DPUs is on the host side -/
  muxHost : Ci → Fin 4 → Bool
  dpu : Slot → DpuProgram

/-- `OFIS_set_mux_ig` -/
def setMuxIg (mux : Ci → Fin 4 → Bool) (ig : ℕ) (host : Bool) : Ci → Fin 4 → Bool :=
  fun ci k => if k.val = ig / 2 then host else mux ci k

/-- `OFIS_set_state_ig` -/
def setStateIg (dpu : Slot → DpuProgram) (ig state : ℕ) : Slot → DpuProgram :=
  fun i => if i.val % 8 = ig then { dpu i with word := state } else dpu i

/-- a transfer from or to the finished DPUs -/
def transferMux (s : Handover) (side : Ci → Fin 4 → Bool) : Ci → Fin 4 → Bool :=
  fun ci k => if s.finishIg.testBit (2 * k.val) = true then side ci k else s.muxHost ci k

def Handover.repoll (s : Handover) : Handover := { s with pc := .poll 0, words := fun _ => 0 }

/-- the host moves; `next` if another transfer follows, and at `take` if `p_count` is below `nr_part` -/
def hostStep (s : Handover) (next : Bool) (side : Ci → Fin 4 → Bool) : Handover :=
  match s.pc with
  | .launchMux => { s with pc := .launchBoot, muxHost := fun _ _ => false }
  | .launchBoot => { s.repoll with dpu := fun i => { s.dpu i with pc := fun _ => .start } }
  | .poll d =>
    if d < 8 then
      { s with pc := .poll (d + 1), words := fun i => if i.val % 8 = d then (s.dpu i).word else s.words i }
    else if (igBits s.words).1 = 0 then s.repoll
    else { s with pc := .openHost 0, finishIg := (igBits s.words).2, nrFinishIg := (igBits s.words).1 }
  | .openHost i =>
    if i < 8 then
      { s with
        pc := .openHost (i + 1)
        muxHost := if s.finishIg.testBit i = true then setMuxIg s.muxHost i true else s.muxHost }
    else { s with pc := .retrieve }
  | .retrieve => { s with pc := if next = true then .retrieve else .take, muxHost := transferMux s side }
  | .take =>
    if next = true then { s with pc := .refill, changeState := 2 }
    else { s with pc := .openDpu 0, changeState := 0, finishCount := s.finishCount + 8 * s.nrFinishIg }
  | .refill => { s with pc := if next = true then .refill else .openDpu 0, muxHost := transferMux s side }
  | .openDpu i =>
    if i < 8 then
      if s.finishIg.testBit i = true then { s with pc := .setState i, muxHost := setMuxIg s.muxHost i false }
      else { s with pc := .openDpu (i + 1) }
    else if s.finishCount < 64 then s.repoll
    else { s with pc := .done }
  | .setState i => { s with pc := .openDpu (i + 1), dpu := setStateIg s.dpu i s.changeState }
  | .done => s

inductive HandoverAct where
  | host (next : Bool) (side : Ci → Fin 4 → Bool)
  | tasklet (i : Slot) (t : Tasklet) (more : Bool)

def handoverStep (s : Handover) : HandoverAct → Handover
  | .host next side => hostStep s next side
  | .tasklet i t more => { s with dpu := Function.update s.dpu i (taskletStep (s.dpu i) t more) }

def handoverRun (s : Handover) (acts : List HandoverAct) : Handover := acts.foldl handoverStep s

theorem handoverRun_snoc (s : Handover) (acts : List HandoverAct) (a : HandoverAct) :
    handoverRun s (acts ++ [a]) = handoverStep (handoverRun s acts) a := by
  simp [handoverRun, List.foldl_append]

/-- the DPUs are loaded and have their first partitions -/
def handoverInit : Handover where
  pc := .launchMux
  words _ := 0
  finishIg := 0
  nrFinishIg := 0
  changeState := 0
  finishCount := 0
  muxHost _ _ := true
  dpu _ := ⟨0, fun _ => .off⟩

/-- the tasklet has left the wait loop with state 2, and 1 has not been written yet -/
def Between (d : DpuProgram) (t : Tasklet) : Prop :=
  match d.pc t with
  | .myBarrier => True
  | .inMyBarrier => True
  | .work => True
  | .execBarrier => True
  | .inExecBarrier => True
  | .writeOne => True
  | .flagBarrier => d.pc 0 = .writeOne
  | .inFlagBarrier => d.pc 0 = .writeOne
  | _ => False

/-! ## The phases of a DPU -/

inductive Phase where
  | asleep
  | fresh
  /-- on the way to `my_barrier` -/
  | gather
  /-- on the way to `exec_barrier` -/
  | compute
  /-- past `exec_barrier`, 1 not written -/
  | report
  /-- on the way out of `flag_barrier`, 1 written -/
  | close
deriving DecidableEq

/-- where tasklet `t` may be in a phase, given the state word -/
def Phase.Allows (word : ℕ) (t : Tasklet) : Phase → TaskletPc → Prop
  | .asleep, .off => word = 0
  | .fresh, .start => word = 0
  | .gather, .start => word = 2
  | .gather, .outer => True
  | .gather, .wait => True
  | .gather, .check => True
  | .gather, .myBarrier => word = 2
  | .gather, .inMyBarrier => word = 2
  | .gather, .ret => word = 0
  | .compute, .work => word = 2
  | .compute, .execBarrier => word = 2
  | .compute, .inExecBarrier => word = 2
  | .report, .writeOne => word = 2 ∧ t = 0
  | .report, .flagBarrier => word = 2 ∧ t ≠ 0
  | .report, .inFlagBarrier => word = 2 ∧ t ≠ 0
  | .close, .flagBarrier => True
  | .close, .inFlagBarrier => True
  | _, _ => False

/-- all tasklets are in one phase -/
def InPhase (d : DpuProgram) (ph : Phase) : Prop := ∀ t, ph.Allows d.word t (d.pc t)

def DpuProgramOk (d : DpuProgram) : Prop := ∃ ph, InPhase d ph

theorem inPhase_move {d : DpuProgram} {ph : Phase} (h : InPhase d ph) {t : Tasklet} {pc : TaskletPc}
    (hpc : ph.Allows d.word t pc) : InPhase (d.move t pc) ph := by
  intro u
  by_cases hu : u = t
  · subst hu
    simpa [DpuProgram.move] using hpc
  · simpa [DpuProgram.move, hu] using h u

theorem arrive_ok {d : DpuProgram} {ph : Phase} (next : Phase) (h : InPhase d ph) {t : Tasklet} {inside : TaskletPc}
    {after : Tasklet → TaskletPc} (hin : ph.Allows d.word t inside)
    (hnext : (∀ u, u ≠ t → d.pc u = inside) → ∀ u, next.Allows d.word u (after u)) :
    DpuProgramOk (d.arrive t inside after) := by
  unfold DpuProgram.arrive
  split_ifs with hall
  · exact ⟨next, hnext hall⟩
  · exact ⟨ph, inPhase_move h hin⟩

/-- what the place of one tasklet says about the phase of its DPU -/
def TaskletPc.Tells (word : ℕ) (t : Tasklet) (ph : Phase) : TaskletPc → Prop
  | .start => (ph = .fresh ∧ word = 0) ∨ (ph = .gather ∧ word = 2)
  | .outer => ph = .gather
  | .wait => ph = .gather
  | .check => ph = .gather
  | .myBarrier => ph = .gather ∧ word = 2
  | .work => ph = .compute ∧ word = 2
  | .execBarrier => ph = .compute ∧ word = 2
  | .writeOne => ph = .report ∧ t = 0
  | .flagBarrier => (ph = .report ∧ word = 2 ∧ t ≠ 0) ∨ ph = .close
  | _ => True

theorem InPhase.tells {d : DpuProgram} {ph : Phase} (h : InPhase d ph) {t : Tasklet} {pc : TaskletPc} (hpc : d.pc t = pc) :
    pc.Tells d.word t ph := by
  have hall := hpc ▸ h t
  cases ph <;> cases pc <;> simp_all [Phase.Allows, TaskletPc.Tells]

/-- the first tasklet to start takes the DPU out of `fresh`; the others find 2 already -/
theorem start_ok {d : DpuProgram} {ph : Phase} (h : InPhase d ph) (hph : (ph = .fresh ∧ d.word = 0) ∨ (ph = .gather ∧ d.word = 2))
    (t : Tasklet) : InPhase { d.move t .outer with word := 2 } .gather := by
  intro u
  by_cases hu : u = t
  · subst hu
    simp [DpuProgram.move, Phase.Allows]
  · have hold := h u
    rcases hph with ⟨rfl, hw⟩ | ⟨rfl, hw⟩
    · cases hpu : d.pc u <;> simp_all [DpuProgram.move, Phase.Allows]
    · rw [hw] at hold
      simpa [DpuProgram.move, hu] using hold

theorem writeOne_ok {d : DpuProgram} (h : InPhase d .report) : InPhase { d.move 0 .flagBarrier with word := 1 } .close := by
  intro u
  by_cases hu : u = 0
  · subst hu
    simp [DpuProgram.move, Phase.Allows]
  · have hold := h u
    cases hpu : d.pc u <;> simp_all [DpuProgram.move, Phase.Allows]

/-- **A tasklet's step** keeps the DPU in its phase or brings it to the next. -/
theorem tasklet_ok {d : DpuProgram} (h : DpuProgramOk d) (t : Tasklet) (more : Bool) :
    DpuProgramOk (taskletStep d t more) := by
  obtain ⟨ph, hph⟩ := h
  unfold taskletStep
  cases hpc : d.pc t with
  | start => exact ⟨.gather, start_ok hph (hph.tells hpc) t⟩
  | outer =>
    obtain rfl : ph = .gather := hph.tells hpc
    simp only
    split_ifs with hw
    · exact ⟨.gather, inPhase_move hph trivial⟩
    · exact ⟨.gather, inPhase_move hph (not_not.mp hw)⟩
  | wait =>
    obtain rfl : ph = .gather := hph.tells hpc
    simp only
    split_ifs with hw
    · exact ⟨.gather, inPhase_move hph trivial⟩
    · exact ⟨.gather, inPhase_move hph (not_not.mp hw)⟩
  | check =>
    obtain rfl : ph = .gather := hph.tells hpc
    simp only
    split_ifs with hw
    · exact ⟨.gather, inPhase_move hph hw⟩
    · exact ⟨.gather, inPhase_move hph trivial⟩
  | myBarrier =>
    obtain ⟨rfl, hw⟩ : ph = .gather ∧ d.word = 2 := hph.tells hpc
    exact arrive_ok .compute hph hw fun _ _ => hw
  | work =>
    obtain ⟨rfl, hw⟩ : ph = .compute ∧ d.word = 2 := hph.tells hpc
    simp only
    split_ifs
    · exact ⟨.compute, hph⟩
    · exact ⟨.compute, inPhase_move hph hw⟩
  | execBarrier =>
    obtain ⟨rfl, hw⟩ : ph = .compute ∧ d.word = 2 := hph.tells hpc
    refine arrive_ok .report hph hw fun _ u => ?_
    split_ifs with hu
    · exact ⟨hw, hu⟩
    · exact ⟨hw, hu⟩
  | writeOne =>
    obtain ⟨rfl, rfl⟩ : ph = .report ∧ t = 0 := hph.tells hpc
    exact ⟨.close, writeOne_ok hph⟩
  | flagBarrier =>
    rcases hph.tells hpc with ⟨rfl, hw, hne⟩ | rfl
    · -- tasklet 0 has not written 1 yet, so it is not at the barrier
      refine arrive_ok .gather hph ⟨hw, hne⟩ fun hall => ?_
      have h0 := hph 0
      rw [hall 0 hne.symm] at h0
      exact absurd rfl h0.2
    · exact arrive_ok .gather hph trivial fun _ _ => trivial
  | off => exact ⟨ph, hph⟩
  | inMyBarrier => exact ⟨ph, hph⟩
  | inExecBarrier => exact ⟨ph, hph⟩
  | inFlagBarrier => exact ⟨ph, hph⟩
  | ret => exact ⟨ph, hph⟩

/-- a DPU with state word 1 stays out of MRAM, and keeps the word -/
theorem tasklet_word_one {d : DpuProgram} (h : DpuProgramOk d) (hw : d.word = 1) (t : Tasklet) (more : Bool) :
    (taskletStep d t more).word = 1 := by
  obtain ⟨ph, hph⟩ := h
  unfold taskletStep DpuProgram.arrive
  cases hpc : d.pc t with
  | start =>
    rcases hph.tells hpc with ⟨-, h0⟩ | ⟨-, h2⟩ <;> omega
  | writeOne => rfl
  | _ =>
    simp only
    repeat' split
    all_goals exact hw

theorem not_between_of_one {d : DpuProgram} (h : DpuProgramOk d) (hw : d.word = 1) (t : Tasklet) : ¬Between d t := by
  obtain ⟨ph, hph⟩ := h
  have ht := hph t
  have h0 : d.pc 0 ≠ .writeOne := by
    intro hp
    have hallows := hph 0
    rw [hp] at hallows
    cases ph <;> simp_all [Phase.Allows]
  cases ph <;> cases hpc : d.pc t <;> simp_all [Phase.Allows, Between]

/-! ## The host -/

/-- the bits of the two IGs of a pair agree -/
def Paired (finishIg : ℕ) : Prop := ∀ k < 4, finishIg.testBit (2 * k) = finishIg.testBit (2 * k + 1)

/-- every DPU of a finished IG from `lo` on still holds 1 -/
def Waiting (s : Handover) (lo : ℕ) : Prop :=
  ∀ i, lo ≤ i → i < 8 → s.finishIg.testBit i = true → ∀ j : Slot, j.val % 8 = i → (s.dpu j).word = 1

/-- the host holds the mux only of finished pairs, and of none below `lo` -/
def HostSide (s : Handover) (lo : ℕ) : Prop :=
  ∀ ci k, s.muxHost ci k = true → s.finishIg.testBit (2 * k.val) = true ∧ lo ≤ 2 * k.val

/-- **The host's invariant**, by its program counter. -/
def HostOk (s : Handover) : Prop :=
  match s.pc with
  | .launchMux => ∀ i, InPhase (s.dpu i) .asleep
  | .launchBoot => (∀ i, InPhase (s.dpu i) .asleep) ∧ ∀ ci k, s.muxHost ci k = false
  | .poll _ => (∀ ci k, s.muxHost ci k = false) ∧ ∀ i, s.words i = 1 → (s.dpu i).word = 1
  | .openHost _ => Paired s.finishIg ∧ Waiting s 0 ∧ HostSide s 0
  | .retrieve => Paired s.finishIg ∧ Waiting s 0 ∧ HostSide s 0
  | .take => Paired s.finishIg ∧ Waiting s 0 ∧ HostSide s 0
  | .refill => Paired s.finishIg ∧ Waiting s 0 ∧ HostSide s 0 ∧ s.changeState = 2
  | .openDpu i => Paired s.finishIg ∧ Waiting s i ∧ HostSide s i ∧ (s.changeState = 0 ∨ s.changeState = 2)
  | .setState i =>
    Paired s.finishIg ∧ Waiting s i ∧ HostSide s (i + 1) ∧ (s.changeState = 0 ∨ s.changeState = 2) ∧
      i < 8 ∧ s.finishIg.testBit i = true
  | .done => ∀ ci k, s.muxHost ci k = false

structure HandoverInv (s : Handover) : Prop where
  dpu : ∀ i, DpuProgramOk (s.dpu i)
  host : HostOk s

/-- the bits a poll reports -/
theorem igBits_word {w : Slot → ℕ} {i : ℕ} (hbit : (igBits w).2.testBit i = true) {j : Slot}
    (hj : j.val % 8 = i) : w j = 1 := by
  have hmem : j ∈ collectIg w := by
    simp only [collectIg, Finset.mem_filter, Finset.mem_univ, true_and, hj]
    exact hbit
  exact ((mem_collectIg w j).mp hmem (slotCi j)).one

theorem igBits_paired (w : Slot → ℕ) : Paired (igBits w).2 := by
  intro k hk
  rw [Bool.eq_iff_iff]
  have h0 := collectIgPairs_testBit (lineWords w) ⟨2 * k, by omega⟩
  have h1 := collectIgPairs_testBit (lineWords w) ⟨2 * k + 1, by omega⟩
  simp only [show 2 * k / 2 = k by omega, show (2 * k + 1) / 2 = k by omega] at h0 h1
  exact h0.trans h1.symm

theorem Paired.even {b i : ℕ} (h : Paired b) (hi : i < 8) (hbit : b.testBit i = true) :
    b.testBit (2 * (i / 2)) = true := by
  rcases Nat.mod_two_eq_zero_or_one i with hpar | hpar
  · rwa [show 2 * (i / 2) = i by omega]
  · rw [h (i / 2) (by omega), show 2 * (i / 2) + 1 = i by omega]
    exact hbit

/-- the DPU may run again, or end, once the host has written its word -/
theorem setState_ok {d : DpuProgram} (h : DpuProgramOk d) (hw : d.word = 1) {state : ℕ} (hs : state = 0 ∨ state = 2) :
    DpuProgramOk { d with word := state } := by
  obtain ⟨ph, hph⟩ := h
  refine ⟨ph, fun t => ?_⟩
  have ht := hph t
  rcases hs with rfl | rfl <;> cases ph <;> cases hpc : d.pc t <;> simp_all [Phase.Allows]

theorem mux_of_setMuxIg {mux : Ci → Fin 4 → Bool} {ig : ℕ} {ci : Ci} {k : Fin 4} :
    setMuxIg mux ig false ci k = true ↔ k.val ≠ ig / 2 ∧ mux ci k = true := by
  unfold setMuxIg
  split_ifs with hk
  · simp [hk]
  · simp [hk]

theorem HostSide.transfer {s : Handover} (h : HostSide s 0) (side : Ci → Fin 4 → Bool) :
    HostSide { s with muxHost := transferMux s side } 0 := by
  intro ci k hmux
  simp only [transferMux] at hmux
  split_ifs at hmux with hbit
  · exact ⟨hbit, Nat.zero_le _⟩
  · exact h ci k hmux

/-- **A step of the host.** -/
theorem host_ok {s : Handover} (h : HandoverInv s) (next : Bool) (side : Ci → Fin 4 → Bool) :
    HandoverInv (hostStep s next side) := by
  have hhost := h.host
  unfold HostOk at hhost
  cases hpc : s.pc with
  | launchMux =>
    rw [hpc] at hhost
    simp only [hostStep, hpc]
    exact ⟨h.dpu, hhost, fun _ _ => rfl⟩
  | launchBoot =>
    rw [hpc] at hhost
    simp only [hostStep, hpc]
    refine ⟨fun i => ⟨.fresh, fun t => ?_⟩, hhost.2, fun i hi => absurd hi (by simp [Handover.repoll])⟩
    have hasleep := hhost.1 i t
    cases hpt : (s.dpu i).pc t <;> simp_all [Phase.Allows]
  | poll d =>
    rw [hpc] at hhost
    simp only [hostStep, hpc]
    split_ifs with hd hnone
    · refine ⟨h.dpu, hhost.1, fun i hi => ?_⟩
      simp only at hi
      split_ifs at hi
      · exact hi
      · exact hhost.2 i hi
    · exact ⟨h.dpu, hhost.1, fun i hi => absurd hi (by simp [Handover.repoll])⟩
    · refine ⟨h.dpu, igBits_paired s.words, fun i _ hi hbit j hj => ?_, fun ci k hmux => ?_⟩
      · exact hhost.2 j (igBits_word hbit hj)
      · exact absurd hmux (by simp [hhost.1 ci k])
  | openHost i =>
    rw [hpc] at hhost
    obtain ⟨hpair, hwait, hside⟩ := hhost
    simp only [hostStep, hpc]
    split_ifs with hi hbit
    · refine ⟨h.dpu, hpair, hwait, fun ci k hmux => ⟨?_, Nat.zero_le _⟩⟩
      simp only [setMuxIg] at hmux
      split_ifs at hmux with hk
      · simp only [hk]
        exact hpair.even hi hbit
      · exact (hside ci k hmux).1
    · exact ⟨h.dpu, hpair, hwait, hside⟩
    · exact ⟨h.dpu, hpair, hwait, hside⟩
  | retrieve =>
    rw [hpc] at hhost
    obtain ⟨hpair, hwait, hside⟩ := hhost
    have hside' := hside.transfer side
    simp only [hostStep, hpc]
    split_ifs
    · exact ⟨h.dpu, hpair, hwait, hside'⟩
    · exact ⟨h.dpu, hpair, hwait, hside'⟩
  | take =>
    rw [hpc] at hhost
    obtain ⟨hpair, hwait, hside⟩ := hhost
    simp only [hostStep, hpc]
    split_ifs
    · exact ⟨h.dpu, hpair, hwait, hside, rfl⟩
    · exact ⟨h.dpu, hpair, hwait, hside, Or.inl rfl⟩
  | refill =>
    rw [hpc] at hhost
    obtain ⟨hpair, hwait, hside, hst⟩ := hhost
    have hside' := hside.transfer side
    simp only [hostStep, hpc]
    split_ifs
    · exact ⟨h.dpu, hpair, hwait, hside', hst⟩
    · exact ⟨h.dpu, hpair, hwait, hside', Or.inr hst⟩
  | openDpu i =>
    rw [hpc] at hhost
    obtain ⟨hpair, hwait, hside, hst⟩ := hhost
    simp only [hostStep, hpc]
    have hfalse : ¬i < 8 → ∀ ci k, s.muxHost ci k = false := by
      intro hi ci k
      by_contra hmux
      have := (hside ci k (by simpa using hmux)).2
      omega
    split_ifs with hi hbit hcount
    · refine ⟨h.dpu, hpair, hwait, fun ci k hmux => ?_, hst, hi, hbit⟩
      obtain ⟨hk, hold⟩ := mux_of_setMuxIg.mp hmux
      obtain ⟨hbk, hle⟩ := hside ci k hold
      exact ⟨hbk, by omega⟩
    · refine ⟨h.dpu, hpair, fun j hj => hwait j (by omega), fun ci k hmux => ?_, hst⟩
      obtain ⟨hbk, hle⟩ := hside ci k hmux
      refine ⟨hbk, Nat.lt_of_le_of_ne hle fun heq => hbit ?_⟩
      rwa [heq]
    · exact ⟨h.dpu, hfalse hi, fun j hj => absurd hj (by simp [Handover.repoll])⟩
    · exact ⟨h.dpu, hfalse hi⟩
  | setState i =>
    rw [hpc] at hhost
    obtain ⟨hpair, hwait, hside, hst, hi, hbit⟩ := hhost
    simp only [hostStep, hpc]
    refine ⟨fun j => ?_, hpair, fun j hle hlt hbj slot hslot => ?_, hside, hst⟩
    · simp only [setStateIg]
      split_ifs with hj
      · exact setState_ok (h.dpu j) (hwait i le_rfl hi hbit j hj) hst
      · exact h.dpu j
    · simp only [setStateIg]
      rw [if_neg (by omega)]
      exact hwait j (by omega) hlt hbj slot hslot
  | done =>
    rw [hpc] at hhost
    simp only [hostStep, hpc]
    exact ⟨h.dpu, by simpa [HostOk, hpc] using hhost⟩

/-- a step of a tasklet changes no state word that is 1 -/
theorem hostOk_tasklet {s : Handover} (h : HandoverInv s) (i : Slot) (t : Tasklet) (more : Bool) :
    HostOk { s with dpu := Function.update s.dpu i (taskletStep (s.dpu i) t more) } := by
  have hword : ∀ j, (s.dpu j).word = 1 → (Function.update s.dpu i (taskletStep (s.dpu i) t more) j).word = 1 := by
    intro j hj
    by_cases hji : j = i
    · subst hji
      rw [Function.update_self]
      exact tasklet_word_one (h.dpu j) hj t more
    · rwa [Function.update_of_ne hji]
  have hasleep : (∀ j, InPhase (s.dpu j) .asleep) →
      ∀ j, InPhase (Function.update s.dpu i (taskletStep (s.dpu i) t more) j) .asleep := by
    intro hall j
    by_cases hji : j = i
    · subst hji
      rw [Function.update_self]
      have hoff : (s.dpu j).pc t = .off := by
        have ht := hall j t
        cases hpt : (s.dpu j).pc t <;> simp_all [Phase.Allows]
      rw [taskletStep, hoff]
      exact hall j
    · rw [Function.update_of_ne hji]
      exact hall j
  have hhost := h.host
  unfold HostOk at hhost ⊢
  cases hpc : s.pc with
  | launchMux =>
    rw [hpc] at hhost
    exact hasleep hhost
  | launchBoot =>
    rw [hpc] at hhost
    exact ⟨hasleep hhost.1, hhost.2⟩
  | poll d =>
    rw [hpc] at hhost
    exact ⟨hhost.1, fun j hj => hword j (hhost.2 j hj)⟩
  | done =>
    rw [hpc] at hhost
    exact hhost
  | _ =>
    rw [hpc] at hhost
    exact ⟨hhost.1, fun k hk hlt hbit j hj => hword j (hhost.2.1 k hk hlt hbit j hj), hhost.2.2⟩

/-! ## Runs -/

theorem handover_inv (acts : List HandoverAct) : HandoverInv (handoverRun handoverInit acts) := by
  induction acts using List.reverseRecOn with
  | nil => exact ⟨fun i => ⟨.asleep, fun t => rfl⟩, fun i t => rfl⟩
  | append_singleton acts a ih =>
    rw [handoverRun_snoc]
    cases a with
    | host next side => exact host_ok ih next side
    | tasklet i t more =>
      refine ⟨fun j => ?_, hostOk_tasklet ih i t more⟩
      simp only [handoverStep]
      by_cases hj : j = i
      · subst hj
        rw [Function.update_self]
        exact tasklet_ok (ih.dpu j) t more
      · rw [Function.update_of_ne hj]
        exact ih.dpu j

theorem word_one_of_hostSide {s : Handover} {lo : ℕ} (hpair : Paired s.finishIg) (hwait : Waiting s lo)
    (hside : HostSide s lo) {i : Slot} (hmux : s.muxHost (slotCi i) (pair i) = true) : (s.dpu i).word = 1 := by
  obtain ⟨hbit, hlo⟩ := hside _ _ hmux
  have hk : (pair i).val = i.val % 8 / 2 := rfl
  rcases Nat.mod_two_eq_zero_or_one (i.val % 8) with hpar | hpar
  · exact hwait (2 * (pair i).val) hlo (by omega) hbit i (by omega)
  · rw [hpair (pair i).val (pair i).isLt] at hbit
    exact hwait (2 * (pair i).val + 1) (by omega) (by omega) hbit i (by omega)

/-- where the host holds a mux, the DPUs behind it are not loaded yet or hold 1 -/
theorem not_between_of_muxHost {s : Handover} (h : HandoverInv s) {i : Slot}
    (hmux : s.muxHost (slotCi i) (pair i) = true) (t : Tasklet) : ¬Between (s.dpu i) t := by
  have hasleep : InPhase (s.dpu i) .asleep → ¬Between (s.dpu i) t := by
    intro hph
    have ht := hph t
    cases hpt : (s.dpu i).pc t <;> simp_all [Phase.Allows, Between]
  have hhost := h.host
  unfold HostOk at hhost
  cases hpc : s.pc with
  | launchMux =>
    rw [hpc] at hhost
    exact hasleep (hhost i)
  | launchBoot =>
    rw [hpc] at hhost
    exact hasleep (hhost.1 i)
  | poll d =>
    rw [hpc] at hhost
    exact absurd hmux (by simp [hhost.1])
  | done =>
    rw [hpc] at hhost
    exact absurd hmux (by simp [hhost _ _])
  | refill =>
    rw [hpc] at hhost
    exact not_between_of_one (h.dpu i) (word_one_of_hostSide hhost.1 hhost.2.1 hhost.2.2.1 hmux) t
  | openDpu k =>
    rw [hpc] at hhost
    exact not_between_of_one (h.dpu i) (word_one_of_hostSide hhost.1 hhost.2.1 hhost.2.2.1 hmux) t
  | setState k =>
    rw [hpc] at hhost
    obtain ⟨hpair, hwait, hside, -⟩ := hhost
    have hlater : Waiting s (k + 1) := fun j hj => hwait j (by omega)
    exact not_between_of_one (h.dpu i) (word_one_of_hostSide hpair hlater hside hmux) t
  | _ =>
    rw [hpc] at hhost
    exact not_between_of_one (h.dpu i) (word_one_of_hostSide hhost.1 hhost.2.1 hhost.2.2 hmux) t

/-- **The hand-over is safe.** In every reachable state: if the mux of a DPU is on the host side, no tasklet of this DPU
or of the one that shares the mux is between leaving the wait loop with state 2 and the write of 1; and where the host
is about to write the state words of an IG, none of them is 2. -/
theorem handover_safe (acts : List HandoverAct) :
    let s := handoverRun handoverInit acts
    (∀ i j : Slot, slotCi i = slotCi j → pair i = pair j → s.muxHost (slotCi i) (pair i) = true →
      ∀ t, ¬Between (s.dpu j) t) ∧
    ∀ ig, s.pc = .setState ig → ∀ i : Slot, i.val % 8 = ig → (s.dpu i).word ≠ 2 := by
  intro s
  have h := handover_inv acts
  refine ⟨fun i j hci hpair hmux t => ?_, fun ig hpc i hi => ?_⟩
  · rw [hci, hpair] at hmux
    exact not_between_of_muxHost h hmux t
  · have hhost := h.host
    rw [HostOk, hpc] at hhost
    obtain ⟨-, hwait, -, -, hlt, hbit⟩ := hhost
    rw [hwait ig le_rfl hlt hbit i hi]
    decide

end PimOfis.SpMV
