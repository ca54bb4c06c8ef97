/-
When a DPU of the PageRank hosts returns: the host loops of `Schedule` with, on every DPU, the 16 tasklets of `pr_kernel.c`.

`Schedule.Machine` has a DPU finish in one step; here the host loop is the same, `Schedule.rankStep`, but what it writes goes
to the state word and the arguments of a `Tasklets.Dpu`, and what it polls is that word. So a step is one of a host thread, or
one of a tasklet of a DPU that is launched; `released` is kept beside a DPU and says that the host has written 0 to it.

A tasklet returns where it sees 0, which only the host writes once tasklet 0 has written 2, and where its sub-graph has no
nodes. There the word is still 2, and the host, which waits for 1, has nothing to write.

- `KernelOk`: what holds of the tasklets whatever the host writes, in any mode;
- `lawful_careful`, `rankMode_careful`: the DPUs a host thread restarts have not been released;
- `run_released`: where only sub-graphs with nodes are sent, a DPU returns only when it is released, in all three modes;
- `empty_halts`: a sub-graph without nodes, after which a DPU has returned with the word at 2.
-/
import Mathlib.Tactic
import PimOfis.PageRank.Schedule
import PimOfis.Tasklets.Programs

namespace PimOfis.PageRank.Release

open Schedule (Mode Slot Thread)
open Tasklets (Tasklet pageRankKernel)

/-! ## Model -/

/-- a DPU; its arguments are the sub-graphs its two inputs were taken from -/
abbrev Kernel := Tasklets.Dpu (Fin 2 → ℕ)

structure RankState where
  thread : Thread
  kernel : Slot → Kernel
  launched : Slot → Bool
  /-- the host has written 0 to the state word -/
  released : Slot → Bool

structure State where
  pCount : ℕ
  rank : ℕ → RankState

/-- who moves: the thread of rank `r`, or tasklet `t` of its DPU `i` -/
inductive Act where
  | thread (r : ℕ)
  | tasklet (r : ℕ) (i : Slot) (t : Tasklet) (more : Bool)

/-- what the host loop sees of a rank -/
def RankState.view (q : RankState) : Schedule.RankState 2 Unit where
  thread := q.thread
  dpu i := ⟨q.launched i, true, (q.kernel i).word, (q.kernel i).args, none, []⟩

/-- what the host has written reaches the DPU -/
def absorb (d : Kernel) (v : Schedule.Dpu 2 Unit) : Kernel :=
  { d with
    word := v.word
    args := v.input
    given := if v.word = 2 ∧ d.word ≠ 2 then d.given ++ [v.input] else d.given }

/-- the thread of rank `r` moves -/
def hostStep (m : Mode 2) (total r pCount : ℕ) (q : RankState) : RankState :=
  let v := Schedule.rankStep m total r pCount q.view
  { thread := v.thread
    kernel := fun i => absorb (q.kernel i) (v.dpu i)
    launched := fun i => (v.dpu i).booted
    released := fun i => q.released i || decide (.release ∈ (v.dpu i).trace ∧ (v.dpu i).word = 0) }

/-- `main` of `pr_kernel.c`; `numNode` is `num_node` of the sub-graphs -/
def kernelOf (numNode : ℕ → ℕ) : Tasklets.Kernel (Fin 2 → ℕ) := pageRankKernel fun x => numNode (x 0) == 0

/-- a tasklet of DPU `i` moves -/
def kernelStep (numNode : ℕ → ℕ) (q : RankState) (i : Slot) (t : Tasklet) (more : Bool) : RankState :=
  if q.launched i = true then
    { q with kernel := Function.update q.kernel i (Tasklets.taskletStep (kernelOf numNode) (q.kernel i) t more) }
  else q

def step (m : Mode 2) (numNode : ℕ → ℕ) (threads total : ℕ) (s : State) : Act → State
  | .thread r =>
    if r < threads then
      { pCount := Schedule.takeStep total s.pCount (s.rank r).thread
        rank := Function.update s.rank r (hostStep m total r s.pCount (s.rank r)) }
    else s
  | .tasklet r i t more =>
    if r < threads then { s with rank := Function.update s.rank r (kernelStep numNode (s.rank r) i t more) } else s

def run (m : Mode 2) (numNode : ℕ → ℕ) (threads total : ℕ) (s : State) (acts : List Act) : State :=
  acts.foldl (step m numNode threads total) s

/-- `main` has allocated and loaded the DPUs and set `p_count = num_DPUs` -/
def init (threads : ℕ) : State where
  pCount := 64 * threads
  rank _ :=
    { thread := ⟨.load 0, fun _ => 0, fun _ => 0, ∅, 0, 0, 0⟩
      kernel := fun _ => Tasklets.init fun _ => 0
      launched := fun _ => false
      released := fun _ => false }

theorem run_snoc (m : Mode 2) (numNode : ℕ → ℕ) (threads total : ℕ) (s : State) (acts : List Act) (a : Act) :
    run m numNode threads total s (acts ++ [a]) = step m numNode threads total (run m numNode threads total s acts) a := by
  simp [run, List.foldl_append]

/-- the sub-graphs whose arguments the thread's next move sends -/
def argsSent (m : Mode 2) (total r : ℕ) (t : Thread) : List ℕ :=
  if t.pc = .load 0 ∨ t.pc = .send 0 then Schedule.uses m total r t else []

/-- the DPUs the thread's next move sets to 2 -/
def restarting (m : Mode 2) (t : Thread) : Finset Slot :=
  match t.pc with
  | .setState c => if c < m.calls ∧ t.changeState = 2 then Schedule.named m t c else ∅
  | _ => ∅

/-- the DPUs the thread polls for completion: all it has not released -/
def polledFor (q : RankState) : Finset Slot :=
  match q.thread.pc with
  | .poll _ => Finset.univ.filter fun i => q.released i = false
  | _ => ∅

/-- **No DPU of a rank halts unreleased.** -/
structure NoneHalts (m : Mode 2) (k : Tasklets.Kernel (Fin 2 → ℕ)) (q : RankState) : Prop where
  returned : ∀ i t, (q.kernel i).pc t = .ret → q.released i = true
  restarted : ∀ i ∈ restarting m q.thread, ∀ t, (q.kernel i).pc t ≠ .ret
  polled : ∀ i ∈ polledFor q, ∀ t, (q.kernel i).pc t ≠ .ret
  /-- where the word is 2, all tasklets are there, and not all of them are waiting at the barrier -/
  word : ∀ i, (q.kernel i).word = 2 → (∀ t, (q.kernel i).pc t ≠ .ret) ∧ ∃ t, k.waitsAt ((q.kernel i).pc t) = none

/-! ## What the host does to a DPU -/

/-- a move of the host loop, seen from a DPU -/
theorem rankStep_dpu {β : Type} (m : Mode 2) (total r pCount : ℕ) (v : Schedule.RankState 2 β) (i : Slot) :
    ((Schedule.rankStep m total r pCount v).dpu i = v.dpu i ∧ v.thread.pc ≠ .load 0 ∧ v.thread.pc ≠ .launch) ∨
      (v.thread.pc = .launch ∧ (Schedule.rankStep m total r pCount v).dpu i = (v.dpu i).boot) ∨
      (∃ (k : Fin 2) (sg : ℕ), (v.thread.pc = .load k ∨ (v.thread.pc = .send k ∧ i ∈ v.thread.finish)) ∧
        (k = 0 → sg ∈ argsSent m total r v.thread) ∧
        (Schedule.rankStep m total r pCount v).dpu i = (v.dpu i).send k sg) ∨
      (v.thread.pc = .retrieve ∧ ∃ p, (Schedule.rankStep m total r pCount v).dpu i = (v.dpu i).retrieve p) ∨
      ∃ c, v.thread.pc = .setState c ∧ c < m.calls ∧ i ∈ Schedule.named m v.thread c ∧
        (Schedule.rankStep m total r pCount v).dpu i = (v.dpu i).setState v.thread.changeState := by
  cases hpc : v.thread.pc with
  | load k =>
    by_cases hk : k < 2
    · have hd : (Schedule.rankStep m total r pCount v).dpu i = (v.dpu i).send k (64 * r + i.val) := by
        simp only [Schedule.rankStep, hpc, if_pos hk]
      refine .inr (.inr (.inl ⟨⟨k, hk⟩, 64 * r + i.val, .inl rfl, fun h0 => ?_, hd⟩))
      obtain rfl : k = 0 := congrArg Fin.val h0
      simp only [argsSent, hpc, true_or, if_true, Schedule.uses, if_pos hk, Schedule.indexes]
      exact List.mem_map.mpr ⟨i, by simp, rfl⟩
    · have hd : (Schedule.rankStep m total r pCount v).dpu i = v.dpu i := by
        simp only [Schedule.rankStep, hpc, if_neg hk]
      exact .inl ⟨hd, fun h => hk (Schedule.Pc.load.inj h ▸ Nat.two_pos), fun h => by cases h⟩
  | launch =>
    have hd : (Schedule.rankStep m total r pCount v).dpu i = (v.dpu i).boot := by
      simp only [Schedule.rankStep, hpc]
    exact .inr (.inl ⟨rfl, hd⟩)
  | poll d =>
    have hd : (Schedule.rankStep m total r pCount v).dpu i = v.dpu i := by
      simp only [Schedule.rankStep, hpc]
      split_ifs <;> rfl
    exact .inl ⟨hd, by simp, by simp⟩
  | retrieve =>
    by_cases hi : i ∈ Schedule.retrieved m total v.thread
    · have hd : (Schedule.rankStep m total r pCount v).dpu i = (v.dpu i).retrieve (v.thread.part i) := by
        simp only [Schedule.rankStep, hpc, if_pos hi]
      exact .inr (.inr (.inr (.inl ⟨rfl, _, hd⟩)))
    · have hd : (Schedule.rankStep m total r pCount v).dpu i = v.dpu i := by
        simp only [Schedule.rankStep, hpc, if_neg hi]
      exact .inl ⟨hd, by simp, by simp⟩
  | take =>
    have hd : (Schedule.rankStep m total r pCount v).dpu i = v.dpu i := by
      simp only [Schedule.rankStep, hpc]
      split_ifs <;> rfl
    exact .inl ⟨hd, by simp, by simp⟩
  | send k =>
    by_cases hk : k < 2 ∧ i ∈ Schedule.sent m total v.thread k
    · have hd : (Schedule.rankStep m total r pCount v).dpu i = (v.dpu i).send k (Schedule.inputIndex m v.thread k i) := by
        simp only [Schedule.rankStep, hpc, if_pos hk.1, if_pos hk.2]
      have hfin := ((Schedule.mem_sent m total _ _ _).mp hk.2).1
      refine .inr (.inr (.inl ⟨⟨k, hk.1⟩, Schedule.inputIndex m v.thread k i, .inr ⟨rfl, hfin⟩, fun h0 => ?_, hd⟩))
      obtain rfl : k = 0 := congrArg Fin.val h0
      simp only [argsSent, hpc, or_true, if_true, Schedule.uses, if_pos hk.1, Schedule.indexes]
      exact List.mem_map.mpr ⟨i, by simpa using hk.2, rfl⟩
    · have hd : (Schedule.rankStep m total r pCount v).dpu i = v.dpu i := by
        simp only [Schedule.rankStep, hpc]
        split_ifs with h1
        · exact if_neg fun h2 => hk ⟨h1, h2⟩
        · rfl
      exact .inl ⟨hd, by simp, by simp⟩
  | setState c =>
    by_cases hc : c < m.calls ∧ i ∈ Schedule.named m v.thread c
    · have hd : (Schedule.rankStep m total r pCount v).dpu i = (v.dpu i).setState v.thread.changeState := by
        simp only [Schedule.rankStep, hpc, if_pos hc.1, if_pos hc.2]
      exact .inr (.inr (.inr (.inr ⟨c, rfl, hc.1, hc.2, hd⟩)))
    · have hd : (Schedule.rankStep m total r pCount v).dpu i = v.dpu i := by
        simp only [Schedule.rankStep, hpc]
        split_ifs with h1
        · exact if_neg fun h2 => hc ⟨h1, h2⟩
        · rfl
        · rfl
      exact .inl ⟨hd, by simp, by simp⟩
  | done =>
    have hd : (Schedule.rankStep m total r pCount v).dpu i = v.dpu i := by
      simp only [Schedule.rankStep, hpc]
    exact .inl ⟨hd, by simp, by simp⟩

/-- what becomes of a DPU in a move of its thread: the tasklets' side, whether it is launched, whether released -/
inductive Effect (m : Mode 2) (total r : ℕ) (q : RankState) (i : Slot) : Kernel → Bool → Bool → Prop where
  | none (hpc : q.thread.pc ≠ .load 0) (hl : q.thread.pc ≠ .launch) :
    Effect m total r q i (q.kernel i) (q.launched i) (q.released i)
  | launch (hpc : q.thread.pc = .launch) : Effect m total r q i (q.kernel i) true (q.released i)
  | send (k : Fin 2) (sg : ℕ) (hpc : q.thread.pc = .load k ∨ (q.thread.pc = .send k ∧ i ∈ q.thread.finish))
    (hsg : k = 0 → sg ∈ argsSent m total r q.thread) :
    Effect m total r q i { q.kernel i with args := Function.update (q.kernel i).args k sg } (q.launched i) (q.released i)
  | setState (c : ℕ) (hpc : q.thread.pc = .setState c) (hc : c < m.calls) (hi : i ∈ Schedule.named m q.thread c) :
    Effect m total r q i
      { q.kernel i with
        word := q.thread.changeState
        given := if q.thread.changeState = 2 ∧ (q.kernel i).word ≠ 2 then (q.kernel i).given ++ [(q.kernel i).args]
          else (q.kernel i).given }
      (q.launched i) (q.released i || decide (q.thread.changeState = 0))

theorem absorb_send (q : RankState) (i : Slot) (k : Fin 2) (sg : ℕ) :
    absorb (q.kernel i) ((q.view.dpu i).send k sg) =
      { q.kernel i with args := Function.update (q.kernel i).args k sg } := by
  have hargs : (fun j : Fin 2 => if j.val = k.val then sg else (q.kernel i).args j) =
      Function.update (q.kernel i).args k sg := by
    funext j
    by_cases hj : j = k
    · subst hj
      simp
    · rw [Function.update_of_ne hj, if_neg fun h => hj (Fin.ext h)]
  simp only [absorb, RankState.view, Schedule.Dpu.send, hargs, ne_eq, and_not_self, if_false]

theorem absorb_same (q : RankState) (i : Slot) {v : Schedule.Dpu 2 Unit} (hw : v.word = (q.kernel i).word)
    (hx : v.input = (q.kernel i).args) : absorb (q.kernel i) v = q.kernel i := by
  simp only [absorb, hw, hx, ne_eq, and_not_self, if_false]

theorem hostStep_effect (m : Mode 2) (total r pCount : ℕ) (q : RankState) (i : Slot) :
    Effect m total r q i ((hostStep m total r pCount q).kernel i) ((hostStep m total r pCount q).launched i)
      ((hostStep m total r pCount q).released i) := by
  simp only [hostStep]
  rcases rankStep_dpu m total r pCount q.view i with ⟨hv, h0, hl⟩ | ⟨hpc, hv⟩ | ⟨k, sg, hpc, hsg, hv⟩ | ⟨hpc, p, hv⟩ |
    ⟨c, hpc, hc, hi, hv⟩
  · have h : Effect m total r q i _ _ _ := .none h0 hl
    rw [hv, absorb_same q i rfl rfl]
    simpa [RankState.view] using h
  · have h : Effect m total r q i _ _ _ := .launch hpc
    rw [hv, absorb_same q i rfl rfl]
    simpa [RankState.view, Schedule.Dpu.boot] using h
  · have h : Effect m total r q i _ _ _ := .send k sg hpc hsg
    rw [hv, absorb_send]
    simpa [RankState.view, Schedule.Dpu.send] using h
  · have hne : q.thread.pc ≠ .load 0 ∧ q.thread.pc ≠ .launch := by
      rw [show q.thread.pc = .retrieve from hpc]
      exact ⟨by simp, by simp⟩
    have h : Effect m total r q i _ _ _ := .none hne.1 hne.2
    rw [hv, absorb_same q i rfl rfl]
    simpa [RankState.view, Schedule.Dpu.retrieve] using h
  · have h : Effect m total r q i _ _ _ := .setState c hpc hc hi
    rw [hv]
    by_cases h2 : q.thread.changeState = 2
    · simpa [RankState.view, absorb, Schedule.Dpu.setState, h2] using h
    · simpa [RankState.view, absorb, Schedule.Dpu.setState, h2] using h

theorem Effect.word {m : Mode 2} {total r : ℕ} {q : RankState} {i : Slot} {d : Kernel} {launched released : Bool}
    (he : Effect m total r q i d launched released)
    (hno : ∀ c, q.thread.pc = .setState c → c < m.calls → i ∉ Schedule.named m q.thread c) :
    d.word = (q.kernel i).word := by
  cases he with
  | none => rfl
  | launch => rfl
  | send => rfl
  | setState c hpc hc hn => exact absurd hn (hno c hpc hc)

/-- who is released was so before, or is now -/
theorem Effect.released {m : Mode 2} {total r : ℕ} {q : RankState} {i : Slot} {d : Kernel} {launched released : Bool}
    (he : Effect m total r q i d launched released) (hr : released = true) :
    q.released i = true ∨ ((∃ c, q.thread.pc = .setState c) ∧ q.thread.changeState = 0) := by
  cases he with
  | none => exact .inl hr
  | launch => exact .inl hr
  | send => exact .inl hr
  | setState c hpc hc hn => exact (Bool.or_eq_true_iff.mp hr).imp_right fun h0 => ⟨⟨c, hpc⟩, of_decide_eq_true h0⟩

/-! ## The tasklets -/

variable (numNode : ℕ → ℕ)

/-- not past the barrier behind the write of 2 -/
def Booting : Tasklets.Pc → Prop
  | .start => True
  | .bootBarrier => True
  | .inBootBarrier => True
  | _ => False

/-- **A DPU**, whatever the host writes to it. -/
structure KernelOk (d : Kernel) (released : Bool) : Prop where
  boot : (∀ t, Booting (d.pc t)) ∨ ∀ t, ¬ Booting (d.pc t)
  /-- once tasklet 0 has written 2, only the host makes the word 0 -/
  unreleased : released = false → (∀ t, d.pc t ≠ .ret) ∧ (d.pc 0 ≠ .start → d.word ≠ 0)
  returned : ∀ t, d.pc t = .ret → d.word ≠ 2
  awake : ∃ t, (kernelOf numNode).waitsAt (d.pc t) = none

variable {numNode}

/-- the program has one barrier -/
theorem waitsAt_of_ne {pc : Tasklets.Pc} (h : (kernelOf numNode).waitsAt pc ≠ some 0) :
    (kernelOf numNode).waitsAt pc = none := by
  cases pc with
  | inBootBarrier => exact absurd rfl h
  | inBarrier i => exact absurd rfl h
  | _ => rfl

/-- where the barrier lets a tasklet go on -/
theorem resume_spec {pc : Tasklets.Pc} (h : (kernelOf numNode).waitsAt pc = some 0) (u : Tasklet) :
    ¬ Booting ((kernelOf numNode).resume u pc) ∧ (kernelOf numNode).resume u pc ≠ .ret ∧
      (kernelOf numNode).waitsAt ((kernelOf numNode).resume u pc) = none := by
  cases pc with
  | inBootBarrier => exact ⟨id, nofun, rfl⟩
  | inBarrier i =>
    simp only [Tasklets.Kernel.resume]
    split_ifs
    · exact ⟨id, nofun, rfl⟩
    · exact ⟨id, nofun, rfl⟩
  | _ => exact absurd h nofun

/-- a tasklet past the first barrier moves; it returns only in a released DPU -/
theorem KernelOk.move {d d' : Kernel} {released : Bool} (h : KernelOk numNode d released) {t : Tasklet} {pc : Tasklets.Pc}
    (hpc : d'.pc = Function.update d.pc t pc) (hold : ¬ Booting (d.pc t))
    (hnew : ¬ Booting pc ∧ (kernelOf numNode).waitsAt pc = none) (hret : pc = .ret → released = true ∧ d.word = 0)
    (hword : d'.word = d.word ∨ (d'.word = 1 ∧ pc ≠ .ret)) : KernelOk numNode d' released where
  boot := by
    refine .inr fun u => ?_
    rw [hpc]
    by_cases hu : u = t
    · rw [hu, Function.update_self]
      exact hnew.1
    · rw [Function.update_of_ne hu]
      exact h.boot.resolve_left (fun hb => hold (hb t)) u
  unreleased hr := by
    obtain ⟨hno, hz⟩ := h.unreleased hr
    have hpast : d.pc 0 ≠ .start := by
      intro h0
      have hb := h.boot.resolve_left (fun hb => hold (hb t)) 0
      rw [h0] at hb
      exact hb trivial
    refine ⟨fun u => ?_, fun _ => ?_⟩
    · rw [hpc]
      by_cases hu : u = t
      · rw [hu, Function.update_self]
        intro hp
        exact absurd (hr.symm.trans (hret hp).1) nofun
      · rw [Function.update_of_ne hu]
        exact hno u
    · rcases hword with hw | ⟨hw, -⟩
      · rw [hw]
        exact hz hpast
      · rw [hw]
        exact one_ne_zero
  returned u hu := by
    rcases hword with hw | ⟨hw, -⟩
    · rw [hw]
      rw [hpc] at hu
      by_cases hut : u = t
      · rw [hut, Function.update_self] at hu
        rw [(hret hu).2]
        exact nofun
      · rw [Function.update_of_ne hut] at hu
        exact h.returned u hu
    · rw [hw]
      exact nofun
  awake := ⟨t, by rw [hpc, Function.update_self]; exact hnew.2⟩

/-- a tasklet arrives at the barrier -/
theorem KernelOk.arrive {d : Kernel} {released : Bool} (h : KernelOk numNode d released) {t : Tasklet} {inside : Tasklets.Pc}
    (hin : (kernelOf numNode).waitsAt inside = some 0) (hboot : Booting inside ↔ Booting (d.pc t))
    (hstart : d.pc t ≠ .start) : KernelOk numNode (d.arrive (kernelOf numNode) t inside) released := by
  have hpast : (∀ u, u ≠ t → (kernelOf numNode).waitsAt (d.pc u) = some 0) → d.pc 0 ≠ .start := by
    intro hall h0
    by_cases ht : 0 = t
    · exact hstart (ht ▸ h0)
    · have hw := hall 0 ht
      rw [h0] at hw
      exact absurd hw nofun
  have hret : inside ≠ .ret := by
    rintro rfl
    exact absurd hin nofun
  unfold Tasklets.Dpu.arrive
  split_ifs with hall
  · rw [hin] at hall
    have hres : ∀ u, (kernelOf numNode).waitsAt (if u = t then inside else d.pc u) = some 0 := by
      intro u
      split_ifs with hu
      · exact hin
      · exact hall u hu
    refine ⟨.inr fun u => (resume_spec (hres u) u).1, fun hr => ⟨fun u => (resume_spec (hres u) u).2.1, fun _ => ?_⟩,
      fun u hu => absurd hu (resume_spec (hres u) u).2.1, ⟨t, (resume_spec (hres t) t).2.2⟩⟩
    exact (h.unreleased hr).2 (hpast hall)
  · obtain ⟨u, hu⟩ := not_forall.mp hall
    obtain ⟨hut, hw⟩ := Classical.not_imp.mp hu
    rw [hin] at hw
    have hpcs : ∀ v, Booting (Function.update d.pc t inside v) ↔ Booting (d.pc v) := by
      intro v
      by_cases hv : v = t
      · rw [hv, Function.update_self]
        exact hboot
      · rw [Function.update_of_ne hv]
    have hback : ∀ v, Function.update d.pc t inside v = .ret → d.pc v = .ret := by
      intro v hv
      by_cases hvt : v = t
      · rw [hvt, Function.update_self] at hv
        exact absurd hv hret
      · rwa [Function.update_of_ne hvt] at hv
    refine ⟨h.boot.imp (fun hb v => (hpcs v).mpr (hb v)) fun hb v hv => hb v ((hpcs v).mp hv), fun hr => ⟨fun v hv => ?_, ?_⟩,
      fun v hv => h.returned v (hback v hv), ⟨u, ?_⟩⟩
    · exact (h.unreleased hr).1 v (hback v hv)
    · intro h0
      refine (h.unreleased hr).2 fun hs => ?_
      by_cases ht : 0 = t
      · exact hstart (ht ▸ hs)
      · exact h0 ((Function.update_of_ne ht _ _).trans hs)
    · simp only [Tasklets.Dpu.move, Function.update_of_ne hut]
      exact waitsAt_of_ne hw

/-- **A tasklet's step**, where the arguments are of a sub-graph with nodes. -/
theorem KernelOk.tasklet {d : Kernel} {released : Bool} (h : KernelOk numNode d released)
    (hne : numNode (d.args 0) ≠ 0) (t : Tasklet) (more : Bool) :
    KernelOk numNode (Tasklets.taskletStep (kernelOf numNode) d t more) released := by
  have hzero : ¬ Booting (d.pc t) → d.word = 0 → released = true := by
    intro hb hw
    by_contra hr
    have hpast : d.pc 0 ≠ .start := by
      intro h0
      have hb0 := h.boot.resolve_left (fun hall => hb (hall t)) 0
      rw [h0] at hb0
      exact hb0 trivial
    exact (h.unreleased (Bool.eq_false_of_not_eq_true hr)).2 hpast hw
  cases hpc : d.pc t with
  | start =>
    have hall := h.boot.resolve_right fun hb => hb t (by rw [hpc]; trivial)
    have hbooting : ∀ u, Booting (Function.update d.pc t .bootBarrier u) := by
      intro u
      by_cases hu : u = t
      · rw [hu, Function.update_self]
        trivial
      · rw [Function.update_of_ne hu]
        exact hall u
    have hno : ∀ u, Function.update d.pc t .bootBarrier u ≠ .ret := by
      intro u hu
      have hb := hbooting u
      rw [hu] at hb
      exact hb
    have hawake : (kernelOf numNode).waitsAt (Function.update d.pc t .bootBarrier t) = none := by
      rw [Function.update_self]
      rfl
    have hsome : (kernelOf numNode).bootBarrier.isSome = true := rfl
    simp only [Tasklets.taskletStep, hpc, hsome, if_true]
    split_ifs with hb
    · exact ⟨.inl hbooting, fun _ => ⟨hno, fun _ h => by cases h⟩, fun u hu => absurd hu (hno u), ⟨t, hawake⟩⟩
    · have ht : 0 ≠ t := fun h0 => hb (decide_eq_true h0.symm)
      refine ⟨.inl hbooting, fun hr => ⟨hno, fun h0 => (h.unreleased hr).2 fun hs => h0 ?_⟩, fun u hu => absurd hu (hno u),
        ⟨t, hawake⟩⟩
      exact (Function.update_of_ne ht _ _).trans hs
  | bootBarrier =>
    simp only [Tasklets.taskletStep, hpc]
    exact h.arrive rfl (by rw [hpc]; exact Iff.rfl) (by rw [hpc]; exact fun h => by cases h)
  | inBootBarrier =>
    simp only [Tasklets.taskletStep, hpc]
    exact h
  | outer =>
    have hb : ¬ Booting (d.pc t) := by rw [hpc]; exact id
    simp only [Tasklets.taskletStep, hpc]
    split_ifs with hw
    · exact h.move rfl hb ⟨id, rfl⟩ (fun h => by cases h) (.inl rfl)
    · exact h.move rfl hb ⟨id, rfl⟩ (fun _ => ⟨hzero hb (not_not.mp hw), not_not.mp hw⟩) (.inl rfl)
  | wait =>
    have hb : ¬ Booting (d.pc t) := by rw [hpc]; exact id
    simp only [Tasklets.taskletStep, hpc]
    split_ifs
    · exact h.move rfl hb ⟨id, rfl⟩ (fun h => by cases h) (.inl rfl)
    · exact h.move rfl hb ⟨id, rfl⟩ (fun h => by cases h) (.inl rfl)
  | check =>
    have hb : ¬ Booting (d.pc t) := by rw [hpc]; exact id
    simp only [Tasklets.taskletStep, hpc]
    split_ifs with hw
    · exact h.move rfl hb ⟨id, rfl⟩ (fun _ => ⟨hzero hb hw, hw⟩) (.inl rfl)
    · exact h.move rfl hb ⟨id, rfl⟩ (fun h => by cases h) (.inl rfl)
  | «at» i c =>
    have hb : ¬ Booting (d.pc t) := by rw [hpc]; exact id
    cases c with
    | nil =>
      simp only [Tasklets.taskletStep, hpc]
      exact h.arrive rfl (by rw [hpc]; exact Iff.rfl) (by rw [hpc]; exact fun h => by cases h)
    | op o rest =>
      have hempty : (kernelOf numNode).empty d.args = false := by simpa [kernelOf, pageRankKernel] using hne
      simp only [Tasklets.taskletStep, hpc, hempty, Bool.false_eq_true, and_false, if_false]
      have hupd : ((d.access (d.round t) o).move t (.at i rest)).pc = Function.update d.pc t (.at i rest) := by
        cases o <;> rfl
      refine h.move hupd hb ⟨id, rfl⟩ (fun h => by cases h) ?_
      cases o with
      | report => exact .inr ⟨rfl, fun h => by cases h⟩
      | _ => exact .inl rfl
    | loop body rest =>
      simp only [Tasklets.taskletStep, hpc]
      exact h.move rfl hb ⟨id, rfl⟩ (fun h => by cases h) (.inl rfl)
    | opt body rest =>
      simp only [Tasklets.taskletStep, hpc]
      exact h.move rfl hb ⟨id, rfl⟩ (fun h => by cases h) (.inl rfl)
  | inBarrier i =>
    simp only [Tasklets.taskletStep, hpc]
    exact h
  | ret =>
    simp only [Tasklets.taskletStep, hpc]
    exact h

/-! ## The host and its ranks -/

/-- **A move of the host**, where it restarts only what it has not released. -/
theorem KernelOk.host {m : Mode 2} {total r : ℕ} {q : RankState} {i : Slot} (h : KernelOk numNode (q.kernel i) (q.released i))
    (hi : i ∈ restarting m q.thread → q.released i = false) {d : Kernel} {launched released : Bool}
    (he : Effect m total r q i d launched released) : KernelOk numNode d released := by
  cases he with
  | none => exact h
  | launch => exact h
  | send k sg hpc hsg => exact ⟨h.boot, h.unreleased, h.returned, h.awake⟩
  | setState c hpc hc hn =>
    refine ⟨h.boot, fun hr => ?_, fun t ht h2 => ?_, h.awake⟩
    · obtain ⟨hr, hs⟩ := Bool.or_eq_false_iff.mp hr
      exact ⟨(h.unreleased hr).1, fun _ => of_decide_eq_false hs⟩
    · have hmem : i ∈ restarting m q.thread := by
        simp only [restarting, hpc, if_pos (show c < m.calls ∧ q.thread.changeState = 2 from ⟨hc, h2⟩)]
        exact hn
      exact (h.unreleased (hi hmem)).1 t ht

/-- before `OFIS_dpu_launch` has returned -/
def Loading : Schedule.Pc → Prop
  | .load _ => True
  | .launch => True
  | _ => False

variable (numNode)

/-- a DPU before and after its launch, where its thread stands at `pc` -/
structure Loaded (pc : Schedule.Pc) (d : Kernel) (launched released : Bool) : Prop where
  before : launched = false ↔ Loading pc
  args : pc ≠ .load 0 → numNode (d.args 0) ≠ 0
  fresh : launched = false → d = Tasklets.init d.args ∧ released = false

variable {numNode}

/-- a thread comes to its launch from the first transfers, and goes on from it to a poll -/
theorem hostStep_loading (m : Mode 2) (total r pCount : ℕ) (q : RankState) :
    Loading (hostStep m total r pCount q).thread.pc ↔ ∃ k, q.thread.pc = .load k := by
  have hview : q.view.thread = q.thread := rfl
  simp only [hostStep]
  cases hpc : q.thread.pc with
  | load k =>
    simp only [Schedule.rankStep, hview, hpc]
    refine iff_of_true ?_ ⟨k, rfl⟩
    split_ifs <;> trivial
  | launch =>
    simp only [Schedule.rankStep, hview, hpc]
    exact iff_of_false id (by simp)
  | poll d =>
    simp only [Schedule.rankStep, hview, hpc]
    refine iff_of_false ?_ (by simp)
    split_ifs <;> exact id
  | retrieve =>
    simp only [Schedule.rankStep, hview, hpc]
    exact iff_of_false id (by simp)
  | take =>
    simp only [Schedule.rankStep, hview, hpc]
    refine iff_of_false ?_ (by simp)
    split_ifs <;> exact id
  | send k =>
    simp only [Schedule.rankStep, hview, hpc]
    refine iff_of_false ?_ (by simp)
    split_ifs <;> exact id
  | setState c =>
    simp only [Schedule.rankStep, hview, hpc]
    refine iff_of_false ?_ (by simp)
    split_ifs <;> exact id
  | done =>
    simp only [Schedule.rankStep, hview, hpc]
    exact iff_of_false id (by simp)

theorem Loaded.host {m : Mode 2} {total r : ℕ} {q : RankState} {i : Slot} {pc : Schedule.Pc}
    (h : Loaded numNode q.thread.pc (q.kernel i) (q.launched i) (q.released i))
    (hok : ∀ sg ∈ argsSent m total r q.thread, numNode sg ≠ 0) (hpc' : Loading pc ↔ ∃ k, q.thread.pc = .load k)
    {d : Kernel} {launched released : Bool} (he : Effect m total r q i d launched released) :
    Loaded numNode pc d launched released := by
  have hload : q.thread.pc ≠ .launch → (q.launched i = false ↔ Loading pc) := by
    intro hne
    rw [h.before, hpc']
    constructor
    · intro hl
      cases hpc : q.thread.pc with
      | load k => exact ⟨k, rfl⟩
      | launch => exact absurd hpc hne
      | _ =>
        rw [hpc] at hl
        exact hl.elim
    · rintro ⟨k, hk⟩
      rw [hk]
      trivial
  cases he with
  | none hpc hl => exact ⟨hload hl, fun _ => h.args hpc, h.fresh⟩
  | launch hpc =>
    refine ⟨?_, fun _ => h.args (by rw [hpc]; nofun), nofun⟩
    rw [hpc', hpc]
    exact iff_of_false nofun nofun
  | send k sg hpc hsg =>
    refine ⟨hload ?_, fun _ => ?_, fun hl => ⟨?_, (h.fresh hl).2⟩⟩
    · rcases hpc with hpc | ⟨hpc, -⟩
      · rw [hpc]
        nofun
      · rw [hpc]
        nofun
    · by_cases hk : k = 0
      · subst hk
        simp only [Function.update_self]
        exact hok sg (hsg rfl)
      · simp only [Function.update_of_ne (Ne.symm hk)]
        refine h.args fun h0 => hk ?_
        rcases hpc with hpc | ⟨hpc, -⟩
        · exact Fin.ext (Schedule.Pc.load.inj (hpc.symm.trans h0))
        · exact absurd (hpc.symm.trans h0) nofun
    · rw [(h.fresh hl).1]
      rfl
  | setState c hpc hc hn =>
    have hne : q.thread.pc ≠ .launch := by
      rw [hpc]
      nofun
    refine ⟨hload hne, fun _ => h.args (by rw [hpc]; nofun), fun hl => ?_⟩
    have hloading := h.before.mp hl
    rw [hpc] at hloading
    exact hloading.elim

/-- a tasklet moves in a DPU that is launched -/
theorem Loaded.tasklet {pc : Schedule.Pc} {d : Kernel} {launched released : Bool} (h : Loaded numNode pc d launched released)
    (hl : launched = true) (t : Tasklet) (more : Bool) :
    Loaded numNode pc (Tasklets.taskletStep (kernelOf numNode) d t more) launched released := by
  refine ⟨h.before, fun hpc => ?_, fun hf => absurd (hl.symm.trans hf) nofun⟩
  rw [(Tasklets.tasklet_given (kernelOf numNode) d t more).2]
  exact h.args hpc

theorem Loaded.nodes {pc : Schedule.Pc} {d : Kernel} {launched released : Bool} (h : Loaded numNode pc d launched released)
    (hl : launched = true) : numNode (d.args 0) ≠ 0 := by
  refine h.args fun h0 => ?_
  have hf := h.before.mpr (by rw [h0]; trivial)
  exact absurd (hl.symm.trans hf) nofun

/-- **A careful host**: what shows that it restarts no DPU it has released. -/
structure Careful (m : Mode 2) (numNode : ℕ → ℕ) (H : RankState → Prop) : Prop where
  start : ∀ threads r, H ((init threads).rank r)
  restarting : ∀ q, H q → ∀ i ∈ restarting m q.thread, q.released i = false
  host : ∀ total r pCount q, H q → (∀ i, Loaded numNode q.thread.pc (q.kernel i) (q.launched i) (q.released i)) →
    H (hostStep m total r pCount q)
  kernel : ∀ q i t more, H q → (∀ i, Loaded numNode q.thread.pc (q.kernel i) (q.launched i) (q.released i)) →
    H (kernelStep numNode q i t more)

/-! ## DPU mode and IG mode -/

/-- the DPUs whose word the thread knows to be 1: it has read it and not yet written it -/
def relied (m : Mode 2) (t : Thread) : Finset Slot :=
  match t.pc with
  | .poll _ => Finset.univ.filter fun i => t.words i = 1
  | .retrieve => t.finish
  | .take => t.finish
  | .send _ => t.finish
  | .setState c => t.finish.filter fun i => c ≤ m.group i
  | _ => ∅

/-- the thread's variables -/
structure ThreadOk (m : Mode 2) (t : Thread) : Prop where
  closed : ∀ i j, i ∈ t.finish → m.group i = m.group j → j ∈ t.finish
  state : match t.pc with
    | .send _ => t.changeState = 2
    | .setState _ => t.changeState = 2 ∨ t.changeState = 0
    | _ => True

theorem ThreadOk.host {m : Mode 2} (hm : m.Lawful) {total r pCount : ℕ} {q : RankState} (h : ThreadOk m q.thread) :
    ThreadOk m (hostStep m total r pCount q).thread := by
  have hview : q.view.thread = q.thread := rfl
  have hs := h.state
  simp only [hostStep]
  cases hpc : q.thread.pc with
  | load k =>
    simp only [Schedule.rankStep, hview, hpc]
    split_ifs
    · exact ⟨h.closed, trivial⟩
    · exact ⟨h.closed, trivial⟩
  | launch =>
    simp only [Schedule.rankStep, hview, hpc]
    exact ⟨h.closed, trivial⟩
  | poll d =>
    simp only [Schedule.rankStep, hview, hpc]
    split_ifs
    · exact ⟨h.closed, trivial⟩
    · exact ⟨h.closed, trivial⟩
    · exact ⟨fun i j => hm.closed _ i j, trivial⟩
  | retrieve =>
    simp only [Schedule.rankStep, hview, hpc]
    exact ⟨h.closed, trivial⟩
  | take =>
    simp only [Schedule.rankStep, hview, hpc]
    split_ifs
    · exact ⟨h.closed, .inr rfl⟩
    · exact ⟨h.closed, rfl⟩
  | send k =>
    rw [hpc] at hs
    simp only [Schedule.rankStep, hview, hpc]
    split_ifs
    · exact ⟨h.closed, hs⟩
    · exact ⟨h.closed, .inl hs⟩
  | setState c =>
    rw [hpc] at hs
    simp only [Schedule.rankStep, hview, hpc]
    split_ifs
    · exact ⟨h.closed, hs⟩
    · exact ⟨h.closed, trivial⟩
    · exact ⟨h.closed, trivial⟩
  | done =>
    simp only [Schedule.rankStep, hview, hpc]
    exact h

/-- what the thread comes to rely on it has just read, or relied on before and not written -/
theorem relied_host {m : Mode 2} (hm : m.Lawful) {total r pCount : ℕ} {q : RankState} (h : ThreadOk m q.thread) {i : Slot}
    (hi : i ∈ relied m (hostStep m total r pCount q).thread) :
    (i ∈ relied m q.thread ∨ (q.kernel i).word = 1) ∧
      ∀ c, q.thread.pc = .setState c → c < m.calls → i ∉ Schedule.named m q.thread c := by
  have hview : q.view.thread = q.thread := rfl
  simp only [hostStep] at hi
  cases hpc : q.thread.pc with
  | load k =>
    simp only [Schedule.rankStep, hview, hpc] at hi
    split_ifs at hi <;> exact absurd hi (Finset.notMem_empty i)
  | launch =>
    simp only [Schedule.rankStep, hview, hpc, relied, Schedule.Thread.repoll] at hi
    exact absurd (Finset.mem_filter.mp hi).2 (by simp)
  | poll d =>
    refine ⟨?_, fun _ h => by cases h⟩
    simp only [Schedule.rankStep, hview, hpc] at hi
    split_ifs at hi
    · have hw := (Finset.mem_filter.mp hi).2
      simp only at hw
      split_ifs at hw
      · exact .inr hw
      · refine .inl ?_
        simp only [relied, hpc]
        exact Finset.mem_filter.mpr ⟨Finset.mem_univ i, hw⟩
    · exact absurd (Finset.mem_filter.mp hi).2 (by simp [Schedule.Thread.repoll])
    · refine .inl ?_
      simp only [relied, hpc]
      exact Finset.mem_filter.mpr ⟨Finset.mem_univ i, hm.one _ _ hi⟩
  | retrieve =>
    refine ⟨.inl ?_, fun _ h => by cases h⟩
    simp only [Schedule.rankStep, hview, hpc, relied] at hi ⊢
    exact hi
  | take =>
    refine ⟨.inl ?_, fun _ h => by cases h⟩
    simp only [Schedule.rankStep, hview, hpc] at hi
    simp only [relied, hpc]
    split_ifs at hi
    · exact (Finset.mem_filter.mp hi).1
    · exact hi
  | send k =>
    refine ⟨.inl ?_, fun _ h => by cases h⟩
    simp only [Schedule.rankStep, hview, hpc] at hi
    simp only [relied, hpc]
    split_ifs at hi
    · exact hi
    · exact (Finset.mem_filter.mp hi).1
  | setState c =>
    simp only [Schedule.rankStep, hview, hpc] at hi
    split_ifs at hi with hc hcount
    · obtain ⟨hf, hg⟩ := Finset.mem_filter.mp hi
      refine ⟨.inl ?_, fun c' hc' _ hn => ?_⟩
      · simp only [relied, hpc]
        exact Finset.mem_filter.mpr ⟨hf, Nat.le_of_succ_le hg⟩
      · obtain rfl : c = c' := Schedule.Pc.setState.inj hc'
        have heq := ((Schedule.mem_named m h.closed c i).mp hn).2
        omega
    · exact absurd (Finset.mem_filter.mp hi).2 (by simp [Schedule.Thread.repoll])
    · exact absurd hi (Finset.notMem_empty i)
  | done =>
    simp only [Schedule.rankStep, hview, hpc, relied] at hi
    exact absurd hi (Finset.notMem_empty i)

/-- **DPU mode and IG mode**: the host writes to a DPU only while its word is 1. -/
structure Relied (m : Mode 2) (numNode : ℕ → ℕ) (q : RankState) : Prop where
  thread : ThreadOk m q.thread
  inv : ∀ i, Tasklets.Inv (kernelOf numNode) [.normSum] (q.kernel i)
  given : ∀ i, ∀ x ∈ (q.kernel i).given, (kernelOf numNode).empty x = false
  released : ∀ i, q.released i = true → (q.kernel i).word = 0 ∧ (q.kernel i).given ≠ []
  word : ∀ i ∈ relied m q.thread, (q.kernel i).word = 1

/-- a DPU the thread relies on is not released -/
theorem Relied.unreleased {m : Mode 2} {q : RankState} (h : Relied m numNode q) {i : Slot} (hw : (q.kernel i).word = 1) :
    q.released i = false := by
  refine Bool.eq_false_iff.mpr fun hr => ?_
  exact absurd ((h.released i hr).1.symm.trans hw) nofun

/-- a set-state call names only DPUs the thread relies on -/
theorem Relied.named {m : Mode 2} {q : RankState} (h : Relied m numNode q) {i : Slot} {c : ℕ}
    (hpc : q.thread.pc = .setState c) (hi : i ∈ Schedule.named m q.thread c) : (q.kernel i).word = 1 := by
  obtain ⟨hf, hg⟩ := (Schedule.mem_named m h.thread.closed c i).mp hi
  refine h.word i ?_
  simp only [relied, hpc]
  exact Finset.mem_filter.mpr ⟨hf, hg.ge⟩

theorem empty_of_nodes {x : Fin 2 → ℕ} (h : numNode (x 0) ≠ 0) : (kernelOf numNode).empty x = false := by
  simpa [kernelOf, pageRankKernel] using h

/-- what the host does to a DPU whose word is 1, and to one that is not launched, keeps its tasklets in one stage -/
theorem Relied.effect {m : Mode 2} {total r : ℕ} {q : RankState} (h : Relied m numNode q) {i : Slot}
    (hload : Loaded numNode q.thread.pc (q.kernel i) (q.launched i) (q.released i)) {d : Kernel} {launched released : Bool}
    (he : Effect m total r q i d launched released) :
    Tasklets.Inv (kernelOf numNode) [.normSum] d ∧ (∀ x ∈ d.given, (kernelOf numNode).empty x = false) ∧
      (released = true → d.word = 0 ∧ d.given ≠ []) := by
  have hk : (kernelOf numNode).Lawful [.normSum] := Tasklets.pageRank_lawful _
  cases he with
  | none => exact ⟨h.inv i, h.given i, h.released i⟩
  | launch => exact ⟨h.inv i, h.given i, h.released i⟩
  | send k sg hpc hsg =>
    refine ⟨?_, h.given i, h.released i⟩
    rcases hpc with hpc | ⟨hpc, hf⟩
    · have hfresh := (hload.fresh (hload.before.mpr (by rw [hpc]; trivial))).1
      rw [hfresh]
      exact Tasklets.init_inv _ _ _
    · have hw : (q.kernel i).word = 1 := h.word i (by simpa only [relied, hpc] using hf)
      have hstep := Tasklets.step_inv hk (h.inv i) (h.given i) (.args (Function.update (q.kernel i).args k sg))
      simpa only [Tasklets.step, if_pos hw] using hstep
  | setState c hpc hc hn =>
    have hw := h.named hpc hn
    have hst := h.thread.state
    rw [hpc] at hst
    have hgiven := Tasklets.given_ne_nil (h.inv i) hw
    have hunrel := h.unreleased hw
    rcases hst with hst | hst
    · have hstep := Tasklets.step_inv hk (h.inv i) (h.given i) .restart
      have hlaunched : q.launched i = true := by
        refine Bool.eq_true_of_not_eq_false fun hf => ?_
        have hl := hload.before.mp hf
        rw [hpc] at hl
        exact hl
      simp only [Tasklets.step, if_pos hw] at hstep
      simp only [hst, hw, hunrel]
      refine ⟨?_, fun x hx => ?_, fun h => by cases h⟩
      · simpa [Tasklets.Dpu.go, hw] using hstep
      · have hx : x ∈ (q.kernel i).given ∨ x = (q.kernel i).args := by simpa using hx
        rcases hx with hx | rfl
        · exact h.given i x hx
        · exact empty_of_nodes (hload.nodes hlaunched)
    · have hstep := Tasklets.step_inv hk (h.inv i) (h.given i) .stop
      simp only [Tasklets.step, if_pos hw] at hstep
      simp only [hst]
      exact ⟨hstep, h.given i, fun _ => ⟨trivial, hgiven⟩⟩

/-- **DPU mode and IG mode** are careful: a DPU that is released rests at 0, and is not reported again. -/
theorem lawful_careful {m : Mode 2} (hm : m.Lawful) : Careful m numNode (Relied m numNode) where
  start threads r :=
    ⟨⟨fun i j hi => absurd hi (Finset.notMem_empty i), trivial⟩, fun _ => Tasklets.init_inv _ _ _,
      fun _ _ hx => absurd hx List.not_mem_nil, nofun, fun i hi => absurd hi (Finset.notMem_empty i)⟩
  restarting q h i hi := by
    cases hpc : q.thread.pc with
    | setState c =>
      simp only [restarting, hpc] at hi
      split_ifs at hi
      · exact h.unreleased (h.named hpc hi)
      · exact absurd hi (Finset.notMem_empty i)
    | _ =>
      simp only [restarting, hpc] at hi
      exact absurd hi (Finset.notMem_empty i)
  host total r pCount q h hload := by
    have he := fun i => h.effect (hload i) (hostStep_effect m total r pCount q i)
    refine ⟨h.thread.host hm, fun i => (he i).1, fun i => (he i).2.1, fun i => (he i).2.2, fun i hi => ?_⟩
    obtain ⟨hold, hno⟩ := relied_host hm h.thread hi
    have hw : (q.kernel i).word = 1 := hold.elim (h.word i) id
    exact ((hostStep_effect m total r pCount q i).word hno).trans hw
  kernel q i t more h hload := by
    have hk : (kernelOf numNode).Lawful [.normSum] := Tasklets.pageRank_lawful _
    unfold kernelStep
    split_ifs with hl
    · -- the other DPUs stay as they are
      have hother : ∀ {P : Slot → Kernel → Prop}, (∀ j, P j (q.kernel j)) →
          P i (Tasklets.taskletStep (kernelOf numNode) (q.kernel i) t more) →
          ∀ j, P j (Function.update q.kernel i (Tasklets.taskletStep (kernelOf numNode) (q.kernel i) t more) j) := by
        intro P hall hi j
        by_cases hj : j = i
        · subst hj
          rwa [Function.update_self]
        · rw [Function.update_of_ne hj]
          exact hall j
      have hrests := Tasklets.rests (h.inv i)
      refine ⟨h.thread, hother h.inv (Tasklets.tasklet_inv hk (h.inv i) (h.given i) t more),
        hother (P := fun _ d => ∀ x ∈ d.given, (kernelOf numNode).empty x = false) h.given fun x hx => ?_,
        hother (P := fun j d => q.released j = true → d.word = 0 ∧ d.given ≠ []) h.released fun hr => ?_,
        hother (P := fun j d => j ∈ relied m q.thread → d.word = 1) h.word fun hi => ?_⟩
      · rcases (Tasklets.tasklet_given (kernelOf numNode) (q.kernel i) t more).1 with hg | hg
        · rw [hg] at hx
          exact h.given i x hx
        · rw [hg] at hx
          rcases List.mem_append.mp hx with hx | hx
          · exact h.given i x hx
          · rw [List.mem_singleton.mp hx]
            exact empty_of_nodes ((hload i).nodes hl)
      · obtain ⟨hw, hg⟩ := h.released i hr
        obtain ⟨hw', hg'⟩ := hrests (by rw [hw]; decide) hg t more
        exact ⟨hw'.trans hw, hg' ▸ hg⟩
      · have hw := h.word i hi
        exact (hrests (by rw [hw]; decide) (Tasklets.given_ne_nil (h.inv i) hw) t more).1.trans hw
    · exact h

/-! ## Rank mode -/

/-- what a thread of rank mode knows of its variables: the poll reports all DPUs, and one release is the last -/
def RankThread (t : Thread) : Prop :=
  match t.pc with
  | .retrieve => t.finish = Finset.univ
  | .take => t.finish = Finset.univ
  | .send _ => t.changeState = 2
  | .setState _ => t.changeState = 0 → 64 ≤ t.finishCount
  | _ => True

theorem rankThread_host {total r pCount : ℕ} {q : RankState} (h : RankThread q.thread) :
    RankThread (hostStep rankMode total r pCount q).thread := by
  have hview : q.view.thread = q.thread := rfl
  unfold RankThread at h
  simp only [hostStep]
  cases hpc : q.thread.pc with
  | load k =>
    simp only [Schedule.rankStep, hview, hpc]
    split_ifs <;> trivial
  | launch =>
    simp only [Schedule.rankStep, hview, hpc]
    trivial
  | poll d =>
    simp only [Schedule.rankStep, hview, hpc]
    split_ifs with hd hnone
    · trivial
    · trivial
    · -- it reports all or none
      have hcollect : rankMode.collect q.thread.words = Schedule.collectRank q.thread.words := rfl
      simp only [RankThread]
      rw [hcollect, Schedule.collectRank] at hnone ⊢
      split_ifs at hnone ⊢
      · rfl
      · exact absurd rfl hnone
  | retrieve =>
    rw [hpc] at h
    simp only [Schedule.rankStep, hview, hpc]
    exact h
  | take =>
    rw [hpc] at h
    have hcard : q.thread.finish.card = 64 := by
      rw [h]
      rfl
    simp only [Schedule.rankStep, hview, hpc]
    split_ifs
    · simp only [RankThread, hcard]
      exact fun _ => Nat.le_add_left 64 _
    · rfl
  | send k =>
    rw [hpc] at h
    simp only [Schedule.rankStep, hview, hpc]
    split_ifs
    · exact h
    · exact fun h0 => absurd (h0.symm.trans h) (by simp)
  | setState c =>
    rw [hpc] at h
    simp only [Schedule.rankStep, hview, hpc]
    split_ifs
    · exact h
    · trivial
    · trivial
  | done =>
    simp only [Schedule.rankStep, hview, hpc]
    unfold RankThread
    rw [hpc]
    trivial

/-- **Rank mode**: the sum of the words may be 64 before all have finished, but the host writes 0 once, and then returns. -/
structure RankHost (q : RankState) : Prop where
  thread : RankThread q.thread
  released : ∀ i, q.released i = true →
    ((∃ c, q.thread.pc = .setState c) ∧ q.thread.changeState = 0) ∨ q.thread.pc = .done

theorem rankMode_careful : Careful rankMode numNode RankHost where
  start threads r := ⟨trivial, nofun⟩
  restarting q h i hi := by
    cases hpc : q.thread.pc with
    | setState c =>
      simp only [restarting, hpc] at hi
      split_ifs at hi with hc
      · refine Bool.eq_false_iff.mpr fun hr => ?_
        rcases h.released i hr with ⟨-, h0⟩ | hdone
        · exact absurd (h0.symm.trans hc.2) nofun
        · exact absurd (hpc.symm.trans hdone) nofun
      · exact absurd hi (Finset.notMem_empty i)
    | _ =>
      simp only [restarting, hpc] at hi
      exact absurd hi (Finset.notMem_empty i)
  host total r pCount q h hload := by
    refine ⟨rankThread_host h.thread, fun i hr => ?_⟩
    have hreleased : ((∃ c, q.thread.pc = .setState c) ∧ q.thread.changeState = 0) ∨ q.thread.pc = .done := by
      rcases (hostStep_effect rankMode total r pCount q i).released hr with hr | hr
      · exact h.released i hr
      · exact .inl hr
    have hview : q.view.thread = q.thread := rfl
    rcases hreleased with ⟨⟨c, hpc⟩, h0⟩ | hdone
    · have hcount : 64 ≤ q.thread.finishCount := by
        have hs := h.thread
        rw [RankThread, hpc] at hs
        exact hs h0
      simp only [hostStep, Schedule.rankStep, hview, hpc]
      split_ifs with hc hlt
      · exact .inl ⟨⟨c + 1, rfl⟩, h0⟩
      · exact absurd hcount (not_le.mpr hlt)
      · exact .inr rfl
    · simp only [hostStep, Schedule.rankStep, hview, hdone]
      exact .inr trivial
  kernel q i t more h hload := by
    unfold kernelStep
    split_ifs
    · exact ⟨h.thread, h.released⟩
    · exact h

/-! ## Runs -/

/-- `mode_exec` -/
inductive ModeExec where
  | rank
  | ig
  | dpu
deriving DecidableEq, Repr

def ModeExec.mode : ModeExec → Mode 2
  | .rank => rankMode
  | .ig => igMode
  | .dpu => dpuMode

theorem ModeExec.careful (numNode : ℕ → ℕ) (e : ModeExec) : ∃ H, Careful e.mode numNode H := by
  cases e with
  | rank => exact ⟨RankHost, rankMode_careful⟩
  | ig => exact ⟨Relied igMode numNode, lawful_careful igMode_lawful⟩
  | dpu => exact ⟨Relied dpuMode numNode, lawful_careful dpuMode_lawful⟩

/-- the step sends no arguments of a sub-graph without nodes -/
def SendsNodes (m : Mode 2) (numNode : ℕ → ℕ) (threads total : ℕ) (s : State) : Act → Prop
  | .thread r => r < threads → ∀ sg ∈ argsSent m total r (s.rank r).thread, numNode sg ≠ 0
  | .tasklet _ _ _ _ => True

/-- a rank in every state of a run -/
structure RankInv (numNode : ℕ → ℕ) (H : RankState → Prop) (q : RankState) : Prop where
  host : H q
  loaded : ∀ i, Loaded numNode q.thread.pc (q.kernel i) (q.launched i) (q.released i)
  kernel : ∀ i, KernelOk numNode (q.kernel i) (q.released i)

theorem RankInv.hostStep {m : Mode 2} {H : RankState → Prop} (hc : Careful m numNode H) {total r pCount : ℕ} {q : RankState}
    (h : RankInv numNode H q) (hok : ∀ sg ∈ argsSent m total r q.thread, numNode sg ≠ 0) :
    RankInv numNode H (hostStep m total r pCount q) where
  host := hc.host total r pCount q h.host h.loaded
  loaded i := (h.loaded i).host hok (hostStep_loading m total r pCount q) (hostStep_effect m total r pCount q i)
  kernel i := (h.kernel i).host (hc.restarting q h.host i) (hostStep_effect m total r pCount q i)

theorem RankInv.kernelStep {m : Mode 2} {H : RankState → Prop} (hc : Careful m numNode H) {q : RankState}
    (h : RankInv numNode H q) (i : Slot) (t : Tasklet) (more : Bool) : RankInv numNode H (kernelStep numNode q i t more) := by
  have hhost := hc.kernel q i t more h.host h.loaded
  unfold Release.kernelStep at hhost ⊢
  split_ifs at hhost ⊢ with hl
  · refine ⟨hhost, fun j => ?_, fun j => ?_⟩
    · by_cases hj : j = i
      · subst hj
        simp only [Function.update_self]
        exact (h.loaded j).tasklet hl t more
      · simp only [Function.update_of_ne hj]
        exact h.loaded j
    · by_cases hj : j = i
      · subst hj
        simp only [Function.update_self]
        exact (h.kernel j).tasklet ((h.loaded j).nodes hl) t more
      · simp only [Function.update_of_ne hj]
        exact h.kernel j
  · exact h

theorem init_inv {m : Mode 2} {H : RankState → Prop} (hc : Careful m numNode H) (threads r : ℕ) :
    RankInv numNode H ((init threads).rank r) where
  host := hc.start threads r
  loaded _ := ⟨iff_of_true rfl trivial, fun h => absurd rfl h, fun _ => ⟨rfl, rfl⟩⟩
  kernel _ := ⟨.inl fun _ => trivial, fun _ => ⟨fun _ => nofun, fun h => absurd rfl h⟩, nofun, ⟨0, rfl⟩⟩

theorem step_inv {m : Mode 2} {H : RankState → Prop} (hc : Careful m numNode H) {threads total : ℕ} {s : State}
    (h : ∀ r, RankInv numNode H (s.rank r)) {a : Act} (hok : SendsNodes m numNode threads total s a) (r : ℕ) :
    RankInv numNode H ((step m numNode threads total s a).rank r) := by
  cases a with
  | thread r' =>
    simp only [step]
    split_ifs with hlt
    · by_cases hr : r = r'
      · subst hr
        simp only [Function.update_self]
        exact (h r).hostStep hc (hok hlt)
      · simp only [Function.update_of_ne hr]
        exact h r
    · exact h r
  | tasklet r' i t more =>
    simp only [step]
    split_ifs
    · by_cases hr : r = r'
      · subst hr
        simp only [Function.update_self]
        exact (h r).kernelStep hc i t more
      · simp only [Function.update_of_ne hr]
        exact h r
    · exact h r

theorem run_inv {m : Mode 2} {H : RankState → Prop} (hc : Careful m numNode H) (threads total : ℕ) (acts : List Act)
    (hok : ∀ before a after, acts = before ++ a :: after →
      SendsNodes m numNode threads total (run m numNode threads total (init threads) before) a) (r : ℕ) :
    RankInv numNode H ((run m numNode threads total (init threads) acts).rank r) := by
  induction acts using List.reverseRecOn generalizing r with
  | nil => exact init_inv hc threads r
  | append_singleton acts a ih =>
    rw [run_snoc]
    refine step_inv hc (ih fun before a' after ha => ?_) (hok acts a [] rfl) r
    exact hok before a' (after ++ [a]) (by rw [ha, List.append_assoc]; rfl)

theorem RankInv.noneHalts {m : Mode 2} {H : RankState → Prop} (hc : Careful m numNode H) {q : RankState}
    (h : RankInv numNode H q) : NoneHalts m (kernelOf numNode) q := by
  have hthere : ∀ i, q.released i = false → ∀ t, (q.kernel i).pc t ≠ .ret := fun i hr => ((h.kernel i).unreleased hr).1
  refine ⟨fun i t ht => ?_, fun i hi => hthere i (hc.restarting q h.host i hi), fun i hi => hthere i ?_, fun i hw => ?_⟩
  · by_contra hr
    exact hthere i (Bool.eq_false_of_not_eq_true hr) t ht
  · unfold polledFor at hi
    split at hi
    · exact (Finset.mem_filter.mp hi).2
    · exact absurd hi (Finset.notMem_empty i)
  · exact ⟨fun t ht => (h.kernel i).returned t ht hw, (h.kernel i).awake⟩

/-- **No DPU halts unreleased**, in any mode, as long as no arguments of a sub-graph without nodes are sent. -/
theorem run_released (e : ModeExec) (numNode : ℕ → ℕ) (threads total : ℕ) (acts : List Act)
    (hok : ∀ before a after, acts = before ++ a :: after →
      SendsNodes e.mode numNode threads total (run e.mode numNode threads total (init threads) before) a) (r : ℕ) :
    NoneHalts e.mode (kernelOf numNode) ((run e.mode numNode threads total (init threads) acts).rank r) := by
  obtain ⟨H, hc⟩ := e.careful numNode
  exact (run_inv hc threads total acts hok r).noneHalts hc

/-- sub-graphs of 3 nodes each: a rank is launched, and tasklet 0 of DPU 5 writes 2 -/
theorem run_released_three_nodes :
    NoneHalts dpuMode (kernelOf fun _ => 3) ((run dpuMode (fun _ => 3) 1 70 (init 1)
      [.thread 0, .thread 0, .thread 0, .thread 0, .tasklet 0 5 0 true]).rank 0) := by
  refine run_released .dpu (fun _ => 3) 1 70 [.thread 0, .thread 0, .thread 0, .thread 0, .tasklet 0 5 0 true] ?_ 0
  intro before a after _
  cases a with
  | thread r => exact fun _ sg _ => nofun
  | tasklet r i t more => trivial

/-- every tasklet of DPU 0 of rank 0 moves `n` times -/
def turns (n : ℕ) : List Act := (List.finRange 16).flatMap fun t => List.replicate n (.tasklet 0 0 t true)

/-- sub-graph 0 has no nodes: a rank is launched, and the tasklets of DPU 0 start, meet at the barrier and go on -/
def emptyRun : State :=
  run dpuMode (fun sg => if sg = 0 then 0 else 3) 1 64 (init 1)
    (List.replicate 4 (.thread 0) ++ turns 1 ++ turns 1 ++ turns 3)

/-- all 16 tasklets have returned, and the word is 2 -/
theorem empty_halts : ¬ NoneHalts dpuMode (kernelOf fun sg => if sg = 0 then 0 else 3) (emptyRun.rank 0) := by
  intro h
  have hret : ∀ t, ((emptyRun.rank 0).kernel 0).pc t = .ret := by decide +kernel
  have hword : ((emptyRun.rank 0).kernel 0).word = 2 := by decide +kernel
  exact (h.word 0 hword).1 0 (hret 0)

end PimOfis.PageRank.Release
