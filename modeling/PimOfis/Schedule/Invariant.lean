/-
What holds in every state of the host loops of `Machine`, for every lawful mode.

A DPU goes through rounds: its inputs are sent, it is started, it finishes, its result is retrieved; in the end it is
released. `DpuOk` says where in a round a DPU is, given where its thread stands, and with it what its inputs, its word,
its result and its trace are.

Results:
- `dpu_step_ok`, `rank_step_ok`, `thread_step_ok`: `DpuOk` and `ThreadOk` survive a step of the DPU and of its thread;
- `count_step`: `finish_count` counts the DPUs that are released or about to be;
- `run_inv`: all of it holds in every state of a run, so at the end all DPUs are released (`Inv.released`).
-/
import Mathlib.Tactic
import PimOfis.Schedule.Machine

namespace PimOfis.Schedule

open Lib

variable {n : ℕ} {β : Type} (m : Mode n) (kernel : (Fin n → ℕ) → β) (total : ℕ)

/-! ## Rounds -/

/-- the first `k` transfers of piece `p` to a DPU; without `full` its argument is not sent where a test can prevent it -/
def sends (full : Bool) (p k : ℕ) : List Event :=
  (List.range k).flatMap fun j =>
    if j = 0 then (if full = true ∨ m.guardArg = false then [.send 0 p] else [])
    else if Passes m.guardData total p then [.send j p] else []

def retrieves (p : ℕ) : List Event := if Passes m.guardRetrieve total p then [.retrieve p] else []

/-- one round of a DPU with piece `p` -/
def round (x : Bool × ℕ) : List Event := sends m total x.1 x.2 n ++ [.start, .finish] ++ retrieves m total x.2

def rounds (rs : List (Bool × ℕ)) : List Event := rs.flatMap (round m total)

theorem rounds_snoc (rs : List (Bool × ℕ)) (x : Bool × ℕ) :
    rounds m total (rs ++ [x]) = rounds m total rs ++ round m total x := by
  simp [rounds]

/-! ## Where a DPU is in its round -/

/-- all inputs are those of piece `p` -/
def HasInputs (d : Dpu n β) (p : ℕ) : Prop := p < total → ∀ k, d.input k = p

/-- not launched yet, with the first `k` inputs of the rank's piece -/
structure Loading (t : Thread) (r : ℕ) (i : Slot) (d : Dpu n β) (k : ℕ) : Prop where
  booted : d.booted = false
  begun : d.begun = false
  word : d.word = 0
  part : 0 < k → t.part i = 64 * r + i.val
  input : ∀ j : Fin n, j.val < k → d.input j = 64 * r + i.val
  trace : d.trace = sends m total true (64 * r + i.val) k

structure Running (d : Dpu n β) (p : ℕ) : Prop where
  booted : d.booted = true
  word : (d.begun = false ∧ d.word = 0) ∨ (d.begun = true ∧ d.word = 2)
  input : HasInputs total d p
  trace : ∃ rs full, d.trace = rounds m total rs ++ sends m total full p n ++ [.start]

structure Finished (d : Dpu n β) (p : ℕ) : Prop where
  booted : d.booted = true
  begun : d.begun = true
  word : d.word = 1
  input : HasInputs total d p
  result : p < total → d.result = some (kernel fun _ => p)
  trace : ∃ rs full, d.trace = rounds m total rs ++ sends m total full p n ++ [.start, .finish]

structure Retrieved (d : Dpu n β) (p : ℕ) : Prop where
  booted : d.booted = true
  begun : d.begun = true
  word : d.word = 1
  input : HasInputs total d p
  trace : ∃ rs, d.trace = rounds m total rs

/-- the first `k` inputs are already those of the next piece, `p` -/
structure Refilling (d : Dpu n β) (p k : ℕ) : Prop where
  booted : d.booted = true
  begun : d.begun = true
  word : d.word = 1
  input : p < total → ∀ j : Fin n, j.val < k → d.input j = p
  trace : ∃ rs full, d.trace = rounds m total rs ++ sends m total full p k

structure Released (d : Dpu n β) : Prop where
  booted : d.booted = true
  begun : d.begun = true
  word : d.word = 0
  trace : ∃ rs, d.trace = rounds m total rs ++ [.release]

/-- left to itself by the host -/
def AtWork (d : Dpu n β) (p : ℕ) : Prop := Running m total d p ∨ Finished m kernel total d p ∨ Released m total d

/-- **Where a DPU is**, given where its thread stands. -/
def DpuOk (r : ℕ) (t : Thread) (i : Slot) (d : Dpu n β) : Prop :=
  match t.pc with
  | .load k => Loading m total t r i d k
  | .launch => Loading m total t r i d n
  | .poll _ => AtWork m kernel total d (t.part i) ∧ (t.words i = 1 → Finished m kernel total d (t.part i))
  | .retrieve => if i ∈ t.finish then Finished m kernel total d (t.part i) else AtWork m kernel total d (t.part i)
  | .take => if i ∈ t.finish then Retrieved m total d (t.part i) else AtWork m kernel total d (t.part i)
  | .send 0 => if i ∈ t.finish then Retrieved m total d (t.part i) else AtWork m kernel total d (t.part i)
  | .send (k + 1) =>
    if i ∈ t.finish then
      Refilling m total d (t.part i) (k + 1) ∧ (m.recount = true → t.part i = t.curr + position t.finish i)
    else AtWork m kernel total d (t.part i)
  | .setState c =>
    if i ∈ t.finish then
      if t.changeState = 2 then
        if m.group i < c then AtWork m kernel total d (t.part i) else Refilling m total d (t.part i) n
      else if m.group i < c then Released m total d else Retrieved m total d (t.part i)
    else AtWork m kernel total d (t.part i)
  | .done => AtWork m kernel total d (t.part i)

/-- the thread's own variables -/
structure ThreadOk (pCount : ℕ) (t : Thread) : Prop where
  closed : ∀ i j, i ∈ t.finish → m.group i = m.group j → j ∈ t.finish
  count : 0 < t.finishCount → total ≤ pCount
  pc : match t.pc with
    | .load k => k ≤ n
    | .poll c => c ≤ 8
    | .send k => k ≤ n ∧ t.changeState = 2
    | .setState c => c ≤ m.calls ∧ (t.changeState = 2 ∨ (t.changeState = 0 ∧ total ≤ pCount))
    | .done => total ≤ pCount ∧ 64 ≤ t.finishCount
    | _ => True

/-! ## A step of a DPU -/

theorem step_of_waiting {d : Dpu n β} (hb : d.booted = true) (hg : d.begun = true) (hw : d.word ≠ 2) :
    d.step kernel = d := by
  simp [Dpu.step, hb, hg, hw]

theorem atWork_step {d : Dpu n β} {p : ℕ} (h : AtWork m kernel total d p) :
    AtWork m kernel total (d.step kernel) p := by
  rcases h with h | h | h
  · rcases h.word with ⟨hg, hw⟩ | ⟨hg, hw⟩
    · refine Or.inl ⟨?_, Or.inr ?_, ?_, ?_⟩
      · simp [Dpu.step, h.booted, hg]
      · simp [Dpu.step, h.booted, hg]
      · intro hp k
        simpa [Dpu.step, h.booted, hg] using h.input hp k
      · simpa [Dpu.step, h.booted, hg] using h.trace
    · have hstep : d.step kernel =
          { d with word := 1, result := some (kernel d.input), trace := d.trace ++ [.finish] } := by
        simp [Dpu.step, h.booted, hg, hw]
      rw [hstep]
      refine Or.inr (Or.inl ⟨h.booted, hg, rfl, h.input, fun hp => ?_, ?_⟩)
      · have : d.input = fun _ => p := funext (h.input hp)
        simp only [this]
      · obtain ⟨rs, full, ht⟩ := h.trace
        exact ⟨rs, full, by simp [ht]⟩
  · rw [step_of_waiting kernel h.booted h.begun (by rw [h.word]; decide)]
    exact Or.inr (Or.inl h)
  · rw [step_of_waiting kernel h.booted h.begun (by rw [h.word]; decide)]
    exact Or.inr (Or.inr h)

/-- of the three, only a finished DPU holds 1 -/
theorem AtWork.finished_of_one {d : Dpu n β} {p : ℕ} (h : AtWork m kernel total d p) (hw : d.word = 1) :
    Finished m kernel total d p := by
  rcases h with h | h | h
  · rcases h.word with ⟨-, h0⟩ | ⟨-, h2⟩ <;> omega
  · exact h
  · exact absurd h.word (by omega)

/-- **A DPU's own step** moves it on in its round only while the host leaves it to itself. -/
theorem dpu_step_ok {r : ℕ} {t : Thread} {i : Slot} {d : Dpu n β} (h : DpuOk m kernel total r t i d) :
    DpuOk m kernel total r t i (d.step kernel) := by
  have hfin : ∀ {p}, Finished m kernel total d p → d.step kernel = d := fun hf =>
    step_of_waiting kernel hf.booted hf.begun (by rw [hf.word]; decide)
  have hret : ∀ {p}, Retrieved m total d p → d.step kernel = d := fun hf =>
    step_of_waiting kernel hf.booted hf.begun (by rw [hf.word]; decide)
  have href : ∀ {p k}, Refilling m total d p k → d.step kernel = d := fun hf =>
    step_of_waiting kernel hf.booted hf.begun (by rw [hf.word]; decide)
  have hrel : Released m total d → d.step kernel = d := fun hf =>
    step_of_waiting kernel hf.booted hf.begun (by rw [hf.word]; decide)
  have hload : ∀ {k}, Loading m total t r i d k → d.step kernel = d := fun hf => by simp [Dpu.step, hf.booted]
  unfold DpuOk at h ⊢
  cases hpc : t.pc with
  | load k => rw [hpc] at h; simp only at h ⊢; rwa [hload h]
  | launch => rw [hpc] at h; simp only at h ⊢; rwa [hload h]
  | poll c =>
    rw [hpc] at h
    simp only at h ⊢
    refine ⟨atWork_step m kernel total h.1, fun hw => ?_⟩
    rw [hfin (h.2 hw)]
    exact h.2 hw
  | retrieve =>
    rw [hpc] at h
    simp only at h ⊢
    split_ifs at h ⊢
    · rwa [hfin h]
    · exact atWork_step m kernel total h
  | take =>
    rw [hpc] at h
    simp only at h ⊢
    split_ifs at h ⊢
    · rwa [hret h]
    · exact atWork_step m kernel total h
  | send k =>
    rw [hpc] at h
    cases k with
    | zero =>
      simp only at h ⊢
      split_ifs at h ⊢
      · rwa [hret h]
      · exact atWork_step m kernel total h
    | succ k =>
      simp only at h ⊢
      split_ifs at h ⊢
      · rwa [href h.1]
      · exact atWork_step m kernel total h
  | setState c =>
    rw [hpc] at h
    simp only at h ⊢
    split_ifs at h ⊢
    · exact atWork_step m kernel total h
    · rwa [href h]
    · rwa [hrel h]
    · rwa [hret h]
    · exact atWork_step m kernel total h
  | done =>
    rw [hpc] at h
    exact atWork_step m kernel total h

/-! ## A step of a thread -/

theorem sends_succ (full : Bool) (p k : ℕ) : sends m total full p (k + 1) = sends m total full p k ++
    if k = 0 then (if full = true ∨ m.guardArg = false then [.send 0 p] else [])
    else if Passes m.guardData total p then [.send k p] else [] := by
  simp [sends, List.range_succ]

theorem rounds_retrieve {rs : List (Bool × ℕ)} {full : Bool} {p : ℕ} {tr : List Event}
    (h : tr = rounds m total rs ++ sends m total full p n ++ [.start, .finish]) :
    tr ++ retrieves m total p = rounds m total (rs ++ [(full, p)]) := by
  rw [rounds_snoc, h]
  simp [round]

theorem loading_step {t t' : Thread} {r k : ℕ} {i : Slot} {d : Dpu n β} (h : Loading m total t r i d k)
    (hpart : t'.part i = 64 * r + i.val) (hp : 64 * r + i.val < total) :
    Loading m total t' r i (d.send k (64 * r + i.val)) (k + 1) := by
  refine ⟨h.booted, h.begun, h.word, fun _ => hpart, fun j hj => ?_, ?_⟩
  · simp only [Dpu.send]
    split_ifs with hjk
    · rfl
    · exact h.input j (by omega)
  · rw [sends_succ, Dpu.send, h.trace]
    by_cases hk : k = 0
    · simp [hk]
    · simp [hk, Passes, hp]

theorem running_of_loading {t : Thread} {r : ℕ} {i : Slot} {d : Dpu n β} (h : Loading m total t r i d n) :
    Running m total d.boot (64 * r + i.val) :=
  ⟨rfl, Or.inl ⟨h.begun, h.word⟩, fun _ k => h.input k k.isLt, [], true, by simp [Dpu.boot, h.trace, rounds]⟩

theorem retrieved_of_finished {d : Dpu n β} {p : ℕ} (h : Finished m kernel total d p) (b : Prop) [Decidable b]
    (hb : b ↔ Passes m.guardRetrieve total p) : Retrieved m total (if b then d.retrieve p else d) p := by
  obtain ⟨rs, full, ht⟩ := h.trace
  have hnext := rounds_retrieve m total ht
  unfold retrieves at hnext
  split_ifs with hif
  · rw [if_pos (hb.mp hif)] at hnext
    exact ⟨h.booted, h.begun, h.word, h.input, _, hnext⟩
  · rw [if_neg (fun hp => hif (hb.mpr hp)), List.append_nil] at hnext
    exact ⟨h.booted, h.begun, h.word, h.input, _, hnext⟩

theorem refilling_send {d : Dpu n β} {p k : ℕ} (h : Refilling m total d p k) (hk : 0 < k) (b : Prop) [Decidable b]
    (hb : b ↔ Passes m.guardData total p) : Refilling m total (if b then d.send k p else d) p (k + 1) := by
  obtain ⟨rs, full, ht⟩ := h.trace
  have hnext : rounds m total rs ++ sends m total full p (k + 1) =
      d.trace ++ if Passes m.guardData total p then [.send k p] else [] := by
    rw [sends_succ, if_neg (by omega), ht, List.append_assoc]
  split_ifs with hif
  · refine ⟨h.booted, h.begun, h.word, fun hp j hj => ?_, rs, full, ?_⟩
    · simp only [Dpu.send]
      split_ifs with hjk
      · rfl
      · exact h.input hp j (by omega)
    · rw [hnext, if_pos (hb.mp hif)]
      rfl
  · have hn : ¬Passes m.guardData total p := fun hp => hif (hb.mpr hp)
    refine ⟨h.booted, h.begun, h.word, fun hp => absurd (fun _ => hp) hn, rs, full, ?_⟩
    rw [hnext, if_neg hn, List.append_nil]

theorem Refilling.of_eq {d : Dpu n β} {p k k' : ℕ} (h : Refilling m total d p k) (hk : k = k') :
    Refilling m total d p k' := hk ▸ h

/-- the argument is sent: from here on the DPU works for piece `p` -/
theorem refilling_arg {d : Dpu n β} {p₀ p : ℕ} (h : Retrieved m total d p₀) :
    Refilling m total (d.send 0 p) p 1 := by
  obtain ⟨rs, ht⟩ := h.trace
  refine ⟨h.booted, h.begun, h.word, fun _ j hj => ?_, rs, true, ?_⟩
  · simp [Dpu.send, show j.val = 0 by omega]
  · simp [Dpu.send, ht, sends]

/-- it is not sent, for there is no next piece: the DPU keeps its old one -/
theorem refilling_keep {d : Dpu n β} {p : ℕ} (h : Retrieved m total d p) (hg : m.guardArg = true) :
    Refilling m total d p 1 := by
  obtain ⟨rs, ht⟩ := h.trace
  refine ⟨h.booted, h.begun, h.word, fun hp j _ => h.input hp j, rs, false, ?_⟩
  simp [ht, sends, hg]

theorem running_of_refilling {d : Dpu n β} {p : ℕ} (h : Refilling m total d p n) : Running m total (d.setState 2) p := by
  obtain ⟨rs, full, ht⟩ := h.trace
  exact ⟨h.booted, Or.inr ⟨h.begun, rfl⟩, fun hp k => h.input hp k k.isLt, rs, full, by simp [Dpu.setState, ht]⟩

theorem released_of_retrieved {d : Dpu n β} {p : ℕ} (h : Retrieved m total d p) :
    Released m total (d.setState 0) := by
  obtain ⟨rs, ht⟩ := h.trace
  exact ⟨h.booted, h.begun, rfl, rs, by simp [Dpu.setState, ht]⟩

theorem mem_named {t : Thread} (hc : ∀ i j, i ∈ t.finish → m.group i = m.group j → j ∈ t.finish) (c : ℕ) (i : Slot) :
    i ∈ named m t c ↔ i ∈ t.finish ∧ m.group i = c := by
  simp only [named, Finset.mem_filter, Finset.mem_univ, true_and]
  constructor
  · rintro ⟨hi, j, hj, hjc⟩
    exact ⟨hc j i hj (hjc.trans hi.symm), hi⟩
  · rintro ⟨hi, hic⟩
    exact ⟨hic, i, hi, hic⟩

theorem mem_retrieved (t : Thread) (i : Slot) :
    i ∈ retrieved m total t ↔ i ∈ t.finish ∧ Passes m.guardRetrieve total (t.part i) := by
  simp [retrieved]

theorem mem_sent (t : Thread) (k : ℕ) (i : Slot) : i ∈ sent m total t k ↔
    i ∈ t.finish ∧ Passes (if k = 0 then m.guardArg else m.guardData) total (inputIndex m t k i) := by
  simp [sent]

/-- **A step of its thread** keeps every DPU of the rank where `DpuOk` puts it. -/
theorem rank_step_ok (hm : m.Lawful) {r pCount : ℕ} {q : RankState n β} {i : Slot}
    (hr : 64 * r + i.val < total) (ht : ThreadOk m total pCount q.thread)
    (h : DpuOk m kernel total r q.thread i (q.dpu i)) :
    DpuOk m kernel total r (rankStep m total r pCount q).thread i ((rankStep m total r pCount q).dpu i) := by
  have hpcOk := ht.pc
  unfold DpuOk at h
  cases hpc : q.thread.pc with
  | load k =>
    rw [hpc] at h hpcOk
    simp only at h hpcOk
    simp only [rankStep, hpc]
    split_ifs with hk
    · exact loading_step m total h rfl hr
    · have hkn : k = n := by omega
      rw [hkn] at h
      exact ⟨h.booted, h.begun, h.word, h.part, h.input, h.trace⟩
  | launch =>
    rw [hpc] at h
    simp only at h
    have hpart : q.thread.part i = 64 * r + i.val := h.part hm.inputs
    simp only [rankStep, hpc, DpuOk, Thread.repoll, hpart]
    exact ⟨Or.inl (running_of_loading m total h), fun hw => absurd hw (by decide)⟩
  | poll d =>
    rw [hpc] at h
    simp only at h
    simp only [rankStep, hpc]
    split_ifs with hd hnone
    · refine ⟨h.1, fun hw => ?_⟩
      simp only at hw
      split_ifs at hw with hid
      · exact h.1.finished_of_one m kernel total hw
      · exact h.2 hw
    · exact ⟨h.1, fun hw => absurd hw (by simp [Thread.repoll])⟩
    · simp only [DpuOk]
      split_ifs with hi
      · exact h.2 (hm.one _ _ hi)
      · exact h.1
  | retrieve =>
    rw [hpc] at h
    simp only at h
    simp only [rankStep, hpc, DpuOk]
    split_ifs at h ⊢ with hi hir hir
    · simpa only [if_pos hir] using
        retrieved_of_finished m kernel total h (i ∈ retrieved m total q.thread) (by simp [mem_retrieved, hi])
    · simpa only [if_neg hir] using
        retrieved_of_finished m kernel total h (i ∈ retrieved m total q.thread) (by simp [mem_retrieved, hi])
    · exact absurd ((mem_retrieved m total _ _).mp hir).1 hi
    · exact h
  | take =>
    rw [hpc] at h
    simp only at h
    simp only [rankStep, hpc]
    split_ifs with hend
    · simpa [DpuOk] using h
    · exact h
  | send k =>
    rw [hpc] at h hpcOk
    simp only at hpcOk
    cases k with
    | zero =>
      simp only at h
      simp only [rankStep, hpc, if_pos hm.inputs, DpuOk]
      by_cases hi : i ∈ q.thread.finish
      · rw [if_pos hi] at h ⊢
        by_cases hs : i ∈ sent m total q.thread 0
        · simp only [hs, and_self, if_true, inputIndex, true_or]
          exact ⟨refilling_arg m total h, fun _ => trivial⟩
        · have hn : ¬Passes m.guardArg total (inputIndex m q.thread 0 i) := fun hp =>
            hs ((mem_sent m total _ _ _).mpr ⟨hi, by simpa using hp⟩)
          have hg : m.guardArg = true := by
            by_contra hg
            exact hn fun hg' => absurd hg' hg
          simp only [hs, and_false, if_false]
          exact ⟨refilling_keep m total h hg, fun hrec => absurd hg (by simp [hm.recount hrec])⟩
      · rw [if_neg hi] at h ⊢
        have hs : i ∉ sent m total q.thread 0 := fun hs => hi ((mem_sent m total _ _ _).mp hs).1
        simpa only [hs, and_false, if_false] using h
    | succ k =>
      simp only at h
      simp only [rankStep, hpc]
      split_ifs with hk
      · simp only [DpuOk, false_and, if_false]
        by_cases hi : i ∈ q.thread.finish
        · rw [if_pos hi] at h ⊢
          have hidx : inputIndex m q.thread (k + 1) i = q.thread.part i := by
            by_cases hrec : m.recount = true
            · simp [inputIndex, hrec, h.2 hrec]
            · simp [inputIndex, hrec]
          refine ⟨?_, h.2⟩
          rw [hidx]
          exact refilling_send m total h.1 (by omega) _ (by simp [mem_sent, hi, hidx])
        · rw [if_neg hi] at h ⊢
          have hs : i ∉ sent m total q.thread (k + 1) := fun hs => hi ((mem_sent m total _ _ _).mp hs).1
          rwa [if_neg hs]
      · have hkn : k + 1 = n := by omega
        simp only [DpuOk, hpcOk.2, if_true, Nat.not_lt_zero, if_false]
        split_ifs at h ⊢
        · exact h.1.of_eq m total hkn
        · exact h
  | setState c =>
    rw [hpc] at h hpcOk
    simp only at h hpcOk
    have hnamed := mem_named m ht.closed c i
    simp only [rankStep, hpc]
    split_ifs with hc hcount
    · simp only [DpuOk]
      by_cases hi : i ∈ q.thread.finish
      · rw [if_pos hi] at h ⊢
        rcases lt_trichotomy (m.group i) c with hlt | heq | hgt
        · rw [if_neg fun hn => hlt.ne (hnamed.mp hn).2]
          simpa only [if_pos hlt, if_pos (show m.group i < c + 1 by omega)] using h
        · rw [if_pos (hnamed.mpr ⟨hi, heq⟩)]
          simp only [if_pos (show m.group i < c + 1 by omega)]
          simp only [if_neg (show ¬m.group i < c by omega)] at h
          rcases hpcOk.2 with hst | ⟨hst, -⟩
          · rw [if_pos hst] at h ⊢
            rw [hst]
            exact Or.inl (running_of_refilling m total h)
          · rw [hst] at h ⊢
            exact released_of_retrieved m total h
        · rw [if_neg fun hn => hgt.ne' (hnamed.mp hn).2]
          simpa only [if_neg (show ¬m.group i < c by omega), if_neg (show ¬m.group i < c + 1 by omega)] using h
      · rw [if_neg hi] at h ⊢
        rwa [if_neg fun hn => hi (hnamed.mp hn).1]
    all_goals
      have hlt : m.group i < c := by have := hm.group_lt i; omega
      have hwork : AtWork m kernel total (q.dpu i) (q.thread.part i) := by
        split_ifs at h
        · exact h
        · exact Or.inr (Or.inr h)
        · exact h
    · exact ⟨hwork, fun hw => absurd hw (by simp [Thread.repoll])⟩
    · exact hwork
  | done =>
    rw [hpc] at h
    simpa only [rankStep, hpc, DpuOk] using h

/-! ## The counter and the thread's variables -/

theorem takeStep_take {t : Thread} (hpc : t.pc = .take) (hfit : total + 64 ≤ 2 ^ 32) {pCount : ℕ} (hp : pCount < total) :
    takeStep total pCount t = pCount + t.finish.card := by
  have hcard : t.finish.card ≤ 64 := t.finish.card_le_univ
  rw [takeStep, hpc]
  simp only [if_neg (show ¬total ≤ pCount by omega)]
  exact Nat.mod_eq_of_lt (by omega)

theorem takeStep_of_le {t : Thread} {pCount : ℕ} (h : t.pc ≠ .take ∨ total ≤ pCount) :
    takeStep total pCount t = pCount := by
  unfold takeStep
  split
  · rw [if_pos (h.resolve_left fun hne => hne (by assumption))]
  · rfl

/-- the counter never goes back, and one take brings it past `total` by less than 64 -/
theorem takeStep_bounds (hfit : total + 64 ≤ 2 ^ 32) (t : Thread) {pCount : ℕ} (hp : pCount < total + 64) :
    pCount ≤ takeStep total pCount t ∧ takeStep total pCount t < total + 64 := by
  by_cases h : t.pc ≠ .take ∨ total ≤ pCount
  · rw [takeStep_of_le total h]
    exact ⟨le_refl _, hp⟩
  · obtain ⟨hpc, hlt⟩ := not_or.mp h
    have hcard : t.finish.card ≤ 64 := t.finish.card_le_univ
    rw [takeStep_take total (not_not.mp hpc) hfit (by omega)]
    omega

theorem ThreadOk.mono {pCount pCount' : ℕ} {t : Thread} (h : ThreadOk m total pCount t) (hle : pCount ≤ pCount') :
    ThreadOk m total pCount' t := by
  refine ⟨h.closed, fun hc => (h.count hc).trans hle, ?_⟩
  have hpc := h.pc
  revert hpc
  cases t.pc with
  | setState c => exact fun hpc => ⟨hpc.1, hpc.2.imp id fun h0 => ⟨h0.1, h0.2.trans hle⟩⟩
  | done => exact fun hpc => ⟨hpc.1.trans hle, hpc.2⟩
  | _ => exact id

/-- **The thread's own variables** survive its step. -/
theorem thread_step_ok (hm : m.Lawful) (hfit : total + 64 ≤ 2 ^ 32) {r pCount : ℕ} {q : RankState n β}
    (hp : pCount < total + 64) (h : ThreadOk m total pCount q.thread) :
    ThreadOk m total (takeStep total pCount q.thread) (rankStep m total r pCount q).thread := by
  refine ThreadOk.mono m total ?_ (takeStep_bounds total hfit q.thread hp).1
  have hpc := h.pc
  cases heq : q.thread.pc with
  | load k =>
    rw [heq] at hpc
    simp only [rankStep, heq]
    split_ifs with hk
    · exact ⟨h.closed, h.count, by simpa using hk⟩
    · exact ⟨h.closed, h.count, trivial⟩
  | launch =>
    simp only [rankStep, heq]
    exact ⟨h.closed, h.count, by simp [Thread.repoll]⟩
  | poll d =>
    simp only [rankStep, heq]
    split_ifs with hd
    · exact ⟨h.closed, h.count, by simpa using hd⟩
    · exact ⟨h.closed, h.count, by simp [Thread.repoll]⟩
    · exact ⟨fun i j => hm.closed _ i j, h.count, trivial⟩
  | retrieve =>
    simp only [rankStep, heq]
    exact ⟨h.closed, h.count, trivial⟩
  | take =>
    simp only [rankStep, heq]
    split_ifs with hend
    · exact ⟨h.closed, fun _ => hend, by simp [hend]⟩
    · exact ⟨h.closed, h.count, by simp⟩
  | send k =>
    rw [heq] at hpc
    simp only [rankStep, heq]
    split_ifs with hk
    · exact ⟨h.closed, h.count, by simpa using ⟨hk, hpc.2⟩⟩
    · exact ⟨h.closed, h.count, by simpa using Or.inl hpc.2⟩
  | setState c =>
    rw [heq] at hpc
    simp only [rankStep, heq]
    split_ifs with hc hcount
    · exact ⟨h.closed, h.count, by simpa using ⟨hc, hpc.2⟩⟩
    · exact ⟨h.closed, h.count, by simp [Thread.repoll]⟩
    · exact ⟨h.closed, h.count, h.count (by omega), by simpa using hcount⟩
  | done =>
    simp only [rankStep, heq]
    exact h

/-! ## Released DPUs -/

/-- the DPUs the thread is about to release -/
def releasing (t : Thread) : Finset Slot :=
  match t.pc with
  | .setState _ => if t.changeState = 0 then t.finish else ∅
  | _ => ∅

/-- the DPUs that are released or about to be -/
def counted (q : RankState n β) : Finset Slot :=
  (Finset.univ.filter fun i => (q.dpu i).begun = true ∧ (q.dpu i).word = 0) ∪ releasing q.thread

def CountOk (q : RankState n β) : Prop := q.thread.finishCount = (counted q).card

theorem mem_counted (q : RankState n β) (i : Slot) :
    i ∈ counted q ↔ ((q.dpu i).begun = true ∧ (q.dpu i).word = 0) ∨ i ∈ releasing q.thread := by
  simp [counted]

theorem step_halted (d : Dpu n β) :
    ((d.step kernel).begun = true ∧ (d.step kernel).word = 0) ↔ (d.begun = true ∧ d.word = 0) := by
  unfold Dpu.step
  split_ifs with hb hg hw
  · exact Iff.rfl
  · simp [hg]
  · simp [hw]
  · exact Iff.rfl

theorem count_dpuStep {q : RankState n β} (h : CountOk q) (i : Slot) : CountOk (q.dpuStep kernel i) := by
  have hset : counted (q.dpuStep kernel i) = counted q := by
    ext j
    rw [mem_counted, mem_counted]
    by_cases hj : j = i
    · subst hj
      simp [RankState.dpuStep, step_halted]
    · simp [RankState.dpuStep, hj]
  rw [CountOk, hset]
  exact h

/-- a step that moves no state word and begins or ends no release -/
theorem count_of_same {q q' : RankState n β} (h : CountOk q) (hcount : q'.thread.finishCount = q.thread.finishCount)
    (hdpu : ∀ i, (q'.dpu i).begun = (q.dpu i).begun ∧ (q'.dpu i).word = (q.dpu i).word)
    (hrel : releasing q'.thread = releasing q.thread) : CountOk q' := by
  have hset : counted q' = counted q := by
    ext i
    rw [mem_counted, mem_counted, (hdpu i).1, (hdpu i).2, hrel]
  rw [CountOk, hset, hcount]
  exact h

/-- **`finish_count`** goes up by the DPUs that the thread is then to release. -/
theorem count_step (hm : m.Lawful) {r pCount : ℕ} {q : RankState n β} (ht : ThreadOk m total pCount q.thread)
    (hd : ∀ i, DpuOk m kernel total r q.thread i (q.dpu i)) (h : CountOk q) :
    CountOk (rankStep m total r pCount q) := by
  have hpcOk := ht.pc
  cases hpc : q.thread.pc with
  | take =>
    simp only [rankStep, hpc]
    split_ifs with hend
    · have hset : counted (RankState.mk { q.thread with
          pc := .setState 0, changeState := 0, finishCount := q.thread.finishCount + q.thread.finish.card } q.dpu) =
          counted q ∪ q.thread.finish := by
        ext i
        rw [Finset.mem_union, mem_counted, mem_counted]
        simp [releasing, hpc]
      have hdisj : Disjoint (counted q) q.thread.finish := by
        refine Finset.disjoint_left.mpr fun i hi hf => ?_
        have hret := hd i
        simp only [DpuOk, hpc, if_pos hf] at hret
        rw [mem_counted] at hi
        rcases hi with ⟨-, h0⟩ | hrel
        · exact absurd h0 (by rw [hret.word]; decide)
        · simp [releasing, hpc] at hrel
      rw [CountOk, hset, Finset.card_union_of_disjoint hdisj, ← h]
    · exact count_of_same h rfl (fun _ => ⟨rfl, rfl⟩) (by simp [releasing, hpc])
  | setState c =>
    rw [hpc] at hpcOk
    have hrel : releasing q.thread = if q.thread.changeState = 0 then q.thread.finish else ∅ := by
      simp [releasing, hpc]
    simp only [rankStep, hpc]
    split_ifs with hc hcount
    · have hset : counted (RankState.mk { q.thread with pc := .setState (c + 1) }
          fun i => if i ∈ named m q.thread c then (q.dpu i).setState q.thread.changeState else q.dpu i) =
          counted q := by
        ext i
        rw [mem_counted, mem_counted, hrel]
        simp only [releasing]
        by_cases hi : i ∈ named m q.thread c
        · obtain ⟨hf, hg⟩ := (mem_named m ht.closed c i).mp hi
          rcases hpcOk.2 with hst | ⟨hst, -⟩
          · have hfill := hd i
            simp only [DpuOk, hpc, if_pos hf, if_pos hst, if_neg (show ¬m.group i < c by omega)] at hfill
            simp [hi, hst, Dpu.setState, hfill.word]
          · simp [hst, hf]
        · simp [hi]
      rw [CountOk, hset]
      exact h
    all_goals
      have hset : counted (RankState.mk q.thread.repoll q.dpu) = counted q := by
        ext i
        rw [mem_counted, mem_counted, hrel]
        simp only [releasing, Thread.repoll, Finset.notMem_empty, or_false]
        refine ⟨Or.inl, fun hi => hi.elim id fun hi => ?_⟩
        split_ifs at hi with hst
        · have hgone := hd i
          have hlt := hm.group_lt i
          simp only [DpuOk, hpc, if_pos hi, hst, if_pos (show m.group i < c by omega)] at hgone
          exact ⟨hgone.begun, hgone.word⟩
        · simp at hi
    · rw [CountOk, hset]
      exact h
    · have hdone : counted (RankState.mk { q.thread with pc := .done } q.dpu) = counted q := hset
      rw [CountOk, hdone]
      exact h
  | load k =>
    simp only [rankStep, hpc]
    split_ifs
    · exact count_of_same h rfl (fun _ => ⟨rfl, rfl⟩) (by simp [releasing, hpc])
    · exact count_of_same h rfl (fun _ => ⟨rfl, rfl⟩) (by simp [releasing, hpc])
  | launch =>
    simp only [rankStep, hpc]
    exact count_of_same h rfl (fun _ => ⟨rfl, rfl⟩) (by simp [releasing, hpc, Thread.repoll])
  | poll d =>
    simp only [rankStep, hpc]
    split_ifs
    · exact count_of_same h rfl (fun _ => ⟨rfl, rfl⟩) (by simp [releasing, hpc])
    · exact count_of_same h rfl (fun _ => ⟨rfl, rfl⟩) (by simp [releasing, hpc, Thread.repoll])
    · exact count_of_same h rfl (fun _ => ⟨rfl, rfl⟩) (by simp [releasing, hpc])
  | retrieve =>
    simp only [rankStep, hpc]
    refine count_of_same h rfl (fun i => ?_) (by simp [releasing, hpc])
    simp only
    split_ifs <;> exact ⟨rfl, rfl⟩
  | send k =>
    rw [hpc] at hpcOk
    simp only [rankStep, hpc]
    split_ifs
    · refine count_of_same h rfl (fun i => ?_) (by simp [releasing, hpc])
      simp only
      split_ifs <;> exact ⟨rfl, rfl⟩
    · exact count_of_same h rfl (fun _ => ⟨rfl, rfl⟩) (by simp [releasing, hpc, hpcOk.2])
  | done =>
    simp only [rankStep, hpc]
    exact h

/-! ## Runs -/

/-- every rank gets its first 64 pieces, and the counter does not wrap -/
structure Sized (threads total : ℕ) : Prop where
  enough : 64 * threads ≤ total
  fits : total + 64 ≤ 2 ^ 32

structure Inv (threads : ℕ) (s : State n β) : Prop where
  begun : 64 * threads ≤ s.pCount
  bound : s.pCount < total + 64
  dpu : ∀ r < threads, ∀ i, DpuOk m kernel total r (s.rank r).thread i ((s.rank r).dpu i)
  thread : ∀ r < threads, ThreadOk m total s.pCount (s.rank r).thread
  count : ∀ r < threads, CountOk (s.rank r)

theorem Sized.slot_lt {threads total r : ℕ} (h : Sized threads total) (hr : r < threads) (i : Slot) :
    64 * r + i.val < 64 * threads := by
  have := h.enough
  omega

theorem init_inv {threads : ℕ} (h : Sized threads total) : Inv m kernel total threads (init (n := n) (β := β) threads) := by
  have := h.enough
  refine ⟨le_refl _, by simp only [init]; omega, fun r hr i => ?_, fun r hr => ?_, fun r hr => ?_⟩
  · exact ⟨rfl, rfl, rfl, fun hk => absurd hk (lt_irrefl 0), fun j hj => absurd hj (Nat.not_lt_zero _), rfl⟩
  · exact ⟨fun i j hi => absurd hi (Finset.notMem_empty i), fun hc => absurd hc (lt_irrefl 0), Nat.zero_le n⟩
  · simp [CountOk, counted, releasing, init]

theorem update_ok {threads r : ℕ} {P : ℕ → RankState n β → Prop} {rank : ℕ → RankState n β} {q : RankState n β}
    (hq : P r q) (h : ∀ r' < threads, P r' (rank r')) : ∀ r' < threads, P r' (Function.update rank r q r') := by
  intro r' hr'
  by_cases heq : r' = r
  · subst heq
    rwa [Function.update_self]
  · rw [Function.update_of_ne heq]
    exact h r' hr'

/-- **One step**, of any thread or DPU. -/
theorem step_inv (hm : m.Lawful) {threads : ℕ} (hs : Sized threads total) {s : State n β}
    (h : Inv m kernel total threads s) (a : Act) : Inv m kernel total threads (step m kernel threads total s a) := by
  cases a with
  | thread r =>
    simp only [step]
    split_ifs with hr
    · have hmono := takeStep_bounds total hs.fits (s.rank r).thread h.bound
      refine ⟨h.begun.trans hmono.1, hmono.2, ?_, ?_, ?_⟩
      · apply update_ok (P := fun r q => ∀ i, DpuOk m kernel total r q.thread i (q.dpu i))
        · exact fun i => rank_step_ok m kernel total hm ((hs.slot_lt hr i).trans_le hs.enough) (h.thread r hr) (h.dpu r hr i)
        · exact h.dpu
      · apply update_ok (P := fun _ q => ThreadOk m total _ q.thread)
        · exact thread_step_ok m total hm hs.fits h.bound (h.thread r hr)
        · exact fun r' hr' => (h.thread r' hr').mono m total hmono.1
      · apply update_ok (P := fun _ q => CountOk q)
        · exact count_step m kernel total hm (h.thread r hr) (h.dpu r hr) (h.count r hr)
        · exact h.count
    · exact h
  | dpu r i =>
    simp only [step]
    split_ifs with hr
    · refine ⟨h.begun, h.bound, ?_, ?_, ?_⟩
      · apply update_ok (P := fun r q => ∀ i, DpuOk m kernel total r q.thread i (q.dpu i))
        · intro j
          by_cases hj : j = i
          · subst hj
            simpa only [RankState.dpuStep, Function.update_self] using dpu_step_ok m kernel total (h.dpu r hr j)
          · simpa only [RankState.dpuStep, Function.update_of_ne hj] using h.dpu r hr j
        · exact h.dpu
      · exact update_ok (P := fun _ q => ThreadOk m total _ q.thread) (h.thread r hr) h.thread
      · exact update_ok (P := fun _ q => CountOk q) (count_dpuStep kernel (h.count r hr) i) h.count
    · exact h

/-- **Every state of a run.** -/
theorem run_inv (hm : m.Lawful) {threads : ℕ} (hs : Sized threads total) (acts : List Act) :
    Inv m kernel total threads (run m kernel threads total (init threads) acts) := by
  induction acts using List.reverseRecOn with
  | nil => exact init_inv m kernel total hs
  | append_singleton acts a ih =>
    rw [run_snoc]
    exact step_inv m kernel total hm hs ih a

/-- a thread returns only when its 64 DPUs are released -/
theorem Inv.released {threads : ℕ} {s : State n β} (h : Inv m kernel total threads s) {r : ℕ} (hr : r < threads)
    (hdone : (s.rank r).thread.pc = .done) (i : Slot) : Released m total ((s.rank r).dpu i) := by
  have hcount : 64 ≤ (s.rank r).thread.finishCount := by
    have hpc := (h.thread r hr).pc
    rw [hdone] at hpc
    exact hpc.2
  have hall : counted (s.rank r) = Finset.univ := by
    apply Finset.eq_univ_of_card
    have hle := (counted (s.rank r)).card_le_univ
    have hcnt := h.count r hr
    unfold CountOk at hcnt
    simp only [Slot, Fintype.card_fin] at hle ⊢
    omega
  have hi : i ∈ counted (s.rank r) := hall ▸ Finset.mem_univ i
  rw [mem_counted] at hi
  have hwork := h.dpu r hr i
  simp only [DpuOk, hdone] at hwork
  rcases hi with ⟨hg, h0⟩ | hrel
  · rcases hwork with hw | hw | hw
    · rcases hw.word with ⟨hb, -⟩ | ⟨-, h2⟩
      · exact absurd hg (by simp [hb])
      · omega
    · exact absurd hw.word (by omega)
    · exact hw
  · simp [releasing, hdone] at hrel

end PimOfis.Schedule
