/-
How the pieces are shared out, and what becomes of their results.

Whatever the order in which threads take from the counter and DPUs finish, a piece goes to one DPU: it is pending there
from the take on and given with the argument's transfer. `Shares` says so of every state. A result that is retrieved is
in its slot, and stays there (`OutOk`).

Results:
- `run_shares`, `run_outOk`: both hold in every state of a run;
- `mem_given_rounds`: the rounds of a trace, read as pieces;
- `Returned.given`, `Returned.out`: when the threads have returned, every piece was given to a DPU and its result is in
  its slot.
-/
import Mathlib.Tactic
import PimOfis.Schedule.Invariant

namespace PimOfis.Schedule

open Lib

variable {n : ℕ} {β : Type} (m : Mode n) (kernel : (Fin n → ℕ) → β) (total : ℕ)

/-! ## Given and pending pieces -/

/-- the pieces whose arguments a DPU was sent, oldest first -/
def given (tr : List Event) : List ℕ :=
  tr.filterMap fun e =>
    match e with
    | .send 0 p => some p
    | _ => none

@[simp] theorem given_append (tr tr' : List Event) : given (tr ++ tr') = given tr ++ given tr' :=
  List.filterMap_append

@[simp] theorem given_nil : given [] = [] := rfl

@[simp] theorem given_send_zero (p : ℕ) : given [.send 0 p] = [p] := rfl

@[simp] theorem given_send_succ (k p : ℕ) : given [.send (k + 1) p] = [] := rfl

@[simp] theorem given_retrieve (p : ℕ) : given [.retrieve p] = [] := rfl

@[simp] theorem given_start_finish : given [.start, .finish] = [] := rfl

@[simp] theorem given_release : given [.release] = [] := rfl

theorem given_step (d : Dpu n β) : given (d.step kernel).trace = given d.trace := by
  unfold Dpu.step
  split_ifs
  · rfl
  · rfl
  · simp [given]
  · rfl

@[simp] theorem given_setState (d : Dpu n β) (st : ℕ) : given (d.setState st).trace = given d.trace := by
  simp only [Dpu.setState, given_append]
  split_ifs <;> simp [given]

@[simp] theorem given_boot (d : Dpu n β) : given d.boot.trace = given d.trace := by
  simp [Dpu.boot, given]

/-- DPU `i` is about to be given piece `p` -/
def Pending (r : ℕ) (t : Thread) (i : Slot) (p : ℕ) : Prop :=
  match t.pc with
  | .load 0 => p = 64 * r + i.val
  | .send 0 => i ∈ t.finish ∧ p = t.curr + position t.finish i
  | _ => False

def Owns (r : ℕ) (q : RankState n β) (i : Slot) (p : ℕ) : Prop :=
  p ∈ given (q.dpu i).trace ∨ Pending r q.thread i p

/-- no piece comes to a DPU twice -/
def Once (r : ℕ) (q : RankState n β) (i : Slot) : Prop :=
  (given (q.dpu i).trace).Nodup ∧ ∀ p, Pending r q.thread i p → p ∉ given (q.dpu i).trace

/-- **How the pieces are shared out.** -/
structure Shares (threads : ℕ) (s : State n β) : Prop where
  lt : ∀ r < threads, ∀ i p, Owns r (s.rank r) i p → p < s.pCount
  unique : ∀ r < threads, ∀ r' < threads, ∀ i i' p,
    Owns r (s.rank r) i p → Owns r' (s.rank r') i' p → r = r' ∧ i = i'
  once : ∀ r < threads, ∀ i, Once r (s.rank r) i
  cover : ∀ p < total, p < s.pCount → ∃ r < threads, ∃ i, Owns r (s.rank r) i p

/-- the thread takes new pieces -/
def Takes (pCount : ℕ) (t : Thread) : Prop := t.pc = .take ∧ pCount < total

/-- what a step that takes nothing does to the pieces of a DPU: it gives it those that are pending -/
structure Passed (r : ℕ) (q q' : RankState n β) (i : Slot) : Prop where
  back : ∀ p, Owns r q' i p → Owns r q i p
  keep : ∀ p < total, Owns r q i p → Owns r q' i p
  once : Once r q i → Once r q' i

theorem passed_of_same {r : ℕ} {q q' : RankState n β} {i : Slot}
    (hgiven : given (q'.dpu i).trace = given (q.dpu i).trace) (hold : ∀ p, ¬Pending r q.thread i p)
    (hnew : ∀ p, ¬Pending r q'.thread i p) : Passed total r q q' i := by
  refine ⟨fun p h => ?_, fun p _ h => ?_, fun h => ⟨?_, fun p hp => absurd hp (hnew p)⟩⟩
  · exact Or.inl (hgiven ▸ h.resolve_right (hnew p))
  · exact Or.inl (hgiven.symm ▸ h.resolve_right (hold p))
  · rw [hgiven]
    exact h.1

/-- the transfer of the arguments: all that is pending is given, if it passes the test -/
theorem passed_of_given {r : ℕ} {q q' : RankState n β} {i : Slot} {x : ℕ} {b c : Prop} [Decidable b]
    (hgiven : given (q'.dpu i).trace = given (q.dpu i).trace ++ if b then [x] else [])
    (hold : ∀ p, Pending r q.thread i p ↔ c ∧ p = x) (hnew : ∀ p, ¬Pending r q'.thread i p)
    (hbc : b → c) (hcb : c → x < total → b) : Passed total r q q' i := by
  refine ⟨fun p h => ?_, fun p hp h => ?_, fun h => ⟨?_, fun p hp => absurd hp (hnew p)⟩⟩
  · have hmem := h.resolve_right (hnew p)
    rw [hgiven, List.mem_append] at hmem
    rcases hmem with hmem | hmem
    · exact Or.inl hmem
    · split_ifs at hmem with hb
      · exact Or.inr ((hold p).mpr ⟨hbc hb, List.mem_singleton.mp hmem⟩)
      · exact absurd hmem List.not_mem_nil
  · refine Or.inl ?_
    rw [hgiven, List.mem_append]
    rcases h with h | h
    · exact Or.inl h
    · obtain ⟨hc, rfl⟩ := (hold p).mp h
      rw [if_pos (hcb hc hp)]
      exact Or.inr (List.mem_singleton_self p)
  · rw [hgiven]
    split_ifs with hb
    · have hx := h.2 x ((hold x).mpr ⟨hbc hb, rfl⟩)
      exact List.nodup_append.mpr ⟨h.1, List.nodup_singleton x, fun a ha b hb' => by
        rw [List.mem_singleton.mp hb']
        exact fun hax => hx (hax ▸ ha)⟩
    · rw [List.append_nil]
      exact h.1

/-- **A thread's step** that takes nothing. -/
theorem rankStep_passed (hn : 0 < n) {r pCount : ℕ} {q : RankState n β} (ht : ¬Takes total pCount q.thread) (i : Slot) :
    Passed total r q (rankStep m total r pCount q) i := by
  cases hpc : q.thread.pc with
  | load k =>
    cases k with
    | zero =>
      apply passed_of_given total (x := 64 * r + i.val) (b := True) (c := True)
      · simp [rankStep, hpc, hn, Dpu.send]
      · simp [Pending, hpc]
      · simp [Pending, rankStep, hpc, hn]
      · exact id
      · exact fun h _ => h
    | succ k =>
      apply passed_of_same
      · simp only [rankStep, hpc]
        split_ifs <;> simp [Dpu.send]
      · simp [Pending, hpc]
      · simp only [Pending, rankStep, hpc]
        split_ifs <;> simp
  | send k =>
    cases k with
    | zero =>
      apply passed_of_given total (x := inputIndex m q.thread 0 i) (b := i ∈ sent m total q.thread 0) (c := i ∈ q.thread.finish)
      · simp only [rankStep, hpc, if_pos hn]
        split_ifs <;> simp [Dpu.send]
      · simp [Pending, hpc, inputIndex]
      · simp [Pending, rankStep, hpc, hn]
      · exact fun h => ((mem_sent m total _ _ _).mp h).1
      · exact fun hi hx => (mem_sent m total _ _ _).mpr ⟨hi, fun _ => hx⟩
    | succ k =>
      apply passed_of_same
      · simp only [rankStep, hpc]
        split_ifs
        · simp only
          split_ifs <;> simp [Dpu.send]
        · rfl
      · simp [Pending, hpc]
      · simp only [Pending, rankStep, hpc]
        split_ifs <;> simp
  | take =>
    have hend : total ≤ pCount := by
      by_contra hlt
      exact ht ⟨hpc, by omega⟩
    apply passed_of_same
    · simp [rankStep, hpc, hend]
    · simp [Pending, hpc]
    · simp [Pending, rankStep, hpc, hend]
  | launch =>
    apply passed_of_same
    · simp [rankStep, hpc]
    · simp [Pending, hpc]
    · simp [Pending, rankStep, hpc, Thread.repoll]
  | poll d =>
    apply passed_of_same
    · simp only [rankStep, hpc]
      split_ifs <;> rfl
    · simp [Pending, hpc]
    · simp only [Pending, rankStep, hpc]
      split_ifs <;> simp [Thread.repoll]
  | retrieve =>
    apply passed_of_same
    · simp only [rankStep, hpc]
      split_ifs <;> simp [Dpu.retrieve]
    · simp [Pending, hpc]
    · simp [Pending, rankStep, hpc]
  | setState c =>
    apply passed_of_same
    · simp only [rankStep, hpc]
      split_ifs
      · simp only
        split_ifs <;> simp
      · rfl
      · rfl
    · simp [Pending, hpc]
    · simp only [Pending, rankStep, hpc]
      split_ifs <;> simp [Thread.repoll]
  | done =>
    apply passed_of_same
    · simp [rankStep, hpc]
    · simp [Pending, hpc]
    · simp [Pending, rankStep, hpc]

/-- **A take**: the finished DPUs get the next pieces, in index order. -/
theorem owns_take {r pCount : ℕ} {q : RankState n β} (ht : Takes total pCount q.thread) (i : Slot) (p : ℕ) :
    Owns r (rankStep m total r pCount q) i p ↔
      Owns r q i p ∨ (i ∈ q.thread.finish ∧ p = pCount + position q.thread.finish i) := by
  have hn : ¬total ≤ pCount := by have := ht.2; omega
  simp [Owns, Pending, rankStep, ht.1, hn]

theorem shares_take {threads : ℕ} (hs : Sized threads total) {s : State n β} (h : Shares total threads s) {r : ℕ}
    (hr : r < threads) (ht : Takes total s.pCount (s.rank r).thread) :
    Shares total threads (threadStep m total s r) := by
  have hcount : (threadStep m total s r).pCount = s.pCount + (s.rank r).thread.finish.card :=
    takeStep_take total ht.1 hs.fits ht.2
  have hself : ∀ i p, Owns r ((threadStep m total s r).rank r) i p ↔ Owns r (s.rank r) i p ∨
      (i ∈ (s.rank r).thread.finish ∧ p = s.pCount + position (s.rank r).thread.finish i) := by
    intro i p
    simp only [threadStep, Function.update_self]
    exact owns_take m total ht i p
  have hother : ∀ r', r' ≠ r → (threadStep m total s r).rank r' = s.rank r' := fun r' hne => Function.update_of_ne hne _ _
  -- whoever owned a piece still does; what is new lies at the counter or above
  have hcases : ∀ r' < threads, ∀ i p, Owns r' ((threadStep m total s r).rank r') i p → Owns r' (s.rank r') i p ∨
      (r' = r ∧ i ∈ (s.rank r).thread.finish ∧ p = s.pCount + position (s.rank r).thread.finish i) := by
    intro r' _ i p hown
    by_cases hne : r' = r
    · subst hne
      exact ((hself i p).mp hown).imp id fun hnew => ⟨rfl, hnew⟩
    · rw [hother r' hne] at hown
      exact Or.inl hown
  refine ⟨fun r' hr' i p hown => ?_, fun r₁ hr₁ r₂ hr₂ i₁ i₂ p h₁ h₂ => ?_, fun r' hr' i => ?_, fun p hp hlt => ?_⟩
  · rw [hcount]
    rcases hcases r' hr' i p hown with hold | ⟨-, hi, rfl⟩
    · have := h.lt r' hr' i p hold
      omega
    · have := position_lt hi
      omega
  · rcases hcases r₁ hr₁ i₁ p h₁ with h₁ | ⟨rfl, hi₁, rfl⟩
    · rcases hcases r₂ hr₂ i₂ p h₂ with h₂ | ⟨-, -, rfl⟩
      · exact h.unique r₁ hr₁ r₂ hr₂ i₁ i₂ p h₁ h₂
      · have := h.lt r₁ hr₁ i₁ _ h₁
        omega
    · rcases hcases r₂ hr₂ i₂ _ h₂ with h₂ | ⟨rfl, hi₂, heq⟩
      · have := h.lt r₂ hr₂ i₂ _ h₂
        omega
      · exact ⟨rfl, position_inj hi₁ hi₂ (by omega)⟩
  · by_cases hne : r' = r
    · subst hne
      have hgiven : ((threadStep m total s r').rank r').dpu i = (s.rank r').dpu i := by
        simp [threadStep, rankStep, ht.1, show ¬total ≤ s.pCount by have := ht.2; omega]
      refine ⟨hgiven ▸ (h.once r' hr i).1, fun p hp hmem => ?_⟩
      rw [hgiven] at hmem
      have hlt := h.lt r' hr i p (Or.inl hmem)
      simp only [threadStep, Function.update_self, Pending, rankStep, ht.1,
        if_neg (show ¬total ≤ s.pCount by have := ht.2; omega)] at hp
      omega
    · rw [hother r' hne]
      exact h.once r' hr' i
  · by_cases hold : p < s.pCount
    · obtain ⟨r', hr', i, hown⟩ := h.cover p hp hold
      by_cases hne : r' = r
      · subst hne
        exact ⟨r', hr', i, (hself i p).mpr (Or.inl hown)⟩
      · exact ⟨r', hr', i, by rwa [hother r' hne]⟩
    · obtain ⟨i, hi, hpos⟩ := position_surj (F := (s.rank r).thread.finish) (q := p - s.pCount) (by omega)
      exact ⟨r, hr, i, (hself i p).mpr (Or.inr ⟨hi, by omega⟩)⟩

/-- a step of one rank that only passes pieces on -/
theorem shares_passed {threads : ℕ} {s s' : State n β} (h : Shares total threads s) {r : ℕ} (hr : r < threads)
    (hcount : s'.pCount = s.pCount) (hother : ∀ r', r' ≠ r → s'.rank r' = s.rank r')
    (hpass : ∀ i, Passed total r (s.rank r) (s'.rank r) i) : Shares total threads s' := by
  have hback : ∀ r' i p, Owns r' (s'.rank r') i p → Owns r' (s.rank r') i p := by
    intro r' i p hown
    by_cases hne : r' = r
    · subst hne
      exact (hpass i).back p hown
    · rwa [hother r' hne] at hown
  refine ⟨fun r' hr' i p hown => ?_, fun r₁ hr₁ r₂ hr₂ i₁ i₂ p h₁ h₂ => ?_, fun r' hr' i => ?_, fun p hp hlt => ?_⟩
  · rw [hcount]
    exact h.lt r' hr' i p (hback r' i p hown)
  · exact h.unique r₁ hr₁ r₂ hr₂ i₁ i₂ p (hback r₁ i₁ p h₁) (hback r₂ i₂ p h₂)
  · by_cases hne : r' = r
    · subst hne
      exact (hpass i).once (h.once r' hr' i)
    · rw [hother r' hne]
      exact h.once r' hr' i
  · obtain ⟨r', hr', i, hown⟩ := h.cover p hp (hcount ▸ hlt)
    refine ⟨r', hr', i, ?_⟩
    by_cases hne : r' = r
    · subst hne
      exact (hpass i).keep p hp hown
    · rwa [hother r' hne]

theorem step_shares (hm : m.Lawful) {threads : ℕ} (hs : Sized threads total) {s : State n β}
    (h : Shares total threads s) (a : Act) : Shares total threads (step m kernel threads total s a) := by
  cases a with
  | thread r =>
    simp only [step]
    split_ifs with hr
    · by_cases ht : Takes total s.pCount (s.rank r).thread
      · exact shares_take m total hs h hr ht
      · refine shares_passed total h hr ?_ (fun r' hne => Function.update_of_ne hne _ _) fun i => ?_
        · apply takeStep_of_le
          by_cases hpc : (s.rank r).thread.pc = .take
          · exact Or.inr (by_contra fun hlt => ht ⟨hpc, by omega⟩)
          · exact Or.inl hpc
        · simp only [threadStep, Function.update_self]
          exact rankStep_passed m total hm.inputs ht i
    · exact h
  | dpu r i =>
    simp only [step]
    split_ifs with hr
    · refine shares_passed total h hr rfl (fun r' hne => Function.update_of_ne hne _ _) fun j => ?_
      have hgiven : given (((dpuStep kernel s r i).rank r).dpu j).trace = given ((s.rank r).dpu j).trace := by
        by_cases hj : j = i
        · subst hj
          simp [dpuStep, RankState.dpuStep, given_step]
        · simp [dpuStep, RankState.dpuStep, hj]
      have hthread : ((dpuStep kernel s r i).rank r).thread = (s.rank r).thread := by
        simp [dpuStep, RankState.dpuStep]
      refine ⟨fun p hown => ?_, fun p _ hown => ?_, fun honce => ?_⟩
      · rwa [Owns, hgiven, hthread] at hown
      · rwa [Owns, hgiven, hthread]
      · rwa [Once, hgiven, hthread]
    · exact h

theorem init_shares (threads : ℕ) : Shares total threads (init (n := n) (β := β) threads) := by
  refine ⟨fun r hr i p hown => ?_, fun r₁ _ r₂ _ i₁ i₂ p h₁ h₂ => ?_, fun r _ i => ?_, fun p _ hlt => ?_⟩
  all_goals simp only [init, Owns, Once, Pending, given_nil, List.not_mem_nil, false_or, not_false_iff] at *
  · omega
  · exact ⟨by omega, Fin.ext (by omega)⟩
  · exact ⟨List.nodup_nil, fun _ _ => trivial⟩
  · exact ⟨p / 64, by omega, ⟨p % 64, by omega⟩, by simp only; omega⟩

theorem run_shares (hm : m.Lawful) {threads : ℕ} (hs : Sized threads total) (acts : List Act) :
    Shares total threads (run m kernel threads total (init threads) acts) := by
  induction acts using List.reverseRecOn with
  | nil => exact init_shares total threads
  | append_singleton acts a ih =>
    rw [run_snoc]
    exact step_shares m kernel total hm hs ih a

/-! ## Results -/

theorem foldl_update {ι γ : Type} (F : ι → Prop) [DecidablePred F] (f : ι → ℕ) (g : ι → γ) (l : List ι) (o : ℕ → γ)
    (p : ℕ) :
    (l.foldl (fun o i => if F i then Function.update o (f i) (g i) else o) o p = o p ∧ ∀ i ∈ l, F i → f i ≠ p) ∨
    ∃ i ∈ l, F i ∧ f i = p ∧ l.foldl (fun o i => if F i then Function.update o (f i) (g i) else o) o p = g i := by
  induction l using List.reverseRecOn with
  | nil => exact Or.inl ⟨rfl, fun i hi => absurd hi List.not_mem_nil⟩
  | append_singleton l j ih =>
    simp only [List.foldl_append, List.foldl_cons, List.foldl_nil, List.mem_append, List.mem_singleton]
    by_cases hj : F j ∧ f j = p
    · refine Or.inr ⟨j, Or.inr rfl, hj.1, hj.2, ?_⟩
      rw [if_pos hj.1, ← hj.2, Function.update_self]
    · have hskip : ∀ o' : ℕ → γ, (if F j then Function.update o' (f j) (g j) else o') p = o' p := by
        intro o'
        split_ifs with hF
        · exact Function.update_of_ne (fun hp => hj ⟨hF, hp.symm⟩) _ _
        · rfl
      rw [hskip]
      rcases ih with ⟨heq, hne⟩ | ⟨i, hi, hF, hp, heq⟩
      · refine Or.inl ⟨heq, fun i hi hF hp => ?_⟩
        rcases hi with hi | rfl
        · exact hne i hi hF hp
        · exact hj ⟨hF, hp⟩
      · exact Or.inr ⟨i, Or.inl hi, hF, hp, heq⟩

theorem copyResults_spec (q : RankState n β) (F : Finset Slot) (out : ℕ → Option β) (p : ℕ) :
    (copyResults q F out p = out p ∧ ∀ i ∈ F, q.thread.part i ≠ p) ∨
    ∃ i ∈ F, q.thread.part i = p ∧ copyResults q F out p = (q.dpu i).result := by
  rcases foldl_update (· ∈ F) q.thread.part (fun i => (q.dpu i).result) (List.finRange 64) out p with h | h
  · exact Or.inl ⟨h.1, fun i hi => h.2 i (List.mem_finRange i) hi⟩
  · obtain ⟨i, -, h⟩ := h
    exact Or.inr ⟨i, h⟩

/-- **The result slots.** -/
structure OutOk (threads : ℕ) (s : State n β) : Prop where
  right : ∀ p < total, s.out p = none ∨ s.out p = some (kernel fun _ => p)
  kept : ∀ r < threads, ∀ i, ∀ p < total, .retrieve p ∈ ((s.rank r).dpu i).trace → s.out p = some (kernel fun _ => p)

/-- a retrieve puts the right result where its piece belongs, and no other result anywhere -/
theorem out_retrieve {r : ℕ} {q : RankState n β} (hpc : q.thread.pc = .retrieve)
    (hd : ∀ i, DpuOk m kernel total r q.thread i (q.dpu i)) (out : ℕ → Option β) {p : ℕ} (hp : p < total) :
    (outStep m total q out p = out p ∧ ∀ i ∈ retrieved m total q.thread, q.thread.part i ≠ p) ∨
    outStep m total q out p = some (kernel fun _ => p) := by
  simp only [outStep, hpc]
  rcases copyResults_spec q (retrieved m total q.thread) out p with h | ⟨i, hi, rfl, heq⟩
  · exact Or.inl h
  · have hf := hd i
    simp only [DpuOk, hpc, if_pos ((mem_retrieved m total _ _).mp hi).1] at hf
    exact Or.inr (heq.trans (hf.result hp))

theorem retrieve_mem_rankStep {r pCount : ℕ} {q : RankState n β} {i : Slot} {p : ℕ}
    (h : .retrieve p ∈ ((rankStep m total r pCount q).dpu i).trace) : .retrieve p ∈ (q.dpu i).trace ∨
      (q.thread.pc = .retrieve ∧ i ∈ retrieved m total q.thread ∧ p = q.thread.part i) := by
  cases hpc : q.thread.pc with
  | retrieve =>
    simp only [rankStep, hpc] at h
    split_ifs at h with hi
    · simpa [Dpu.retrieve, hi] using h
    · exact Or.inl h
  | load k =>
    simp only [rankStep, hpc] at h
    split_ifs at h
    · exact Or.inl (by simpa [Dpu.send] using h)
    · exact Or.inl h
  | launch => exact Or.inl (by simpa [rankStep, hpc, Dpu.boot] using h)
  | send k =>
    simp only [rankStep, hpc] at h
    split_ifs at h
    · simp only at h
      split_ifs at h
      · exact Or.inl (by simpa [Dpu.send] using h)
      · exact Or.inl h
    · exact Or.inl h
  | setState c =>
    simp only [rankStep, hpc] at h
    split_ifs at h
    · simp only [Dpu.setState] at h
      split_ifs at h
      · exact Or.inl (by simpa using h)
      · exact Or.inl (by simpa using h)
      · exact Or.inl h
    · exact Or.inl h
    · exact Or.inl h
  | poll d =>
    simp only [rankStep, hpc] at h
    split_ifs at h <;> exact Or.inl h
  | take =>
    simp only [rankStep, hpc] at h
    split_ifs at h <;> exact Or.inl h
  | done => exact Or.inl (by simpa [rankStep, hpc] using h)

theorem outStep_of_ne {q : RankState n β} (hpc : q.thread.pc ≠ .retrieve) (out : ℕ → Option β) :
    outStep m total q out = out := by
  unfold outStep
  split
  · exact absurd (by assumption) hpc
  · rfl

theorem step_outOk {threads : ℕ} {s : State n β} (hi : Inv m kernel total threads s) (h : OutOk kernel total threads s)
    (a : Act) : OutOk kernel total threads (step m kernel threads total s a) := by
  cases a with
  | thread r =>
    simp only [step]
    split_ifs with hr
    · have hout : ∀ p < total, (threadStep m total s r).out p = s.out p ∨
          (threadStep m total s r).out p = some (kernel fun _ => p) := by
        intro p hp
        by_cases hpc : (s.rank r).thread.pc = .retrieve
        · exact (out_retrieve m kernel total hpc (hi.dpu r hr) s.out hp).imp And.left id
        · exact Or.inl (congrFun (outStep_of_ne m total hpc s.out) p)
      refine ⟨fun p hp => ?_, fun r' hr' i p hp hmem => ?_⟩
      · rcases hout p hp with heq | heq
        · rw [heq]
          exact h.right p hp
        · exact Or.inr heq
      · have hold : .retrieve p ∈ ((s.rank r').dpu i).trace →
            (threadStep m total s r).out p = some (kernel fun _ => p) := by
          intro hmem
          rcases hout p hp with heq | heq
          · rw [heq]
            exact h.kept r' hr' i p hp hmem
          · exact heq
        by_cases hne : r' = r
        · subst hne
          simp only [threadStep, Function.update_self] at hmem
          rcases retrieve_mem_rankStep m total hmem with hmem | ⟨hpc, hret, rfl⟩
          · exact hold hmem
          · rcases out_retrieve m kernel total hpc (hi.dpu r' hr) s.out hp with ⟨-, hno⟩ | heq
            · exact absurd rfl (hno i hret)
            · exact heq
        · simp only [threadStep, Function.update_of_ne hne] at hmem
          exact hold hmem
    · exact h
  | dpu r i =>
    simp only [step]
    split_ifs with hr
    · refine ⟨h.right, fun r' hr' j p hp hmem => h.kept r' hr' j p hp ?_⟩
      by_cases hne : r' = r
      · subst hne
        by_cases hj : j = i
        · subst hj
          simp only [dpuStep, RankState.dpuStep, Function.update_self, Dpu.step] at hmem
          split_ifs at hmem
          · exact hmem
          · exact hmem
          · simpa using hmem
          · exact hmem
        · simpa [dpuStep, RankState.dpuStep, hj] using hmem
      · simpa only [dpuStep, Function.update_of_ne hne] using hmem
    · exact h

theorem run_outOk (hm : m.Lawful) {threads : ℕ} (hs : Sized threads total) (acts : List Act) :
    OutOk kernel total threads (run m kernel threads total (init threads) acts) := by
  induction acts using List.reverseRecOn with
  | nil => exact ⟨fun p _ => Or.inl rfl, fun r _ i p _ hmem => absurd hmem List.not_mem_nil⟩
  | append_singleton acts a ih =>
    rw [run_snoc]
    exact step_outOk m kernel total (run_inv m kernel total hm hs acts) ih a

/-! ## The rounds of a trace -/

theorem given_sends (full : Bool) (p k : ℕ) :
    given (sends m total full p (k + 1)) = if full = true ∨ m.guardArg = false then [p] else [] := by
  induction k with
  | zero =>
    rw [sends_succ, if_pos rfl]
    split_ifs <;> rfl
  | succ k ih =>
    rw [sends_succ, given_append, ih, if_neg (Nat.succ_ne_zero k)]
    split_ifs <;> simp

theorem given_round (hn : 0 < n) (x : Bool × ℕ) :
    given (round m total x) = if x.1 = true ∨ m.guardArg = false then [x.2] else [] := by
  obtain ⟨k, rfl⟩ : ∃ k, n = k + 1 := ⟨n - 1, by omega⟩
  rw [round, given_append, given_append, given_sends, retrieves]
  split_ifs <;> simp [given]

theorem mem_given_rounds (hn : 0 < n) (rs : List (Bool × ℕ)) (p : ℕ) :
    p ∈ given (rounds m total rs) ↔ ∃ x ∈ rs, x.2 = p ∧ (x.1 = true ∨ m.guardArg = false) := by
  induction rs with
  | nil => simp [rounds]
  | cons x rs ih =>
    have hcons : rounds m total (x :: rs) = round m total x ++ rounds m total rs := rfl
    rw [hcons, given_append, List.mem_append, ih, given_round m total hn]
    simp only [List.mem_cons, exists_eq_or_imp]
    apply or_congr_left
    split_ifs with hfull
    · simp only [hfull, and_true, List.mem_singleton]
      exact eq_comm
    · simp [hfull]

theorem retrieve_mem_rounds {rs : List (Bool × ℕ)} {x : Bool × ℕ} (hx : x ∈ rs) (hp : Passes m.guardRetrieve total x.2) :
    .retrieve x.2 ∈ rounds m total rs := by
  refine List.mem_flatMap.mpr ⟨x, hx, ?_⟩
  simp [round, retrieves, hp]

theorem retrieve_mem_sends {full : Bool} {p k q : ℕ} : .retrieve q ∉ sends m total full p k := by
  intro h
  obtain ⟨j, -, hj⟩ := List.mem_flatMap.mp h
  split_ifs at hj <;> simp at hj

theorem send_mem_sends {full : Bool} {p k j q : ℕ} (h : .send (j + 1) q ∈ sends m total full p k) :
    Passes m.guardData total q := by
  obtain ⟨l, -, hl⟩ := List.mem_flatMap.mp h
  split_ifs at hl with h0 hfull hpass
  · simp at hl
  · simp at hl
  · simp only [List.mem_singleton, Event.send.injEq] at hl
    rwa [hl.2]
  · simp at hl

/-- the guarded events of a round pass their tests -/
theorem guarded_of_mem {rs : List (Bool × ℕ)} {e : Event} (h : e ∈ rounds m total rs) :
    (∀ k p, e = .send (k + 1) p → Passes m.guardData total p) ∧
      (∀ p, e = .retrieve p → Passes m.guardRetrieve total p) := by
  obtain ⟨x, -, hx⟩ := List.mem_flatMap.mp h
  simp only [round, List.mem_append, List.mem_cons, List.not_mem_nil, or_false] at hx
  rcases hx with (hs | rfl | rfl) | hr
  · refine ⟨fun k p he => send_mem_sends m total (he ▸ hs), fun p he => ?_⟩
    exact absurd (he ▸ hs) (retrieve_mem_sends m total)
  · exact ⟨fun k p he => (by cases he), fun p he => (by cases he)⟩
  · exact ⟨fun k p he => (by cases he), fun p he => (by cases he)⟩
  · unfold retrieves at hr
    split_ifs at hr with hpass
    · rw [List.mem_singleton.mp hr]
      refine ⟨fun k p he => (by cases he), fun p he => ?_⟩
      rwa [← Event.retrieve.inj he]
    · exact absurd hr List.not_mem_nil

/-- a trace as far as it has come: rounds, the last of them perhaps unfinished, or a release after them -/
def InRounds (tr : List Event) : Prop :=
  ∃ rs, tr <+: rounds m total rs ++ [.release] ∧ given tr = given (rounds m total rs)

theorem inRounds_of_round {tr : List Event} (rs : List (Bool × ℕ)) (x : Bool × ℕ) (pre suf : List Event)
    (htr : tr = rounds m total rs ++ pre) (hx : pre ++ suf = round m total x) (hsuf : given suf = []) :
    InRounds m total tr := by
  refine ⟨rs ++ [x], ⟨suf ++ [.release], ?_⟩, ?_⟩
  · rw [rounds_snoc, ← hx, htr]
    simp
  · rw [rounds_snoc, ← hx, htr]
    simp [hsuf]

theorem sends_split (full : Bool) (p : ℕ) {j k : ℕ} (hj : 0 < j) (hjk : j ≤ k) :
    ∃ suf, sends m total full p k = sends m total full p j ++ suf ∧ given suf = [] := by
  induction k, hjk using Nat.le_induction with
  | base => exact ⟨[], by simp, rfl⟩
  | succ k hk ih =>
    obtain ⟨suf, heq, hnil⟩ := ih
    rw [sends_succ, if_neg (by omega), heq]
    split_ifs
    · obtain ⟨l, rfl⟩ : ∃ l, k = l + 1 := ⟨k - 1, by omega⟩
      exact ⟨suf ++ [.send (l + 1) p], by simp, by simp [hnil]⟩
    · exact ⟨suf, by simp, hnil⟩

theorem inRounds_of_sends {tr : List Event} (rs : List (Bool × ℕ)) {full : Bool} {p k : ℕ} (hk : 0 < k) (hkn : k ≤ n)
    (htr : tr = rounds m total rs ++ sends m total full p k) : InRounds m total tr := by
  obtain ⟨suf, heq, hnil⟩ := sends_split m total full p hk hkn
  apply inRounds_of_round m total rs (full, p) _ (suf ++ [.start, .finish] ++ retrieves m total p) htr
  · simp [round, heq]
  · unfold retrieves
    split_ifs
    · simp only [given_append, hnil, given_start_finish, given_retrieve, List.append_nil]
    · simp only [given_append, hnil, given_start_finish, List.append_nil]

theorem inRounds_of_loading {t : Thread} {r k : ℕ} {i : Slot} {d : Dpu n β} (h : Loading m total t r i d k) (hkn : k ≤ n) :
    InRounds m total d.trace := by
  rcases Nat.eq_zero_or_pos k with rfl | hk
  · exact ⟨[], by simp [h.trace, sends, rounds], by simp [h.trace, sends, rounds]⟩
  · exact inRounds_of_sends m total [] hk hkn h.trace

theorem inRounds_of_finished {d : Dpu n β} {p : ℕ} (h : Finished m kernel total d p) : InRounds m total d.trace := by
  obtain ⟨rs, full, htr⟩ := h.trace
  apply inRounds_of_round m total rs (full, p) (sends m total full p n ++ [.start, .finish]) (retrieves m total p)
  · rw [htr, List.append_assoc]
  · rfl
  · unfold retrieves
    split_ifs <;> rfl

theorem inRounds_of_atWork {d : Dpu n β} {p : ℕ} (h : AtWork m kernel total d p) : InRounds m total d.trace := by
  rcases h with h | h | h
  · obtain ⟨rs, full, htr⟩ := h.trace
    apply inRounds_of_round m total rs (full, p) (sends m total full p n ++ [.start]) (.finish :: retrieves m total p)
    · rw [htr, List.append_assoc]
    · simp [round]
    · unfold retrieves
      split_ifs <;> rfl
  · exact inRounds_of_finished m kernel total h
  · obtain ⟨rs, htr⟩ := h.trace
    exact ⟨rs, by rw [htr], by simp [htr]⟩

theorem inRounds_of_retrieved {d : Dpu n β} {p : ℕ} (h : Retrieved m total d p) : InRounds m total d.trace := by
  obtain ⟨rs, htr⟩ := h.trace
  exact ⟨rs, by simp [htr], by simp [htr]⟩

theorem inRounds_of_refilling {d : Dpu n β} {p k : ℕ} (h : Refilling m total d p k) (hk : 0 < k) (hkn : k ≤ n) :
    InRounds m total d.trace := by
  obtain ⟨rs, full, htr⟩ := h.trace
  exact inRounds_of_sends m total rs hk hkn htr

/-- **Every trace** is a sequence of rounds. -/
theorem trace_inRounds (hm : m.Lawful) {r pCount : ℕ} {t : Thread} {i : Slot} {d : Dpu n β}
    (ht : ThreadOk m total pCount t) (h : DpuOk m kernel total r t i d) : InRounds m total d.trace := by
  have hpcOk := ht.pc
  unfold DpuOk at h
  cases hpc : t.pc with
  | load k => rw [hpc] at h hpcOk; exact inRounds_of_loading m total h hpcOk
  | launch => rw [hpc] at h; exact inRounds_of_loading m total h le_rfl
  | poll c => rw [hpc] at h; exact inRounds_of_atWork m kernel total h.1
  | retrieve =>
    rw [hpc] at h
    simp only at h
    split_ifs at h
    · exact inRounds_of_finished m kernel total h
    · exact inRounds_of_atWork m kernel total h
  | take =>
    rw [hpc] at h
    simp only at h
    split_ifs at h
    · exact inRounds_of_retrieved m total h
    · exact inRounds_of_atWork m kernel total h
  | send k =>
    rw [hpc] at h hpcOk
    cases k with
    | zero =>
      simp only at h
      split_ifs at h
      · exact inRounds_of_retrieved m total h
      · exact inRounds_of_atWork m kernel total h
    | succ k =>
      simp only at h
      split_ifs at h
      · exact inRounds_of_refilling m total h.1 (by omega) hpcOk.1
      · exact inRounds_of_atWork m kernel total h
  | setState c =>
    rw [hpc] at h
    simp only at h
    split_ifs at h
    · exact inRounds_of_atWork m kernel total h
    · exact inRounds_of_refilling m total h hm.inputs le_rfl
    · exact inRounds_of_atWork m kernel total (p := t.part i) (Or.inr (Or.inr h))
    · exact inRounds_of_retrieved m total h
    · exact inRounds_of_atWork m kernel total h
  | done => rw [hpc] at h; exact inRounds_of_atWork m kernel total h

/-! ## Indexes -/

/-- the indexes stay below this: a take may pass the last piece by less than 64, which only the argument's test undoes -/
def limit : ℕ := if m.guardArg = true then total else total + 64

theorem total_le_limit : total ≤ limit m total := by
  unfold limit
  split_ifs <;> omega

structure BoundOk (t : Thread) : Prop where
  part : ∀ i, t.part i < limit m total
  curr : ∀ k, t.pc = .send k → t.curr < total

theorem inputIndex_lt (hm : m.Lawful) {t : Thread} (h : BoundOk m total t) {k : ℕ} (hpc : t.pc = .send k) {i : Slot}
    (hi : i ∈ sent m total t k) : inputIndex m t k i < limit m total := by
  obtain ⟨hf, hpass⟩ := (mem_sent m total _ _ _).mp hi
  have hcurr := h.curr k hpc
  have hpos : position t.finish i < 64 := (position_lt hf).trans_le t.finish.card_le_univ
  by_cases hrec : k = 0 ∨ m.recount = true
  · simp only [inputIndex, if_pos hrec] at hpass ⊢
    by_cases hg : m.guardArg = true
    · -- the test was made: a mode that counts anew does not test its arguments
      have hk : k = 0 := hrec.resolve_right fun h => absurd hg (by simp [hm.recount h])
      rw [if_pos hk] at hpass
      simpa [limit, hg] using hpass hg
    · simp only [limit, hg]
      simp only [Bool.false_eq_true, if_false]
      omega
  · simp only [inputIndex, if_neg hrec]
    exact h.part i

theorem rankStep_bound (hm : m.Lawful) {r pCount : ℕ} {q : RankState n β} (hr : ∀ i : Slot, 64 * r + i.val < total)
    (h : BoundOk m total q.thread) : BoundOk m total (rankStep m total r pCount q).thread := by
  cases hpc : q.thread.pc with
  | load k =>
    simp only [rankStep, hpc]
    split_ifs
    · exact ⟨fun i => (hr i).trans_le (total_le_limit m total), fun k hk => by cases hk⟩
    · exact ⟨h.part, fun k hk => by cases hk⟩
  | take =>
    simp only [rankStep, hpc]
    split_ifs with hend
    · exact ⟨h.part, fun k hk => by cases hk⟩
    · exact ⟨h.part, fun k _ => by simp only; omega⟩
  | send k =>
    simp only [rankStep, hpc]
    split_ifs
    · refine ⟨fun i => ?_, fun j _ => h.curr k hpc⟩
      simp only
      split_ifs with hi
      · exact inputIndex_lt m total hm h hpc hi.2
      · exact h.part i
    · exact ⟨h.part, fun j hj => by cases hj⟩
  | launch =>
    simp only [rankStep, hpc]
    exact ⟨h.part, fun k hk => by cases hk⟩
  | retrieve =>
    simp only [rankStep, hpc]
    exact ⟨h.part, fun k hk => by cases hk⟩
  | poll d =>
    simp only [rankStep, hpc]
    split_ifs <;> exact ⟨h.part, fun k hk => by cases hk⟩
  | setState c =>
    simp only [rankStep, hpc]
    split_ifs <;> exact ⟨h.part, fun k hk => by cases hk⟩
  | done =>
    simp only [rankStep, hpc]
    exact h

theorem mem_indexes {F : Finset Slot} {f : Slot → ℕ} {p : ℕ} : p ∈ indexes F f ↔ ∃ i ∈ F, f i = p := by
  simp [indexes, List.mem_map]

theorem uses_lt (hm : m.Lawful) {r : ℕ} {t : Thread} (hr : ∀ i : Slot, 64 * r + i.val < total) (h : BoundOk m total t) :
    ∀ p ∈ uses m total r t, p < limit m total := by
  intro p hp
  cases hpc : t.pc with
  | load k =>
    simp only [uses, hpc] at hp
    split_ifs at hp
    · obtain ⟨i, -, rfl⟩ := mem_indexes.mp hp
      exact (hr i).trans_le (total_le_limit m total)
    · exact absurd hp List.not_mem_nil
  | retrieve =>
    simp only [uses, hpc] at hp
    obtain ⟨i, -, rfl⟩ := mem_indexes.mp hp
    exact h.part i
  | send k =>
    simp only [uses, hpc] at hp
    split_ifs at hp
    · obtain ⟨i, hi, rfl⟩ := mem_indexes.mp hp
      exact inputIndex_lt m total hm h hpc hi
    · exact absurd hp List.not_mem_nil
  | _ =>
    simp only [uses, hpc] at hp
    exact absurd hp List.not_mem_nil

/-- every index used so far is below the limit -/
structure Bounded (threads : ℕ) (s : State n β) : Prop where
  thread : ∀ r < threads, BoundOk m total (s.rank r).thread
  used : ∀ p ∈ s.used, p < limit m total

theorem step_bounded (hm : m.Lawful) {threads : ℕ} (hs : Sized threads total) {s : State n β}
    (h : Bounded m total threads s) (a : Act) : Bounded m total threads (step m kernel threads total s a) := by
  cases a with
  | thread r =>
    simp only [step]
    split_ifs with hr
    · have hlt : ∀ i : Slot, 64 * r + i.val < total := fun i => (hs.slot_lt hr i).trans_le hs.enough
      refine ⟨?_, fun p hp => ?_⟩
      · exact update_ok (P := fun _ q => BoundOk m total q.thread) (rankStep_bound m total hm hlt (h.thread r hr)) h.thread
      · rcases List.mem_append.mp hp with hp | hp
        · exact h.used p hp
        · exact uses_lt m total hm hlt (h.thread r hr) p hp
    · exact h
  | dpu r i =>
    simp only [step]
    split_ifs with hr
    · exact ⟨update_ok (P := fun _ q => BoundOk m total q.thread) (h.thread r hr) h.thread, h.used⟩
    · exact h

theorem run_bounded (hm : m.Lawful) {threads : ℕ} (hs : Sized threads total) (acts : List Act) :
    Bounded m total threads (run m kernel threads total (init threads) acts) := by
  induction acts using List.reverseRecOn with
  | nil =>
    refine ⟨fun r hr => ⟨fun i => ?_, fun k hk => nomatch hk⟩, fun p hp => absurd hp List.not_mem_nil⟩
    exact (Nat.zero_le _).trans_lt ((hs.slot_lt hr i).trans_le (hs.enough.trans (total_le_limit m total)))
  | append_singleton acts a ih =>
    rw [run_snoc]
    exact step_bounded m kernel total hm hs ih a

/-! ## At the end -/

section Returned

variable {threads : ℕ} {s : State n β}

theorem Returned.counted (hdone : Returned threads s) (hi : Inv m kernel total threads s) (ht : 0 < threads) :
    total ≤ s.pCount := by
  have hpc := (hi.thread 0 ht).pc
  rw [hdone 0 ht] at hpc
  exact hpc.1

/-- the trace of a DPU whose thread has returned -/
theorem Returned.trace (hdone : Returned threads s) (hi : Inv m kernel total threads s) {r : ℕ} (hr : r < threads)
    (i : Slot) : ∃ rs, ((s.rank r).dpu i).trace = rounds m total rs ++ [.release] :=
  (hi.released m kernel total hr (hdone r hr) i).trace

/-- **Every piece was given** to a DPU when the threads have returned. -/
theorem Returned.given (hdone : Returned threads s) (hi : Inv m kernel total threads s) (h : Shares total threads s)
    (ht : 0 < threads) {p : ℕ} (hp : p < total) : ∃ r < threads, ∃ i, p ∈ given ((s.rank r).dpu i).trace := by
  obtain ⟨r, hr, i, hown⟩ := h.cover p hp (hp.trans_le (hdone.counted m kernel total hi ht))
  refine ⟨r, hr, i, hown.resolve_right ?_⟩
  simp [Pending, hdone r hr]

/-- **Its result is in its slot**. -/
theorem Returned.out (hdone : Returned threads s) (hm : m.Lawful) (hi : Inv m kernel total threads s)
    (h : Shares total threads s) (ho : OutOk kernel total threads s) (ht : 0 < threads) {p : ℕ} (hp : p < total) :
    s.out p = some (kernel fun _ => p) := by
  obtain ⟨r, hr, i, hmem⟩ := hdone.given m kernel total hi h ht hp
  obtain ⟨rs, htrace⟩ := hdone.trace m kernel total hi hr i
  rw [htrace, given_append, given_release, List.append_nil, mem_given_rounds m total hm.inputs] at hmem
  obtain ⟨x, hx, rfl, -⟩ := hmem
  apply ho.kept r hr i x.2 hp
  rw [htrace]
  exact List.mem_append_left _ (retrieve_mem_rounds m total hx fun _ => hp)

end Returned

end PimOfis.Schedule
