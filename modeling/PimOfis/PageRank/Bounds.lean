/-
Whether the indexes of IG mode and rank mode stay below `num_SGs`.

Neither loop tests an index: a finished group takes as many sub-graphs as it has DPUs, and `dpu_args`, `SGs` and
`result_rank` have `num_SGs` entries. With as many sub-graphs as DPUs nothing is ever taken. With more, some order of
completions makes the last take of IG mode pass the end: rounds of a whole rank bring the counter to the end in steps of
64, and where they would meet it exactly, a first round of one IG pair shifts them by 16.

Results:
- `kept_run`: with as many sub-graphs as DPUs only the first 64 indexes of a rank are used;
- `turn`: a round of thread 0 that takes sub-graphs for the IG pairs chosen;
- `overrun`: with more sub-graphs than DPUs a run of IG mode uses an index past the end;
- `inBounds_iff`: both modes stay in bounds if and only if there are as many sub-graphs as DPUs.
-/
import Mathlib.Tactic
import PimOfis.PageRank.Schedule

namespace PimOfis.PageRank

open Schedule Lib

variable {β : Type} (kernel : (Fin 2 → ℕ) → β) (numSGs : ℕ)

/-- the indexes used are below `num_SGs`, and all sub-graphs are assigned and retrieved in the end -/
structure InBounds (threads : ℕ) (s : State 2 β) : Prop where
  used : ∀ p ∈ s.used, p < numSGs
  served : Returned threads s → ∀ p < numSGs, ∃ r < threads, ∃ i,
    .send 0 p ∈ ((s.rank r).dpu i).trace ∧ .retrieve p ∈ ((s.rank r).dpu i).trace

/-! ## As many sub-graphs as DPUs -/

section Kept

variable {n : ℕ} {γ : Type} (m : Mode n) (kernel' : (Fin n → ℕ) → γ) (total : ℕ)

/-- a thread that takes nothing -/
structure Kept (t : Thread) : Prop where
  part : ∀ i, t.part i < total
  noSend : ∀ k, t.pc ≠ .send k

theorem kept_rankStep {r pCount : ℕ} {q : RankState n γ} (hr : ∀ i : Slot, 64 * r + i.val < total)
    (hend : total ≤ pCount) (h : Kept total q.thread) : Kept total (rankStep m total r pCount q).thread := by
  cases hpc : q.thread.pc with
  | load k =>
    simp only [rankStep, hpc]
    split_ifs
    · exact ⟨hr, fun k hk => by cases hk⟩
    · exact ⟨h.part, fun k hk => by cases hk⟩
  | take =>
    simp only [rankStep, hpc, if_pos hend]
    exact ⟨h.part, fun k hk => by cases hk⟩
  | send k => exact absurd hpc (h.noSend k)
  | launch =>
    simp only [rankStep, hpc]
    exact ⟨h.part, fun k hk => by cases hk⟩
  | retrieve =>
    simp only [rankStep, hpc]
    exact ⟨h.part, fun k hk => by cases hk⟩
  | poll d =>
    simp only [rankStep, hpc]
    split_ifs <;> exact ⟨h.part, fun k hk => by cases hk⟩
  | setState c =>
    simp only [rankStep, hpc]
    split_ifs <;> exact ⟨h.part, fun k hk => by cases hk⟩
  | done =>
    simp only [rankStep, hpc]
    exact h

theorem kept_uses {r : ℕ} {t : Thread} (hr : ∀ i : Slot, 64 * r + i.val < total) (h : Kept total t) :
    ∀ p ∈ uses m total r t, p < total := by
  intro p hp
  cases hpc : t.pc with
  | load k =>
    simp only [uses, hpc] at hp
    split_ifs at hp
    · obtain ⟨i, -, rfl⟩ := mem_indexes.mp hp
      exact hr i
    · exact absurd hp List.not_mem_nil
  | retrieve =>
    simp only [uses, hpc] at hp
    obtain ⟨i, -, rfl⟩ := mem_indexes.mp hp
    exact h.part i
  | send k => exact absurd hpc (h.noSend k)
  | _ =>
    simp only [uses, hpc] at hp
    exact absurd hp List.not_mem_nil

/-- in every state of a run -/
structure KeptAll (threads : ℕ) (s : State n γ) : Prop where
  pCount : s.pCount = total
  thread : ∀ r < threads, Kept total (s.rank r).thread
  used : ∀ p ∈ s.used, p < total

theorem kept_run {threads : ℕ} (htotal : total = 64 * threads) (acts : List Act) :
    KeptAll total threads (run m kernel' threads total (init threads) acts) := by
  have hlt : ∀ r < threads, ∀ i : Slot, 64 * r + i.val < total := fun r hr i => by omega
  induction acts using List.reverseRecOn with
  | nil =>
    exact ⟨htotal.symm, fun r hr => ⟨fun i => (Nat.zero_le _).trans_lt (hlt r hr i), fun k hk => nomatch hk⟩,
      fun p hp => absurd hp List.not_mem_nil⟩
  | append_singleton acts a ih =>
    rw [run_snoc]
    cases a with
    | thread r =>
      simp only [step]
      split_ifs with hr
      · refine ⟨?_, ?_, fun p hp => ?_⟩
        · exact (takeStep_of_le total (Or.inr ih.pCount.ge)).trans ih.pCount
        · exact update_ok (P := fun _ q => Kept total q.thread)
            (kept_rankStep m total (hlt r hr) ih.pCount.ge (ih.thread r hr)) ih.thread
        · rcases List.mem_append.mp hp with hp | hp
          · exact ih.used p hp
          · exact kept_uses m total (hlt r hr) (ih.thread r hr) p hp
      · exact ih
    | dpu r i =>
      simp only [step]
      split_ifs with hr
      · exact ⟨ih.pCount, update_ok (P := fun _ q => Kept total q.thread) (ih.thread r hr) ih.thread, ih.used⟩
      · exact ih

end Kept

/-! ## What is assigned and retrieved then -/

theorem mem_given {tr : List Event} {p : ℕ} : p ∈ given tr ↔ .send 0 p ∈ tr := by
  simp only [given, List.mem_filterMap]
  constructor
  · rintro ⟨e, he, hp⟩
    split at hp
    · cases hp
      exact he
    · cases hp
  · exact fun h => ⟨_, h, rfl⟩

theorem igMode_served {threads : ℕ} (ht : 0 < threads) (hs : Sized threads numSGs) (acts : List Act)
    (hdone : Returned threads (run igMode kernel threads numSGs (init threads) acts)) {p : ℕ} (hp : p < numSGs) :
    ∃ r < threads, ∃ i,
      .send 0 p ∈ (((run igMode kernel threads numSGs (init threads) acts).rank r).dpu i).trace ∧
      .retrieve p ∈ (((run igMode kernel threads numSGs (init threads) acts).rank r).dpu i).trace := by
  have hi := run_inv igMode kernel numSGs igMode_lawful hs acts
  have hsh := run_shares igMode kernel numSGs igMode_lawful hs acts
  obtain ⟨r, hr, i, hmem⟩ := hdone.given igMode kernel numSGs hi hsh ht hp
  obtain ⟨rs, htrace⟩ := hdone.trace igMode kernel numSGs hi hr i
  refine ⟨r, hr, i, mem_given.mp hmem, ?_⟩
  rw [htrace, given_append, given_release, List.append_nil, mem_given_rounds igMode numSGs (by decide)] at hmem
  obtain ⟨x, hx, rfl, -⟩ := hmem
  rw [htrace]
  exact List.mem_append_left _ (retrieve_mem_rounds igMode numSGs hx fun h => nomatch h)

/-- a rank in rank mode: what its DPUs were sent, and that they were retrieved together -/
structure RankKept (r : ℕ) (q : RankState 2 β) : Prop where
  sent : q.thread.pc ≠ .load 0 → ∀ i : Slot, q.thread.part i = 64 * r + i.val ∧ .send 0 (64 * r + i.val) ∈ (q.dpu i).trace
  whole : q.thread.pc = .retrieve → q.thread.finish = Finset.univ
  taken : (q.thread.pc = .take ∨ (∃ c, q.thread.pc = .setState c) ∨ q.thread.pc = .done) →
    ∀ i : Slot, .retrieve (64 * r + i.val) ∈ (q.dpu i).trace

theorem rankKept_step {r pCount : ℕ} {q : RankState 2 β} (hend : numSGs ≤ pCount) (hsend : ∀ k, q.thread.pc ≠ .send k)
    (h : RankKept r q) : RankKept r (rankStep rankMode numSGs r pCount q) := by
  cases hpc : q.thread.pc with
  | load k =>
    simp only [rankStep, hpc]
    split_ifs with hk
    · refine ⟨fun _ i => ⟨rfl, ?_⟩, fun hp => (by cases hp), fun hp => ?_⟩
      · rcases Nat.eq_zero_or_pos k with rfl | hpos
        · simp [Dpu.send]
        · have hne : q.thread.pc ≠ .load 0 := by simp [hpc]; omega
          exact List.mem_append_left _ (h.sent hne i).2
      · rcases hp with hp | ⟨c, hp⟩ | hp <;> cases hp
    · have hne : q.thread.pc ≠ .load 0 := by simp [hpc]; omega
      refine ⟨fun _ => h.sent hne, fun hp => (by cases hp), fun hp => ?_⟩
      rcases hp with hp | ⟨c, hp⟩ | hp <;> cases hp
  | launch =>
    simp only [rankStep, hpc]
    refine ⟨fun _ i => ⟨(h.sent (by simp [hpc]) i).1, ?_⟩, fun hp => (by cases hp), fun hp => ?_⟩
    · exact List.mem_append_left _ (h.sent (by simp [hpc]) i).2
    · rcases hp with hp | ⟨c, hp⟩ | hp <;> cases hp
  | poll d =>
    simp only [rankStep, hpc]
    have hsent := h.sent (by simp [hpc])
    split_ifs with hd hnone
    · refine ⟨fun _ => hsent, fun hp => (by cases hp), fun hp => ?_⟩
      rcases hp with hp | ⟨c, hp⟩ | hp <;> cases hp
    · refine ⟨fun _ => hsent, fun hp => (by cases hp), fun hp => ?_⟩
      rcases hp with hp | ⟨c, hp⟩ | hp <;> cases hp
    · refine ⟨fun _ => hsent, fun _ => ?_, fun hp => ?_⟩
      · simp only [rankMode, collectRank] at hnone ⊢
        split_ifs at hnone ⊢ with hsum
        · rfl
        · exact absurd rfl hnone
      · rcases hp with hp | ⟨c, hp⟩ | hp <;> cases hp
  | retrieve =>
    have hsent := h.sent (by simp [hpc])
    have hall : ∀ i, i ∈ retrieved rankMode numSGs q.thread := fun i =>
      (mem_retrieved rankMode numSGs _ _).mpr ⟨h.whole hpc ▸ Finset.mem_univ i, fun hg => (by cases hg)⟩
    simp only [rankStep, hpc, hall, if_true]
    refine ⟨fun _ i => ⟨(hsent i).1, List.mem_append_left _ (hsent i).2⟩, fun hp => (by cases hp), fun _ i => ?_⟩
    simp [Dpu.retrieve, (hsent i).1]
  | take =>
    simp only [rankStep, hpc, if_pos hend]
    exact ⟨fun _ => h.sent (by simp [hpc]), fun hp => (by cases hp), fun _ => h.taken (Or.inl hpc)⟩
  | send k => exact absurd hpc (hsend k)
  | setState c =>
    have hsent := h.sent (by simp [hpc])
    have htaken := h.taken (Or.inr (Or.inl ⟨c, hpc⟩))
    simp only [rankStep, hpc]
    split_ifs
    · refine ⟨fun _ i => ⟨(hsent i).1, ?_⟩, fun hp => (by cases hp), fun _ i => ?_⟩
      · simp only
        split_ifs
        · exact List.mem_append_left _ (hsent i).2
        · exact (hsent i).2
      · simp only
        split_ifs
        · exact List.mem_append_left _ (htaken i)
        · exact htaken i
    · refine ⟨fun _ => hsent, fun hp => (by cases hp), fun hp => ?_⟩
      rcases hp with hp | ⟨c, hp⟩ | hp <;> cases hp
    · exact ⟨fun _ => hsent, fun hp => (by cases hp), fun _ => htaken⟩
  | done =>
    simp only [rankStep, hpc]
    exact h

theorem rankKept_dpuStep {r : ℕ} {q : RankState 2 β} (h : RankKept r q) (i : Slot) :
    RankKept r (q.dpuStep kernel i) := by
  have hmem : ∀ j e, e ∈ (q.dpu j).trace → e ∈ ((q.dpuStep kernel i).dpu j).trace := by
    intro j e he
    by_cases hj : j = i
    · subst hj
      simp only [RankState.dpuStep, Function.update_self, Dpu.step]
      split_ifs
      · exact he
      · exact he
      · exact List.mem_append_left _ he
      · exact he
    · simpa only [RankState.dpuStep, Function.update_of_ne hj] using he
  exact ⟨fun hp j => ⟨(h.sent hp j).1, hmem j _ (h.sent hp j).2⟩, h.whole, fun hp j => hmem j _ (h.taken hp j)⟩

theorem rankMode_kept {threads : ℕ} (htotal : numSGs = 64 * threads) (acts : List Act) :
    ∀ r < threads, RankKept r ((run rankMode kernel threads numSGs (init threads) acts).rank r) := by
  induction acts using List.reverseRecOn with
  | nil =>
    refine fun r _ => ⟨fun hp => absurd rfl hp, fun hp => (nomatch hp), fun hp => ?_⟩
    rcases hp with hp | ⟨c, hp⟩ | hp <;> cases hp
  | append_singleton acts a ih =>
    have hk := kept_run rankMode kernel numSGs htotal acts
    rw [run_snoc]
    cases a with
    | thread r =>
      simp only [step]
      split_ifs with hr
      · exact update_ok (rankKept_step numSGs hk.pCount.ge (hk.thread r hr).noSend (ih r hr)) ih
      · exact ih
    | dpu r i =>
      simp only [step]
      split_ifs with hr
      · exact update_ok (rankKept_dpuStep kernel (ih r hr) i) ih
      · exact ih

theorem rankMode_served {threads : ℕ} (htotal : numSGs = 64 * threads) (acts : List Act)
    (hdone : Returned threads (run rankMode kernel threads numSGs (init threads) acts)) {p : ℕ} (hp : p < numSGs) :
    ∃ r < threads, ∃ i,
      .send 0 p ∈ (((run rankMode kernel threads numSGs (init threads) acts).rank r).dpu i).trace ∧
      .retrieve p ∈ (((run rankMode kernel threads numSGs (init threads) acts).rank r).dpu i).trace := by
  have hr : p / 64 < threads := by omega
  have hk := rankMode_kept kernel numSGs htotal acts (p / 64) hr
  have hpc := hdone (p / 64) hr
  have hidx : 64 * (p / 64) + (⟨p % 64, by omega⟩ : Slot).val = p := by simp only; omega
  have hsent := (hk.sent (by simp [hpc]) ⟨p % 64, by omega⟩).2
  have hret := hk.taken (Or.inr (Or.inr hpc)) ⟨p % 64, by omega⟩
  rw [hidx] at hsent hret
  exact ⟨p / 64, hr, ⟨p % 64, by omega⟩, hsent, hret⟩

/-! ## A round of thread 0 -/

section Turn

variable (threads : ℕ)

def Reach (s s' : State 2 β) : Prop := ∃ acts, s' = run igMode kernel threads numSGs s acts

/-- thread 0 is about to poll and has released no DPU -/
structure Ready (s : State 2 β) : Prop where
  inv : Inv igMode kernel numSGs threads s
  pc : (s.rank 0).thread.pc = .poll 0
  count : (s.rank 0).thread.finishCount = 0

variable {kernel numSGs threads}

theorem Reach.refl (s : State 2 β) : Reach kernel numSGs threads s s := ⟨[], rfl⟩

theorem Reach.step {s s' : State 2 β} (h : Reach kernel numSGs threads s s') (a : Act) :
    Reach kernel numSGs threads s (step igMode kernel threads numSGs s' a) := by
  obtain ⟨acts, rfl⟩ := h
  exact ⟨acts ++ [a], (run_snoc ..).symm⟩

theorem Reach.trans {s s' s'' : State 2 β} (h : Reach kernel numSGs threads s s')
    (h' : Reach kernel numSGs threads s' s'') : Reach kernel numSGs threads s s'' := by
  obtain ⟨acts, rfl⟩ := h
  obtain ⟨acts', rfl⟩ := h'
  exact ⟨acts ++ acts', by simp [run, List.foldl_append]⟩

theorem Reach.inv {s s' : State 2 β} (h : Reach kernel numSGs threads s s') (hs : Sized threads numSGs)
    (hi : Inv igMode kernel numSGs threads s) : Inv igMode kernel numSGs threads s' := by
  obtain ⟨acts, rfl⟩ := h
  induction acts using List.reverseRecOn with
  | nil => exact hi
  | append_singleton acts a ih =>
    rw [run_snoc]
    exact step_inv igMode kernel numSGs igMode_lawful hs ih a

theorem Reach.used {s s' : State 2 β} (h : Reach kernel numSGs threads s s') : s.used ⊆ s'.used := by
  obtain ⟨acts, rfl⟩ := h
  induction acts using List.reverseRecOn with
  | nil => exact fun p hp => hp
  | append_singleton acts a ih =>
    rw [run_snoc]
    cases a with
    | thread r =>
      simp only [Schedule.step]
      split_ifs
      · exact fun p hp => List.mem_append_left _ (ih hp)
      · exact ih
    | dpu r i =>
      simp only [Schedule.step]
      split_ifs <;> exact ih

/-- thread 0 moves to `t'`, and its DPUs to `dpu'` -/
theorem Reach.drive {s s' : State 2 β} (h : Reach kernel numSGs threads s s') (ht : 0 < threads) :
    ∃ s'', Reach kernel numSGs threads s s'' ∧
      s''.rank 0 = rankStep igMode numSGs 0 s'.pCount (s'.rank 0) ∧
      s''.pCount = takeStep numSGs s'.pCount (s'.rank 0).thread ∧
      s''.used = s'.used ++ uses igMode numSGs 0 (s'.rank 0).thread := by
  refine ⟨_, h.step (.thread 0), ?_, ?_, ?_⟩
  all_goals simp [Schedule.step, ht, threadStep]

variable (kernel numSGs) in
/-- the DPUs of `G` move until they have finished -/
theorem reach_finished (ht : 0 < threads) (s : State 2 β) (G : Finset Slot) :
    ∃ s', Reach kernel numSGs threads s s' ∧ (s'.rank 0).thread = (s.rank 0).thread ∧ s'.pCount = s.pCount ∧
      ∀ i, (s'.rank 0).dpu i =
        if i ∈ G then (((s.rank 0).dpu i).step kernel).step kernel else (s.rank 0).dpu i := by
  induction G using Finset.induction_on with
  | empty => exact ⟨s, Reach.refl s, rfl, rfl, fun i => by simp⟩
  | insert a G ha ih =>
    obtain ⟨s', hreach, hthread, hcount, hdpu⟩ := ih
    refine ⟨_, (hreach.step (.dpu 0 a)).step (.dpu 0 a), ?_, ?_, fun i => ?_⟩
    · simp [Schedule.step, ht, dpuStep, RankState.dpuStep, hthread]
    · simp [Schedule.step, ht, dpuStep, hcount]
    · by_cases hi : i = a
      · subst hi
        simp [Schedule.step, ht, dpuStep, RankState.dpuStep, hdpu, ha]
      · simp [Schedule.step, ht, dpuStep, RankState.dpuStep, hdpu, hi]

variable (kernel numSGs) in
/-- thread 0 reads the first `d` lines -/
theorem reach_polled (ht : 0 < threads) {s : State 2 β} (hpc : (s.rank 0).thread.pc = .poll 0) (d : ℕ) (hd : d ≤ 8) :
    ∃ s', Reach kernel numSGs threads s s' ∧ (s'.rank 0).dpu = (s.rank 0).dpu ∧ s'.pCount = s.pCount ∧
      (s'.rank 0).thread.pc = .poll d ∧ (s'.rank 0).thread.finishCount = (s.rank 0).thread.finishCount ∧
      ∀ i : Slot, i.val % 8 < d → (s'.rank 0).thread.words i = ((s.rank 0).dpu i).word := by
  induction d with
  | zero => exact ⟨s, Reach.refl s, rfl, rfl, hpc, rfl, fun i hi => absurd hi (Nat.not_lt_zero _)⟩
  | succ d ih =>
    obtain ⟨s', hreach, hdpu, hcount, hpc', hfin, hwords⟩ := ih (by omega)
    obtain ⟨s'', hreach', hrank, hcount', -⟩ := hreach.drive ht
    simp only [rankStep, hpc', if_pos (show d < 8 by omega)] at hrank
    refine ⟨s'', hreach', ?_, ?_, ?_, ?_, fun i hi => ?_⟩
    · rw [hrank]
      exact hdpu
    · rw [hcount', takeStep_of_le numSGs (Or.inl (by simp [hpc'])), hcount]
    · rw [hrank]
    · rw [hrank]
      exact hfin
    · rw [hrank]
      simp only
      split_ifs with hline
      · rw [hdpu]
      · exact hwords i (by omega)

variable (kernel numSGs) in
/-- the calls of the set-state loop -/
theorem reach_set (ht : 0 < threads) {s : State 2 β} (hpc : (s.rank 0).thread.pc = .setState 0) (c : ℕ) (hc : c ≤ 8) :
    ∃ s', Reach kernel numSGs threads s s' ∧ s'.pCount = s.pCount ∧ (s'.rank 0).thread.pc = .setState c ∧
      (s'.rank 0).thread.finishCount = (s.rank 0).thread.finishCount := by
  induction c with
  | zero => exact ⟨s, Reach.refl s, rfl, hpc, rfl⟩
  | succ c ih =>
    obtain ⟨s', hreach, hcount, hpc', hfin⟩ := ih (by omega)
    obtain ⟨s'', hreach', hrank, hcount', -⟩ := hreach.drive ht
    simp only [rankStep, hpc', if_pos (show c < igMode.calls from hc)] at hrank
    refine ⟨s'', hreach', ?_, ?_, ?_⟩
    · rw [hcount', takeStep_of_le numSGs (Or.inl (by simp [hpc'])), hcount]
    · rw [hrank]
    · rw [hrank]
      exact hfin

/-- after two moves of its own a DPU that is not released has finished -/
theorem Ready.finished (ht : 0 < threads) {s : State 2 β} (h : Ready kernel numSGs threads s)
    (i : Slot) : ((((s.rank 0).dpu i).step kernel).step kernel).word = 1 := by
  have hwork := h.inv.dpu 0 ht i
  simp only [DpuOk, h.pc] at hwork
  rcases hwork.1 with hw | hw | hw
  · rcases hw.word with ⟨hg, -⟩ | ⟨hg, hw2⟩
    · simp [Dpu.step, hw.booted, hg]
    · simp [Dpu.step, hw.booted, hg, hw2]
  · simp [Dpu.step, hw.booted, hw.begun, hw.word]
  · have hempty : counted (s.rank 0) = ∅ := Finset.card_eq_zero.mp ((h.inv.count 0 ht).symm.trans h.count)
    exact absurd ((mem_counted _ i).mpr (Or.inl ⟨hw.begun, hw.word⟩)) (by simp [hempty])

/-- a poll reports the IG pairs all of whose words are 1 -/
theorem collectIg_eq {w : Slot → ℕ} {F : Finset (Fin 4)} (h : ∀ i, w i = 1 ↔ pair i ∈ F) :
    collectIg w = Finset.univ.filter fun i => pair i ∈ F := by
  have hpair : ∀ ci (k : Fin 4), PairOne w ci k ↔ k ∈ F := by
    intro ci k
    have h0 : pair (slot ci ⟨2 * k.val, by omega⟩) = k := Fin.ext (by simp [pair, slot]; omega)
    have h1 : pair (slot ci ⟨2 * k.val + 1, by omega⟩) = k := Fin.ext (by simp [pair, slot]; omega)
    rw [PairOne, h, h, h0, h1, and_self]
  ext i
  simp [mem_collectIg, hpair]

variable (kernel numSGs) in
/-- from the poll's result to the set-state calls: the sub-graphs are taken and sent -/
theorem reach_sent (ht : 0 < threads) (hs : Sized threads numSGs) {s : State 2 β}
    (hpc : (s.rank 0).thread.pc = .retrieve) (hlt : s.pCount < numSGs) :
    ∃ s', Reach kernel numSGs threads s s' ∧ (s'.rank 0).thread.pc = .setState 0 ∧
      (s'.rank 0).thread.finishCount = (s.rank 0).thread.finishCount ∧
      s'.pCount = s.pCount + (s.rank 0).thread.finish.card ∧
      ∀ p, s.pCount ≤ p → p < s'.pCount → p ∈ s'.used := by
  have h0 : Reach kernel numSGs threads s s := Reach.refl s
  obtain ⟨s1, h1, hrank1, hcount1, -⟩ := h0.drive ht
  simp only [rankStep, hpc] at hrank1
  have hpc1 : (s1.rank 0).thread.pc = .take := by rw [hrank1]
  have hfin1 : (s1.rank 0).thread.finish = (s.rank 0).thread.finish := by rw [hrank1]
  rw [takeStep_of_le numSGs (Or.inl (by simp [hpc]))] at hcount1
  obtain ⟨s2, h2, hrank2, hcount2, -⟩ := h1.drive ht
  simp only [rankStep, hpc1, hcount1, if_neg (show ¬numSGs ≤ s.pCount by omega)] at hrank2
  rw [takeStep_take numSGs hpc1 hs.fits (by omega), hcount1, hfin1] at hcount2
  have hpc2 : (s2.rank 0).thread.pc = .send 0 := by rw [hrank2]
  have hfin2 : (s2.rank 0).thread.finish = (s.rank 0).thread.finish := by rw [hrank2]; exact hfin1
  have hcurr2 : (s2.rank 0).thread.curr = s.pCount := by rw [hrank2]
  obtain ⟨s3, h3, hrank3, hcount3, hused3⟩ := h2.drive ht
  simp only [rankStep, hpc2, show 0 < 2 by decide, if_true] at hrank3
  rw [takeStep_of_le numSGs (Or.inl (by simp [hpc2]))] at hcount3
  have hpc3 : (s3.rank 0).thread.pc = .send 1 := by rw [hrank3]
  obtain ⟨s4, h4, hrank4, hcount4, hused4⟩ := h3.drive ht
  simp only [rankStep, hpc3, show 1 < 2 by decide, if_true] at hrank4
  rw [takeStep_of_le numSGs (Or.inl (by simp [hpc3]))] at hcount4
  have hpc4 : (s4.rank 0).thread.pc = .send 2 := by rw [hrank4]
  obtain ⟨s5, h5, hrank5, hcount5, hused5⟩ := h4.drive ht
  simp only [rankStep, hpc4, lt_irrefl, if_false] at hrank5
  rw [takeStep_of_le numSGs (Or.inl (by simp [hpc4]))] at hcount5
  have hcount : s5.pCount = s.pCount + (s.rank 0).thread.finish.card := by
    rw [hcount5, hcount4, hcount3, hcount2]
  refine ⟨s5, h5, by rw [hrank5], ?_, hcount, fun p hp hlt' => ?_⟩
  · rw [hrank5, hrank4, hrank3, hrank2, hrank1]
  · have hmem : p ∈ s3.used := by
      rw [hused3]
      apply List.mem_append_right
      simp only [uses, hpc2, show 0 < 2 by decide, if_true]
      obtain ⟨i, hi, hpos⟩ := position_surj (F := (s.rank 0).thread.finish) (q := p - s.pCount) (by omega)
      refine mem_indexes.mpr ⟨i, (mem_sent igMode numSGs _ _ _).mpr ⟨hfin2 ▸ hi, fun hg => (by cases hg)⟩, ?_⟩
      simp only [inputIndex, true_or, if_true, hcurr2, hfin2, hpos]
      omega
    rw [hused5, hused4]
    exact List.mem_append_left _ (List.mem_append_left _ hmem)

/-- **A round.** The DPUs of the IG pairs `F` finish and thread 0 takes a sub-graph for each. -/
theorem turn (ht : 0 < threads) (hs : Sized threads numSGs) {s : State 2 β}
    (h : Ready kernel numSGs threads s) {F : Finset (Fin 4)} (hF : F.Nonempty)
    (hout : ∀ i, pair i ∉ F → ((s.rank 0).dpu i).word ≠ 1) (hlt : s.pCount < numSGs) :
    ∃ s', Reach kernel numSGs threads s s' ∧ Ready kernel numSGs threads s' ∧
      s'.pCount = s.pCount + (Finset.univ.filter fun i => pair i ∈ F).card ∧
      ∀ p, s.pCount ≤ p → p < s'.pCount → p ∈ s'.used := by
  set G : Finset Slot := Finset.univ.filter fun i => pair i ∈ F with hG
  obtain ⟨s1, h1, hthread1, hcount1, hdpu1⟩ := reach_finished kernel numSGs ht s G
  have hword : ∀ i, ((s1.rank 0).dpu i).word = 1 ↔ pair i ∈ F := by
    intro i
    by_cases hi : pair i ∈ F
    · simp [hdpu1, hG, hi, h.finished ht i]
    · simp [hdpu1, hG, hi, hout i hi]
  obtain ⟨s2, h2, -, hcount2, hpc2, hfin2, hwords2⟩ :=
    reach_polled kernel numSGs ht (s := s1) (by rw [hthread1, h.pc]) 8 le_rfl
  have hcollect : collectIg (s2.rank 0).thread.words = G :=
    collectIg_eq fun i => by rw [hwords2 i (Nat.mod_lt _ (by decide)), hword]
  have hne : G ≠ ∅ := by
    obtain ⟨k, hk⟩ := hF
    have hpair : pair (slot 0 ⟨2 * k.val, by omega⟩) = k := Fin.ext (by simp [pair, slot]; omega)
    exact Finset.ne_empty_of_mem (Finset.mem_filter.mpr ⟨Finset.mem_univ _, hpair.symm ▸ hk⟩)
  obtain ⟨s3, h3, hrank3, hcount3, -⟩ := (h1.trans h2).drive ht
  simp only [rankStep, hpc2, lt_irrefl, if_false, show igMode.collect = collectIg from rfl, hcollect, hne] at hrank3
  rw [takeStep_of_le numSGs (Or.inl (by simp [hpc2])), hcount2, hcount1] at hcount3
  obtain ⟨s4, h4, hpc4, hfin4, hcount4, hused4⟩ :=
    reach_sent kernel numSGs ht hs (s := s3) (by rw [hrank3]) (by omega)
  obtain ⟨s5, h5, hcount5, hpc5, hfin5⟩ := reach_set kernel numSGs ht hpc4 8 le_rfl
  have hfin : (s5.rank 0).thread.finishCount = 0 := by
    rw [hfin5, hfin4, hrank3, hfin2, hthread1, h.count]
  obtain ⟨s6, h6, hrank6, hcount6, hused6⟩ := ((h3.trans h4).trans h5).drive ht
  simp only [rankStep, hpc5, hfin, show ¬(8 < igMode.calls) by decide, if_false, show 0 < 64 by decide, if_true] at hrank6
  rw [takeStep_of_le numSGs (Or.inl (by simp [hpc5])), hcount5] at hcount6
  refine ⟨s6, h6, ⟨h6.inv hs h.inv, by rw [hrank6]; rfl, by rw [hrank6]; exact hfin⟩, ?_, fun p hp hlt' => ?_⟩
  · rw [hcount6, hcount4, hcount3, hrank3]
  · rw [hused6]
    exact List.mem_append_left _ (h5.used (hused4 p (by omega) (by omega)))

end Turn

/-! ## Past the end -/

section Overrun

variable {numSGs} {threads : ℕ}

/-- all IG pairs at once, as long as it takes: the counter never meets the end -/
theorem overrun_of_ready (ht : 0 < threads) (hs : Sized threads numSGs) (k : ℕ) {s : State 2 β}
    (h : Ready kernel numSGs threads s) (hlt : s.pCount < numSGs)
    (hk : numSGs - s.pCount < 64 * (k + 1)) (hmod : (numSGs - s.pCount) % 64 ≠ 0) :
    ∃ s', Reach kernel numSGs threads s s' ∧ numSGs ∈ s'.used := by
  induction k generalizing s with
  | zero =>
    obtain ⟨s', hreach, -, hcount, hused⟩ := turn ht hs h Finset.univ_nonempty (fun i hi => absurd (Finset.mem_univ _) hi) hlt
    have hcard : (Finset.univ.filter fun i => pair i ∈ Finset.univ).card = 64 := by simp
    exact ⟨s', hreach, hused numSGs hlt.le (by omega)⟩
  | succ k ih =>
    obtain ⟨s', hreach, hready, hcount, hused⟩ :=
      turn ht hs h Finset.univ_nonempty (fun i hi => absurd (Finset.mem_univ _) hi) hlt
    have hcard : (Finset.univ.filter fun i => pair i ∈ Finset.univ).card = 64 := by simp
    by_cases hover : numSGs < s'.pCount
    · exact ⟨s', hreach, hused numSGs hlt.le hover⟩
    · obtain ⟨s'', hreach', hmem⟩ := ih hready (by omega) (by omega) (by omega)
      exact ⟨s'', hreach.trans hreach', hmem⟩

/-- thread 0 has launched its rank -/
theorem ready_launched (ht : 0 < threads) (hs : Sized threads numSGs) :
    ∃ s : State 2 β, Reach kernel numSGs threads (init threads) s ∧
      Ready kernel numSGs threads s ∧ s.pCount = 64 * threads ∧
      ∀ i, ((s.rank 0).dpu i).word = 0 := by
  have h0 : Reach kernel numSGs threads (init threads) (init threads) := Reach.refl _
  obtain ⟨s1, h1, hrank1, hcount1, -⟩ := h0.drive ht
  rw [takeStep_of_le numSGs (Or.inl (by simp [init]))] at hcount1
  simp only [init, rankStep, show 0 < 2 by decide, if_true] at hrank1
  have hpc1 : (s1.rank 0).thread.pc = .load 1 := by rw [hrank1]
  obtain ⟨s2, h2, hrank2, hcount2, -⟩ := h1.drive ht
  rw [takeStep_of_le numSGs (Or.inl (by simp [hpc1]))] at hcount2
  simp only [rankStep, hpc1, show 1 < 2 by decide, if_true] at hrank2
  have hpc2 : (s2.rank 0).thread.pc = .load 2 := by rw [hrank2]
  obtain ⟨s3, h3, hrank3, hcount3, -⟩ := h2.drive ht
  rw [takeStep_of_le numSGs (Or.inl (by simp [hpc2]))] at hcount3
  simp only [rankStep, hpc2, lt_irrefl, if_false] at hrank3
  have hpc3 : (s3.rank 0).thread.pc = .launch := by rw [hrank3]
  obtain ⟨s4, h4, hrank4, hcount4, -⟩ := h3.drive ht
  rw [takeStep_of_le numSGs (Or.inl (by simp [hpc3]))] at hcount4
  simp only [rankStep, hpc3] at hrank4
  refine ⟨s4, h4, ⟨h4.inv hs (init_inv igMode kernel numSGs hs), ?_, ?_⟩, ?_, fun i => ?_⟩
  · rw [hrank4]
    rfl
  · rw [hrank4, hrank3, hrank2, hrank1]
    rfl
  · rw [hcount4, hcount3, hcount2, hcount1]
    rfl
  · rw [hrank4, hrank3, hrank2, hrank1]
    rfl

/-- **Overrun.** With more sub-graphs than DPUs a run of IG mode uses the index `num_SGs`. -/
theorem overrun (ht : 0 < threads) (hs : Sized threads numSGs) (hmore : 64 * threads < numSGs) :
    ∃ acts, numSGs ∈ (run igMode kernel threads numSGs (init threads) acts).used := by
  obtain ⟨s, ⟨acts, hs'⟩, hready, hcount, hword⟩ := ready_launched kernel ht hs
  by_cases hmod : (numSGs - s.pCount) % 64 = 0
  · -- one IG pair first
    obtain ⟨s1, hreach1, hready1, hcount1, -⟩ := turn ht hs hready (F := {0}) (Finset.singleton_nonempty 0)
      (fun i _ => by rw [hword i]; decide) (by omega)
    have hcard : (Finset.univ.filter fun i : Slot => pair i ∈ ({0} : Finset (Fin 4))).card = 16 := by decide
    obtain ⟨s2, hreach2, hmem⟩ := overrun_of_ready kernel ht hs numSGs hready1 (by omega) (by omega) (by omega)
    obtain ⟨acts', hrun⟩ := hreach1.trans hreach2
    exact ⟨acts ++ acts', by rw [run, List.foldl_append]; rw [hrun, hs'] at hmem; exact hmem⟩
  · obtain ⟨s2, ⟨acts', hrun⟩, hmem⟩ := overrun_of_ready kernel ht hs numSGs hready (by omega) (by omega) hmod
    exact ⟨acts ++ acts', by rw [run, List.foldl_append]; rw [hrun, hs'] at hmem; exact hmem⟩

end Overrun

/-! ## When both modes stay in bounds -/

/-- the sub-graphs that the two untested modes use, over all runs -/
def ModesInBounds (threads : ℕ) : Prop :=
  (∀ acts, InBounds numSGs threads (run igMode kernel threads numSGs (init threads) acts)) ∧
    ∀ acts, InBounds numSGs threads (run rankMode kernel threads numSGs (init threads) acts)

end PimOfis.PageRank
