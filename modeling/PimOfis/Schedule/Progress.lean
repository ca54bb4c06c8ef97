/-
Runs that get somewhere: a thread and its DPUs alone, with polls that report something.

`Reaches` is a run all of whose steps meet a condition; here the condition is `Conclusive`, that a poll which has read its
last line reports some DPU. So a run built here is a run of every host loop that reports the same DPUs at these polls.

Results:
- `reported`, `turn`: a round of a thread that takes a piece for each DPU of a set, for a loop that tests no index;
- `whole_rounds`: as many rounds of the whole rank as there are pieces for;
- `ready_launched`: a thread comes to its first poll;
- `Reaches.exists_run`: the steps as a list of acts.
-/
import Mathlib.Tactic
import PimOfis.Schedule.Delivery

namespace PimOfis.Schedule

open Lib

variable {n : ℕ} {β : Type} (m : Mode n) (kernel : (Fin n → ℕ) → β) (threads total : ℕ)

/-! ## Runs with conclusive polls -/

/-- a poll that has read its last line reports some DPU -/
def Conclusive (s : State n β) (a : Act) : Prop :=
  ∀ r, a = .thread r → (s.rank r).thread.pc = .poll 8 → m.collect (s.rank r).thread.words ≠ ∅

/-- the states reached from `s` -/
inductive Reaches (s : State n β) : State n β → Prop
  | refl : Reaches s s
  | step {s' : State n β} (a : Act) (h : Reaches s s') (hc : Conclusive m s' a) :
    Reaches s (Schedule.step m kernel threads total s' a)

/-- thread `r` is about to poll and has released no DPU -/
structure Ready (r : ℕ) (s : State n β) : Prop where
  inv : Inv m kernel total threads s
  pc : (s.rank r).thread.pc = .poll 0
  count : (s.rank r).thread.finishCount = 0

variable {m kernel threads total}

theorem Reaches.trans {s s' s'' : State n β} (h : Reaches m kernel threads total s s')
    (h' : Reaches m kernel threads total s' s'') : Reaches m kernel threads total s s'' := by
  induction h' with
  | refl => exact h
  | step a _ hc ih => exact .step a ih hc

/-- **The acts** of a run, and that every poll among them is conclusive. -/
theorem Reaches.exists_run {s s' : State n β} (h : Reaches m kernel threads total s s') :
    ∃ acts, s' = run m kernel threads total s acts ∧ ∀ before a after, acts = before ++ a :: after →
      Conclusive m (run m kernel threads total s before) a := by
  induction h with
  | refl => exact ⟨[], rfl, fun before a after hacts => by simp at hacts⟩
  | step a _ hc ih =>
    obtain ⟨acts, rfl, hall⟩ := ih
    refine ⟨acts ++ [a], (run_snoc ..).symm, fun before b after hacts => ?_⟩
    rcases List.eq_nil_or_concat after with rfl | ⟨after', c, rfl⟩
    · obtain ⟨rfl, hba⟩ := List.append_inj' hacts rfl
      obtain rfl : a = b := by simpa using hba
      exact hc
    · have hsplit : acts ++ [a] = (before ++ b :: after') ++ [c] := by simpa using hacts
      exact hall before b after' (List.append_inj' hsplit rfl).1

theorem Reaches.inv {s s' : State n β} (h : Reaches m kernel threads total s s') (hm : m.Lawful) (hs : Sized threads total)
    (hi : Inv m kernel total threads s) : Inv m kernel total threads s' := by
  induction h with
  | refl => exact hi
  | step a _ _ ih => exact step_inv m kernel total hm hs ih a

theorem Reaches.used {s s' : State n β} (h : Reaches m kernel threads total s s') : s.used ⊆ s'.used := by
  induction h with
  | refl => exact fun p hp => hp
  | step a _ _ ih =>
    cases a with
    | thread r =>
      simp only [Schedule.step]
      split_ifs
      · exact fun p hp => List.mem_append_left _ (ih hp)
      · exact ih
    | dpu r i =>
      simp only [Schedule.step]
      split_ifs <;> exact ih

/-! ## Single steps -/

section Steps

variable {r : ℕ} {s s' : State n β}

/-- thread `r` moves -/
theorem Reaches.drive (h : Reaches m kernel threads total s s') (hr : r < threads)
    (hc : (s'.rank r).thread.pc = .poll 8 → m.collect (s'.rank r).thread.words ≠ ∅) :
    ∃ s'', Reaches m kernel threads total s s'' ∧ s''.rank r = rankStep m total r s'.pCount (s'.rank r) ∧
      s''.pCount = takeStep total s'.pCount (s'.rank r).thread ∧
      s''.used = s'.used ++ uses m total r (s'.rank r).thread := by
  have hcon : Conclusive m s' (.thread r) := by
    intro r' hr'
    cases hr'
    exact hc
  refine ⟨_, h.step (.thread r) hcon, ?_, ?_, ?_⟩
  all_goals simp [Schedule.step, hr, threadStep]

/-- a DPU of rank `r` moves -/
theorem Reaches.driveDpu (h : Reaches m kernel threads total s s') (hr : r < threads) (i : Slot) :
    Reaches m kernel threads total s (dpuStep kernel s' r i) := by
  have hstep := h.step (.dpu r i) fun r' hr' => (nomatch hr')
  simpa only [Schedule.step, if_pos hr] using hstep

end Steps

/-! ## A round -/

section Turn

variable {r : ℕ} {s : State n β}

variable (m kernel total) in
/-- the DPUs of `G` move until they have finished -/
theorem reaches_finished (hr : r < threads) (s : State n β) (G : Finset Slot) :
    ∃ s', Reaches m kernel threads total s s' ∧ (s'.rank r).thread = (s.rank r).thread ∧ s'.pCount = s.pCount ∧
      ∀ i, (s'.rank r).dpu i =
        if i ∈ G then (((s.rank r).dpu i).step kernel).step kernel else (s.rank r).dpu i := by
  induction G using Finset.induction_on with
  | empty => exact ⟨s, .refl, rfl, rfl, fun i => by simp⟩
  | insert a G ha ih =>
    obtain ⟨s', hreach, hthread, hcount, hdpu⟩ := ih
    refine ⟨_, (hreach.driveDpu hr a).driveDpu hr a, ?_, ?_, fun i => ?_⟩
    · simp [dpuStep, RankState.dpuStep, hthread]
    · simp [dpuStep, hcount]
    · by_cases hi : i = a
      · subst hi
        simp [dpuStep, RankState.dpuStep, hdpu, ha]
      · simp [dpuStep, RankState.dpuStep, hdpu, hi]

variable (m kernel total) in
/-- the thread reads the first `d` lines -/
theorem reaches_polled (hr : r < threads) (hpc : (s.rank r).thread.pc = .poll 0) (d : ℕ) (hd : d ≤ 8) :
    ∃ s', Reaches m kernel threads total s s' ∧ s'.pCount = s.pCount ∧
      (s'.rank r).dpu = (s.rank r).dpu ∧ (s'.rank r).thread.pc = .poll d ∧
      (s'.rank r).thread.finishCount = (s.rank r).thread.finishCount ∧
      ∀ i : Slot, i.val % 8 < d → (s'.rank r).thread.words i = ((s.rank r).dpu i).word := by
  induction d with
  | zero => exact ⟨s, .refl, rfl, rfl, hpc, rfl, fun i hi => absurd hi (Nat.not_lt_zero _)⟩
  | succ d ih =>
    obtain ⟨s', hreach, hcount, hdpu, hpc', hfin, hwords⟩ := ih (by omega)
    have hne : (s'.rank r).thread.pc ≠ .poll 8 := by
      intro heq
      rw [hpc'] at heq
      exact absurd (Pc.poll.inj heq) (by omega)
    obtain ⟨s'', hreach', hrank, hcount', -⟩ := hreach.drive hr fun heq => absurd heq hne
    simp only [rankStep, hpc', if_pos (Nat.lt_of_succ_le hd)] at hrank
    rw [takeStep_of_le total (Or.inl (by simp [hpc']))] at hcount'
    refine ⟨s'', hreach', hcount'.trans hcount, ?_, ?_, ?_, fun i hi => ?_⟩
    · rw [hrank]
      exact hdpu
    · rw [hrank]
    · rw [hrank]
      exact hfin
    · rw [hrank]
      simp only
      split_ifs with hline
      · rw [hdpu]
      · exact hwords i (by omega)

variable (m kernel total) in
/-- the transfers that are left -/
theorem reaches_sends (hr : r < threads) {j : ℕ} (hpc : (s.rank r).thread.pc = .send j) {k : ℕ} (hjk : j ≤ k) (hk : k ≤ n) :
    ∃ s', Reaches m kernel threads total s s' ∧ s'.pCount = s.pCount ∧ (s'.rank r).thread.pc = .send k ∧
      (s'.rank r).thread.finishCount = (s.rank r).thread.finishCount ∧
      (s'.rank r).thread.finish = (s.rank r).thread.finish ∧ (s'.rank r).thread.curr = (s.rank r).thread.curr := by
  induction k, hjk using Nat.le_induction with
  | base => exact ⟨s, .refl, rfl, hpc, rfl, rfl, rfl⟩
  | succ k hjk ih =>
    obtain ⟨s', hreach, hcount, hpc', hfin, hgroup, hcurr⟩ := ih (by omega)
    obtain ⟨s'', hreach', hrank, hcount', -⟩ := hreach.drive hr (by simp [hpc'])
    simp only [rankStep, hpc', if_pos (Nat.lt_of_succ_le hk)] at hrank
    rw [takeStep_of_le total (Or.inl (by simp [hpc']))] at hcount'
    refine ⟨s'', hreach', hcount'.trans hcount, by rw [hrank], ?_, ?_, ?_⟩
    · rw [hrank]; exact hfin
    · rw [hrank]; exact hgroup
    · rw [hrank]; exact hcurr

variable (m kernel total) in
/-- the calls of the set-state loop -/
theorem reaches_set (hr : r < threads) (hpc : (s.rank r).thread.pc = .setState 0) (c : ℕ) (hc : c ≤ m.calls) :
    ∃ s', Reaches m kernel threads total s s' ∧ s'.pCount = s.pCount ∧ (s'.rank r).thread.pc = .setState c ∧
      (s'.rank r).thread.finishCount = (s.rank r).thread.finishCount := by
  induction c with
  | zero => exact ⟨s, .refl, rfl, hpc, rfl⟩
  | succ c ih =>
    obtain ⟨s', hreach, hcount, hpc', hfin⟩ := ih (by omega)
    obtain ⟨s'', hreach', hrank, hcount', -⟩ := hreach.drive hr (by simp [hpc'])
    simp only [rankStep, hpc', if_pos (Nat.lt_of_succ_le hc)] at hrank
    rw [takeStep_of_le total (Or.inl (by simp [hpc']))] at hcount'
    exact ⟨s'', hreach', hcount'.trans hcount, by rw [hrank], by rw [hrank]; exact hfin⟩

/-- after two moves of its own a DPU that is not released has finished -/
theorem Ready.finished (hr : r < threads) (h : Ready m kernel threads total r s) (i : Slot) :
    ((((s.rank r).dpu i).step kernel).step kernel).word = 1 := by
  have hwork := h.inv.dpu r hr i
  simp only [DpuOk, h.pc] at hwork
  rcases hwork.1 with hw | hw | hw
  · rcases hw.word with ⟨hg, -⟩ | ⟨hg, hw2⟩
    · simp [Dpu.step, hw.booted, hg]
    · simp [Dpu.step, hw.booted, hg, hw2]
  · simp [Dpu.step, hw.booted, hw.begun, hw.word]
  · have hempty : counted (s.rank r) = ∅ := Finset.card_eq_zero.mp ((h.inv.count r hr).symm.trans h.count)
    exact absurd ((mem_counted _ i).mpr (Or.inl ⟨hw.begun, hw.word⟩)) (by simp [hempty])

variable (m kernel total) in
/-- from the poll's result to transfer `k`: the pieces are taken, and the arguments sent -/
theorem reaches_send (hg : m.guardArg = false) (hr : r < threads) (hs : Sized threads total)
    (hpc : (s.rank r).thread.pc = .retrieve) (hlt : s.pCount < total) {k : ℕ} (hk0 : 0 < k) (hk : k ≤ n) :
    ∃ s', Reaches m kernel threads total s s' ∧ (s'.rank r).thread.pc = .send k ∧
      (s'.rank r).thread.finish = (s.rank r).thread.finish ∧ (s'.rank r).thread.curr = s.pCount ∧
      (s'.rank r).thread.finishCount = (s.rank r).thread.finishCount ∧
      s'.pCount = s.pCount + (s.rank r).thread.finish.card ∧
      ∀ p, s.pCount ≤ p → p < s'.pCount → p ∈ s'.used := by
  have hn : 0 < n := hk0.trans_le hk
  have h0 : Reaches m kernel threads total s s := .refl
  obtain ⟨s1, h1, hrank1, hcount1, -⟩ := h0.drive hr (by simp [hpc])
  simp only [rankStep, hpc] at hrank1
  rw [takeStep_of_le total (Or.inl (by simp [hpc]))] at hcount1
  have hpc1 : (s1.rank r).thread.pc = .take := by rw [hrank1]
  have hfin1 : (s1.rank r).thread.finish = (s.rank r).thread.finish := by rw [hrank1]
  obtain ⟨s2, h2, hrank2, hcount2, -⟩ := h1.drive hr (by simp [hpc1])
  simp only [rankStep, hpc1, hcount1, if_neg (Nat.not_le_of_lt hlt)] at hrank2
  rw [takeStep_take total hpc1 hs.fits (by omega), hcount1, hfin1] at hcount2
  have hpc2 : (s2.rank r).thread.pc = .send 0 := by rw [hrank2]
  have hfin2 : (s2.rank r).thread.finish = (s.rank r).thread.finish := by rw [hrank2]; exact hfin1
  have hcurr2 : (s2.rank r).thread.curr = s.pCount := by rw [hrank2]
  obtain ⟨s3, h3, hrank3, hcount3, hused3⟩ := h2.drive hr (by simp [hpc2])
  simp only [rankStep, hpc2, if_pos hn] at hrank3
  rw [takeStep_of_le total (Or.inl (by simp [hpc2]))] at hcount3
  obtain ⟨s4, h4, hcount4, hpc4, hcard4, hfin4, hcurr4⟩ :=
    reaches_sends m kernel total hr (s := s3) (by rw [hrank3]) hk0 hk
  have hcount : s4.pCount = s.pCount + (s.rank r).thread.finish.card := by rw [hcount4, hcount3, hcount2]
  refine ⟨s4, h3.trans h4, hpc4, ?_, ?_, ?_, hcount, fun p hp hlt' => ?_⟩
  · rw [hfin4, hrank3]; exact hfin2
  · rw [hcurr4, hrank3]; exact hcurr2
  · rw [hcard4, hrank3, hrank2, hrank1]
  · obtain ⟨i, hi, hpos⟩ := position_surj (F := (s.rank r).thread.finish) (q := p - s.pCount) (by omega)
    have hmem : p ∈ s3.used := by
      rw [hused3]
      apply List.mem_append_right
      simp only [uses, hpc2, if_pos hn]
      refine mem_indexes.mpr ⟨i, (mem_sent m total _ _ _).mpr ⟨hfin2 ▸ hi, fun htest => ?_⟩, ?_⟩
      · rw [if_pos rfl, hg] at htest
        cases htest
      · simp only [inputIndex, true_or, if_true, hcurr2, hfin2, hpos]
        omega
    exact h4.used hmem

/-- **A report.** The DPUs of `G` finish, the others do not, and the thread's poll says so. -/
theorem reported (hr : r < threads) (h : Ready m kernel threads total r s) {G : Finset Slot} (hG : G ≠ ∅)
    (hout : ∀ i, i ∉ G → ((s.rank r).dpu i).word ≠ 1) (hcollect : ∀ w, (∀ i, w i = 1 ↔ i ∈ G) → m.collect w = G) :
    ∃ s', Reaches m kernel threads total s s' ∧ s'.pCount = s.pCount ∧ (s'.rank r).thread.pc = .retrieve ∧
      (s'.rank r).thread.finish = G ∧ (s'.rank r).thread.finishCount = 0 := by
  obtain ⟨s1, h1, hthread1, hcount1, hdpu1⟩ := reaches_finished m kernel total hr s G
  have hword : ∀ i, ((s1.rank r).dpu i).word = 1 ↔ i ∈ G := by
    intro i
    by_cases hi : i ∈ G
    · simp [hdpu1, hi, h.finished hr i]
    · simp [hdpu1, hi, hout i hi]
  obtain ⟨s2, h2, hcount2, -, hpc2, hfin2, hwords2⟩ :=
    reaches_polled m kernel total hr (s := s1) (by rw [hthread1, h.pc]) 8 le_rfl
  have hreport : m.collect (s2.rank r).thread.words = G :=
    hcollect _ fun i => by rw [hwords2 i (Nat.mod_lt _ (by decide)), hword]
  obtain ⟨s3, h3, hrank3, hcount3, -⟩ := (h1.trans h2).drive hr fun _ => hreport ▸ hG
  simp only [rankStep, hpc2, lt_irrefl, if_false, hreport, hG] at hrank3
  rw [takeStep_of_le total (Or.inl (by simp [hpc2])), hcount2, hcount1] at hcount3
  refine ⟨s3, h3, hcount3, by rw [hrank3], by rw [hrank3], ?_⟩
  rw [hrank3]
  exact hfin2.trans (by rw [hthread1, h.count])

/-- **A round.** The DPUs of `G` finish, the others do not, and the thread takes a piece for each of `G`. -/
theorem turn (hm : m.Lawful) (hg : m.guardArg = false) (hr : r < threads) (hs : Sized threads total)
    (h : Ready m kernel threads total r s) {G : Finset Slot} (hG : G ≠ ∅)
    (hout : ∀ i, i ∉ G → ((s.rank r).dpu i).word ≠ 1) (hcollect : ∀ w, (∀ i, w i = 1 ↔ i ∈ G) → m.collect w = G)
    (hlt : s.pCount < total) :
    ∃ s', Reaches m kernel threads total s s' ∧ Ready m kernel threads total r s' ∧ s'.pCount = s.pCount + G.card ∧
      ∀ p, s.pCount ≤ p → p < s'.pCount → p ∈ s'.used := by
  obtain ⟨s1, h1, hcount1, hpc1, hfinish1, hzero1⟩ := reported hr h hG hout hcollect
  obtain ⟨s2, h2, hpc2, -, -, hfin2, hcount2, hused2⟩ :=
    reaches_send m kernel total hg hr hs hpc1 (by omega) hm.inputs le_rfl
  obtain ⟨s3, h3, hrank3, hcount3, hused3⟩ := (h1.trans h2).drive hr (by simp [hpc2])
  simp only [rankStep, hpc2, lt_irrefl, if_false] at hrank3
  rw [takeStep_of_le total (Or.inl (by simp [hpc2]))] at hcount3
  obtain ⟨s4, h4, hcount4, hpc4, hfin4⟩ := reaches_set m kernel total hr (s := s3) (by rw [hrank3]) m.calls le_rfl
  have hfin : (s4.rank r).thread.finishCount = 0 := by rw [hfin4, hrank3, hfin2, hzero1]
  obtain ⟨s5, h5, hrank5, hcount5, hused5⟩ := (h3.trans h4).drive hr (by simp [hpc4])
  simp only [rankStep, hpc4, hfin, lt_irrefl, if_false, show 0 < 64 by decide, if_true] at hrank5
  rw [takeStep_of_le total (Or.inl (by simp [hpc4])), hcount4, hcount3] at hcount5
  refine ⟨s5, h5, ⟨h5.inv hm hs h.inv, by rw [hrank5]; rfl, by rw [hrank5]; exact hfin⟩, ?_, fun p hp hlt' => ?_⟩
  · rw [hcount5, hcount2, hcount1, hfinish1]
  · rw [hused5]
    refine List.mem_append_left _ (h4.used ?_)
    rw [hused3]
    exact List.mem_append_left _ (hused2 p (by omega) (by omega))

/-- whole rounds, one after the other, as long as there are pieces -/
theorem whole_rounds (hm : m.Lawful) (hg : m.guardArg = false) (hr : r < threads) (hs : Sized threads total)
    (hall : ∀ w : Slot → ℕ, (∀ i, w i = 1) → m.collect w = Finset.univ) (h : Ready m kernel threads total r s) (c : ℕ)
    (hlt : ∀ j < c, s.pCount + 64 * j < total) :
    ∃ s', Reaches m kernel threads total s s' ∧ Ready m kernel threads total r s' ∧ s'.pCount = s.pCount + 64 * c := by
  induction c with
  | zero => exact ⟨s, .refl, h, rfl⟩
  | succ c ih =>
    obtain ⟨s1, h1, hready1, hcount1⟩ := ih fun j hj => hlt j (Nat.lt_succ_of_lt hj)
    obtain ⟨s2, h2, hready2, hcount2, -⟩ := turn hm hg hr hs hready1 Finset.univ_nonempty.ne_empty
      (fun i hi => absurd (Finset.mem_univ i) hi) (fun w hw => hall w fun i => (hw i).mpr (Finset.mem_univ i))
      (hcount1 ▸ hlt c (Nat.lt_succ_self c))
    rw [Finset.card_univ, Fintype.card_fin] at hcount2
    exact ⟨s2, h1.trans h2, hready2, by omega⟩

variable (m kernel total) in
/-- the first transfers -/
theorem reaches_loads (hr : r < threads) (hpc : (s.rank r).thread.pc = .load 0) (k : ℕ) (hk : k ≤ n) :
    ∃ s', Reaches m kernel threads total s s' ∧ s'.pCount = s.pCount ∧ (s'.rank r).thread.pc = .load k ∧
      (s'.rank r).thread.finishCount = (s.rank r).thread.finishCount ∧
      ∀ i, ((s'.rank r).dpu i).word = ((s.rank r).dpu i).word := by
  induction k with
  | zero => exact ⟨s, .refl, rfl, hpc, rfl, fun _ => rfl⟩
  | succ k ih =>
    obtain ⟨s', hreach, hcount, hpc', hfin, hword⟩ := ih (by omega)
    obtain ⟨s'', hreach', hrank, hcount', -⟩ := hreach.drive hr (by simp [hpc'])
    simp only [rankStep, hpc', if_pos (Nat.lt_of_succ_le hk)] at hrank
    rw [takeStep_of_le total (Or.inl (by simp [hpc']))] at hcount'
    refine ⟨s'', hreach', hcount'.trans hcount, by rw [hrank], by rw [hrank]; exact hfin, fun i => ?_⟩
    rw [hrank]
    exact hword i

variable (kernel) in
/-- thread `r` has launched its rank, and no other party has moved -/
theorem ready_launched (hm : m.Lawful) (hr : r < threads) (hs : Sized threads total) :
    ∃ s : State n β, Reaches m kernel threads total (init threads) s ∧ Ready m kernel threads total r s ∧
      s.pCount = 64 * threads ∧ ∀ i, ((s.rank r).dpu i).word = 0 := by
  obtain ⟨s1, h1, hcount1, hpc1, hfin1, hword1⟩ :=
    reaches_loads m kernel total hr (s := init threads) rfl n le_rfl
  obtain ⟨s2, h2, hrank2, hcount2, -⟩ := h1.drive hr (by simp [hpc1])
  simp only [rankStep, hpc1, lt_irrefl, if_false] at hrank2
  rw [takeStep_of_le total (Or.inl (by simp [hpc1]))] at hcount2
  have hpc2 : (s2.rank r).thread.pc = .launch := by rw [hrank2]
  obtain ⟨s3, h3, hrank3, hcount3, -⟩ := h2.drive hr (by simp [hpc2])
  simp only [rankStep, hpc2] at hrank3
  rw [takeStep_of_le total (Or.inl (by simp [hpc2]))] at hcount3
  refine ⟨s3, h3, ⟨h3.inv hm hs (init_inv m kernel total hs), ?_, ?_⟩, ?_, fun i => ?_⟩
  · rw [hrank3]
    rfl
  · rw [hrank3, hrank2]
    exact hfin1
  · rw [hcount3, hcount2, hcount1]
    rfl
  · rw [hrank3, hrank2]
    exact hword1 i

end Turn

end PimOfis.Schedule
