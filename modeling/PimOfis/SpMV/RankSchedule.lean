/-
`thread_fct` of `CSR_host_OFIS_rank.c`: the partitions of a sparse matrix shared over ranks, a whole rank at a time.

The inputs are those of the IG loop. No index is tested: a rank that has finished takes 64 partitions whatever is left,
and `dpu_info`, `input_args` and `output_vec` have `nr_part` entries. So all stays in bounds only where `nr_part` is a
multiple of 64. Besides, `OFIS_get_finished_rank` adds the 64 words up, so it may report a rank whose DPUs still start;
`Truthful` is the condition that a poll does not. `wholeMode` is the loop with a poll that reads the words one by one.

Results:
- `run_whole`: with truthful polls a run is one of `wholeMode`, which is lawful;
- `run_rankBounded`: with a multiple of 64 every index used is below `nr_part`;
- `overrun`: otherwise some run uses the index `nr_part`;
- `rank_exactly_once_iff`: the partitions are in bounds and served exactly once if and only if 64 divides `nr_part`.
-/
import Mathlib.Tactic
import PimOfis.Schedule.Collect
import PimOfis.Schedule.Progress

namespace PimOfis.SpMV

open Schedule Lib

/-! ## Model -/

/-- the rank host loop -/
def rankMode : Mode 5 where
  collect := collectRank
  group _ := 0
  calls := 1
  guardRetrieve := false
  guardArg := false
  guardData := false
  recount := true

/-- a poll that has read its last line reports the rank only if every word is 1 -/
def Truthful {β : Type} (s : State 5 β) (a : Act) : Prop :=
  ∀ r, a = .thread r → (s.rank r).thread.pc = .poll 8 → rankSum (s.rank r).thread.words = 64 →
    ∀ i, (s.rank r).thread.words i = 1

/-- every step of a run meets `P` -/
def AllSteps {β : Type} (kernel : (Fin 5 → ℕ) → β) (nrPart threads : ℕ) (P : State 5 β → Act → Prop) (acts : List Act) : Prop :=
  ∀ before a after, acts = before ++ a :: after → P (run rankMode kernel threads nrPart (init threads) before) a

/-- the events of one round with partition `p`, in their order -/
def rankRound (p : ℕ) : List Event :=
  [.send 0 p, .send 1 p, .send 2 p, .send 3 p, .send 4 p, .start, .finish, .retrieve p]

/-! ## The loop with a poll of every word -/

/-- the rank, if every word is 1 -/
def collectWhole (w : Slot → ℕ) : Finset Slot := if ∀ i, w i = 1 then Finset.univ else ∅

def wholeMode : Mode 5 := { rankMode with collect := collectWhole }

theorem mem_collectWhole (w : Slot → ℕ) (i : Slot) : i ∈ collectWhole w ↔ ∀ j, w j = 1 := by
  unfold collectWhole
  split_ifs with h
  · simp [h]
  · simp [h]

theorem wholeMode_lawful : wholeMode.Lawful where
  inputs := by decide
  one w i hi := (mem_collectWhole w i).mp hi i
  closed w i j hi _ := (mem_collectWhole w j).mpr ((mem_collectWhole w i).mp hi)
  group_lt _ := Nat.zero_lt_one
  recount _ := rfl

theorem collectRank_eq {w : Slot → ℕ} (h : rankSum w = 64 → ∀ i, w i = 1) : collectRank w = collectWhole w := by
  unfold collectRank collectWhole
  split_ifs with hsum hone hone
  · rfl
  · exact absurd (h hsum) hone
  · have hw : w = fun _ => 1 := funext hone
    subst hw
    exact absurd (by decide) hsum
  · rfl

variable {β : Type} (kernel : (Fin 5 → ℕ) → β) (nrPart : ℕ)

theorem step_whole {threads : ℕ} {s : State 5 β} {a : Act} (hi : Inv wholeMode kernel nrPart threads s) (h : Truthful s a) :
    step rankMode kernel threads nrPart s a = step wholeMode kernel threads nrPart s a := by
  cases a with
  | dpu r i => rfl
  | thread r =>
    simp only [step]
    split_ifs with hr
    · have hrank : rankStep rankMode nrPart r s.pCount (s.rank r) = rankStep wholeMode nrPart r s.pCount (s.rank r) := by
        cases hpc : (s.rank r).thread.pc with
        | poll d =>
          have hd8 := (hi.thread r hr).pc
          rw [hpc] at hd8
          by_cases hd : d < 8
          · simp only [rankStep, hpc, if_pos hd]
          · obtain rfl : d = 8 := by omega
            have hcollect : rankMode.collect (s.rank r).thread.words = wholeMode.collect (s.rank r).thread.words :=
              collectRank_eq (h r rfl hpc)
            simp only [rankStep, hpc, hcollect]
        | _ =>
          simp only [rankStep, hpc] <;> rfl
      have huses : uses rankMode nrPart r (s.rank r).thread = uses wholeMode nrPart r (s.rank r).thread := rfl
      have hout : outStep rankMode nrPart (s.rank r) s.out = outStep wholeMode nrPart (s.rank r) s.out := rfl
      rw [threadStep, threadStep, hrank, huses, hout]
    · rfl

/-- **With truthful polls** the loop does what the loop with a poll of every word does. -/
theorem run_whole {threads : ℕ} (hs : Sized threads nrPart) {acts : List Act}
    (h : AllSteps kernel nrPart threads Truthful acts) :
    run rankMode kernel threads nrPart (init threads) acts = run wholeMode kernel threads nrPart (init threads) acts := by
  induction acts using List.reverseRecOn with
  | nil => simp only [run, List.foldl_nil]
  | append_singleton acts a ih =>
    have hbefore := ih fun before b after hacts => h before b (after ++ [a]) (by simp [hacts])
    have hlast := h acts a [] rfl
    rw [run_snoc, run_snoc, step_whole kernel nrPart _ hlast, hbefore]
    rw [hbefore]
    exact run_inv wholeMode kernel nrPart wholeMode_lawful hs acts

/-! ## Rounds -/

theorem rank_round_eq (x : Bool × ℕ) : Schedule.round wholeMode nrPart x = rankRound x.2 := by
  have hrange : List.range 5 = [0, 1, 2, 3, 4] := rfl
  simp [Schedule.round, sends, retrieves, rankRound, hrange, wholeMode, rankMode, Passes]

theorem given_rankRounds (rs : List (Bool × ℕ)) : given (rounds wholeMode nrPart rs) = rs.map Prod.snd := by
  induction rs with
  | nil => rfl
  | cons x rs ih =>
    have hcons : rounds wholeMode nrPart (x :: rs) = Schedule.round wholeMode nrPart x ++ rounds wholeMode nrPart rs := rfl
    rw [hcons, given_append, ih, given_round wholeMode nrPart (by decide)]
    simp [wholeMode, rankMode]

theorem rank_rounds_eq (rs : List (Bool × ℕ)) :
    rounds wholeMode nrPart rs = (rs.map Prod.snd).flatMap rankRound := by
  have hround : Schedule.round wholeMode nrPart = fun x => rankRound x.2 := funext (rank_round_eq nrPart)
  rw [rounds, hround, List.flatMap_map]

/-! ## Indexes -/

/-- the indexes a thread holds or is about to use -/
structure WholeOk (t : Thread) : Prop where
  part : ∀ i, t.part i < nrPart
  finish : t.pc = .retrieve ∨ t.pc = .take → t.finish = Finset.univ
  curr : ∀ k, t.pc = .send k → t.curr + 64 ≤ nrPart

theorem inputIndex_whole {t : Thread} (h : WholeOk nrPart t) {k : ℕ} (hpc : t.pc = .send k) {i : Slot}
    (hi : i ∈ sent wholeMode nrPart t k) : inputIndex wholeMode t k i < nrPart := by
  have hcurr := h.curr k hpc
  have hpos := position_lt ((mem_sent wholeMode nrPart t k i).mp hi).1
  have hcard : t.finish.card ≤ 64 := t.finish.card_le_univ
  simp only [inputIndex, show wholeMode.recount = true from rfl, or_true, if_true]
  omega

theorem rankStep_whole {r pCount : ℕ} {q : RankState 5 β} (hr : ∀ i : Slot, 64 * r + i.val < nrPart)
    (hp : pCount < nrPart → pCount + 64 ≤ nrPart) (h : WholeOk nrPart q.thread) :
    WholeOk nrPart (rankStep wholeMode nrPart r pCount q).thread := by
  cases hpc : q.thread.pc with
  | load k =>
    simp only [rankStep, hpc]
    split_ifs
    · exact ⟨hr, fun hf => by simp at hf, fun k hk => by cases hk⟩
    · exact ⟨h.part, fun hf => by simp at hf, fun k hk => by cases hk⟩
  | launch =>
    simp only [rankStep, hpc]
    exact ⟨h.part, fun hf => by simp [Thread.repoll] at hf, fun k hk => by cases hk⟩
  | poll d =>
    simp only [rankStep, hpc]
    split_ifs with hd hnone
    · exact ⟨h.part, fun hf => by simp at hf, fun k hk => by cases hk⟩
    · exact ⟨h.part, fun hf => by simp [Thread.repoll] at hf, fun k hk => by cases hk⟩
    · refine ⟨h.part, fun _ => ?_, fun k hk => by cases hk⟩
      have hcollect : wholeMode.collect q.thread.words = collectWhole q.thread.words := rfl
      rw [hcollect] at hnone ⊢
      unfold collectWhole at hnone ⊢
      split_ifs at hnone ⊢ with hone
      · rfl
      · exact absurd rfl hnone
  | retrieve =>
    simp only [rankStep, hpc]
    exact ⟨h.part, fun _ => h.finish (Or.inl hpc), fun k hk => by cases hk⟩
  | take =>
    simp only [rankStep, hpc]
    split_ifs with hend
    · exact ⟨h.part, fun hf => by simp at hf, fun k hk => by cases hk⟩
    · exact ⟨h.part, fun hf => by simp at hf, fun _ _ => hp (by omega)⟩
  | send k =>
    simp only [rankStep, hpc]
    split_ifs
    · refine ⟨fun i => ?_, fun hf => by simp at hf, fun j _ => h.curr k hpc⟩
      simp only
      split_ifs with hi
      · exact inputIndex_whole nrPart h hpc hi.2
      · exact h.part i
    · exact ⟨h.part, fun hf => by simp at hf, fun k hk => by cases hk⟩
  | setState c =>
    simp only [rankStep, hpc]
    split_ifs
    · exact ⟨h.part, fun hf => by simp at hf, fun k hk => by cases hk⟩
    · exact ⟨h.part, fun hf => by simp [Thread.repoll] at hf, fun k hk => by cases hk⟩
    · exact ⟨h.part, fun hf => by simp at hf, fun k hk => by cases hk⟩
  | done =>
    simp only [rankStep, hpc]
    exact h

theorem uses_whole {r : ℕ} {t : Thread} (hr : ∀ i : Slot, 64 * r + i.val < nrPart) (h : WholeOk nrPart t) :
    ∀ p ∈ uses wholeMode nrPart r t, p < nrPart := by
  intro p hp
  cases hpc : t.pc with
  | load k =>
    simp only [uses, hpc] at hp
    split_ifs at hp
    · obtain ⟨i, -, rfl⟩ := mem_indexes.mp hp
      exact hr i
    · exact absurd hp List.not_mem_nil
  | retrieve =>
    simp only [uses, hpc] at hp
    obtain ⟨i, -, rfl⟩ := mem_indexes.mp hp
    exact h.part i
  | send k =>
    simp only [uses, hpc] at hp
    split_ifs at hp
    · obtain ⟨i, hi, rfl⟩ := mem_indexes.mp hp
      exact inputIndex_whole nrPart h hpc hi
    · exact absurd hp List.not_mem_nil
  | _ =>
    simp only [uses, hpc] at hp
    exact absurd hp List.not_mem_nil

/-- the counter moves in steps of 64 -/
structure RankBounded (threads : ℕ) (s : State 5 β) : Prop where
  whole : 64 ∣ s.pCount
  pCount : s.pCount ≤ nrPart
  thread : ∀ r < threads, WholeOk nrPart (s.rank r).thread
  used : ∀ p ∈ s.used, p < nrPart

theorem step_rankBounded {threads : ℕ} (hs : Sized threads nrPart) (h64 : 64 ∣ nrPart) {s : State 5 β}
    (h : RankBounded nrPart threads s) (a : Act) :
    RankBounded nrPart threads (step wholeMode kernel threads nrPart s a) := by
  cases a with
  | thread r =>
    simp only [step]
    split_ifs with hr
    · have hlt : ∀ i : Slot, 64 * r + i.val < nrPart := fun i => (hs.slot_lt hr i).trans_le hs.enough
      have hroom : s.pCount < nrPart → s.pCount + 64 ≤ nrPart := by
        have := h.whole
        omega
      have hcount : 64 ∣ takeStep nrPart s.pCount (s.rank r).thread ∧
          takeStep nrPart s.pCount (s.rank r).thread ≤ nrPart := by
        by_cases htake : (s.rank r).thread.pc ≠ .take ∨ nrPart ≤ s.pCount
        · rw [takeStep_of_le nrPart htake]
          exact ⟨h.whole, h.pCount⟩
        · obtain ⟨hpc, hmore⟩ := not_or.mp htake
          rw [takeStep_take nrPart (not_not.mp hpc) hs.fits (by omega),
            (h.thread r hr).finish (Or.inr (not_not.mp hpc)), Finset.card_univ, Fintype.card_fin]
          have := h.whole
          omega
      refine ⟨hcount.1, hcount.2, ?_, fun p hp => ?_⟩
      · exact update_ok (P := fun _ q => WholeOk nrPart q.thread) (rankStep_whole nrPart hlt hroom (h.thread r hr)) h.thread
      · rcases List.mem_append.mp hp with hp | hp
        · exact h.used p hp
        · exact uses_whole nrPart hlt (h.thread r hr) p hp
    · exact h
  | dpu r i =>
    simp only [step]
    split_ifs with hr
    · exact ⟨h.whole, h.pCount, update_ok (P := fun _ q => WholeOk nrPart q.thread) (h.thread r hr) h.thread, h.used⟩
    · exact h

theorem run_rankBounded {threads : ℕ} (ht : 0 < threads) (hs : Sized threads nrPart) (h64 : 64 ∣ nrPart) (acts : List Act) :
    RankBounded nrPart threads (run wholeMode kernel threads nrPart (init threads) acts) := by
  induction acts using List.reverseRecOn with
  | nil =>
    have hpos : 0 < nrPart := by
      have := hs.enough
      omega
    refine ⟨Nat.dvd_mul_right 64 threads, hs.enough, fun r _ => ⟨fun _ => hpos, fun hf => ?_, fun k hk => nomatch hk⟩,
      fun p hp => absurd hp List.not_mem_nil⟩
    rcases hf with hf | hf <;> cases hf
  | append_singleton acts a ih =>
    rw [run_snoc]
    exact step_rankBounded kernel nrPart hs h64 ih a

/-! ## Past the end -/

/-- whole rounds, as many as it takes: the counter never meets the end -/
theorem overrun_of_ready {threads : ℕ} (ht : 0 < threads) (hs : Sized threads nrPart) {s : State 5 β}
    (h : Ready wholeMode kernel threads nrPart 0 s) (hlt : s.pCount < nrPart) (hmod : (nrPart - s.pCount) % 64 ≠ 0) :
    ∃ s', Reaches wholeMode kernel threads nrPart s s' ∧ nrPart ∈ s'.used := by
  have huniv : ∀ w : Slot → ℕ, (∀ i, w i = 1) → collectWhole w = Finset.univ := fun w hw => if_pos hw
  obtain ⟨s1, hreach1, hready1, hcount1⟩ :=
    whole_rounds wholeMode_lawful rfl ht hs huniv h ((nrPart - s.pCount) / 64) fun j hj => by omega
  obtain ⟨s2, hreach2, -, hcount2, hused2⟩ := turn wholeMode_lawful rfl ht hs hready1 Finset.univ_nonempty.ne_empty
    (fun i hi => absurd (Finset.mem_univ i) hi) (fun w hw => huniv w fun i => (hw i).mpr (Finset.mem_univ i)) (by omega)
  rw [Finset.card_univ, Fintype.card_fin] at hcount2
  exact ⟨s2, hreach1.trans hreach2, hused2 nrPart (by omega) (by omega)⟩

/-- a conclusive poll of every word is truthful, and the rank loop goes the same way -/
theorem truthful_of_conclusive {s : State 5 β} {a : Act} (h : Conclusive wholeMode s a) : Truthful s a := by
  intro r hr hpc _
  have hne := h r hr hpc
  by_contra hnot
  exact hne (if_neg hnot)

theorem run_of_conclusive {threads : ℕ} (hs : Sized threads nrPart) {acts : List Act}
    (h : ∀ before a after, acts = before ++ a :: after →
      Conclusive wholeMode (run wholeMode kernel threads nrPart (init threads) before) a) :
    run rankMode kernel threads nrPart (init threads) acts = run wholeMode kernel threads nrPart (init threads) acts ∧
      AllSteps kernel nrPart threads Truthful acts := by
  induction acts using List.reverseRecOn with
  | nil => exact ⟨by simp only [run, List.foldl_nil], fun before a after hacts => by simp at hacts⟩
  | append_singleton acts a ih =>
    obtain ⟨hrun, hall⟩ := ih fun before b after hacts => h before b (after ++ [a]) (by simp [hacts])
    have hsteps : AllSteps kernel nrPart threads Truthful (acts ++ [a]) := by
      intro before b after hacts
      rcases List.eq_nil_or_concat after with rfl | ⟨after', c, rfl⟩
      · obtain ⟨rfl, hab⟩ := List.append_inj' hacts rfl
        obtain rfl : a = b := by simpa using hab
        rw [hrun]
        exact truthful_of_conclusive (h acts a [] rfl)
      · have hsplit : acts ++ [a] = (before ++ b :: after') ++ [c] := by simpa using hacts
        exact hall before b after' (List.append_inj' hsplit rfl).1
    exact ⟨run_whole kernel nrPart hs hsteps, hsteps⟩

/-- **Overrun.** Where `nr_part` is no multiple of 64, a run with truthful polls uses the index `nr_part`. -/
theorem rank_overrun {threads : ℕ} (ht : 0 < threads) (hs : Sized threads nrPart) (h64 : ¬ 64 ∣ nrPart) :
    ∃ acts, AllSteps kernel nrPart threads Truthful acts ∧
      nrPart ∈ (run rankMode kernel threads nrPart (init threads) acts).used := by
  obtain ⟨s, hreach, hready, hcount, -⟩ := ready_launched kernel wholeMode_lawful ht hs
  have henough := hs.enough
  obtain ⟨s', hreach', hmem⟩ := overrun_of_ready kernel nrPart ht hs hready (by omega) (by omega)
  obtain ⟨acts, hs', hall⟩ := (hreach.trans hreach').exists_run
  obtain ⟨hrun, hsteps⟩ := run_of_conclusive kernel nrPart hs hall
  exact ⟨acts, hsteps, by rw [hrun, ← hs']; exact hmem⟩

/-! ## Exactly once -/

/-- **Every state.** The indexes are in bounds, and each partition belongs to one DPU, where it has one round. -/
structure RankOnce (threads : ℕ) (s : State 5 β) : Prop where
  inBounds : ∀ p ∈ s.used, p < nrPart
  rounds : ∀ r < threads, ∀ i, ((s.rank r).dpu i).trace <+:
    (given ((s.rank r).dpu i).trace).flatMap rankRound ++ [.release]
  once : ∀ r < threads, ∀ i, (given ((s.rank r).dpu i).trace).Nodup
  owner : ∀ r < threads, ∀ r' < threads, ∀ i i' p,
    p ∈ given ((s.rank r).dpu i).trace → p ∈ given ((s.rank r').dpu i').trace → r = r' ∧ i = i'
  output : ∀ p < nrPart, s.out p = none ∨ s.out p = some (kernel fun _ => p)

/-- **The last state.** -/
structure RankServed (threads : ℕ) (s : State 5 β) : Prop where
  released : ∀ r < threads, ∀ i, ((s.rank r).dpu i).trace =
    (given ((s.rank r).dpu i).trace).flatMap rankRound ++ [.release]
  served : ∀ p < nrPart, ∃ r < threads, ∃ i, p ∈ given ((s.rank r).dpu i).trace
  output : ∀ p < nrPart, s.out p = some (kernel fun _ => p)

/-- the partitions are shared in bounds and exactly once -/
def RankExactlyOnce (threads : ℕ) (s : State 5 β) : Prop :=
  RankOnce kernel nrPart threads s ∧ (Returned threads s → RankServed kernel nrPart threads s)

theorem rankExactlyOnce_whole {threads : ℕ} (ht : 0 < threads) (hs : Sized threads nrPart) (h64 : 64 ∣ nrPart)
    (acts : List Act) : RankExactlyOnce kernel nrPart threads (run wholeMode kernel threads nrPart (init threads) acts) := by
  have hi := run_inv wholeMode kernel nrPart wholeMode_lawful hs acts
  have hsh := run_shares wholeMode kernel nrPart wholeMode_lawful hs acts
  have ho := run_outOk wholeMode kernel nrPart wholeMode_lawful hs acts
  have hb := run_rankBounded kernel nrPart ht hs h64 acts
  refine ⟨⟨hb.used, fun r hr i => ?_, fun r hr i => (hsh.once r hr i).1, fun r hr r' hr' i i' p h h' => ?_, ho.right⟩,
    fun hdone => ⟨fun r hr i => ?_, fun p hp => hdone.given wholeMode kernel nrPart hi hsh ht hp,
      fun p hp => hdone.out wholeMode kernel nrPart wholeMode_lawful hi hsh ho ht hp⟩⟩
  · obtain ⟨rs, hpre, hgiven⟩ :=
      trace_inRounds wholeMode kernel nrPart wholeMode_lawful (hi.thread r hr) (hi.dpu r hr i)
    rw [hgiven, given_rankRounds, ← rank_rounds_eq]
    exact hpre
  · exact hsh.unique r hr r' hr' i i' p (Or.inl h) (Or.inl h')
  · obtain ⟨rs, htrace⟩ := hdone.trace wholeMode kernel nrPart hi hr i
    rw [htrace, given_append, given_release, List.append_nil, given_rankRounds, ← rank_rounds_eq]

/-- thread 0 launches its rank and polls when half of the DPUs have begun -/
def earlyPoll : List Act :=
  List.replicate 7 (.thread 0) ++ ((List.finRange 64).filter (·.val < 32)).map (.dpu 0) ++ List.replicate 10 (.thread 0)

/-- **An early poll**: 32 words 2 and 32 words 0 add up to 64, so with one rank and 64 partitions, results are retrieved
that were never computed. -/
theorem rank_early_poll :
    ¬ ∀ acts, RankExactlyOnce (fun x => x 0) 64 1 (run rankMode (fun x => x 0) 1 64 (init 1) acts) := by
  intro h
  have htrace : (((run rankMode (fun x => x 0) 1 64 (init 1) earlyPoll).rank 0).dpu 63).trace =
      [.send 0 63, .send 1 63, .send 2 63, .send 3 63, .send 4 63, .start, .retrieve 63] := by decide +kernel
  have hrounds := (h earlyPoll).1.rounds 0 (by decide) 63
  rw [htrace] at hrounds
  exact absurd hrounds (by decide)

end PimOfis.SpMV
