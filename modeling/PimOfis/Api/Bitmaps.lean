/-
What the bits of a poll are used for: `DPU_FOREACH` (`dpu_set.c`) with `OFIS_prepare_xfer_dpu` or `OFIS_prepare_xfer_ig`, and
`OFIS_set_state_dpu` or `OFIS_set_state_ig` for each bit that is set (`dpu_memory.c`).

A poll makes a bit position of chip and member, `OFIS_prepare_xfer_dpu` makes one of slice and member ids,
`OFIS_set_state_dpu` takes one apart again, and a transfer matrix has an order of its own. They agree. What does not is a poll
of a chip with a disabled DPU: it keeps the word of the DPU before it, and sets the bits of all DPUs behind.

The DPUs store to their own state words at any time. `seen` is the word of a DPU when its line is read.

Results:
- `dpuForeach_eq`: the iteration visits the enabled DPUs in the order of their index;
- `prepareEach_spec`: a loop over DPUs registers the buffers of those whose bit is set, and no others;
- `dpuBit_seen`, `igBit_seen`: the bits of a poll, from the words as they are seen;
- `setStateDpu_framed`, `setStateIg_framed`: after a poll the state calls of the set bits each write one DPU's word, in whatever order;
- `sameDpus_iff`: when all of them mean the same DPUs.
-/
import Mathlib.Tactic
import PimOfis.Lib.Loops
import PimOfis.Api.Push
import PimOfis.Api.State

namespace PimOfis.Api

open Push Ufi

/-! ## Model -/

/-- `rank->dpus[idx].enabled` -/
def enabledAt (enabledDpus : Ci → Mask8) (idx : ℕ) : Bool :=
  if h : idx < 64 then enabledDpus ⟨idx / 8, Nat.div_lt_of_lt_mul h⟩ ⟨idx % 8, Nat.mod_lt _ (by decide)⟩ else false

/-- `advance_to_next_dpu_in_rank_list` on a set of one rank: the index of the next DPU -/
def advanceToNextDpu (enabledDpus : Ci → Mask8) (nextIdx : ℕ) : Option ℕ :=
  (List.range' nextIdx (64 - nextIdx)).find? (enabledAt enabledDpus)

/-- the indexes a `DPU_FOREACH` visits from `next_idx` on, in `n` steps at most -/
def foreachFrom (enabledDpus : Ci → Mask8) : ℕ → ℕ → List ℕ
  | 0, _ => []
  | n + 1, nextIdx =>
    match advanceToNextDpu enabledDpus nextIdx with
    | some idx => idx :: foreachFrom enabledDpus n (idx + 1)
    | none => []

/-- `DPU_FOREACH` on a rank -/
def dpuForeach (enabledDpus : Ci → Mask8) : List ℕ := foreachFrom enabledDpus 64 0

/-- the slice and the member id of `rank->dpus[idx]` -/
def sliceId (idx : ℕ) : Ci := ⟨idx / 8 % 8, Nat.mod_lt _ (by decide)⟩
def memberId (idx : ℕ) : Member := ⟨idx % 8, Nat.mod_lt _ (by decide)⟩

variable {α : Type}

/-- one of the two prepare functions, for a fixed bitmap -/
abbrev Prepare (α : Type) := XferRank α → Ci → Member → Option α → Bool × XferRank α

/-- a loop over DPUs, with what each call returns -/
def prepareEach (prepare : Prepare α) (buffer : Ci → Member → Option α) : List ℕ → XferRank α → List (ℕ × Bool) × XferRank α
  | [], x => ([], x)
  | idx :: ds, x =>
    let called := prepare x (sliceId idx) (memberId idx) (buffer (sliceId idx) (memberId idx))
    let rest := prepareEach prepare buffer ds called.2
    ((idx, called.1) :: rest.1, rest.2)

/-- `if(finish_dpu & (1ULL << i)) OFIS_set_state_dpu(rank, i, state)` for `i` in `order` -/
def setStateDpuCalls (bitmap state : ℕ) (order : List ℕ) : List Call :=
  (order.filter bitmap.testBit).map fun i => .setStateDpu i state

/-- `if(finish_ig & (1 << i)) OFIS_set_state_ig(rank, i, state)` for `i` in `order` -/
def setStateIgCalls (bitmap state : ℕ) (order : List ℕ) : List Call :=
  (order.filter bitmap.testBit).map fun i => .setStateIg i state

/-- the locals of a poll behind `n` lines -/
def polls (stateVar : ℕ) (r : Rank) (n : ℕ) : Poll := (List.range n).foldl (pollLine stateVar) (Poll.start r)

/-- the state word of a DPU when its line has been read -/
def seen (p : Program) (stateVar : ℕ) (r : Rank) (ci : Ci) (d : ℕ) : ℕ :=
  word (polls (checkStateVar p stateVar) r (d + 1)).rank (ofisInitSetVar p) ci d

/-! ## Statement -/

/-- the enabled DPUs as the transfers know them -/
def enabledMask (r : Rank) : Ci → Mask8 := fun ci => (r.sliceInfo ci).enabledDpus

/-- **The same DPUs everywhere**, for the bits `bit` of a poll that ended in the state `f`, its prepare function and its
state calls, for any order in which the bits are visited. -/
structure SameDpus (p : Program) (stateVar : ℕ) (r : Rank) (f : Finished) (bit : Ci → Member → Bool) (bits : ℕ)
    (prepare : ∀ α, Prepare α) (calls : ℕ → List ℕ → List Call) : Prop where
  /-- a bit is set by the DPU's own state word -/
  own : ∀ ci i, bit ci i = true → enabled r ci i = true ∧ seen p stateVar r ci i = 1
  /-- the prepare function returns true exactly where the bit is set and the buffer registered, and leaves the rest alone -/
  prepared : ∀ α (x : XferRank α) (buffer : Ci → Member → Option α), x.enabled = enabledMask r → ∀ ci i,
    let out := prepareEach (prepare α) buffer (dpuForeach x.enabled) x
    ((8 * ci.val + i.val, true) ∈ out.1 ↔ bit ci i = true) ∧
      ((8 * ci.val + i.val, false) ∈ out.1 ↔ enabled r ci i = true ∧ bit ci i = false) ∧
      out.2.ptr (matrixIndex ci i) = if bit ci i = true then buffer ci i else x.ptr (matrixIndex ci i)
  /-- the calls are for the DPUs whose bit is set -/
  named : ∀ state order, order.Perm (List.range bits) → ∀ ci i,
    (∃ c ∈ calls state order, c.Names ci i) ↔ bit ci i = true
  /-- each of them writes the state words of the DPUs it names, and no other -/
  written : ∀ state order, order.Perm (List.range bits) → ∀ before c after, calls state order = before ++ c :: after →
    Framed p (run p ⟨f.stateVar, f.rank⟩ before) c

/-- what holds of `OFIS_get_finished_dpu` and what its bits are used for -/
def DpuBitsOk (p : Program) (stateVar : ℕ) (r : Rank) : Prop :=
  let f := ofisGetFinishedDpu p stateVar r
  SameDpus p stateVar r f (fun ci i => f.bitmap.testBit (8 * ci.val + i.val)) 64
    (fun _ x ci i buffer => ofisPrepareXferDpu x ci i f.bitmap buffer) (setStateDpuCalls f.bitmap)

/-- and of `OFIS_get_finished_ig` -/
def IgBitsOk (p : Program) (stateVar : ℕ) (r : Rank) : Prop :=
  let f := ofisGetFinishedIg p stateVar r
  SameDpus p stateVar r f (fun _ i => f.bitmap.testBit i.val) 8
    (fun _ x ci i buffer => ofisPrepareXferIg x ci i f.bitmap buffer) (setStateIgCalls f.bitmap)

/-- the DPU in front of the first disabled one of a chip, `t`, holds 1 when its line is read -/
def SeenFinished (p : Program) (stateVar : ℕ) (r : Rank) (ci : Ci) (t : ℕ) : Prop := t ≠ 0 ∧ seen p stateVar r ci (t - 1) = 1

/-- on a chip with a disabled DPU the one in front of the first of them has not finished -/
def DpuSound (p : Program) (stateVar : ℕ) (r : Rank) : Prop :=
  ∀ ci t, t < 8 → FirstOff (enabled r ci) t → ¬ SeenFinished p stateVar r ci t

/-- DPUs `2k` and `2k+1` of a chip are enabled and hold 1 when their lines are read -/
def PairSeen (p : Program) (stateVar : ℕ) (r : Rank) (ci : Ci) (k : ℕ) : Prop :=
  (enabled r ci (2 * k) = true ∧ enabled r ci (2 * k + 1) = true) ∧
    seen p stateVar r ci (2 * k) = 1 ∧ seen p stateVar r ci (2 * k + 1) = 1

/-- where a chip has a disabled DPU up to the pair `k`, not all chips of this kind have finished in front of it while all
others have finished the pair; or they all have finished the pair too -/
def IgSound (p : Program) (stateVar : ℕ) (r : Rank) : Prop :=
  ∀ k < 4, (∀ ci t, FirstOff (enabled r ci) t → t ≤ 2 * k + 1 → SeenFinished p stateVar r ci t) →
    (∀ ci, (∀ t, FirstOff (enabled r ci) t → 2 * k + 1 < t) → PairSeen p stateVar r ci k) → ∀ ci, PairSeen p stateVar r ci k

/-! ## The iteration -/

section Foreach

theorem foreachFrom_eq (enabledDpus : Ci → Mask8) (n k : ℕ) (h : 64 - k ≤ n) :
    foreachFrom enabledDpus n k = (List.range' k (64 - k)).filter (enabledAt enabledDpus) := by
  induction n generalizing k with
  | zero =>
    rw [Nat.le_zero.mp h]
    rfl
  | succ n ih =>
    rw [foreachFrom, advanceToNextDpu]
    cases hd : (List.range' k (64 - k)).find? (enabledAt enabledDpus) with
    | none => exact (List.filter_eq_nil_iff.mpr (List.find?_eq_none.mp hd)).symm
    | some d =>
      have hmem := List.mem_range'_1.mp (List.mem_of_find?_eq_some hd)
      dsimp only
      rw [Lib.filter_range'_of_find _ hd, ih (d + 1) (by omega)]

/-- **The iteration** visits the enabled DPUs, in the order of their index. -/
theorem dpuForeach_eq (enabledDpus : Ci → Mask8) :
    dpuForeach enabledDpus = (List.range 64).filter (enabledAt enabledDpus) := by
  rw [dpuForeach, foreachFrom_eq enabledDpus 64 0 le_rfl, List.range_eq_range']

theorem sliceId_index (ci : Ci) (i : Member) : sliceId (8 * ci.val + i.val) = ci := by
  apply Fin.ext
  simp only [sliceId]
  omega

theorem memberId_index (ci : Ci) (i : Member) : memberId (8 * ci.val + i.val) = i := by
  apply Fin.ext
  simp only [memberId]
  omega

theorem index_of_lt {idx : ℕ} (h : idx < 64) : 8 * (sliceId idx).val + (memberId idx).val = idx := by
  simp only [sliceId, memberId]
  omega

theorem enabledAt_index (enabledDpus : Ci → Mask8) (ci : Ci) (i : Member) :
    enabledAt enabledDpus (8 * ci.val + i.val) = enabledDpus ci i := by
  have hlt : 8 * ci.val + i.val < 64 := by omega
  have hci : (⟨(8 * ci.val + i.val) / 8, Nat.div_lt_of_lt_mul hlt⟩ : Ci) = ci := Fin.ext (by dsimp only; omega)
  have hi : (⟨(8 * ci.val + i.val) % 8, Nat.mod_lt _ (by decide)⟩ : Member) = i := Fin.ext (by dsimp only; omega)
  rw [enabledAt, dif_pos hlt, hci, hi]

theorem mem_dpuForeach (enabledDpus : Ci → Mask8) (ci : Ci) (i : Member) :
    8 * ci.val + i.val ∈ dpuForeach enabledDpus ↔ enabledDpus ci i = true := by
  rw [dpuForeach_eq, List.mem_filter, enabledAt_index, List.mem_range]
  exact and_iff_right (by omega)

end Foreach

/-! ## Preparing -/

section Preparing

variable {prepare : Prepare α} {P : Ci → Member → Bool} {buffer : Ci → Member → Option α}

theorem matrixIndex_inj {ci ci' : Ci} {i i' : Member} (h : matrixIndex ci i = matrixIndex ci' i') : ci = ci' ∧ i = i' := by
  unfold matrixIndex at h
  exact ⟨Fin.ext (by omega), Fin.ext (by omega)⟩

/-- one enabled DPU is prepared -/
theorem prepareOne_ptr {x : XferRank α} {ci : Ci} {i : Member} (hen : x.enabled ci i = true) (b : Option α) (cj : Ci)
    (j : Member) : (dpuPrepareXfer x [(ci, i)] b).ptr (matrixIndex cj j) =
      if ci = cj ∧ i = j then b else x.ptr (matrixIndex cj j) := by
  simp only [dpuPrepareXfer, addDpus, List.foldl_cons, List.foldl_nil, hen, if_true]
  split_ifs with h
  · rw [h.1, h.2, Function.update_self]
  · exact Function.update_of_ne (fun heq => h (matrixIndex_inj heq.symm)) b x.ptr

variable (buffer) in
/-- **Preparing DPU by DPU.** Each call returns the DPU's bit; the buffers of the DPUs whose bit is set are registered, and
the other entries are as before. -/
theorem prepareEach_spec (hprepare : ∀ x ci i b,
      prepare x ci i b = if P ci i = true then (true, dpuPrepareXfer x [(ci, i)] b) else (false, x))
    (ds : List ℕ) (hlt : ∀ idx ∈ ds, idx < 64) (x : XferRank α)
    (hen : ∀ idx ∈ ds, x.enabled (sliceId idx) (memberId idx) = true) :
    (prepareEach prepare buffer ds x).1 = ds.map (fun idx => (idx, P (sliceId idx) (memberId idx))) ∧
      ∀ ci i, (prepareEach prepare buffer ds x).2.ptr (matrixIndex ci i) =
        if 8 * ci.val + i.val ∈ ds ∧ P ci i = true then buffer ci i else x.ptr (matrixIndex ci i) := by
  induction ds generalizing x with
  | nil => exact ⟨rfl, fun ci i => by simp [prepareEach]⟩
  | cons idx ds ih =>
    have hidx := index_of_lt (hlt idx List.mem_cons_self)
    have hself := hen idx List.mem_cons_self
    set called := prepare x (sliceId idx) (memberId idx) (buffer (sliceId idx) (memberId idx)) with hcalled
    have henabled : called.2.enabled = x.enabled := by
      rw [hcalled, hprepare]
      split_ifs <;> rfl
    have hbool : called.1 = P (sliceId idx) (memberId idx) := by
      rw [hcalled, hprepare]
      split_ifs with hP
      · exact hP.symm
      · exact (Bool.eq_false_iff.mpr hP).symm
    obtain ⟨h1, h2⟩ := ih (fun j hj => hlt j (List.mem_cons_of_mem idx hj)) called.2 fun j hj => by
      rw [henabled]
      exact hen j (List.mem_cons_of_mem idx hj)
    refine ⟨?_, fun ci i => ?_⟩
    · rw [prepareEach, List.map_cons, ← hcalled]
      exact congrArg₂ List.cons (Prod.ext rfl hbool) h1
    · rw [prepareEach, ← hcalled]
      dsimp only
      rw [h2 ci i]
      by_cases hrest : 8 * ci.val + i.val ∈ ds ∧ P ci i = true
      · rw [if_pos hrest, if_pos ⟨List.mem_cons_of_mem idx hrest.1, hrest.2⟩]
      · rw [if_neg hrest, hcalled, hprepare]
        by_cases hhere : 8 * ci.val + i.val = idx ∧ P ci i = true
        · obtain ⟨rfl, hP⟩ := hhere
          rw [sliceId_index, memberId_index] at hself ⊢
          rw [if_pos hP, if_pos ⟨List.mem_cons_self, hP⟩]
          exact (prepareOne_ptr hself _ ci i).trans (if_pos ⟨rfl, rfl⟩)
        · have hnot : ¬ (8 * ci.val + i.val ∈ idx :: ds ∧ P ci i = true) := by
            rintro ⟨hmem, hP⟩
            rcases List.mem_cons.mp hmem with heq | hmem
            · exact hhere ⟨heq, hP⟩
            · exact hrest ⟨hmem, hP⟩
          rw [if_neg hnot]
          split_ifs with hP
          · refine (prepareOne_ptr hself _ ci i).trans (if_neg ?_)
            rintro ⟨rfl, rfl⟩
            exact hhere ⟨hidx, hP⟩
          · rfl

end Preparing

/-! ## Polling -/

section Polling

variable {p : Program} {stateVar : ℕ} {r : Rank}

theorem polls_succ (v : ℕ) (r : Rank) (n : ℕ) : polls v r (n + 1) = pollLine v (polls v r n) n := by
  rw [polls, List.range_succ, List.foldl_append]
  rfl

/-- a polling loop goes through these locals and folds what their buffers hold -/
theorem pollRounds_polls {β : Type} (v : ℕ) (body : β → ℕ → (Ci → ℕ) → β) (a : β) (r : Rank) (n : ℕ) :
    pollRounds v body a (Poll.start r) n =
      ((List.range n).foldl (fun x d => body x d fun ci => (polls v r (d + 1)).wramRead ci 0) a, polls v r n) := by
  induction n with
  | zero => rfl
  | succ n ih =>
    have hstep : pollRounds v body a (Poll.start r) (n + 1) =
        (body (pollRounds v body a (Poll.start r) n).1 n fun ci =>
            (pollLine v (pollRounds v body a (Poll.start r) n).2 n).wramRead ci 0,
          pollLine v (pollRounds v body a (Poll.start r) n).2 n) := by
      rw [pollRounds, List.range_succ, List.foldl_append]
      rfl
    rw [hstep, ih, List.range_succ, List.foldl_append, ← polls_succ]
    rfl

/-- **The locals of a poll.** Whatever the DPUs store meanwhile, the buffers hold the words as they were seen. -/
theorem polls_spec (hv : StateVarOk p stateVar) (hb : r.BusOk) (hc : Coherent r) (n : ℕ) (hn : n ≤ 8) :
    (∃ k, Elapsed r (polls (checkStateVar p stateVar) r n).rank k) ∧
      Coherent (polls (checkStateVar p stateVar) r n).rank ∧
      ((polls (checkStateVar p stateVar) r n).ciMask = fun ci => maskAfter true (enabled r ci) n) ∧
      ∀ ci, (polls (checkStateVar p stateVar) r n).wramRead ci 0 =
        carried true (enabled r ci) (seen p stateVar r ci) 0 n := by
  induction n with
  | zero =>
    refine ⟨⟨0, Elapsed.refl r⟩, hc, ?_, fun ci => rfl⟩
    funext ci
    simp [polls, Poll.start, maskAfter, Mask8.all]
  | succ n ih =>
    obtain ⟨⟨k, he⟩, hck, hmask, hread⟩ := ih (Nat.le_of_succ_le hn)
    obtain ⟨⟨m, hl⟩, hcl, hm, hw⟩ := pollLine_elapsed (checkStateVar p stateVar) (he.busOk hb) hck ⟨n, hn⟩
    have hen : ∀ ci, enabled (polls (checkStateVar p stateVar) r n).rank ci n = enabled r ci n := fun ci => by
      simp only [enabled, he.enabled ci]
    rw [polls_succ]
    refine ⟨⟨k + m, he.trans hl⟩, hcl, ?_, fun ci => ?_⟩
    · rw [hm, hmask]
      funext ci
      rw [maskAfter_succ, hen ci]
    · rw [hw ci, hmask, hread ci, hen ci, (checkStateVar_ok hv).2]
      simp only [carried, maskAfter_succ, seen, polls_succ]

/-- on an idle rank a DPU is seen with the word it has -/
theorem seen_idle (h : Idle r) (ci : Ci) (d : Member) :
    seen p stateVar r ci d = word r (ofisInitSetVar p) ci d := by
  obtain ⟨-, -, hview, -, -⟩ :=
    pollRounds_spec (checkStateVar p stateVar) (fun a _ _ => a) () (Poll.start r) h (d.val + 1) d.isLt
  rw [pollRounds_polls] at hview
  exact hview.2 (ofisInitSetVar p) ci d

theorem polled_seen (hv : StateVarOk p stateVar) (hb : r.BusOk) (hc : Coherent r) {β : Type}
    (body : β → ℕ → (Ci → ℕ) → β) (a : β) :
    (pollRounds (checkStateVar p stateVar) body a (Poll.start r) 8).1 = (List.range 8).foldl
      (fun x d => body x d fun ci => lastWord (enabled r ci) (seen p stateVar r ci) d) a := by
  rw [pollRounds_polls]
  refine List.foldl_ext _ _ _ fun x d hd => ?_
  refine congrArg (body x d) (funext fun ci => ?_)
  rw [(polls_spec hv hb hc (d + 1) (List.mem_range.mp hd)).2.2.2 ci, carried_eq_lastWord]

/-- the pair of a chip as the poll takes it -/
def PairTaken (p : Program) (stateVar : ℕ) (r : Rank) (ci : Ci) (k : ℕ) : Prop :=
  lastWord (enabled r ci) (seen p stateVar r ci) (2 * k) = 1 ∧ lastWord (enabled r ci) (seen p stateVar r ci) (2 * k + 1) = 1

theorem dpuBit_seen (hv : StateVarOk p stateVar) (hb : r.BusOk) (hc : Coherent r) (ci : Ci) (i : Member) :
    (ofisGetFinishedDpu p stateVar r).bitmap.testBit (8 * ci.val + i.val) = true ↔
      PairTaken p stateVar r ci (i.val / 2) := by
  simp only [ofisGetFinishedDpu, polled_seen hv hb hc]
  exact collectDpuPairs_testBit _ ci i

theorem igBit_seen (hv : StateVarOk p stateVar) (hb : r.BusOk) (hc : Coherent r) (i : Member) :
    (ofisGetFinishedIg p stateVar r).bitmap.testBit i.val = true ↔ ∀ ci, PairTaken p stateVar r ci (i.val / 2) := by
  simp only [ofisGetFinishedIg, polled_seen hv hb hc]
  exact collectIgPairs_testBit _ i

/-- a pair in front of the first disabled DPU of its chip -/
theorem pairTaken_of_enabled {ci : Ci} {k : ℕ} (h : ∀ t, FirstOff (enabled r ci) t → 2 * k + 1 < t) :
    PairTaken p stateVar r ci k ↔ PairSeen p stateVar r ci k := by
  obtain ⟨hread, hen⟩ := pair_of_enabled (w := seen p stateVar r ci) h
  exact hread.trans (iff_and_self.mpr fun _ => hen)

theorem pairTaken_of_off {ci : Ci} {k t : ℕ} (h : FirstOff (enabled r ci) t) (ht : t ≤ 2 * k + 1) :
    PairTaken p stateVar r ci k ↔ SeenFinished p stateVar r ci t := pair_of_off h ht

/-- the bits of both DPUs of a pair speak for both -/
theorem pairSeen_iff {ci : Ci} {k : ℕ} : PairSeen p stateVar r ci k ↔
    ∀ d, d / 2 = k → enabled r ci d = true ∧ seen p stateVar r ci d = 1 := by
  constructor
  · rintro ⟨⟨h0, h1⟩, hw0, hw1⟩ d hd
    have hcases : d = 2 * k ∨ d = 2 * k + 1 := by omega
    rcases hcases with rfl | rfl
    · exact ⟨h0, hw0⟩
    · exact ⟨h1, hw1⟩
  · intro h
    have h0 := h (2 * k) (by omega)
    have h1 := h (2 * k + 1) (by omega)
    exact ⟨⟨h0.1, h1.1⟩, h0.2, h1.2⟩

/-- **Sound for DPUs**: a pair that is taken has finished. -/
theorem dpuSound_iff : DpuSound p stateVar r ↔ ∀ ci, ∀ k < 4, PairTaken p stateVar r ci k → PairSeen p stateVar r ci k := by
  constructor
  · intro h ci k hk htaken
    by_cases hno : ∀ t, FirstOff (enabled r ci) t → 2 * k + 1 < t
    · exact (pairTaken_of_enabled hno).mp htaken
    · obtain ⟨t, ht⟩ := not_forall.mp hno
      obtain ⟨hoff, hle⟩ := Classical.not_imp.mp ht
      exact absurd ((pairTaken_of_off hoff (not_lt.mp hle)).mp htaken) (h ci t (by omega) hoff)
  · intro h ci t ht hoff hfin
    have hle : t ≤ 2 * (t / 2) + 1 := by omega
    have hpair := h ci (t / 2) (by omega) ((pairTaken_of_off hoff hle).mpr hfin)
    exact Bool.false_ne_true (hoff.1.symm.trans (pairSeen_iff.mp hpair t rfl).1)

/-- **Sound for IGs.** -/
theorem igSound_iff : IgSound p stateVar r ↔
    ∀ k < 4, (∀ ci, PairTaken p stateVar r ci k) → ∀ ci, PairSeen p stateVar r ci k := by
  refine forall_congr' fun k => imp_congr_right fun _ => ?_
  have hsplit : (∀ ci, PairTaken p stateVar r ci k) ↔
      (∀ ci t, FirstOff (enabled r ci) t → t ≤ 2 * k + 1 → SeenFinished p stateVar r ci t) ∧
        ∀ ci, (∀ t, FirstOff (enabled r ci) t → 2 * k + 1 < t) → PairSeen p stateVar r ci k := by
    constructor
    · exact fun h => ⟨fun ci t hoff ht => (pairTaken_of_off hoff ht).mp (h ci),
        fun ci hno => (pairTaken_of_enabled hno).mp (h ci)⟩
    · rintro ⟨hoff, hon⟩ ci
      by_cases hno : ∀ t, FirstOff (enabled r ci) t → 2 * k + 1 < t
      · exact (pairTaken_of_enabled hno).mpr (hon ci hno)
      · obtain ⟨t, ht⟩ := not_forall.mp hno
        obtain ⟨hfirst, hle⟩ := Classical.not_imp.mp ht
        exact (pairTaken_of_off hfirst (not_lt.mp hle)).mpr (hoff ci t hfirst (not_lt.mp hle))
  rw [hsplit, and_imp]

end Polling

/-! ## The state calls -/

section StateCalls

variable {p : Program} {stateVar : ℕ} {r : Rank}

/-- a poll leaves the read structure with every chip whose first DPU is enabled -/
theorem polls_structure (hv : StateVarOk p stateVar) (hb : r.BusOk) (hc : Coherent r) (ci : Ci) (hen : enabled r ci 0 = true)
    (n : ℕ) (hn : n < 8) :
    ((polls (checkStateVar p stateVar) r (n + 1)).rank.sliceInfo ci).structureValue = ciWramReadWordStruct := by
  have hline : ∀ k < 8, ((polls (checkStateVar p stateVar) r (k + 1)).rank.sliceInfo ci).structureValue =
      if maskAfter true (enabled r ci) (k + 1) = true then ciWramReadWordStruct
      else ((polls (checkStateVar p stateVar) r k).rank.sliceInfo ci).structureValue := by
    intro k hk
    obtain ⟨⟨m, he⟩, hck, -, -⟩ := polls_spec hv hb hc k hk.le
    obtain ⟨-, -, hmask, -⟩ := polls_spec hv hb hc (k + 1) hk
    obtain ⟨r1, n1, hsel, -⟩ := ufiSelectDpu_spec (he.busOk hb) hck (polls (checkStateVar p stateVar) r k).ciMask k
    have hsame : selectDpuMask (polls (checkStateVar p stateVar) r k).rank (polls (checkStateVar p stateVar) r k).ciMask k ci
        = false → r1.sliceInfo ci = (polls (checkStateVar p stateVar) r k).rank.sliceInfo ci := fun h => by
      have hkept := ufiSelectDpu_sliceInfo h
      rwa [hsel] at hkept
    rw [polls_succ] at hmask ⊢
    simp only [pollLine, hsel] at hmask ⊢
    rw [ufiWramRead_sliceInfo, Rank.setStructures, ← congrFun hmask ci]
    dsimp only
    split_ifs with hm
    · rfl
    · rw [hsame (Bool.eq_false_iff.mpr hm)]
  induction n with
  | zero =>
    rw [hline 0 (by decide), if_pos]
    rw [maskAfter_succ, hen]
    rfl
  | succ n ih =>
    rw [hline (n + 1) hn, ih (Nat.lt_of_succ_lt hn), ite_self]

/-- the structure of a read is that of no write -/
theorem readStruct_ne (a : ℕ) : ciWramReadWordStruct ≠ ciWramWriteWordStruct a := by
  intro h
  have hread : ciWramReadWordStruct.testBit 6 = false := by decide
  have hwrite : (ciWramWriteWordStruct a).testBit 6 = true := by
    have hlow : (0x1100000000000000 ||| (0b11111111 <<< 0)).testBit 6 = true := by decide
    simp only [ciWramWriteWordStruct, Nat.testBit_or] at hlow ⊢
    simp only [hlow, Bool.true_or]
  rw [h, hwrite] at hread
  cases hread

/-- calls that one by one keep a condition, and have their frame under it -/
theorem eachCall_framed {call : ℕ → Call} {Ready : List ℕ → Host → Prop}
    (hone : ∀ id ids s, Ready (id :: ids) s → Framed p s (call id) ∧ Ready ids (step p s (call id))) (ids : List ℕ) (s : Host)
    (h : Ready ids s) :
    ∀ before c after, ids.map call = before ++ c :: after → Framed p (run p s before) c := by
  induction ids generalizing s with
  | nil =>
    intro before c after hsplit
    exact absurd hsplit.symm (List.append_ne_nil_of_right_ne_nil _ (List.cons_ne_nil _ _))
  | cons id ids ih =>
    obtain ⟨hhere, hnext⟩ := hone id ids s h
    intro before c after hsplit
    cases before with
    | nil =>
      obtain ⟨rfl, -⟩ := List.cons.inj hsplit
      exact hhere
    | cons b before =>
      obtain ⟨rfl, hrest⟩ := List.cons.inj hsplit
      exact ih _ hnext before c after hrest

/-- the rank can take the calls for `ids`: they are enabled, and the first call of a chip selects or writes a structure -/
structure ReadyDpu (p : Program) (ids : List ℕ) (s : Host) : Prop where
  var : s.stateVar = ofisInitSetVar p
  busOk : s.rank.BusOk
  coherent : Coherent s.rank
  nodup : ids.Nodup
  enabled : ∀ id ∈ ids, (s.rank.sliceInfo (sliceId id)).enabledDpus (memberId id) = true
  pending : ∀ id ∈ ids, id < 64 ∧ ((s.rank.sliceInfo (sliceId id)).sliceTarget ≠ .dpu (id % 8) ∨
    (s.rank.sliceInfo (sliceId id)).structureValue ≠ ciWramWriteWordStruct (ofisInitSetVar p))

/-- the mask of a state call is the chip of its DPU, if that one is enabled -/
theorem selectDpuMask_one {r : Rank} {id : ℕ} (hid : id < 64)
    (hen : (r.sliceInfo (sliceId id)).enabledDpus (memberId id) = true) (ci : Ci) :
    selectDpuMask r (Mask8.one (id / 8)) (id % 8) ci = true ↔ ci = sliceId id := by
  have hslice : (sliceId id).val = id / 8 := Nat.mod_eq_of_lt (Nat.div_lt_of_lt_mul hid)
  simp only [selectDpuMask, Mask8.one, Bool.and_eq_true, decide_eq_true_eq]
  constructor
  · exact fun h => Fin.ext (h.1.trans hslice.symm)
  · rintro rfl
    exact ⟨hslice, (Mask8.bit_lt _).trans hen⟩

theorem readyDpu_step (state id : ℕ) (ids : List ℕ) (s : Host) (h : ReadyDpu p (id :: ids) s) :
    Framed p s (.setStateDpu id state) ∧ ReadyDpu p ids (step p s (.setStateDpu id state)) := by
  obtain ⟨hid, hpend⟩ := h.pending id List.mem_cons_self
  have hen := h.enabled id List.mem_cons_self
  have hmask := selectDpuMask_one hid hen
  have hself := (hmask (sliceId id)).mpr rfl
  constructor
  · refine dpu_framed p h.busOk h.coherent state (fun ci i heq => ?_) ⟨h.var, ?_⟩
    · rwa [heq, sliceId_index, memberId_index] at hen
    · rcases hpend with hne | hne
      · exact Or.inl ⟨sliceId id, hself, hne⟩
      · exact Or.inr (Or.inl ⟨sliceId id, hself, hne⟩)
  · obtain ⟨r1, n, h1, he, hc1, htgt, -, -⟩ :=
      ufiSelectDpu_spec h.busOk h.coherent (Mask8.one (id / 8)) (id % 8)
    obtain ⟨hb2, hc2⟩ := wramWrite_coherent (he.busOk h.busOk) hc1
      (selectDpuMask s.rank (Mask8.one (id / 8)) (id % 8)) state s.stateVar
    have hrank : (step p s (.setStateDpu id state)).rank =
        (ufiWramWrite r1 (selectDpuMask s.rank (Mask8.one (id / 8)) (id % 8)) (fun _ _ => state) s.stateVar 1).2 := by
      simp only [step, ofisSetStateDpu, h1]
    have hinfo : ∀ ci, ((step p s (.setStateDpu id state)).rank.sliceInfo ci).enabledDpus = (s.rank.sliceInfo ci).enabledDpus ∧
        (ci = sliceId id → ((step p s (.setStateDpu id state)).rank.sliceInfo ci).sliceTarget = .dpu (id % 8)) ∧
        (ci ≠ sliceId id → (step p s (.setStateDpu id state)).rank.sliceInfo ci = s.rank.sliceInfo ci) := by
      intro ci
      rw [hrank, ufiWramWrite_sliceInfo, Rank.setStructures]
      dsimp only
      refine ⟨?_, fun heq => ?_, fun hne => ?_⟩
      · split_ifs <;> exact he.enabled ci
      · have hin := (hmask ci).mpr heq
        rw [if_pos hin]
        exact htgt ci hin
      · have hout : ¬ selectDpuMask s.rank (Mask8.one (id / 8)) (id % 8) ci = true := fun hin => hne ((hmask ci).mp hin)
        have hkept := ufiSelectDpu_sliceInfo (Bool.eq_false_iff.mpr hout)
        rw [if_neg hout]
        rwa [h1] at hkept
    obtain ⟨hfresh, hnodup⟩ := List.nodup_cons.mp h.nodup
    refine ⟨h.var, by rwa [hrank], by rwa [hrank], hnodup, fun j hj => ?_, fun j hj => ?_⟩
    · rw [(hinfo (sliceId j)).1]
      exact h.enabled j (List.mem_cons_of_mem id hj)
    · obtain ⟨hj64, hjpend⟩ := h.pending j (List.mem_cons_of_mem id hj)
      refine ⟨hj64, ?_⟩
      by_cases hchip : sliceId j = sliceId id
      · -- another DPU of this chip has to be selected
        refine Or.inl ?_
        rw [(hinfo (sliceId j)).2.1 hchip]
        intro heq
        have hmember : id % 8 = j % 8 := SliceTarget.dpu.inj heq
        have hsame : j = id := by
          rw [← index_of_lt hj64, ← index_of_lt hid, hchip]
          simp only [memberId, hmember]
        exact hfresh (hsame ▸ hj)
      · rw [(hinfo (sliceId j)).2.2 hchip]
        exact hjpend

/-- the rank can take the calls for IGs whose DPUs are enabled on all chips -/
structure ReadyIg (p : Program) (ids : List ℕ) (s : Host) : Prop where
  var : s.stateVar = ofisInitSetVar p
  busOk : s.rank.BusOk
  coherent : Coherent s.rank
  enabled : ∀ id ∈ ids, id < 8 ∧ ∀ ci, (s.rank.sliceInfo ci).enabledDpus (memberId id) = true

theorem readyIg_step (state id : ℕ) (ids : List ℕ) (s : Host) (h : ReadyIg p (id :: ids) s) :
    Framed p s (.setStateIg id state) ∧ ReadyIg p ids (step p s (.setStateIg id state)) := by
  obtain ⟨hid, hen⟩ := h.enabled id List.mem_cons_self
  have hmask : ∀ ci, selectDpuMask s.rank Mask8.all id ci = true := fun ci => by
    have hmember : memberId id = ⟨id, hid⟩ := Fin.ext (Nat.mod_eq_of_lt hid)
    simp only [selectDpuMask, Mask8.all, Bool.true_and]
    rw [Mask8.bit_lt hid, ← hmember]
    exact hen ci
  constructor
  · refine ig_framed p h.busOk h.coherent state (fun ci i heq => ?_) ⟨h.var, Or.inr (Or.inr fun ci hout => ?_)⟩
    · have hmember : memberId id = i := Fin.ext ((Nat.mod_eq_of_lt hid).trans heq)
      rw [← hmember]
      exact hen ci
    · exact absurd (hmask ci) (Bool.eq_false_iff.mp hout)
  · obtain ⟨r1, n, h1, he, hc1, -⟩ := ufiSelectDpu_spec h.busOk h.coherent Mask8.all id
    obtain ⟨hb2, hc2⟩ := wramWrite_coherent (he.busOk h.busOk) hc1 (selectDpuMask s.rank Mask8.all id) state s.stateVar
    have hrank : (step p s (.setStateIg id state)).rank =
        (ufiWramWrite r1 (selectDpuMask s.rank Mask8.all id) (fun _ _ => state) s.stateVar 1).2 := by
      simp only [step, ofisSetStateIg, h1]
    refine ⟨h.var, by rwa [hrank], by rwa [hrank], fun j hj => ?_⟩
    obtain ⟨hj8, hjen⟩ := h.enabled j (List.mem_cons_of_mem id hj)
    refine ⟨hj8, fun ci => ?_⟩
    rw [hrank, ufiWramWrite_sliceInfo, Rank.setStructures]
    dsimp only
    split_ifs <;> exact (congrFun (he.enabled ci) _).trans (hjen ci)

end StateCalls

/-! ## After a poll -/

section AfterPoll

variable {p : Program} {stateVar : ℕ} {r : Rank}

theorem enabledMask_iff (ci : Ci) (i : Member) : enabledMask r ci i = true ↔ enabled r ci i = true := by
  rw [enabledMask, enabled, Mask8.bit_val]

theorem finished_poll (p : Program) (stateVar : ℕ) (r : Rank) : ((ofisGetFinishedDpu p stateVar r).stateVar = checkStateVar p stateVar ∧
      (ofisGetFinishedDpu p stateVar r).rank = (polls (checkStateVar p stateVar) r 8).rank) ∧
    (ofisGetFinishedIg p stateVar r).stateVar = checkStateVar p stateVar ∧
      (ofisGetFinishedIg p stateVar r).rank = (polls (checkStateVar p stateVar) r 8).rank := by
  simp only [ofisGetFinishedDpu, ofisGetFinishedIg, pollRounds_polls, and_self]

/-- a pair is taken only behind an enabled DPU 0 -/
theorem enabled_first {ci : Ci} {k : ℕ} (h : PairTaken p stateVar r ci k) : enabled r ci 0 = true := by
  by_contra hno
  have hoff : FirstOff (enabled r ci) 0 := ⟨Bool.eq_false_iff.mpr hno, fun j hj => absurd hj (Nat.not_lt_zero j)⟩
  exact ((pairTaken_of_off hoff (Nat.zero_le _)).mp h).1 rfl

/-- preparing DPU by DPU, when only bits of enabled DPUs are set -/
theorem prepared_of_enabled {bit : Ci → Member → Bool} {prepare : Prepare α}
    (hprepare : ∀ x ci i b, prepare x ci i b = if bit ci i = true then (true, dpuPrepareXfer x [(ci, i)] b) else (false, x))
    (hown : ∀ ci i, bit ci i = true → enabled r ci i = true) (x : XferRank α) (buffer : Ci → Member → Option α)
    (hx : x.enabled = enabledMask r) (ci : Ci) (i : Member) :
    let out := prepareEach prepare buffer (dpuForeach x.enabled) x
    ((8 * ci.val + i.val, true) ∈ out.1 ↔ bit ci i = true) ∧
      ((8 * ci.val + i.val, false) ∈ out.1 ↔ enabled r ci i = true ∧ bit ci i = false) ∧
      out.2.ptr (matrixIndex ci i) = if bit ci i = true then buffer ci i else x.ptr (matrixIndex ci i) := by
  have hmem : ∀ (cj : Ci) (j : Member), 8 * cj.val + j.val ∈ dpuForeach x.enabled ↔ enabled r cj j = true := fun cj j => by
    rw [mem_dpuForeach, hx, enabledMask_iff]
  have hlt : ∀ idx ∈ dpuForeach x.enabled, idx < 64 := fun idx hidx => by
    rw [dpuForeach_eq] at hidx
    exact List.mem_range.mp (List.mem_filter.mp hidx).1
  obtain ⟨hbits, hptr⟩ := prepareEach_spec buffer hprepare (dpuForeach x.enabled) hlt x fun idx hidx => by
    rw [← index_of_lt (hlt idx hidx)] at hidx
    exact (mem_dpuForeach _ _ _).mp hidx
  have hreturned : ∀ b, (8 * ci.val + i.val, b) ∈ (prepareEach prepare buffer (dpuForeach x.enabled) x).1 ↔
      enabled r ci i = true ∧ bit ci i = b := by
    intro b
    rw [hbits, List.mem_map, ← hmem ci i]
    constructor
    · rintro ⟨idx, hidx, heq⟩
      obtain ⟨rfl, hb⟩ := Prod.ext_iff.mp heq
      rw [sliceId_index, memberId_index] at hb
      exact ⟨hidx, hb⟩
    · rintro ⟨hidx, hb⟩
      refine ⟨8 * ci.val + i.val, hidx, ?_⟩
      rw [sliceId_index, memberId_index, hb]
  refine ⟨(hreturned true).trans (and_iff_right_of_imp (hown ci i)), hreturned false, ?_⟩
  exact (hptr ci i).trans (if_congr (and_iff_right_of_imp fun hbit => (hmem ci i).mpr (hown ci i hbit)) rfl rfl)

/-- the state calls for the bits of `OFIS_get_finished_dpu` -/
theorem setStateDpu_framed (hv : StateVarOk p stateVar) (hb : r.BusOk) (hc : Coherent r)
    (hown : ∀ (ci : Ci) (i : Member), (ofisGetFinishedDpu p stateVar r).bitmap.testBit (8 * ci.val + i.val) = true →
      enabled r ci i = true) (state : ℕ) (order : List ℕ) (horder : order.Perm (List.range 64)) :
    ∀ before c after, setStateDpuCalls (ofisGetFinishedDpu p stateVar r).bitmap state order = before ++ c :: after →
      Framed p (run p ⟨(ofisGetFinishedDpu p stateVar r).stateVar, (ofisGetFinishedDpu p stateVar r).rank⟩ before) c := by
  obtain ⟨⟨hvar, hrank⟩, -⟩ := finished_poll p stateVar r
  obtain ⟨⟨n, he⟩, hc8, -, -⟩ := polls_spec hv hb hc 8 le_rfl
  have hb8 := he.busOk hb
  have hset : ∀ id ∈ order.filter (ofisGetFinishedDpu p stateVar r).bitmap.testBit,
      id < 64 ∧ (ofisGetFinishedDpu p stateVar r).bitmap.testBit (8 * (sliceId id).val + (memberId id).val) = true := by
    intro id hid
    obtain ⟨hmem, hbit⟩ := List.mem_filter.mp hid
    have hlt := List.mem_range.mp (horder.mem_iff.mp hmem)
    exact ⟨hlt, by rwa [index_of_lt hlt]⟩
  have hread := fun ci hen => polls_structure hv hb hc ci hen 7 (by decide)
  refine eachCall_framed (readyDpu_step state) _ _ ?_
  rw [hvar, hrank]
  generalize (polls (checkStateVar p stateVar) r 8).rank = polled at he hc8 hb8 hread ⊢
  refine ⟨(checkStateVar_ok hv).1, hb8, hc8, ?_, fun id hid => ?_, fun id hid => ?_⟩
  · exact (horder.nodup_iff.mpr List.nodup_range).filter _
  · exact (congrFun (he.enabled _) _).trans ((enabledMask_iff _ _).mpr (hown _ _ (hset id hid).2))
  · obtain ⟨hlt, hbit⟩ := hset id hid
    have hfirst := enabled_first ((dpuBit_seen hv hb hc _ _).mp hbit)
    exact ⟨hlt, Or.inr fun heq => readStruct_ne _ ((hread _ hfirst).symm.trans heq)⟩

/-- and of `OFIS_get_finished_ig` -/
theorem setStateIg_framed (hv : StateVarOk p stateVar) (hb : r.BusOk) (hc : Coherent r)
    (hown : ∀ (ci : Ci) (i : Member), (ofisGetFinishedIg p stateVar r).bitmap.testBit i.val = true → enabled r ci i = true)
    (state : ℕ) (order : List ℕ) (horder : order.Perm (List.range 8)) :
    ∀ before c after, setStateIgCalls (ofisGetFinishedIg p stateVar r).bitmap state order = before ++ c :: after →
      Framed p (run p ⟨(ofisGetFinishedIg p stateVar r).stateVar, (ofisGetFinishedIg p stateVar r).rank⟩ before) c := by
  obtain ⟨-, hvar, hrank⟩ := finished_poll p stateVar r
  obtain ⟨⟨n, he⟩, hc8, -, -⟩ := polls_spec hv hb hc 8 le_rfl
  have hb8 := he.busOk hb
  refine eachCall_framed (readyIg_step state) _ _ ?_
  rw [hvar, hrank]
  generalize (polls (checkStateVar p stateVar) r 8).rank = polled at he hc8 hb8 ⊢
  refine ⟨(checkStateVar_ok hv).1, hb8, hc8, fun id hid => ?_⟩
  obtain ⟨hmem, hbit⟩ := List.mem_filter.mp hid
  have hlt := List.mem_range.mp (horder.mem_iff.mp hmem)
  have hmember : (memberId id).val = id := Nat.mod_eq_of_lt hlt
  refine ⟨hlt, fun ci => (congrFun (he.enabled ci) _).trans ((enabledMask_iff _ _).mpr (hown ci _ ?_))⟩
  rwa [hmember]

end AfterPoll

/-! ## The same DPUs -/

theorem dpuBitsOk_iff {p : Program} {stateVar : ℕ} (hv : StateVarOk p stateVar) {r : Rank} (hb : r.BusOk) (hc : Coherent r) :
    DpuBitsOk p stateVar r ↔ DpuSound p stateVar r := by
  rw [dpuSound_iff]
  constructor
  · intro h ci k hk htaken
    refine pairSeen_iff.mpr fun d hd => ?_
    have hlt : d < 8 := by omega
    refine h.own ci ⟨d, hlt⟩ ((dpuBit_seen hv hb hc ci ⟨d, hlt⟩).mpr ?_)
    rwa [hd]
  · intro h
    have hown : ∀ (ci : Ci) (i : Member), (ofisGetFinishedDpu p stateVar r).bitmap.testBit (8 * ci.val + i.val) = true →
        enabled r ci i = true ∧ seen p stateVar r ci i = 1 := by
      intro ci i hbit
      have hpair := h ci (i.val / 2) (by omega) ((dpuBit_seen hv hb hc ci i).mp hbit)
      exact pairSeen_iff.mp hpair i rfl
    have hen := fun ci i hbit => (hown ci i hbit).1
    refine ⟨hown, fun α x buffer hx ci i => prepared_of_enabled (fun _ _ _ _ => rfl) hen x buffer hx ci i,
      fun state order horder ci i => ?_, setStateDpu_framed hv hb hc hen⟩
    have hidx : 8 * ci.val + i.val < 64 := by omega
    constructor
    · rintro ⟨c, hcall, hnames⟩
      obtain ⟨j, hj, rfl⟩ := List.mem_map.mp hcall
      have heq : j = 8 * ci.val + i.val := hnames
      exact heq ▸ (List.mem_filter.mp hj).2
    · intro hbit
      refine ⟨.setStateDpu (8 * ci.val + i.val) state, List.mem_map.mpr ⟨_, ?_, rfl⟩, rfl⟩
      exact List.mem_filter.mpr ⟨horder.mem_iff.mpr (List.mem_range.mpr hidx), hbit⟩

theorem igBitsOk_iff {p : Program} {stateVar : ℕ} (hv : StateVarOk p stateVar) {r : Rank} (hb : r.BusOk) (hc : Coherent r) :
    IgBitsOk p stateVar r ↔ IgSound p stateVar r := by
  rw [igSound_iff]
  constructor
  · intro h k hk htaken ci
    refine pairSeen_iff.mpr fun d hd => ?_
    have hlt : d < 8 := by omega
    refine h.own ci ⟨d, hlt⟩ ((igBit_seen hv hb hc ⟨d, hlt⟩).mpr ?_)
    rwa [hd]
  · intro h
    have hown : ∀ (ci : Ci) (i : Member), (ofisGetFinishedIg p stateVar r).bitmap.testBit i.val = true →
        enabled r ci i = true ∧ seen p stateVar r ci i = 1 := by
      intro ci i hbit
      have hpair := h (i.val / 2) (by omega) ((igBit_seen hv hb hc i).mp hbit) ci
      exact pairSeen_iff.mp hpair i rfl
    have hen := fun ci i hbit => (hown ci i hbit).1
    refine ⟨hown, fun α x buffer hx ci i => prepared_of_enabled (fun _ _ _ _ => rfl) hen x buffer hx ci i,
      fun state order horder ci i => ?_, setStateIg_framed hv hb hc hen⟩
    constructor
    · rintro ⟨c, hcall, hnames⟩
      obtain ⟨j, hj, rfl⟩ := List.mem_map.mp hcall
      have heq : j = i.val := hnames
      exact heq ▸ (List.mem_filter.mp hj).2
    · intro hbit
      refine ⟨.setStateIg i.val state, List.mem_map.mpr ⟨_, ?_, rfl⟩, rfl⟩
      exact List.mem_filter.mpr ⟨horder.mem_iff.mpr (List.mem_range.mpr i.isLt), hbit⟩

/-- **When all mean the same DPUs.** For every set of enabled DPUs, every assignment of buffers, every order of the calls and
whatever the DPUs store while they are polled and written to. -/
theorem sameDpus_iff (p : Program) (stateVar : ℕ) (hv : StateVarOk p stateVar) (r : Rank) (hb : r.BusOk) (hc : Coherent r) :
    DpuBitsOk p stateVar r ∧ IgBitsOk p stateVar r ↔ DpuSound p stateVar r ∧ IgSound p stateVar r :=
  and_congr (dpuBitsOk_iff hv hb hc) (igBitsOk_iff hv hb hc)

theorem sameDpus_allDone : DpuBitsOk program 0 allDone ∧ IgBitsOk program 0 allDone := by
  have hno : ∀ ci t, t < 8 → ¬ FirstOff (enabled allDone ci) t := by
    intro ci t ht hoff
    have hen : enabled allDone ci t = true := by simp [enabled, allDone, Rank.reset, Mask8.bit, ht, Mask8.all]
    exact Bool.false_ne_true (hoff.1.symm.trans hen)
  refine (sameDpus_iff program 0 (Or.inl rfl) allDone (Rank.reset_busOk _ _) (Rank.reset_coherent _ _)).mpr
    ⟨fun ci t ht hoff => absurd hoff (hno ci t ht), fun k hk _ hall ci => hall ci fun t hoff => ?_⟩
  by_contra hle
  exact hno ci t (by omega) hoff

/-- **A bit of another DPU.** DPU 1 of chip 0 is disabled, and its bit is that of DPU 0. -/
theorem sameDpus_oneOff : ¬ (DpuBitsOk program 0 oneOff ∧ IgBitsOk program 0 oneOff) := by
  rintro ⟨hdpu, -⟩
  have hoff : FirstOff (enabled oneOff 0) 1 := ⟨by decide, by decide⟩
  have htaken : PairTaken program 0 oneOff 0 0 := (pairTaken_of_off hoff le_rfl).mpr ⟨one_ne_zero, by decide⟩
  have hbit := (dpuBit_seen (Or.inl rfl) (Rank.reset_busOk _ _) (Rank.reset_coherent _ _) 0 1).mpr htaken
  exact Bool.false_ne_true (hoff.1.symm.trans (hdpu.own 0 1 hbit).1)

end PimOfis.Api
