/-
`dpu_alloc` (`dpu_set.c`): ranks are obtained one by one until there are enough DPUs, or, when the DPUs are to be dispatched
on all ranks, until there are as many ranks as DPUs asked for, or no more. Then `disable_unused_dpus` disables one DPU after
the other until the number is right. `disable_one_dpu` chooses by running maxima over the ranks and their lines, starting
from values that stand for no choice.

What the host depends on is given by an `Env`: the memory, the ranks that the backend hands out (`Obtained`, each with a DPU
enabled), and the commands to the ranks, of which any may fail. There are 64 rank ids, so at most 64 ranks are held, which
bounds the loop and every number in it.

Results:
- `findTarget_valid`: a DPU is chosen whenever some rank has two enabled, and it is an enabled one of such a rank;
- `allocLoop_spec`: the loop ends, with at least as many DPUs as asked for and at most as many ranks;
- `disableDpus_spec`: so there is a choice at every step, and every rank keeps a DPU;
- `dpuAlloc_exact`: the set has exactly the DPUs asked for, and no assertion fails;
- `dpuAlloc_foreach`: an iteration over it visits so many.
-/
import Mathlib.Tactic
import PimOfis.Lib.Loops
import PimOfis.Api.RankMasks

namespace PimOfis.Api.DpuAlloc

open DpuSets

/-! ## Disabling -/

/-- how a call ends: with a result, with an error status, or with an assertion that fails -/
inductive Outcome (α : Type) where
  | done (a : α)
  | error
  | assertionFails

def Outcome.bind {α β : Type} : Outcome α → (α → Outcome β) → Outcome β
  | .done a, k => k a
  | .error, _ => .error
  | .assertionFails, _ => .assertionFails

/-- the choice of `disable_one_dpu`, with its running maxima -/
structure Target where
  line : ℕ
  ci : ℕ
  rank : ℕ
  maxDisabledDpusOnLine : ℕ
  maxEnabledDpusOnRank : ℕ

def ucharMax : ℕ := 2 ^ 8 - 1
def uintMax : ℕ := 2 ^ 32 - 1

/-- no choice -/
def Target.none : Target := ⟨ucharMax, ucharMax, uintMax, 0, 0⟩

/-- the locals of the scan of one line -/
structure Line where
  countDisabled : ℕ
  ciEnabled : ℕ
  oneEnabled : Bool

def scanLine (r : RankState) (line : ℕ) : Line :=
  (List.range r.topology.nrOfControlInterfaces).foldl (fun s ci =>
    if r.enabled (dpuIndex r.topology ci line) = true then { s with ciEnabled := ci, oneEnabled := true }
    else { s with countDisabled := s.countDisabled + 1 }) ⟨0, 0, false⟩

/-- a line is compared with the choice so far -/
def compareLine (r : RankState) (rank : ℕ) (t : Target) (line : ℕ) : Target :=
  let s := scanLine r line
  if s.oneEnabled = true ∧ (t.maxDisabledDpusOnLine < s.countDisabled ∨
      s.countDisabled = t.maxDisabledDpusOnLine ∧ t.maxEnabledDpusOnRank ≤ getNrOfDpusInRank r) then
    ⟨line, s.ciEnabled, rank, s.countDisabled, getNrOfDpusInRank r⟩
  else t

def scanRank (t : Target) (x : RankState × ℕ) : Target :=
  if getNrOfDpusInRank x.1 = 1 then t
  else (List.range x.1.topology.nrOfDpusPerControlInterface).foldl (compareLine x.1 x.2) t

def findTarget (ranks : List RankState) : Target := ranks.zipIdx.foldl scanRank Target.none

/-- `disable_one_dpu`, with its three assertions; `command` tells whether the command to the rank succeeds -/
def disableOneDpu (command : Bool) (ranks : List RankState) : Outcome (List RankState) :=
  let t := findTarget ranks
  if t.line = ucharMax ∨ t.ci = ucharMax ∨ t.rank = uintMax then .assertionFails
  else
    match ranks[t.rank]? with
    | some r =>
      match dpuDisableOneDpu command r t.ci t.line with
      | some r' => .done (ranks.set t.rank r')
      | none => .error
    | none => .assertionFails

/-- the loop of `disable_unused_dpus`, with what remains to be disabled -/
def disableDpus (commands : ℕ → Bool) : ℕ → List RankState → Outcome (List RankState)
  | 0, ranks => .done ranks
  | n + 1, ranks => (disableOneDpu (commands n) ranks).bind (disableDpus commands n)

/-- `disable_unused_dpus`, with its assertions -/
def disableUnusedDpus (commands : ℕ → Bool) (currentNrOfDpus nrDpus : ℕ) (ranks : List RankState) :
    Outcome (List RankState) :=
  if ranks.length = 0 ∨ currentNrOfDpus < nrDpus then .assertionFails
  else disableDpus commands (currentNrOfDpus - nrDpus) ranks

/-! ## Allocating -/

/-- `dpu_get_rank_of_type`, when there is a rank id left -/
inductive Given where
  | rank (o : Obtained)
  | errAllocation
  | otherError

/-- one pass of the loop, as far as it does not depend on the host -/
structure Attempt where
  /-- `realloc` succeeds -/
  memory : Bool
  given : Given
  disableResetOnAlloc : Bool
  /-- the commands of the reset succeed -/
  commands : Bool

structure Env where
  attempts : ℕ → Attempt
  /-- the rank ids in use: `rank_id_allocator_bitfield` -/
  usedIds : Finset (Fin 64)
  /-- the commands that disable DPUs succeed -/
  commands : ℕ → Bool
  /-- `init_dpu_set` succeeds -/
  initDpuSet : Bool

/-- the locals of `dpu_alloc`, and the ids in use -/
structure Locals where
  currentRanks : List RankState
  capacity : ℕ
  currentNrOfDpus : ℕ
  usedIds : Finset (Fin 64)

def dpuAllocateAll : UInt32 := 0xFFFFFFFF

def dpuGetNextRankId (usedIds : Finset (Fin 64)) : Option (Fin 64) := (List.finRange 64).find? fun id => decide (id ∉ usedIds)

/-- the body of the loop; with it goes whether its status is `DPU_ERR_ALLOCATION` -/
def allocPass (nrDpus : UInt32) (dispatchOnAllRanks : Bool) (a : Attempt) (s : Locals) : Outcome (Locals × Bool) :=
  if s.currentRanks.length = s.capacity ∧ a.memory = false then .error
  else
    let capacity := if s.currentRanks.length = s.capacity then 2 * s.capacity + 2 else s.capacity
    let failed : Outcome (Locals × Bool) :=
      if s.currentRanks.length ≠ 0 ∧ (nrDpus = dpuAllocateAll ∨ dispatchOnAllRanks = true) then
        if dispatchOnAllRanks = true ∧ s.currentNrOfDpus < nrDpus.toNat then .error
        else .done ({ s with capacity := capacity }, true)
      else .error
    match a.given, dpuGetNextRankId s.usedIds with
    | .otherError, _ => .error
    | .errAllocation, _ => failed
    | .rank _, none => failed
    | .rank o, some id =>
      match if a.disableResetOnAlloc = true then some o.rank else ciResetRank a.commands o.rank with
      | none => .error
      | some r => .done (⟨s.currentRanks ++ [r], capacity, (s.currentNrOfDpus + getNrOfDpusInRank r) % 2 ^ 32,
          insert id s.usedIds⟩, false)

/-- the loop from the pass `i` on; `none` if the fuel ends -/
def allocLoop (env : Env) (nrDpus : UInt32) (dispatchOnAllRanks : Bool) : ℕ → ℕ → Locals → Option (Outcome Locals)
  | 0, _, _ => none
  | fuel + 1, i, s =>
    match allocPass nrDpus dispatchOnAllRanks (env.attempts i) s with
    | .done (s', errAllocation) =>
      if s'.currentRanks.length < nrDpus.toNat ∧ (dispatchOnAllRanks = true ∨ s'.currentNrOfDpus < nrDpus.toNat) ∧
          errAllocation = false then
        allocLoop env nrDpus dispatchOnAllRanks fuel (i + 1) s'
      else some (.done s')
    | .error => some .error
    | .assertionFails => some .assertionFails

/-- `dpu_alloc`, with fuel for one pass more than there are rank ids -/
def dpuAlloc (env : Env) (nrDpus : UInt32) (dispatchOnAllRanks : Bool) : Option (Outcome (List RankState)) :=
  if nrDpus = 0 then some .error
  else
    let dispatchOnAllRanks := dispatchOnAllRanks && decide (nrDpus ≠ dpuAllocateAll)
    (allocLoop env nrDpus dispatchOnAllRanks 65 0 ⟨[], 0, 0, env.usedIds⟩).map fun out =>
      out.bind fun s =>
        let nrDpus := if nrDpus = dpuAllocateAll then s.currentNrOfDpus else nrDpus.toNat
        (disableUnusedDpus env.commands s.currentNrOfDpus nrDpus s.currentRanks).bind fun ranks =>
          if env.initDpuSet = true then .done ranks else .error

/-! ## Statement -/

/-- the enabled DPUs of the ranks -/
def total (ranks : List RankState) : ℕ := (ranks.map nrEnabled).sum

/-- the enabled DPUs of what the backend hands out in a pass -/
def Given.dpus : Given → ℕ
  | .rank o => nrEnabled o.rank
  | _ => 0

/-- and in `n` passes -/
def found (env : Env) (n : ℕ) : ℕ := ((List.range n).map fun i => (env.attempts i).given.dpus).sum

/-- **What `dpu_alloc` promises** of the ranks of the set. -/
structure Exact (env : Env) (nrDpus : UInt32) (ranks : List RankState) : Prop where
  total : total ranks = if nrDpus = dpuAllocateAll then found env ranks.length else nrDpus.toNat
  each : ∀ r ∈ ranks, 1 ≤ nrEnabled r

/-! ## The choice -/

section Choice

/-- masks and flags alike, and a DPU enabled; `T` is what is known of the topologies -/
structure Good (T : Topology → Prop) (r : RankState) : Prop where
  coherent : Coherent r
  some_enabled : 1 ≤ nrEnabled r
  topology : T r.topology

variable {T : Topology → Prop}

theorem scanLine_spec (r : RankState) (line : ℕ) :
    ((scanLine r line).oneEnabled = true ↔
      ∃ ci < r.topology.nrOfControlInterfaces, r.enabled (dpuIndex r.topology ci line) = true) ∧
    ((scanLine r line).oneEnabled = true → (scanLine r line).ciEnabled < r.topology.nrOfControlInterfaces ∧
      r.enabled (dpuIndex r.topology (scanLine r line).ciEnabled line) = true) := by
  unfold scanLine
  generalize r.topology.nrOfControlInterfaces = n
  induction n with
  | zero =>
    refine ⟨⟨fun h => Bool.noConfusion h, ?_⟩, fun h => Bool.noConfusion h⟩
    rintro ⟨ci, hci, _⟩
    exact absurd hci (Nat.not_lt_zero _)
  | succ n ih =>
    obtain ⟨hone, hci⟩ := ih
    rw [List.range_succ, List.foldl_append, List.foldl_cons, List.foldl_nil]
    split_ifs with hen
    · exact ⟨⟨fun _ => ⟨n, Nat.lt_succ_self n, hen⟩, fun _ => rfl⟩, fun _ => ⟨Nat.lt_succ_self n, hen⟩⟩
    · refine ⟨hone.trans ⟨fun ⟨ci, hlt, h⟩ => ⟨ci, Nat.lt_succ_of_lt hlt, h⟩, fun ⟨ci, hlt, h⟩ => ?_⟩, fun h => ?_⟩
      · refine ⟨ci, Nat.lt_of_le_of_ne (Nat.le_of_lt_succ hlt) fun he => hen ?_, h⟩
        rw [← he]
        exact h
      · exact ⟨Nat.lt_succ_of_lt (hci h).1, (hci h).2⟩

/-- a DPU that may be disabled, of the rank `r` -/
structure Target.ValidFor (ranks : List RankState) (t : Target) (r : RankState) : Prop where
  rank : ranks[t.rank]? = some r
  two : 2 ≤ nrEnabled r
  ci : t.ci < r.topology.nrOfControlInterfaces
  line : t.line < r.topology.nrOfDpusPerControlInterface
  enabled : r.enabled (dpuIndex r.topology t.ci t.line) = true

def Target.Valid (ranks : List RankState) (t : Target) : Prop := ∃ r, t.ValidFor ranks r

/-- no choice yet, or one that may be disabled -/
def Target.Safe (ranks : List RankState) (t : Target) : Prop := t = .none ∨ t.Valid ranks

variable {ranks : List RankState} {r : RankState} {k : ℕ}

/-- a line with an enabled DPU, of a rank with two, is a choice -/
theorem valid_of_line (hgood : Good T r) (hr : ranks[k]? = some r) (htwo : getNrOfDpusInRank r ≠ 1) {line : ℕ}
    (hline : line < r.topology.nrOfDpusPerControlInterface) (hone : (scanLine r line).oneEnabled = true) (a b : ℕ) :
    Target.Valid ranks ⟨line, (scanLine r line).ciEnabled, k, a, b⟩ := by
  obtain ⟨hci, hen⟩ := (scanLine_spec r line).2 hone
  refine ⟨r, hr, ?_, hci, hline, hen⟩
  rw [getNrOfDpusInRank_eq hgood.coherent] at htwo
  exact Nat.lt_of_le_of_ne hgood.some_enabled (Ne.symm htwo)

theorem compareLine_valid (hgood : Good T r) (hr : ranks[k]? = some r) (htwo : getNrOfDpusInRank r ≠ 1) {line : ℕ}
    (hline : line < r.topology.nrOfDpusPerControlInterface) {t : Target} (ht : t.Valid ranks) :
    (compareLine r k t line).Valid ranks := by
  unfold compareLine
  dsimp only
  split
  · next hbetter => exact valid_of_line hgood hr htwo hline hbetter.1 _ _
  · exact ht

theorem compareLine_safe (hgood : Good T r) (hr : ranks[k]? = some r) (htwo : getNrOfDpusInRank r ≠ 1) {line : ℕ}
    (hline : line < r.topology.nrOfDpusPerControlInterface) {t : Target} (ht : t.Safe ranks) :
    (compareLine r k t line).Safe ranks := by
  unfold compareLine
  dsimp only
  split
  · next hbetter => exact Or.inr (valid_of_line hgood hr htwo hline hbetter.1 _ _)
  · exact ht

/-- a line with an enabled DPU leads to a choice -/
theorem compareLine_hits (hgood : Good T r) (hr : ranks[k]? = some r) (htwo : getNrOfDpusInRank r ≠ 1) {line : ℕ}
    (hline : line < r.topology.nrOfDpusPerControlInterface) (hone : (scanLine r line).oneEnabled = true) {t : Target}
    (ht : t.Safe ranks) : (compareLine r k t line).Valid ranks := by
  rcases ht with rfl | hvalid
  · -- the maxima of no choice are 0, so that every such line is better
    have hbetter : Target.none.maxDisabledDpusOnLine < (scanLine r line).countDisabled ∨
        (scanLine r line).countDisabled = Target.none.maxDisabledDpusOnLine ∧
          Target.none.maxEnabledDpusOnRank ≤ getNrOfDpusInRank r := by
      rcases Nat.eq_zero_or_pos (scanLine r line).countDisabled with hzero | hpos
      · exact Or.inr ⟨hzero, Nat.zero_le _⟩
      · exact Or.inl hpos
    have htaken : compareLine r k .none line =
        ⟨line, (scanLine r line).ciEnabled, k, (scanLine r line).countDisabled, getNrOfDpusInRank r⟩ :=
      if_pos ⟨hone, hbetter⟩
    rw [htaken]
    exact valid_of_line hgood hr htwo hline hone _ _
  · exact compareLine_valid hgood hr htwo hline hvalid

theorem scanRank_valid (hgood : Good T r) (hr : ranks[k]? = some r) {t : Target} (ht : t.Valid ranks) :
    (scanRank t (r, k)).Valid ranks := by
  unfold scanRank
  split
  · exact ht
  · next hne => exact Lib.foldl_keeps (fun line hline s hs =>
      compareLine_valid hgood hr hne (List.mem_range.mp hline) hs) ht

theorem scanRank_safe (hgood : Good T r) (hr : ranks[k]? = some r) {t : Target} (ht : t.Safe ranks) :
    (scanRank t (r, k)).Safe ranks := by
  unfold scanRank
  split
  · exact ht
  · next hne => exact Lib.foldl_keeps (fun line hline s hs =>
      compareLine_safe hgood hr hne (List.mem_range.mp hline) hs) ht

/-- a rank with two enabled DPUs leads to a choice -/
theorem scanRank_hits (hgood : Good T r) (hr : ranks[k]? = some r) (htwo : 2 ≤ nrEnabled r) {t : Target}
    (ht : t.Safe ranks) : (scanRank t (r, k)).Valid ranks := by
  have hne : getNrOfDpusInRank r ≠ 1 := by
    rw [getNrOfDpusInRank_eq hgood.coherent]
    exact Nat.ne_of_gt htwo
  obtain ⟨idx, hidx⟩ := Finset.card_pos.mp (Nat.zero_lt_of_lt htwo)
  obtain ⟨hlt, hen⟩ := Finset.mem_filter.mp hidx
  obtain ⟨ci, hci, line, hline, rfl⟩ := exists_dpuIndex (Finset.mem_range.mp hlt)
  have hone := (scanLine_spec r line).1.mpr ⟨ci, hci, hen⟩
  have hscan : scanRank t (r, k) = (List.range r.topology.nrOfDpusPerControlInterface).foldl (compareLine r k) t :=
    if_neg hne
  rw [hscan]
  refine Lib.foldl_of_mem (fun l hl s hs => ?_) (fun l hl s hs => ?_) (List.mem_range.mpr hline) (fun s hs => ?_) ht
  · exact compareLine_safe hgood hr hne (List.mem_range.mp hl) hs
  · exact compareLine_valid hgood hr hne (List.mem_range.mp hl) hs
  · exact compareLine_hits hgood hr hne hline hone hs

/-- **A choice** is made whenever some rank has two enabled DPUs. -/
theorem findTarget_valid (hgood : ∀ r ∈ ranks, Good T r) (hr : r ∈ ranks) (htwo : 2 ≤ nrEnabled r) :
    (findTarget ranks).Valid ranks := by
  have hat : ∀ x ∈ ranks.zipIdx, ranks[x.2]? = some x.1 := fun x hx => List.mem_zipIdx_iff_getElem?.mp hx
  have hof : ∀ x ∈ ranks.zipIdx, Good T x.1 := fun x hx => hgood _ (List.mem_of_getElem? (hat x hx))
  obtain ⟨k, hk⟩ := List.mem_iff_getElem?.mp hr
  have hmem : (r, k) ∈ ranks.zipIdx := List.mem_zipIdx_iff_getElem?.mpr hk
  refine Lib.foldl_of_mem (fun x hx s hs => ?_) (fun x hx s hs => ?_) hmem
    (fun s hs => scanRank_hits (hgood r hr) hk htwo hs) (Or.inl rfl)
  · exact scanRank_safe (hof x hx) (hat x hx) hs
  · exact scanRank_valid (hof x hx) (hat x hx) hs

end Choice

/-! ## Disabling down to a number -/

section Disabling

variable {ranks : List RankState} {T : Topology → Prop}

theorem total_set {k : ℕ} {r : RankState} (hr : ranks[k]? = some r) (r' : RankState) :
    total (ranks.set k r') + nrEnabled r = total ranks + nrEnabled r' := by
  induction ranks generalizing k with
  | nil => cases hr
  | cons x ranks ih =>
    cases k with
    | zero =>
      cases Option.some.inj hr
      simp only [List.set_cons_zero, total, List.map_cons, List.sum_cons]
      omega
    | succ k =>
      have hrest := ih hr
      simp only [List.set_cons_succ, total, List.map_cons, List.sum_cons] at hrest ⊢
      omega

theorem length_le_total (h : ∀ r ∈ ranks, Good T r) : ranks.length ≤ total ranks := by
  have hsum := List.card_nsmul_le_sum (ranks.map nrEnabled) 1 fun x hx => by
    obtain ⟨r, hr, rfl⟩ := List.mem_map.mp hx
    exact (h r hr).some_enabled
  rw [List.length_map, smul_eq_mul, Nat.mul_one] at hsum
  exact hsum

/-- more DPUs than ranks: some rank has two -/
theorem exists_two (h : ranks.length < total ranks) : ∃ r ∈ ranks, 2 ≤ nrEnabled r := by
  by_contra hnone
  have hsum := List.sum_le_card_nsmul (ranks.map nrEnabled) 1 fun x hx => by
    obtain ⟨r, hr, rfl⟩ := List.mem_map.mp hx
    exact Nat.le_of_lt_succ (Nat.lt_of_not_le fun htwo => hnone ⟨r, hr, htwo⟩)
  rw [List.length_map, smul_eq_mul, Nat.mul_one] at hsum
  exact absurd hsum (Nat.not_le.mpr h)

/-- what holds of a call that is to leave `n` DPUs on `m` ranks -/
def Leaves (T : Topology → Prop) (m n : ℕ) : Outcome (List RankState) → Prop
  | .done ranks => (∀ r ∈ ranks, Good T r) ∧ ranks.length = m ∧ total ranks = n
  | .error => True
  | .assertionFails => False

/-- **One DPU is disabled**, on a rank that keeps another. -/
theorem disableOneDpu_spec (command : Bool) (hgood : ∀ r ∈ ranks, Good T r) (hlen : ranks.length ≤ 64)
    (hmore : ranks.length < total ranks) : Leaves T ranks.length (total ranks - 1) (disableOneDpu command ranks) := by
  obtain ⟨r₂, hr₂, htwo⟩ := exists_two hmore
  obtain ⟨r, hvalid⟩ := findTarget_valid hgood hr₂ htwo
  obtain ⟨hk, _⟩ := List.getElem?_eq_some_iff.mp hvalid.rank
  have hdpus := r.topology.dpus_le
  have hcis := r.topology.cis_le
  have hchosen : ¬ ((findTarget ranks).line = ucharMax ∨ (findTarget ranks).ci = ucharMax ∨
      (findTarget ranks).rank = uintMax) := by
    have hline := hvalid.line
    have hci := hvalid.ci
    simp only [ucharMax, uintMax]
    omega
  simp only [disableOneDpu, hvalid.rank]
  rw [if_neg hchosen]
  cases hdisable : dpuDisableOneDpu command r (findTarget ranks).ci (findTarget ranks).line with
  | none => exact trivial
  | some r' =>
    have hcount := nrEnabled_disable hvalid.ci hvalid.line hdisable
    have htotal := total_set hvalid.rank r'
    have htwo := hvalid.two
    refine ⟨fun x hx => ?_, List.length_set, ?_⟩
    · rcases List.mem_or_eq_of_mem_set hx with hx | rfl
      · exact hgood x hx
      · have hr := hgood r (List.mem_of_getElem? hvalid.rank)
        refine ⟨hr.coherent.disable hvalid.line hdisable, ?_, ?_⟩
        · omega
        · rw [topology_disable hdisable]
          exact hr.topology
    · omega

/-- **DPUs are disabled one after the other**, as long as more are left than there are ranks. -/
theorem disableDpus_spec (commands : ℕ → Bool) (n : ℕ) (hgood : ∀ r ∈ ranks, Good T r) (hlen : ranks.length ≤ 64)
    (hmore : ranks.length + n ≤ total ranks) :
    Leaves T ranks.length (total ranks - n) (disableDpus commands n ranks) := by
  induction n generalizing ranks with
  | zero => exact ⟨hgood, rfl, rfl⟩
  | succ n ih =>
    have hone := disableOneDpu_spec (commands n) hgood hlen (Nat.lt_of_lt_of_le (by omega) hmore)
    rw [disableDpus]
    cases hout : disableOneDpu (commands n) ranks with
    | error => exact trivial
    | assertionFails =>
      rw [hout] at hone
      exact hone.elim
    | done ranks' =>
      rw [hout] at hone
      obtain ⟨hgood', hlen', htotal'⟩ := hone
      have hrest := ih hgood' (hlen'.symm ▸ hlen) (by omega)
      rw [hlen', htotal', Nat.sub_sub, Nat.add_comm 1 n] at hrest
      exact hrest

end Disabling

/-! ## The loop -/

section Loop

variable {env : Env} {nrDpus : UInt32} {dispatch : Bool} {i : ℕ} {s : Locals} {T : Topology → Prop}

/-- what holds after `i` passes -/
structure Inv (T : Topology → Prop) (env : Env) (i : ℕ) (s : Locals) : Prop where
  good : ∀ r ∈ s.currentRanks, Good T r
  length : s.currentRanks.length = i
  ids : s.usedIds.card = env.usedIds.card + i
  dpus : s.currentNrOfDpus = total s.currentRanks
  found : total s.currentRanks = found env i

theorem Inv.le (h : Inv T env i s) : i ≤ 64 := by
  have hcard := Finset.card_le_univ s.usedIds
  rw [Fintype.card_fin, h.ids] at hcard
  omega

theorem nrEnabled_le (r : RankState) : nrEnabled r ≤ 64 := by
  calc nrEnabled r ≤ (Finset.range r.topology.nrDpus).card := Finset.card_filter_le _ _
    _ = r.topology.nrOfControlInterfaces * r.topology.nrOfDpusPerControlInterface := Finset.card_range _
    _ ≤ 8 * 8 := Nat.mul_le_mul r.topology.cis_le r.topology.dpus_le

theorem total_le (ranks : List RankState) : total ranks ≤ ranks.length * 64 := by
  have hsum := List.sum_le_card_nsmul (ranks.map nrEnabled) 64 fun x hx => by
    obtain ⟨r, _, rfl⟩ := List.mem_map.mp hx
    exact nrEnabled_le r
  rw [List.length_map, smul_eq_mul] at hsum
  exact hsum

theorem found_succ (env : Env) (n : ℕ) : found env (n + 1) = found env n + (env.attempts n).given.dpus := by
  rw [found, List.range_succ, List.map_append, List.sum_append, List.map_singleton, List.sum_singleton]
  rfl

/-- the rank a pass obtains, after its reset -/
theorem obtained_good (o : Obtained) {disableReset commands : Bool} {r : RankState}
    (hT : T o.rank.topology) (h : (if disableReset = true then some o.rank else ciResetRank commands o.rank) = some r) :
    Good T r ∧ nrEnabled r = nrEnabled o.rank := by
  split_ifs at h
  · rw [← Option.some.inj h]
    exact ⟨⟨o.coherent, o.some_enabled, hT⟩, rfl⟩
  · have hsame := ciResetRank_same o h
    rw [hsame.nrEnabled]
    exact ⟨⟨hsame.coherent o.coherent, hsame.nrEnabled.symm ▸ o.some_enabled, hsame.topology.symm ▸ hT⟩, rfl⟩

/-- **A pass that obtains a rank.** -/
theorem Inv.push (h : Inv T env i s) {o : Obtained} (ho : (env.attempts i).given = .rank o) {id : Fin 64}
    (hid : dpuGetNextRankId s.usedIds = some id) {r : RankState} (hr : Good T r) (hsame : nrEnabled r = nrEnabled o.rank)
    (capacity : ℕ) :
    Inv T env (i + 1) ⟨s.currentRanks ++ [r], capacity, (s.currentNrOfDpus + getNrOfDpusInRank r) % 2 ^ 32,
      insert id s.usedIds⟩ := by
  have hfound := List.find?_some hid
  have hfresh : id ∉ s.usedIds := of_decide_eq_true hfound
  have hids : (insert id s.usedIds).card = env.usedIds.card + (i + 1) := by
    rw [Finset.card_insert_of_notMem hfresh, h.ids, Nat.add_assoc]
  have hi : i + 1 ≤ 64 := by
    have hcard := Finset.card_le_univ (insert id s.usedIds)
    rw [Fintype.card_fin, hids] at hcard
    omega
  have htotal : total (s.currentRanks ++ [r]) = total s.currentRanks + nrEnabled r := by
    rw [total, List.map_append, List.sum_append, List.map_singleton, List.sum_singleton]
    rfl
  refine ⟨fun x hx => ?_, ?_, hids, ?_, ?_⟩
  · rcases List.mem_append.mp hx with hx | hx
    · exact h.good x hx
    · rw [List.mem_singleton.mp hx]
      exact hr
  · rw [List.length_append, h.length]
    rfl
  · -- 64 ranks of 64 DPUs do not wrap
    have hbound := total_le (s.currentRanks ++ [r])
    rw [List.length_append, h.length, List.length_singleton] at hbound
    dsimp only
    rw [getNrOfDpusInRank_eq hr.coherent, h.dpus, ← htotal]
    exact Nat.mod_eq_of_lt (by omega)
  · rw [htotal, h.found, found_succ, ho, hsame]
    rfl

/-- what a pass leaves -/
def Passed (T : Topology → Prop) (env : Env) (nrDpus : UInt32) (i : ℕ) : Outcome (Locals × Bool) → Prop
  | .done (s, false) => Inv T env (i + 1) s
  | .done (s, true) => Inv T env i s ∧ 0 < i ∧ (nrDpus = dpuAllocateAll ∨ nrDpus.toNat ≤ s.currentNrOfDpus)
  | .error => True
  | .assertionFails => False

theorem allocPass_spec (nrDpus : UInt32) (dispatch : Bool)
    (hT : ∀ o, (env.attempts i).given = .rank o → T o.rank.topology) (h : Inv T env i s) :
    Passed T env nrDpus i (allocPass nrDpus dispatch (env.attempts i) s) := by
  -- no rank: only after another one, and with enough DPUs unless all are asked for
  have hfailed : ∀ capacity, Passed T env nrDpus i
      (if s.currentRanks.length ≠ 0 ∧ (nrDpus = dpuAllocateAll ∨ dispatch = true) then
        if dispatch = true ∧ s.currentNrOfDpus < nrDpus.toNat then .error
        else .done ({ s with capacity := capacity }, true)
      else .error) := by
    intro capacity
    split_ifs with hmay hfew
    · exact trivial
    · rw [h.length] at hmay
      refine ⟨⟨h.good, h.length, h.ids, h.dpus, h.found⟩, Nat.pos_of_ne_zero hmay.1, ?_⟩
      rcases hmay.2 with hall | hdispatch
      · exact Or.inl hall
      · exact Or.inr (Nat.not_lt.mp fun hlt => hfew ⟨hdispatch, hlt⟩)
    · exact trivial
  unfold allocPass
  by_cases hmemory : s.currentRanks.length = s.capacity ∧ (env.attempts i).memory = false
  · rw [if_pos hmemory]
    exact trivial
  rw [if_neg hmemory]
  dsimp only
  cases hgiven : (env.attempts i).given with
  | otherError => exact trivial
  | errAllocation => exact hfailed _
  | rank o =>
    cases hid : dpuGetNextRankId s.usedIds with
    | none => exact hfailed _
    | some id =>
      dsimp only
      cases hreset : (if (env.attempts i).disableResetOnAlloc = true then some o.rank
          else ciResetRank (env.attempts i).commands o.rank) with
      | none => exact trivial
      | some r =>
        obtain ⟨hr, hsame⟩ := obtained_good o (hT o hgiven) hreset
        exact h.push hgiven hid hr hsame _

/-- what the loop leaves: enough DPUs, on no more ranks than DPUs are asked for -/
def Enough (T : Topology → Prop) (env : Env) (nrDpus : UInt32) : Outcome Locals → Prop
  | .done s => ∃ i, Inv T env i s ∧ 0 < i ∧ i ≤ nrDpus.toNat ∧
      (nrDpus = dpuAllocateAll ∨ nrDpus.toNat ≤ s.currentNrOfDpus)
  | .error => True
  | .assertionFails => False

/-- **The loop ends**, with enough DPUs. -/
theorem allocLoop_spec (dispatch : Bool) (hT : ∀ i o, (env.attempts i).given = .rank o → T o.rank.topology) (fuel : ℕ) (h : Inv T env i s) (hlt : i < nrDpus.toNat) (hfuel : 65 ≤ fuel + i) :
    ∃ out, allocLoop env nrDpus dispatch fuel i s = some out ∧ Enough T env nrDpus out := by
  induction fuel generalizing i s with
  | zero =>
    have hle := h.le
    omega
  | succ fuel ih =>
    have hpass := allocPass_spec nrDpus dispatch (hT i) h
    rw [allocLoop]
    cases hout : allocPass nrDpus dispatch (env.attempts i) s with
    | error => exact ⟨.error, rfl, trivial⟩
    | assertionFails =>
      rw [hout] at hpass
      exact hpass.elim
    | done x =>
      obtain ⟨t, failed⟩ := x
      rw [hout] at hpass
      dsimp only
      cases failed with
      | true =>
        obtain ⟨hinv, hpos, henough⟩ := hpass
        rw [if_neg (fun hgo => Bool.noConfusion hgo.2.2)]
        exact ⟨.done t, rfl, i, hinv, hpos, hlt.le, henough⟩
      | false =>
        have hinv : Inv T env (i + 1) t := hpass
        by_cases hgo : t.currentRanks.length < nrDpus.toNat ∧ (dispatch = true ∨ t.currentNrOfDpus < nrDpus.toNat) ∧
            false = false
        · rw [if_pos hgo]
          rw [hinv.length] at hgo
          exact ih hinv hgo.1 (by omega)
        · rw [if_neg hgo]
          refine ⟨.done t, rfl, i + 1, hinv, Nat.succ_pos i, hlt, Or.inr (Nat.not_lt.mp fun hfew => hgo ?_)⟩
          -- each rank has a DPU, so fewer DPUs than asked for are on fewer ranks
          refine ⟨lt_of_le_of_lt ?_ hfew, Or.inr hfew, rfl⟩
          rw [hinv.dpus]
          exact length_le_total hinv.good

end Loop

/-! ## The whole call -/

section Whole

variable (env : Env) (nrDpus : UInt32) (dispatchOnAllRanks : Bool) (T : Topology → Prop)

/-- what `dpu_alloc` leaves -/
def Allocated : Outcome (List RankState) → Prop
  | .done ranks => Exact env nrDpus ranks ∧ ∀ r ∈ ranks, T r.topology
  | .error => True
  | .assertionFails => False

/-- the DPUs beyond the number that is asked for are disabled -/
theorem disableUnusedDpus_spec {s : Locals} (h : Enough T env nrDpus (.done s)) :
    Allocated env nrDpus T (disableUnusedDpus env.commands s.currentNrOfDpus
      (if nrDpus = dpuAllocateAll then s.currentNrOfDpus else nrDpus.toNat) s.currentRanks) := by
  obtain ⟨i, hinv, hpos, hle, henough⟩ := h
  have hlength := length_le_total hinv.good
  -- what is left in the end
  have hleft : s.currentRanks.length ≤ (if nrDpus = dpuAllocateAll then s.currentNrOfDpus else nrDpus.toNat) ∧
      (if nrDpus = dpuAllocateAll then s.currentNrOfDpus else nrDpus.toNat) ≤ s.currentNrOfDpus := by
    split_ifs with hall
    · rw [hinv.dpus]
      exact ⟨hlength, le_rfl⟩
    · rw [hinv.length]
      exact ⟨hle, henough.resolve_left hall⟩
  generalize hn : (if nrDpus = dpuAllocateAll then s.currentNrOfDpus else nrDpus.toNat) = n at hleft
  have hassert : ¬ (s.currentRanks.length = 0 ∨ s.currentNrOfDpus < n) := by
    rw [hinv.length]
    exact fun hor => hor.elim (Nat.ne_of_gt hpos) (Nat.not_lt.mpr hleft.2)
  rw [disableUnusedDpus, if_neg hassert]
  have hdisable := disableDpus_spec env.commands (s.currentNrOfDpus - n) hinv.good (hinv.length.symm ▸ hinv.le)
    (by rw [← hinv.dpus]; omega)
  cases hout : disableDpus env.commands (s.currentNrOfDpus - n) s.currentRanks with
  | error => exact trivial
  | assertionFails =>
    rw [hout] at hdisable
    exact hdisable.elim
  | done ranks =>
    rw [hout] at hdisable
    obtain ⟨hgood, hlen, htotal⟩ := hdisable
    refine ⟨⟨?_, fun r hr => (hgood r hr).some_enabled⟩, fun r hr => (hgood r hr).topology⟩
    have hrest : total ranks = n := by
      rw [htotal, ← hinv.dpus]
      omega
    rw [hrest, ← hn, hlen, hinv.length]
    split_ifs
    · exact hinv.dpus.trans hinv.found
    · rfl

theorem dpuAlloc_spec (hT : ∀ i o, (env.attempts i).given = .rank o → T o.rank.topology) :
    ∃ out, dpuAlloc env nrDpus dispatchOnAllRanks = some out ∧ Allocated env nrDpus T out := by
  unfold dpuAlloc
  by_cases hzero : nrDpus = 0
  · rw [if_pos hzero]
    exact ⟨.error, rfl, trivial⟩
  rw [if_neg hzero]
  have hpos : 0 < nrDpus.toNat := Nat.pos_of_ne_zero fun h => hzero (UInt32.toNat_inj.mp h)
  have hstart : Inv T env 0 ⟨[], 0, 0, env.usedIds⟩ :=
    ⟨fun r hr => absurd hr List.not_mem_nil, rfl, rfl, rfl, rfl⟩
  obtain ⟨out, hloop, henough⟩ := allocLoop_spec (dispatchOnAllRanks && decide (nrDpus ≠ dpuAllocateAll)) hT 65 hstart hpos
    le_rfl
  dsimp only
  rw [hloop, Option.map_some]
  refine ⟨_, rfl, ?_⟩
  cases out with
  | error => exact trivial
  | assertionFails => exact henough
  | done s =>
    have hdisable := disableUnusedDpus_spec env nrDpus T henough
    rw [Outcome.bind]
    cases hout : disableUnusedDpus env.commands s.currentNrOfDpus
        (if nrDpus = dpuAllocateAll then s.currentNrOfDpus else nrDpus.toNat) s.currentRanks with
    | error => exact trivial
    | assertionFails =>
      rw [hout] at hdisable
      exact hdisable
    | done ranks =>
      rw [hout] at hdisable
      rw [Outcome.bind]
      split_ifs
      · exact hdisable
      · exact trivial

/-- **`dpu_alloc` gives exactly the number asked for**, for every number, for both ways to dispatch, and whatever ranks
the backend hands out and whichever calls fail: the call ends, no assertion fails, and if it succeeds, the ranks of the set
have as many DPUs enabled as asked for (or all that were found), each at least one. -/
theorem dpuAlloc_exact :
    ∃ out, dpuAlloc env nrDpus dispatchOnAllRanks = some out ∧
      match out with
      | .done ranks => Exact env nrDpus ranks
      | .error => True
      | .assertionFails => False := by
  obtain ⟨out, hout, hallocated⟩ := dpuAlloc_spec env nrDpus dispatchOnAllRanks (fun _ => True) fun _ _ _ => trivial
  refine ⟨out, hout, ?_⟩
  cases out with
  | done ranks => exact hallocated.1
  | error => exact trivial
  | assertionFails => exact hallocated

end Whole

/-! ## The set and its iteration -/

section Set

/-- the ranks of a set, as the iterators see them -/
def allocation (t : Topology) (ranks : List RankState) (h : ∀ r ∈ ranks, r.topology = t) : Allocation where
  topology := t
  ranks := ranks.map RankState.toRank
  alike r hr := by
    obtain ⟨x, hx, rfl⟩ := List.mem_map.mp hr
    exact h x hx

theorem length_dpusOf {t : Topology} {ranks : List RankState} (h : ∀ r ∈ ranks, r.topology = t) {pos : ℕ} {r : RankState}
    (hr : ranks[pos]? = some r) : ((allocation t ranks h).dpusOf pos 0).length = nrEnabled r := by
  have hrank : (allocation t ranks h).ranks[pos]? = some r.toRank := by
    change (ranks.map RankState.toRank)[pos]? = _
    rw [List.getElem?_map, hr, Option.map_some]
  rw [dpusOf_eq hrank, List.length_map, Nat.sub_zero, ← List.range_eq_range', nrEnabled, h r (List.mem_of_getElem? hr)]
  exact congrArg List.length (List.filter_congr fun idx _ => Bool.decide_eq_true.symm)

theorem length_dpusIn {t : Topology} (ranks : List RankState) (h : ∀ r ∈ ranks, r.topology = t) :
    ((allocation t ranks h).dpusIn 0 ranks.length).length = total ranks := by
  rw [Allocation.dpusIn, List.length_flatMap, ← List.range_eq_range', total]
  refine congrArg List.sum (List.ext_getElem? fun pos => ?_)
  rw [List.getElem?_map, List.getElem?_map]
  rcases Nat.lt_or_ge pos ranks.length with hlt | hge
  · rw [List.getElem?_range hlt, List.getElem?_eq_getElem hlt, Option.map_some, Option.map_some,
      length_dpusOf h (List.getElem?_eq_getElem hlt)]
  · rw [List.getElem?_eq_none (by rw [List.length_range]; exact hge), List.getElem?_eq_none hge]
    rfl

/-- **An iteration over a new set** visits as many DPUs as were asked for. -/
theorem dpuAlloc_foreach (env : Env) (nrDpus : UInt32) (dispatchOnAllRanks : Bool) (t : Topology)
    (htopology : ∀ i o, (env.attempts i).given = .rank o → o.rank.topology = t) {ranks : List RankState}
    (halloc : dpuAlloc env nrDpus dispatchOnAllRanks = some (.done ranks)) (hall : nrDpus ≠ dpuAllocateAll) :
    ∃ h, ∃ ds : List Dpu, Visits (allocation t ranks h) (allocation t ranks h).dpuSet ds ∧ ds.length = nrDpus.toNat := by
  obtain ⟨out, hout, hallocated⟩ := dpuAlloc_spec env nrDpus dispatchOnAllRanks (· = t) htopology
  rw [halloc] at hout
  cases Option.some.inj hout
  obtain ⟨hexact, hsame⟩ := hallocated
  have hlen : (allocation t ranks hsame).ranks.length = ranks.length := List.length_map _
  refine ⟨hsame, _, visits_ranks (Nat.zero_add _).le, ?_⟩
  rw [hlen, length_dpusIn, hexact.total, if_neg hall]

end Set

end PimOfis.Api.DpuAlloc
