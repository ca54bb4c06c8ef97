/-
DPU sets and their iterators (`dpu_set.c`, `dpu.h`): `DPU_FOREACH` on the set of an allocation, on the set of one rank that
`OFIS_get_rank` makes of it, and on the set of one DPU.

A set of ranks is a number of ranks and a pointer into the array of ranks of the allocation; the pointer is kept as a
position. The iterator over DPUs holds an iterator over ranks and a cursor into the DPUs of the current rank. Advancing
looks for an enabled DPU from the cursor on, and goes from rank to rank until it finds one.

All ranks have the same topology: `dpu_sysfs_get_hardware_description` reads it from the first rank of the system for
every rank it describes. `advance_to_next_dpu_in_rank_list` depends on it: it keeps the number of DPUs of the rank it
starts at. The loops are run with fuel; that they end is part of the results.

Results:
- `advanceLoop_spec`: one search finds the next enabled DPU of the ranks that are left, or there is none;
- `foreachLoop_spec`: a whole iteration visits what is left, one DPU at a time, and counts;
- `dpuForeach_exact`: the enabled DPUs of a set of ranks, each once and in order, and rank by rank the same.

The set of a single DPU is not looked at: its DPU is visited whether it is enabled or not.
-/
import Mathlib.Tactic
import PimOfis.Lib.Index
import PimOfis.Lib.Loops

namespace PimOfis.Api.DpuSets

/-! ## Ranks and sets -/

/-- `hw.topology` of the description -/
structure Topology where
  nrOfControlInterfaces : ℕ
  nrOfDpusPerControlInterface : ℕ
  /-- `DPU_MAX_NR_CIS` -/
  cis_le : nrOfControlInterfaces ≤ 8
  /-- `DPU_MAX_NR_DPUS_PER_CI` -/
  dpus_le : nrOfDpusPerControlInterface ≤ 8

def Topology.nrDpus (t : Topology) : ℕ := t.nrOfControlInterfaces * t.nrOfDpusPerControlInterface

/-- `struct dpu_rank_t`: its description, and `rank->dpus[idx].enabled` -/
structure Rank where
  topology : Topology
  enabled : ℕ → Bool

/-- the array of ranks that an allocation fills -/
structure Allocation where
  topology : Topology
  ranks : List Rank
  alike : ∀ r ∈ ranks, r.topology = topology

/-- `rank->dpus + idx` -/
structure Dpu where
  rank : ℕ
  idx : ℕ
deriving DecidableEq

/-- `struct dpu_set_t`: a part of the array of ranks, from the position `first` on, or one DPU -/
inductive DpuSet where
  | ranks (nrRanks first : ℕ)
  | dpu (d : Dpu)
deriving DecidableEq

/-- the set that `init_dpu_set` makes -/
def Allocation.dpuSet (a : Allocation) : DpuSet := .ranks a.ranks.length 0

/-- `dpu_set_from_dpu` -/
def dpuSetFromDpu (d : Dpu) : DpuSet := .dpu d

/-- `OFIS_get_rank`; on a set of one DPU it would write over the pointer -/
def ofisGetRank (set : DpuSet) (rankId : ℕ) : Option DpuSet :=
  match set with
  | .ranks _ first => some (.ranks 1 (first + rankId))
  | .dpu _ => none

/-! ## Iterators -/

/-- `struct dpu_set_rank_iterator_t` -/
structure RankIterator where
  set : DpuSet
  count : UInt32
  nextIdx : ℕ
  hasNext : Bool
  next : DpuSet

/-- `dpu_set_rank_iterator_from` -/
def rankIteratorFrom (set : DpuSet) : RankIterator :=
  match set with
  | .ranks nrRanks first => ⟨set, 0, 1, decide (nrRanks ≠ 0), .ranks 1 first⟩
  | .dpu _ => ⟨set, 0, 1, true, set⟩

/-- `dpu_set_rank_iterator_next` -/
def rankIteratorNext (it : RankIterator) : RankIterator :=
  if it.hasNext = false then { it with count := it.count + 1 }
  else
    match it.set with
    | .ranks nrRanks first =>
      if it.nextIdx < nrRanks then
        { it with count := it.count + 1, next := .ranks 1 (first + it.nextIdx), nextIdx := it.nextIdx + 1 }
      else { it with count := it.count + 1, hasNext := false }
    | .dpu _ => { it with count := it.count + 1, hasNext := false }

/-- `*iterator->next.list.ranks`, with its position -/
def RankIterator.rank (ranks : List Rank) (it : RankIterator) : Option (ℕ × Rank) :=
  match it.next with
  | .ranks _ first => ranks[first]?.map fun r => (first, r)
  | .dpu _ => none

/-- `struct dpu_set_dpu_iterator_t`; `next` is not initialised before a DPU has been found -/
structure DpuIterator where
  rankIterator : RankIterator
  count : UInt32
  nextIdx : ℕ
  hasNext : Bool
  next : Option DpuSet

/-- the `do` loop of `advance_to_next_dpu_in_rank_list`, with its locals; `none` if the fuel ends, or if a rank behind the
array is read -/
def advanceLoop (ranks : List Rank) (nrDpus : ℕ) : ℕ → ℕ × Rank → ℕ → DpuIterator → Option DpuIterator
  | 0, _, _, _ => none
  | fuel + 1, rank, dpuIdx, it =>
    match (List.range' dpuIdx (nrDpus - dpuIdx)).find? rank.2.enabled with
    | some idx => some { it with hasNext := true, nextIdx := idx + 1, next := some (.dpu ⟨rank.1, idx⟩) }
    | none =>
      let it := { it with rankIterator := rankIteratorNext it.rankIterator }
      (it.rankIterator.rank ranks).bind fun rank =>
        if it.rankIterator.hasNext = true then advanceLoop ranks nrDpus fuel rank 0 it
        else some { it with hasNext := false }

def advanceToNextDpuInRankList (ranks : List Rank) (fuel : ℕ) (it : DpuIterator) : Option DpuIterator :=
  (it.rankIterator.rank ranks).bind fun rank => advanceLoop ranks rank.2.topology.nrDpus fuel rank it.nextIdx it

/-- `dpu_set_dpu_iterator_from` -/
def dpuIteratorFrom (ranks : List Rank) (fuel : ℕ) (set : DpuSet) : Option DpuIterator :=
  let it : DpuIterator := ⟨rankIteratorFrom set, 0, 0, false, none⟩
  if it.rankIterator.hasNext = false then some it
  else
    match set with
    | .ranks _ _ => advanceToNextDpuInRankList ranks fuel it
    | .dpu _ => some { it with hasNext := true, next := some set }

/-- `dpu_set_dpu_iterator_next` -/
def dpuIteratorNext (ranks : List Rank) (fuel : ℕ) (it : DpuIterator) : Option DpuIterator :=
  let it := { it with count := it.count + 1 }
  if it.hasNext = false then some it
  else
    match it.rankIterator.set with
    | .ranks _ _ => advanceToNextDpuInRankList ranks fuel it
    | .dpu _ => some { it with hasNext := false }

/-- the loop of `DPU_FOREACH(set, dpu, i)`: the values of `i` and `dpu` in its body -/
def foreachLoop (ranks : List Rank) : ℕ → DpuIterator → Option (List (UInt32 × Option DpuSet))
  | 0, _ => none
  | fuel + 1, it =>
    if it.hasNext = true then
      (dpuIteratorNext ranks fuel it).bind fun it' =>
        (foreachLoop ranks fuel it').map fun visits => (it.count, it.next) :: visits
    else some []

def dpuForeach (ranks : List Rank) (fuel : ℕ) (set : DpuSet) : Option (List (UInt32 × Option DpuSet)) :=
  (dpuIteratorFrom ranks fuel set).bind (foreachLoop ranks fuel)

/-! ## Statement -/

/-- a body for each DPU of a list, with the count -/
def numbered (count : UInt32) : List Dpu → List (UInt32 × Option DpuSet)
  | [] => []
  | d :: ds => (count, some (.dpu d)) :: numbered (count + 1) ds

/-- the iteration ends, and its visits are the DPUs of the list, counted from 0 on -/
def Visits (a : Allocation) (set : DpuSet) (ds : List Dpu) : Prop :=
  ∃ bound, ∀ fuel, bound ≤ fuel → dpuForeach a.ranks fuel set = some (numbered 0 ds)

/-- `rank->dpus[idx].enabled` for a DPU of the allocation -/
def Allocation.Enabled (a : Allocation) (d : Dpu) : Prop :=
  ∃ r, a.ranks[d.rank]? = some r ∧ d.idx < r.topology.nrDpus ∧ r.enabled d.idx = true

/-- ordered by rank, and within a rank by index -/
def Dpu.Before (d e : Dpu) : Prop := d.rank < e.rank ∨ d.rank = e.rank ∧ d.idx < e.idx

/-- **Exactly the enabled DPUs** of the ranks at the positions `ids`, each of them once, in order. -/
structure Enumerates (a : Allocation) (set : DpuSet) (ids : ℕ → Prop) (ds : List Dpu) : Prop where
  visits : Visits a set ds
  exact : ∀ d, d ∈ ds ↔ ids d.rank ∧ a.Enabled d
  ordered : ds.Pairwise Dpu.Before

/-- the enabled DPUs of the rank at a position, from the index `k` on -/
def Allocation.dpusOf (a : Allocation) (pos k : ℕ) : List Dpu :=
  match a.ranks[pos]? with
  | some r => ((List.range' k (a.topology.nrDpus - k)).filter r.enabled).map (Dpu.mk pos)
  | none => []

/-- the enabled DPUs of `n` ranks from a position on -/
def Allocation.dpusIn (a : Allocation) (first n : ℕ) : List Dpu := (List.range' first n).flatMap (a.dpusOf · 0)

/-! ## The enabled DPUs in order -/

section Order

variable {a : Allocation} {pos k : ℕ} {d e : Dpu}

theorem mem_dpusOf : d ∈ a.dpusOf pos k ↔ d.rank = pos ∧ k ≤ d.idx ∧ a.Enabled d := by
  unfold Allocation.dpusOf Allocation.Enabled
  cases hr : a.ranks[pos]? with
  | none =>
    refine ⟨fun h => absurd h List.not_mem_nil, ?_⟩
    rintro ⟨rfl, _, r, hr', _⟩
    rw [hr] at hr'
    cases hr'
  | some r =>
    have hsame : r.topology = a.topology := a.alike r (List.mem_of_getElem? hr)
    simp only [List.mem_map, List.mem_filter, List.mem_range'_1]
    constructor
    · rintro ⟨idx, ⟨⟨hk, hlt⟩, hen⟩, rfl⟩
      refine ⟨rfl, hk, r, hr, ?_, hen⟩
      change idx < _
      rw [hsame]
      omega
    · rintro ⟨rfl, hk, r', hr', hlt, hen⟩
      rw [hr] at hr'
      cases hr'
      rw [hsame] at hlt
      exact ⟨d.idx, ⟨⟨hk, by omega⟩, hen⟩, rfl⟩

theorem mem_dpusIn {first n : ℕ} : d ∈ a.dpusIn first n ↔ (first ≤ d.rank ∧ d.rank < first + n) ∧ a.Enabled d := by
  simp only [Allocation.dpusIn, List.mem_flatMap, List.mem_range'_1, mem_dpusOf]
  constructor
  · rintro ⟨pos, hpos, rfl, _, hen⟩
    exact ⟨hpos, hen⟩
  · rintro ⟨hpos, hen⟩
    exact ⟨d.rank, hpos, rfl, Nat.zero_le _, hen⟩

theorem pairwise_dpusOf (a : Allocation) (pos k : ℕ) : (a.dpusOf pos k).Pairwise Dpu.Before := by
  unfold Allocation.dpusOf
  cases a.ranks[pos]? with
  | none => exact List.Pairwise.nil
  | some r =>
    refine List.Pairwise.map _ (fun i j hij => Or.inr ⟨rfl, hij⟩) ?_
    exact List.Pairwise.filter _ List.pairwise_lt_range'

theorem pairwise_dpusIn (a : Allocation) (first n : ℕ) : (a.dpusIn first n).Pairwise Dpu.Before := by
  induction n generalizing first with
  | zero => exact List.Pairwise.nil
  | succ n ih =>
    rw [Allocation.dpusIn, List.range'_succ, List.flatMap_cons]
    refine List.pairwise_append.mpr ⟨pairwise_dpusOf a first 0, ih (first + 1), fun d hd e he => Or.inl ?_⟩
    have hfirst := (mem_dpusOf.mp hd).1
    have hlater := (mem_dpusIn.mp he).1.1
    omega

theorem dpusIn_one (a : Allocation) (pos : ℕ) : a.dpusIn pos 1 = a.dpusOf pos 0 := by
  simp [Allocation.dpusIn]

end Order

/-! ## One search -/

section Search

/-- the iterator over `n` ranks from the position `first` on is at the rank with the number `p` -/
structure At (first n p : ℕ) (it : RankIterator) : Prop where
  set : it.set = .ranks n first
  hasNext : it.hasNext = true
  next : it.next = .ranks 1 (first + p)
  nextIdx : it.nextIdx = p + 1
  lt : p < n

variable {a : Allocation} {first n p k : ℕ}

theorem rankIteratorFrom_at (first : ℕ) (h : 0 < n) : At first n 0 (rankIteratorFrom (.ranks n first)) where
  set := rfl
  hasNext := decide_eq_true (Nat.ne_of_gt h)
  next := rfl
  nextIdx := rfl
  lt := h

theorem rankIteratorNext_at {it : RankIterator} (h : At first n p it) (hlt : p + 1 < n) :
    At first n (p + 1) (rankIteratorNext it) := by
  have hstep : rankIteratorNext it =
      { it with count := it.count + 1, next := .ranks 1 (first + it.nextIdx), nextIdx := it.nextIdx + 1 } := by
    rw [rankIteratorNext, if_neg (by rw [h.hasNext]; decide), h.set]
    exact if_pos (h.nextIdx.symm ▸ hlt)
  rw [hstep]
  refine ⟨h.set, h.hasNext, ?_, ?_, hlt⟩
  · dsimp only
    rw [h.nextIdx]
  · dsimp only
    rw [h.nextIdx]

/-- behind the last rank the iterator stays where it is -/
theorem rankIteratorNext_last {it : RankIterator} (h : At first n p it) (hlast : ¬ p + 1 < n) :
    rankIteratorNext it = { it with count := it.count + 1, hasNext := false } := by
  rw [rankIteratorNext, if_neg (by rw [h.hasNext]; decide), h.set]
  exact if_neg (h.nextIdx.symm ▸ hlast)

/-- the rank an iterator is at can be read -/
theorem rank_eq {ranks : List Rank} {it : RankIterator} {pos : ℕ} {r : Rank} (hnext : it.next = .ranks 1 pos)
    (hr : ranks[pos]? = some r) : it.rank ranks = some (pos, r) := by
  simp only [RankIterator.rank, hnext, hr, Option.map_some]

/-- the enabled DPUs from the index `k` of the rank with the number `p` on -/
def left (a : Allocation) (first n p k : ℕ) : List Dpu :=
  a.dpusOf (first + p) k ++ a.dpusIn (first + p + 1) (n - (p + 1))

/-- what an iterator has still to visit, the DPU it is at included -/
def Left (a : Allocation) (first n : ℕ) (it : DpuIterator) : List Dpu → Prop
  | [] => it.hasNext = false
  | d :: ds => it.hasNext = true ∧ it.next = some (.dpu d) ∧
      ∃ p, At first n p it.rankIterator ∧ ds = left a first n p it.nextIdx

theorem dpusOf_eq {pos : ℕ} {r : Rank} (hr : a.ranks[pos]? = some r) (k : ℕ) :
    a.dpusOf pos k = ((List.range' k (a.topology.nrDpus - k)).filter r.enabled).map (Dpu.mk pos) := by
  simp only [Allocation.dpusOf, hr]

/-- nothing left in this rank: what is left is in the next one -/
theorem left_succ (h : a.dpusOf (first + p) k = []) (hlt : p + 1 < n) :
    left a first n p k = left a first n (p + 1) 0 := by
  have hlen : n - (p + 1) = (n - (p + 1 + 1)) + 1 := by omega
  rw [left, h, List.nil_append, Allocation.dpusIn, hlen, List.range'_succ, List.flatMap_cons]
  rfl

theorem left_last (h : a.dpusOf (first + p) k = []) (hlast : ¬ p + 1 < n) : left a first n p k = [] := by
  have hlen : n - (p + 1) = 0 := Nat.sub_eq_zero_of_le (Nat.not_lt.mp hlast)
  rw [left, h, hlen]
  rfl

/-- **One search** goes to the next enabled DPU that is left, or finds that there is none. -/
theorem advanceLoop_spec (hin : first + n ≤ a.ranks.length) (fuel : ℕ) {r : Rank} {it : DpuIterator}
    (hat : At first n p it.rankIterator) (hr : a.ranks[first + p]? = some r) (hfuel : n - p ≤ fuel) :
    ∃ it', advanceLoop a.ranks a.topology.nrDpus fuel (first + p, r) k it = some it' ∧ it'.count = it.count ∧
      Left a first n it' (left a first n p k) := by
  induction fuel generalizing p r k it with
  | zero =>
    have hlt := hat.lt
    omega
  | succ fuel ih =>
    rw [advanceLoop]
    cases hfind : (List.range' k (a.topology.nrDpus - k)).find? r.enabled with
    | some i =>
      refine ⟨_, rfl, rfl, ?_⟩
      have hcons : left a first n p k = ⟨first + p, i⟩ :: left a first n p (i + 1) := by
        rw [left, left, dpusOf_eq hr, dpusOf_eq hr, Lib.filter_range'_of_find _ hfind, List.map_cons, List.cons_append]
      rw [hcons]
      exact ⟨rfl, rfl, p, hat, rfl⟩
    | none =>
      have hnil : a.dpusOf (first + p) k = [] := by
        rw [dpusOf_eq hr, List.filter_eq_nil_iff.mpr (List.find?_eq_none.mp hfind), List.map_nil]
      dsimp only
      by_cases hlt : p + 1 < n
      · -- the next rank, from its first DPU on
        have hat' := rankIteratorNext_at hat hlt
        have hpos : first + (p + 1) < a.ranks.length := by omega
        have hr' : a.ranks[first + (p + 1)]? = some a.ranks[first + (p + 1)] := List.getElem?_eq_getElem hpos
        rw [rank_eq hat'.next hr', Option.bind_some, if_pos hat'.hasNext, left_succ hnil hlt]
        exact ih hat' hr' (by omega)
      · have hlast := rankIteratorNext_last hat hlt
        have hnext : (rankIteratorNext it.rankIterator).next = .ranks 1 (first + p) := by
          rw [hlast]
          exact hat.next
        rw [rank_eq hnext hr, Option.bind_some, hlast, if_neg Bool.false_ne_true, left_last hnil hlt]
        exact ⟨_, rfl, rfl, rfl⟩

theorem advance_spec (hin : first + n ≤ a.ranks.length) {fuel : ℕ} (it : DpuIterator) (hat : At first n p it.rankIterator)
    (hfuel : n ≤ fuel) :
    ∃ it', advanceToNextDpuInRankList a.ranks fuel it = some it' ∧ it'.count = it.count ∧
      Left a first n it' (left a first n p it.nextIdx) := by
  have hlt := hat.lt
  have hpos : first + p < a.ranks.length := by omega
  have hr : a.ranks[first + p]? = some a.ranks[first + p] := List.getElem?_eq_getElem hpos
  have hsame : (a.ranks[first + p]).topology = a.topology := a.alike _ (List.getElem_mem hpos)
  rw [advanceToNextDpuInRankList, rank_eq hat.next hr, Option.bind_some, hsame]
  exact advanceLoop_spec hin fuel hat hr (by omega)

end Search

/-! ## A whole iteration -/

section Iteration

variable {a : Allocation} {first n : ℕ}

/-- **A whole iteration** visits what is left, and counts. -/
theorem foreachLoop_spec (hin : first + n ≤ a.ranks.length) (ds : List Dpu) {fuel : ℕ} {it : DpuIterator}
    (hleft : Left a first n it ds) (hfuel : n + ds.length < fuel) :
    foreachLoop a.ranks fuel it = some (numbered it.count ds) := by
  induction ds generalizing fuel it with
  | nil =>
    obtain ⟨fuel, rfl⟩ := Nat.exists_eq_succ_of_ne_zero (Nat.ne_of_gt (Nat.zero_lt_of_lt hfuel))
    have hstop : ¬ it.hasNext = true := Bool.eq_false_iff.mp hleft
    rw [foreachLoop, if_neg hstop]
    rfl
  | cons d ds ih =>
    obtain ⟨fuel, rfl⟩ := Nat.exists_eq_succ_of_ne_zero (Nat.ne_of_gt (Nat.zero_lt_of_lt hfuel))
    obtain ⟨hgo, hnext, p, hat, rfl⟩ := hleft
    rw [List.length_cons] at hfuel
    have hstep : dpuIteratorNext a.ranks fuel it =
        advanceToNextDpuInRankList a.ranks fuel { it with count := it.count + 1 } := by
      simp only [dpuIteratorNext, hgo, hat.set, Bool.true_eq_false, if_false]
    obtain ⟨it', hadvance, hcount, hleft'⟩ := advance_spec hin { it with count := it.count + 1 } hat
      (show n ≤ fuel by omega)
    rw [foreachLoop, if_pos hgo, hstep, hadvance, Option.bind_some, ih hleft' (by omega), hcount, hnext]
    rfl

/-- the enabled DPUs of a part of the ranks -/
theorem visits_ranks (hin : first + n ≤ a.ranks.length) : Visits a (.ranks n first) (a.dpusIn first n) := by
  refine ⟨n + (a.dpusIn first n).length + 1, fun fuel hfuel => ?_⟩
  rcases Nat.eq_zero_or_pos n with rfl | hpos
  · obtain ⟨fuel, rfl⟩ := Nat.exists_eq_succ_of_ne_zero (show fuel ≠ 0 by omega)
    rfl
  · have hat := rankIteratorFrom_at first hpos
    have hfrom : dpuIteratorFrom a.ranks fuel (.ranks n first) =
        advanceToNextDpuInRankList a.ranks fuel ⟨rankIteratorFrom (.ranks n first), 0, 0, false, none⟩ := by
      simp only [dpuIteratorFrom, hat.hasNext, Bool.true_eq_false, if_false]
    obtain ⟨it, hadvance, hcount, hleft⟩ := advance_spec hin ⟨rankIteratorFrom (.ranks n first), 0, 0, false, none⟩ hat
      (show n ≤ fuel by omega)
    have hall : left a first n 0 0 = a.dpusIn first n := by
      obtain ⟨m, rfl⟩ := Nat.exists_eq_succ_of_ne_zero (Nat.ne_of_gt hpos)
      rw [left, Allocation.dpusIn, Allocation.dpusIn, List.range'_succ, List.flatMap_cons]
      rfl
    dsimp only at hleft
    rw [hall] at hleft
    rw [dpuForeach, hfrom, hadvance, Option.bind_some, foreachLoop_spec hin _ hleft (by omega), hcount]

theorem enumerates_ranks (a : Allocation) (first n : ℕ) (hin : first + n ≤ a.ranks.length) :
    Enumerates a (.ranks n first) (fun pos => first ≤ pos ∧ pos < first + n) (a.dpusIn first n) where
  visits := visits_ranks hin
  exact _ := mem_dpusIn
  ordered := pairwise_dpusIn a first n

theorem visits_dpu (a : Allocation) (d : Dpu) : Visits a (.dpu d) [d] := by
  refine ⟨2, fun fuel hfuel => ?_⟩
  obtain ⟨fuel, rfl⟩ := Nat.exists_eq_add_of_le' hfuel
  rfl

end Iteration

/-- **`DPU_FOREACH` visits exactly the enabled DPUs**, of the set of an allocation and of the set of each of its ranks:
each DPU once, in the order of the ranks and within a rank of the indexes, counted from 0 on; and it ends. Rank by rank
gives the sequence of the whole set. On the set of one DPU it visits this DPU. -/
theorem dpuForeach_exact (a : Allocation) :
    Enumerates a a.dpuSet (· < a.ranks.length) (a.dpusIn 0 a.ranks.length) ∧
    (∀ rankId : Fin a.ranks.length, ∃ rank, ofisGetRank a.dpuSet rankId = some rank ∧
      Enumerates a rank (· = rankId.val) (a.dpusOf rankId 0)) ∧
    (List.range a.ranks.length).flatMap (a.dpusOf · 0) = a.dpusIn 0 a.ranks.length ∧
    ∀ d, Visits a (dpuSetFromDpu d) [d] := by
  refine ⟨?_, fun rankId => ⟨.ranks 1 (0 + rankId), rfl, ?_⟩, ?_, visits_dpu a⟩
  · have h := enumerates_ranks a 0 a.ranks.length (by omega)
    exact ⟨h.visits, fun d => (h.exact d).trans (by simp only [Nat.zero_le, true_and, Nat.zero_add]), h.ordered⟩
  · have h := enumerates_ranks a (0 + rankId) 1 (by omega)
    rw [dpusIn_one, Nat.zero_add] at h
    rw [Nat.zero_add]
    refine ⟨h.visits, fun d => (h.exact d).trans (and_congr_left' ?_), h.ordered⟩
    omega
  · rw [Allocation.dpusIn, List.range_eq_range']

/-- one rank of two DPUs, of which the second is disabled -/
def halfRank : Allocation where
  topology := ⟨1, 2, by decide, by decide⟩
  ranks := [⟨⟨1, 2, by decide, by decide⟩, fun idx => decide (idx = 0)⟩]
  alike r hr := by
    rw [List.mem_singleton.mp hr]

/-- the set of the disabled DPU is iterated too -/
theorem disabledDpu_visited :
    ¬ ∀ (a : Allocation) (d : Dpu) (ds : List Dpu), Visits a (dpuSetFromDpu d) ds → ∀ e ∈ ds, a.Enabled e := by
  intro h
  obtain ⟨r, hr, _, hen⟩ := h halfRank ⟨0, 1⟩ [⟨0, 1⟩] (visits_dpu _ _) _ List.mem_cons_self
  cases Option.some.inj hr
  exact absurd hen (by decide)

end PimOfis.Api.DpuSets
