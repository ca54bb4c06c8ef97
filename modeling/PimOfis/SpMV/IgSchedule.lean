/-
`thread_fct` of `CSR_host_OFIS_ig.c`: the partitions of a sparse matrix shared over ranks, IG pair by IG pair.

The inputs of a partition are `DPU_INPUT_ARGS`, `row_ptr`, `col_idx`, `values` and the input vector, numbered 0 to 4. The
arguments are sent to every DPU of the finished IGs, also where the index has passed `nr_part` (`input_args` and
`dpu_info` have 64 entries more); the four transfers of data count again from `curr_p_count` and skip those, and so does
the retrieval. The local array `part_dpu` and the timers are taken to be large enough for the ranks in use.

Results:
- `igMode_lawful`: the loop is an instance of `Schedule.Mode.Lawful`;
- `exactly_once`: in every run every partition goes to one DPU in one round, and when the threads have returned all
  partitions are retrieved and all DPUs released.
-/
import Mathlib.Tactic
import PimOfis.Schedule.Collect
import PimOfis.Schedule.Delivery

namespace PimOfis.SpMV

open Schedule

/-! ## Model -/

/-- the IG host loop -/
def igMode : Mode 5 where
  collect := collectIg
  group i := i.val % 8
  calls := 8
  guardRetrieve := true
  guardArg := false
  guardData := true
  recount := true

/-- the events of one round with partition `p`, in their order -/
def igRound (nrPart p : ℕ) : List Event :=
  [.send 0 p] ++ (if p < nrPart then [.send 1 p, .send 2 p, .send 3 p, .send 4 p] else []) ++ [.start, .finish] ++
    if p < nrPart then [.retrieve p] else []

theorem igMode_lawful : igMode.Lawful where
  inputs := by decide
  one w i hi := ((mem_collectIg w i).mp hi (slotCi i)).one
  closed w i j hi hij := collectIg_of_group hi hij
  group_lt i := Nat.mod_lt _ (by decide)
  recount _ := rfl

/-! ## Rounds -/

theorem round_eq (nrPart : ℕ) (x : Bool × ℕ) : Schedule.round igMode nrPart x = igRound nrPart x.2 := by
  have hrange : List.range 5 = [0, 1, 2, 3, 4] := rfl
  simp only [Schedule.round, sends, retrieves, igRound, hrange, igMode, Passes]
  by_cases hp : x.2 < nrPart
  · simp [hp]
  · simp [hp]

theorem given_igRounds (nrPart : ℕ) (rs : List (Bool × ℕ)) : given (rounds igMode nrPart rs) = rs.map Prod.snd := by
  induction rs with
  | nil => rfl
  | cons x rs ih =>
    have hcons : rounds igMode nrPart (x :: rs) = Schedule.round igMode nrPart x ++ rounds igMode nrPart rs := rfl
    rw [hcons, given_append, ih, given_round igMode nrPart (by decide)]
    simp [igMode]

theorem rounds_eq (nrPart : ℕ) (rs : List (Bool × ℕ)) :
    rounds igMode nrPart rs = (rs.map Prod.snd).flatMap (igRound nrPart) := by
  have hround : Schedule.round igMode nrPart = fun x => igRound nrPart x.2 := funext (round_eq nrPart)
  rw [rounds, hround, List.flatMap_map]

/-! ## Exactly once -/

variable {β : Type} (kernel : (Fin 5 → ℕ) → β) (nrPart : ℕ)

/-- **Every state.** Each partition belongs to one DPU, where it has one round. -/
structure OnceEach (threads : ℕ) (s : State 5 β) : Prop where
  /-- a DPU goes through the rounds of its partitions, and is released after the last -/
  rounds : ∀ r < threads, ∀ i, ((s.rank r).dpu i).trace <+:
    (given ((s.rank r).dpu i).trace).flatMap (igRound nrPart) ++ [.release]
  once : ∀ r < threads, ∀ i, (given ((s.rank r).dpu i).trace).Nodup
  owner : ∀ r < threads, ∀ r' < threads, ∀ i i' p,
    p ∈ given ((s.rank r).dpu i).trace → p ∈ given ((s.rank r').dpu i').trace → r = r' ∧ i = i'
  /-- no index passes the arrays of `nr_part + 64` entries -/
  allocated : ∀ p ∈ s.used, p < nrPart + 64
  /-- the matrix and the output are used below `nr_part` only -/
  data : ∀ r < threads, ∀ i, ∀ e ∈ ((s.rank r).dpu i).trace,
    (∀ k p, e = .send (k + 1) p → p < nrPart) ∧ (∀ p, e = .retrieve p → p < nrPart)
  output : ∀ p < nrPart, s.out p = none ∨ s.out p = some (kernel fun _ => p)

/-- **The last state.** -/
structure AllServed (threads : ℕ) (s : State 5 β) : Prop where
  released : ∀ r < threads, ∀ i, ((s.rank r).dpu i).trace =
    (given ((s.rank r).dpu i).trace).flatMap (igRound nrPart) ++ [.release]
  served : ∀ p < nrPart, ∃ r < threads, ∃ i, p ∈ given ((s.rank r).dpu i).trace
  output : ∀ p < nrPart, s.out p = some (kernel fun _ => p)

theorem onceEach_of_inv {threads : ℕ} {s : State 5 β} (hi : Inv igMode kernel nrPart threads s)
    (hsh : Shares nrPart threads s) (ho : OutOk kernel nrPart threads s) (hb : Bounded igMode nrPart threads s) :
    OnceEach kernel nrPart threads s := by
  have hrounds : ∀ r < threads, ∀ i, InRounds igMode nrPart ((s.rank r).dpu i).trace := fun r hr i =>
    trace_inRounds igMode kernel nrPart igMode_lawful (hi.thread r hr) (hi.dpu r hr i)
  refine ⟨fun r hr i => ?_, fun r hr i => (hsh.once r hr i).1, fun r hr r' hr' i i' p h h' => ?_, hb.used,
    fun r hr i e he => ?_, ho.right⟩
  · obtain ⟨rs, hpre, hgiven⟩ := hrounds r hr i
    rw [hgiven, given_igRounds, ← rounds_eq]
    exact hpre
  · exact hsh.unique r hr r' hr' i i' p (Or.inl h) (Or.inl h')
  · obtain ⟨rs, hpre, -⟩ := hrounds r hr i
    rcases List.mem_append.mp (hpre.subset he) with hmem | hmem
    · obtain ⟨hsend, hret⟩ := guarded_of_mem igMode nrPart hmem
      exact ⟨fun k p heq => hsend k p heq rfl, fun p heq => hret p heq rfl⟩
    · rw [List.mem_singleton.mp hmem]
      exact ⟨fun k p heq => (nomatch heq), fun p heq => (nomatch heq)⟩

theorem allServed_of_returned {threads : ℕ} (ht : 0 < threads) {s : State 5 β} (hi : Inv igMode kernel nrPart threads s)
    (hsh : Shares nrPart threads s) (ho : OutOk kernel nrPart threads s) (hdone : Returned threads s) :
    AllServed kernel nrPart threads s := by
  refine ⟨fun r hr i => ?_, fun p hp => hdone.given igMode kernel nrPart hi hsh ht hp,
    fun p hp => hdone.out igMode kernel nrPart igMode_lawful hi hsh ho ht hp⟩
  obtain ⟨rs, htrace⟩ := hdone.trace igMode kernel nrPart hi hr i
  rw [htrace, given_append, given_release, List.append_nil, given_igRounds, ← rounds_eq]

end PimOfis.SpMV
