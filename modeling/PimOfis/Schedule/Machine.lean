/-
The host loops that share work over ranks: `thread_fct` of the SpMV IG host and `thread_fct_ig`, `thread_fct_rank`,
`thread_fct_dpu` of PageRank.

One thread drives one rank. It hands the first 64 pieces of work (partitions, sub-graphs) to its DPUs and launches them;
then it polls the state words, retrieves the results of the DPUs that have finished together, takes as many pieces from
the shared counter `p_count` (under its mutex), sends their inputs to the finished DPUs in index order, and sets their
state words: 2 to run again, 0 to stop once the counter has passed the last piece. The four functions differ in the group
of DPUs that finish together, in the set-state call, and in which index they test against the number of pieces; a `Mode`
holds these differences.

The threads and the DPUs run interleaved. A poll reads one line of eight chips at a time, and every transfer, the mutex
section and every set-state call is a step of its own. An `Act` says who moves next; the step itself is determined.

An input is the index of the piece it was taken from: `dpu_args[p]`, `SGs[p].ptr`, `row_ptr + start_row_ptr[p]` and so
on are all written `p`. What a DPU computes is a function `kernel` of its inputs.

- `Mode.Lawful`: what the four modes but the rank mode have in common, a poll that returns only finished DPUs;
- `trace`, `used`: what a DPU was sent and did, and every index a thread used, for the results to speak of.
-/
import Mathlib.Tactic
import PimOfis.Lib.Position

namespace PimOfis.Schedule

open Lib

/-! ## Model -/

/-- a DPU of a rank by its place in `DPU_FOREACH`: 8 * slice + member -/
abbrev Slot := Fin 64

/-- the places in which the host loops differ; `n` is the number of inputs a piece has -/
structure Mode (n : ℕ) where
  /-- the DPUs a poll reports, from the 64 words it read -/
  collect : (Slot → ℕ) → Finset Slot
  /-- the set-state call that names a DPU; calls are numbered below `calls` -/
  group : Slot → ℕ
  calls : ℕ
  /-- a result is retrieved only if its index is tested below the number of pieces -/
  guardRetrieve : Bool
  /-- an argument is sent, and the DPU's index changed, only if the index is tested -/
  guardArg : Bool
  /-- the same test before the other inputs -/
  guardData : Bool
  /-- the other inputs are counted from `curr_p_count` again, not taken from the DPU's index -/
  recount : Bool

/-- what happens at a DPU -/
inductive Event where
  /-- input `k` is overwritten with that of piece `p` -/
  | send (k p : ℕ)
  /-- launched, or its state word set to 2 -/
  | start
  /-- it writes 1 to its state word -/
  | finish
  /-- its result is copied into the slot of piece `p` -/
  | retrieve (p : ℕ)
  /-- its state word is set to 0 -/
  | release
deriving DecidableEq, Repr

structure Dpu (n : ℕ) (β : Type) where
  booted : Bool
  /-- the program has begun: it has set its state word to 2 -/
  begun : Bool
  word : ℕ
  input : Fin n → ℕ
  result : Option β
  trace : List Event

/-- where a thread stands -/
inductive Pc where
  /-- the first transfer of input `k` -/
  | load (k : ℕ)
  /-- `OFIS_dpu_launch` -/
  | launch
  /-- in `OFIS_get_finished_*`, before line `d` -/
  | poll (d : ℕ)
  | retrieve
  /-- the section under `p_count_mutex` -/
  | take
  /-- the transfer of input `k` to the finished DPUs -/
  | send (k : ℕ)
  /-- before the set-state call number `c` -/
  | setState (c : ℕ)
  | done
deriving DecidableEq, Repr

structure Thread where
  pc : Pc
  /-- `part_dpu`, `sg_pos`: the piece each DPU of the rank has -/
  part : Slot → ℕ
  /-- the words the present poll has read -/
  words : Slot → ℕ
  /-- the DPUs the last poll reported -/
  finish : Finset Slot
  curr : ℕ
  changeState : ℕ
  finishCount : ℕ

structure RankState (n : ℕ) (β : Type) where
  thread : Thread
  dpu : Slot → Dpu n β

structure State (n : ℕ) (β : Type) where
  pCount : ℕ
  rank : ℕ → RankState n β
  /-- the result slots, `output_vec + p * max_nr_rows` or `result_rank + p * max_node` -/
  out : ℕ → Option β
  /-- every index a thread has used into the arguments, the data or the results -/
  used : List ℕ

/-- who moves: the thread of rank `r`, or DPU `i` of rank `r` -/
inductive Act where
  | thread (r : ℕ)
  | dpu (r : ℕ) (i : Slot)
deriving DecidableEq, Repr

variable {n : ℕ} {β : Type}

/-- a DPU moves: it begins, finishes, or waits -/
def Dpu.step (kernel : (Fin n → ℕ) → β) (d : Dpu n β) : Dpu n β :=
  if d.booted = false then d
  else if d.begun = false then { d with begun := true, word := 2 }
  else if d.word = 2 then { d with word := 1, result := some (kernel d.input), trace := d.trace ++ [.finish] }
  else d

def Dpu.send (d : Dpu n β) (k p : ℕ) : Dpu n β :=
  { d with input := fun j => if j.val = k then p else d.input j, trace := d.trace ++ [.send k p] }

/-- `boot` of `OFIS_dpu_launch`: the state word is still 0 -/
def Dpu.boot (d : Dpu n β) : Dpu n β := { d with booted := true, trace := d.trace ++ [.start] }

def Dpu.setState (d : Dpu n β) (st : ℕ) : Dpu n β :=
  { d with word := st, trace := d.trace ++ [if st = 2 then .start else .release] }

def Dpu.retrieve (d : Dpu n β) (p : ℕ) : Dpu n β := { d with trace := d.trace ++ [.retrieve p] }

/-- an index passes the test of a guarded step -/
def Passes (guard : Bool) (total p : ℕ) : Prop := guard = true → p < total

instance (guard : Bool) (total p : ℕ) : Decidable (Passes guard total p) := by unfold Passes; infer_instance

/-- the DPUs whose result is retrieved -/
def retrieved (m : Mode n) (total : ℕ) (t : Thread) : Finset Slot :=
  t.finish.filter fun i => Passes m.guardRetrieve total (t.part i)

/-- the index a DPU's input `k` is taken from -/
def inputIndex (m : Mode n) (t : Thread) (k : ℕ) (i : Slot) : ℕ :=
  if k = 0 ∨ m.recount = true then t.curr + position t.finish i else t.part i

/-- the DPUs input `k` is sent to -/
def sent (m : Mode n) (total : ℕ) (t : Thread) (k : ℕ) : Finset Slot :=
  t.finish.filter fun i => Passes (if k = 0 then m.guardArg else m.guardData) total (inputIndex m t k i)

/-- the DPUs the set-state call `c` names, if the poll's bit for it is set -/
def named (m : Mode n) (t : Thread) (c : ℕ) : Finset Slot :=
  Finset.univ.filter fun i => m.group i = c ∧ ∃ j ∈ t.finish, m.group j = c

/-- the results are copied slot by slot, in index order -/
def copyResults (q : RankState n β) (F : Finset Slot) (out : ℕ → Option β) : ℕ → Option β :=
  (List.finRange 64).foldl (fun o i => if i ∈ F then Function.update o (q.thread.part i) (q.dpu i).result else o) out

/-- the indexes of the DPUs in `F`, in index order -/
def indexes (F : Finset Slot) (f : Slot → ℕ) : List ℕ := ((List.finRange 64).filter (· ∈ F)).map f

/-- a new poll: `wram_read` is a fresh buffer -/
def Thread.repoll (t : Thread) : Thread := { t with pc := .poll 0, words := fun _ => 0 }

/-- the thread of rank `r` moves, with the counter at `pCount`: what becomes of its own rank -/
def rankStep (m : Mode n) (total r pCount : ℕ) (q : RankState n β) : RankState n β :=
  let t := q.thread
  match t.pc with
  | .load k =>
    if k < n then
      { thread := { t with pc := .load (k + 1), part := fun i => 64 * r + i.val }
        dpu := fun i => (q.dpu i).send k (64 * r + i.val) }
    else { q with thread := { t with pc := .launch } }
  | .launch => { thread := t.repoll, dpu := fun i => (q.dpu i).boot }
  | .poll d =>
    if d < 8 then
      { q with thread :=
        { t with pc := .poll (d + 1), words := fun i => if i.val % 8 = d then (q.dpu i).word else t.words i } }
    else if m.collect t.words = ∅ then { q with thread := t.repoll }
    else { q with thread := { t with pc := .retrieve, finish := m.collect t.words } }
  | .retrieve =>
    { thread := { t with pc := .take }
      dpu := fun i => if i ∈ retrieved m total t then (q.dpu i).retrieve (t.part i) else q.dpu i }
  | .take =>
    if total ≤ pCount then
      { q with thread :=
        { t with pc := .setState 0, changeState := 0, finishCount := t.finishCount + t.finish.card } }
    else { q with thread := { t with pc := .send 0, changeState := 2, curr := pCount } }
  | .send k =>
    if k < n then
      { thread :=
          { t with
            pc := .send (k + 1)
            part := fun i => if k = 0 ∧ i ∈ sent m total t k then inputIndex m t k i else t.part i }
        dpu := fun i => if i ∈ sent m total t k then (q.dpu i).send k (inputIndex m t k i) else q.dpu i }
    else { q with thread := { t with pc := .setState 0 } }
  | .setState c =>
    if c < m.calls then
      { thread := { t with pc := .setState (c + 1) }
        dpu := fun i => if i ∈ named m t c then (q.dpu i).setState t.changeState else q.dpu i }
    else if t.finishCount < 64 then { q with thread := t.repoll }
    else { q with thread := { t with pc := .done } }
  | .done => q

/-- what the thread's move makes of the shared counter; the section under the mutex is one step -/
def takeStep (total pCount : ℕ) (t : Thread) : ℕ :=
  match t.pc with
  | .take => if total ≤ pCount then pCount else (pCount + t.finish.card) % 2 ^ 32
  | _ => pCount

/-- what it makes of the result slots -/
def outStep (m : Mode n) (total : ℕ) (q : RankState n β) (out : ℕ → Option β) : ℕ → Option β :=
  match q.thread.pc with
  | .retrieve => copyResults q (retrieved m total q.thread) out
  | _ => out

/-- the indexes it uses -/
def uses (m : Mode n) (total r : ℕ) (t : Thread) : List ℕ :=
  match t.pc with
  | .load k => if k < n then indexes Finset.univ fun i => 64 * r + i.val else []
  | .retrieve => indexes (retrieved m total t) t.part
  | .send k => if k < n then indexes (sent m total t k) (inputIndex m t k) else []
  | _ => []

/-- the thread of rank `r` moves -/
def threadStep (m : Mode n) (total : ℕ) (s : State n β) (r : ℕ) : State n β where
  pCount := takeStep total s.pCount (s.rank r).thread
  rank := Function.update s.rank r (rankStep m total r s.pCount (s.rank r))
  out := outStep m total (s.rank r) s.out
  used := s.used ++ uses m total r (s.rank r).thread

def RankState.dpuStep (kernel : (Fin n → ℕ) → β) (q : RankState n β) (i : Slot) : RankState n β :=
  { q with dpu := Function.update q.dpu i ((q.dpu i).step kernel) }

/-- DPU `i` of rank `r` moves -/
def dpuStep (kernel : (Fin n → ℕ) → β) (s : State n β) (r : ℕ) (i : Slot) : State n β :=
  { s with rank := Function.update s.rank r ((s.rank r).dpuStep kernel i) }

/-- one step of the program with `threads` host threads; an act for a rank it does not have changes nothing -/
def step (m : Mode n) (kernel : (Fin n → ℕ) → β) (threads total : ℕ) (s : State n β) : Act → State n β
  | .thread r => if r < threads then threadStep m total s r else s
  | .dpu r i => if r < threads then dpuStep kernel s r i else s

def run (m : Mode n) (kernel : (Fin n → ℕ) → β) (threads total : ℕ) (s : State n β) (acts : List Act) : State n β :=
  acts.foldl (step m kernel threads total) s

/-- `main` has allocated and loaded the DPUs and set `p_count = nr_dpus` -/
def init (threads : ℕ) : State n β where
  pCount := 64 * threads
  rank _ :=
    { thread := ⟨.load 0, fun _ => 0, fun _ => 0, ∅, 0, 0, 0⟩
      dpu := fun _ => ⟨false, false, 0, fun _ => 0, none, []⟩ }
  out _ := none
  used := []

theorem run_snoc (m : Mode n) (kernel : (Fin n → ℕ) → β) (threads total : ℕ) (s : State n β) (acts : List Act) (a : Act) :
    run m kernel threads total s (acts ++ [a]) = step m kernel threads total (run m kernel threads total s acts) a := by
  simp [run, List.foldl_append]

/-- all threads have returned -/
def Returned (threads : ℕ) (s : State n β) : Prop := ∀ r < threads, (s.rank r).thread.pc = .done

/-- a poll reports only DPUs whose word it read as 1, whole groups of them, and every group has its set-state call -/
structure Mode.Lawful (m : Mode n) : Prop where
  inputs : 0 < n
  one : ∀ w i, i ∈ m.collect w → w i = 1
  closed : ∀ w i j, i ∈ m.collect w → m.group i = m.group j → j ∈ m.collect w
  group_lt : ∀ i, m.group i < m.calls
  recount : m.recount = true → m.guardArg = false

end PimOfis.Schedule
