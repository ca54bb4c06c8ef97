/-
The 16 tasklets of a DPU program that runs in rounds (`main` of `CSR_dpu.c` and of `pr_kernel.c`).

Both programs wait in a loop until the host has written 2 to the state word, run a round, in which the tasklets meet at
barriers, have tasklet 0 write 1, meet once more, and wait again; they return when the host has written 0. The host looks
after a DPU only while the word is 1: it then writes arguments and data, and 2 or 0.

A round is cut at its barriers into segments. What a tasklet does in a segment is a `Code`: its accesses to what the host
has sent (`readArgs`) and to the variables the tasklets share, in the order of the source. A loop is run any number of
times, and an `if` on data is taken or not, so that the code covers every input. The tasklets step one access at a time. A
barrier lets all go when all 16 wait at it; a program may use one barrier in many places.

What a value depends on is kept beside it: `deps v` are the rounds whose accesses have gone into the variable since it was
last cleared, `given` are the arguments as they were each time the word became 2, and `round t` counts the rounds tasklet `t`
has begun. Nothing in the source reads them.

- `taskletStep`, `step`: the machine;
- `Code.Safe`, `Code.Must`: what the text of a program says about the variables it reads and cleans.
-/
import Mathlib.Tactic
import PimOfis.Lib.Index

namespace PimOfis.Tasklets

/-! ## Model -/

abbrev Tasklet := Fin 16

/-- what the tasklets share -/
inductive Var where
  /-- the heap of `mem_alloc` and `seqread_alloc` -/
  | heap
  | nnzOffset
  /-- the pointer `add` -/
  | addPtr
  /-- the section of a group in the array at `add` -/
  | add (group : Fin 4)
  | normSum
deriving DecidableEq, Repr

inductive Op where
  /-- a read of arguments or of data the host has sent -/
  | readArgs
  /-- `if (arg.num_node == 0) return 0;` -/
  | returnIfEmpty
  /-- overwritten with a constant -/
  | clear (v : Var)
  /-- overwritten with a value of this round -/
  | write (v : Var)
  | read (v : Var)
  /-- read and written back, as `+=` does, or a pointer that moves on -/
  | update (v : Var)
  /-- a write to the results -/
  | output
  /-- `OFIS_dpu_state = 1` -/
  | report
deriving DecidableEq, Repr

/-- what a tasklet does between two barriers -/
inductive Code where
  | nil
  | op (o : Op) (rest : Code)
  | loop (body rest : Code)
  /-- an `if` on data -/
  | opt (body rest : Code)
deriving DecidableEq, Repr

def Code.seq : Code → Code → Code
  | .nil, b => b
  | .op o rest, b => .op o (rest.seq b)
  | .loop body rest, b => .loop body (rest.seq b)
  | .opt body rest, b => .opt body (rest.seq b)

def Code.ofOps : List Op → Code
  | [] => .nil
  | o :: os => .op o (Code.ofOps os)

structure Kernel (α : Type) where
  /-- the tasklet writes 2 to the state word when it starts -/
  boots : Tasklet → Bool
  /-- the barrier after that -/
  bootBarrier : Option ℕ
  segments : List (Tasklet → Code)
  /-- the barrier at the end of a segment -/
  barrier : ℕ → ℕ
  /-- `arg.num_node == 0` -/
  empty : α → Bool

/-- where a tasklet stands -/
inductive Pc where
  | start
  | bootBarrier
  | inBootBarrier
  /-- the test of the outer loop -/
  | outer
  /-- the test of the wait loop -/
  | wait
  /-- the test for 0 inside it -/
  | check
  /-- in a segment, with this left to do; with nothing left, before the barrier -/
  | at (seg : ℕ) (code : Code)
  | inBarrier (seg : ℕ)
  | ret
deriving DecidableEq, Repr

variable {α : Type}

structure Dpu (α : Type) where
  /-- `OFIS_dpu_state` -/
  word : ℕ
  args : α
  deps : Var → List ℕ
  pc : Tasklet → Pc
  round : Tasklet → ℕ
  given : List α

/-- the code of tasklet `t` in segment `i` -/
def Kernel.code (k : Kernel α) (i : ℕ) (t : Tasklet) : Code := (k.segments[i]?.map fun f => f t).getD .nil

def Dpu.move (d : Dpu α) (t : Tasklet) (pc : Pc) : Dpu α := { d with pc := Function.update d.pc t pc }

/-- the state word becomes 2: a round is given to the DPU, unless it has one -/
def Dpu.go (d : Dpu α) : Dpu α := { d with word := 2, given := if d.word = 2 then d.given else d.given ++ [d.args] }

/-- the barrier at which a tasklet waits -/
def Kernel.waitsAt (k : Kernel α) : Pc → Option ℕ
  | .inBootBarrier => k.bootBarrier
  | .inBarrier i => some (k.barrier i)
  | _ => none

/-- where a tasklet goes on when its barrier opens -/
def Kernel.resume (k : Kernel α) (t : Tasklet) : Pc → Pc
  | .inBootBarrier => .outer
  | .inBarrier i => if i + 1 < k.segments.length then .at (i + 1) (k.code (i + 1) t) else .outer
  | pc => pc

/-- `barrier_wait`: the last tasklet to arrive releases all -/
def Dpu.arrive (k : Kernel α) (d : Dpu α) (t : Tasklet) (inside : Pc) : Dpu α :=
  if ∀ u, u ≠ t → k.waitsAt (d.pc u) = k.waitsAt inside then
    { d with pc := fun u => k.resume u (if u = t then inside else d.pc u) }
  else d.move t inside

/-- an access, in round `r` -/
def Dpu.access (d : Dpu α) (r : ℕ) : Op → Dpu α
  | .clear v => { d with deps := Function.update d.deps v [] }
  | .write v => { d with deps := Function.update d.deps v [r] }
  | .update v => { d with deps := Function.update d.deps v (r :: d.deps v) }
  | .report => { d with word := 1 }
  | _ => d

/-- tasklet `t` moves; `more` if it runs a loop once more, or takes an `if` on data -/
def taskletStep (k : Kernel α) (d : Dpu α) (t : Tasklet) (more : Bool) : Dpu α :=
  match d.pc t with
  | .start =>
    let d1 := d.move t (if k.bootBarrier.isSome then .bootBarrier else .outer)
    if k.boots t then d1.go else d1
  | .bootBarrier => d.arrive k t .inBootBarrier
  | .inBootBarrier => d
  | .outer => if d.word ≠ 0 then d.move t .wait else d.move t .ret
  | .wait =>
    if d.word ≠ 2 then d.move t .check
    else { d.move t (.at 0 (k.code 0 t)) with round := Function.update d.round t (d.round t + 1) }
  | .check => if d.word = 0 then d.move t .ret else d.move t .wait
  | .at i .nil => d.arrive k t (.inBarrier i)
  | .at i (.op o rest) =>
    if o = .returnIfEmpty ∧ k.empty d.args = true then d.move t .ret else (d.access (d.round t) o).move t (.at i rest)
  | .at i (.loop body rest) => d.move t (.at i (if more then body.seq (.loop body rest) else rest))
  | .at i (.opt body rest) => d.move t (.at i (if more then body.seq rest else rest))
  | .inBarrier _ => d
  | .ret => d

inductive Act (α : Type) where
  | tasklet (t : Tasklet) (more : Bool)
  /-- the host writes arguments or data -/
  | args (a : α)
  /-- the host writes 2 -/
  | restart
  /-- the host writes 0 -/
  | stop

/-- the host leaves the DPU alone unless its word is 1 -/
def step (k : Kernel α) (d : Dpu α) : Act α → Dpu α
  | .tasklet t more => taskletStep k d t more
  | .args a => if d.word = 1 then { d with args := a } else d
  | .restart => if d.word = 1 then d.go else d
  | .stop => if d.word = 1 then { d with word := 0 } else d

def run (k : Kernel α) (d : Dpu α) (acts : List (Act α)) : Dpu α := acts.foldl (step k) d

theorem run_snoc (k : Kernel α) (d : Dpu α) (acts : List (Act α)) (a : Act α) :
    run k d (acts ++ [a]) = step k (run k d acts) a := by
  simp [run, List.foldl_append]

theorem run_append (k : Kernel α) (d : Dpu α) (as bs : List (Act α)) : run k d (as ++ bs) = run k (run k d as) bs :=
  List.foldl_append

/-- a DPU that is booted with its first arguments; its variables are zero -/
def init (a : α) : Dpu α where
  word := 0
  args := a
  deps _ := []
  pc _ := .start
  round _ := 0
  given := []

/-! ## Code -/

/-- the access reads the variable -/
def Op.reads : Op → Var → Prop
  | .read v, w => v = w
  | .update v, w => v = w
  | _, _ => False

/-- the access leaves in the variable nothing of what was there -/
def Op.cleans : Op → Var → Prop
  | .clear v, w => v = w
  | .write v, w => v = w
  | _, _ => False

/-- the access changes what the variable depends on -/
def Op.touches : Op → Var → Prop
  | .clear v, w => v = w
  | .write v, w => v = w
  | .update v, w => v = w
  | _, _ => False

/-- every variable the code reads is among the known ones, or cleaned before by the same tasklet -/
def Code.Safe : (Var → Prop) → Code → Prop
  | _, .nil => True
  | known, .op o rest => (∀ v, o.reads v → known v) ∧ rest.Safe fun v => known v ∨ o.cleans v
  | known, .loop body rest => body.Safe known ∧ rest.Safe known
  | known, .opt body rest => body.Safe known ∧ rest.Safe known

/-- the code cleans the variable, however its data are -/
def Code.Must : Code → Var → Prop
  | .nil, _ => False
  | .op o rest, v => o.cleans v ∨ rest.Must v
  | .loop _ rest, v => rest.Must v
  | .opt _ rest, v => rest.Must v

/-- all accesses of the code are of this kind -/
def Code.All (p : Op → Prop) : Code → Prop
  | .nil => True
  | .op o rest => p o ∧ rest.All p
  | .loop body rest => body.All p ∧ rest.All p
  | .opt body rest => body.All p ∧ rest.All p

theorem Code.Safe.mono {c : Code} {known known' : Var → Prop} (h : c.Safe known) (hk : ∀ v, known v → known' v) :
    c.Safe known' := by
  induction c generalizing known known' with
  | nil => trivial
  | op o rest ih => exact ⟨fun v hv => hk v (h.1 v hv), ih h.2 fun v hv => hv.imp_left (hk v)⟩
  | loop body rest ihb ihr => exact ⟨ihb h.1 hk, ihr h.2 hk⟩
  | opt body rest ihb ihr => exact ⟨ihb h.1 hk, ihr h.2 hk⟩

theorem Code.Safe.seq {a b : Code} {known : Var → Prop} (ha : a.Safe known) (hb : b.Safe known) :
    (a.seq b).Safe known := by
  induction a generalizing known with
  | nil => exact hb
  | op o rest ih => exact ⟨ha.1, ih ha.2 (hb.mono fun v hv => .inl hv)⟩
  | loop body rest _ ihr => exact ⟨ha.1, ihr ha.2 hb⟩
  | opt body rest _ ihr => exact ⟨ha.1, ihr ha.2 hb⟩

theorem Code.Must.seq {a b : Code} {v : Var} (h : b.Must v) : (a.seq b).Must v := by
  induction a with
  | nil => exact h
  | op o rest ih => exact .inr ih
  | loop body rest _ ihr => exact ihr
  | opt body rest _ ihr => exact ihr

theorem Code.All.seq {p : Op → Prop} {a b : Code} (ha : a.All p) (hb : b.All p) : (a.seq b).All p := by
  induction a with
  | nil => exact hb
  | op o rest ih => exact ⟨ha.1, ih ha.2⟩
  | loop body rest _ ihr => exact ⟨ha.1, ihr ha.2⟩
  | opt body rest _ ihr => exact ⟨ha.1, ihr ha.2⟩

end PimOfis.Tasklets
