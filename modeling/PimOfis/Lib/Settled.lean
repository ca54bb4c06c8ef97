/-
Variables that the tasks of a phase all set to one value, each before it reads them (`Phases`).

`κ` gives these variables their values. A task is `Careful` if it sets such a variable to nothing else and reads it only
where it has set it in the same phase. The tasks race for the variable, but every read finds the value of `κ`: the program
does what it does with the reads replaced (`fix`), whose blocks may then be independent.

- `step_fix`, `run_fix`: both programs run in step;
- `store_of_finished_fix`: what is left of a run that has come to its end.
-/
import Mathlib.Tactic
import PimOfis.Lib.Phases

namespace PimOfis.Lib.Phases

variable {L V M : Type} {n : ℕ} (κ : L → Option V)

/-! ## Reads replaced -/

/-- the values that were read, with those of `κ` put back between them -/
def refill : List L → List V → List V
  | [], _ => []
  | l :: ls, vs =>
    match κ l, vs with
    | some c, vs => c :: refill ls vs
    | none, v :: vs => v :: refill ls vs
    | none, [] => []

def Assign.fix (a : Assign L V) : Assign L V :=
  ⟨a.target, a.reads.filter fun l => (κ l).isNone, fun v => a.value (refill κ a.reads v)⟩

def Block.fix : Block L V M → Block L V M
  | .act a => .act (a.fix κ)
  | .locked m as => .locked m (as.map (Assign.fix κ))

def Phase.fix (p : Phase n L V M) : Phase n L V M := fun t => (p t).map (Block.fix κ)

def Todo.fix (d : Todo L V M) : Todo L V M :=
  ⟨d.inside.map fun x => (x.1, x.2.map (Assign.fix κ)), d.blocks.map (Block.fix κ)⟩

def State.fix (s : State n L V M) : State n L V M := ⟨s.store, fun t => (s.todo t).fix κ, s.phases.map (Phase.fix κ)⟩

theorem refill_map (s : L → V) (reads : List L) :
    refill κ reads ((reads.filter fun l => (κ l).isNone).map s) = reads.map fun l => (κ l).getD (s l) := by
  induction reads with
  | nil => rfl
  | cons l ls ih =>
    cases hl : κ l with
    | some c =>
      rw [List.filter_cons_of_neg (by simp [hl])]
      simp only [refill, hl, ih, List.map_cons, Option.getD_some]
    | none =>
      rw [List.filter_cons_of_pos (by simp [hl]), List.map_cons]
      simp only [refill, hl, ih, List.map_cons, Option.getD_none]

/-! ## Careful tasks -/

/-- the variable has the value of `κ`, if it has one there -/
def Known (store : L → V) (l : L) : Prop := ∀ c, κ l = some c → store l = c

/-- assignments that read what is known, or set before, and set variables of `κ` to their values -/
def Careful (known : L → Prop) : List (Assign L V) → Prop
  | [] => True
  | a :: as =>
    (∀ l ∈ a.reads, known l) ∧ (∀ c, κ a.target = some c → ∀ v, a.value v = c) ∧ Careful (fun l => known l ∨ l = a.target) as

/-- what is left of a section, and of the blocks behind it -/
def Todo.assigns (d : Todo L V M) : List (Assign L V) :=
  (match d.inside with
    | some (_, as) => as
    | none => []) ++ d.blocks.flatMap Block.assigns

/-- no task relies on what another has set -/
def Phase.Careful (p : Phase n L V M) : Prop :=
  ∀ t, Phases.Careful κ (fun l => κ l = none) ((p t).flatMap Block.assigns)

structure State.Careful (s : State n L V M) : Prop where
  todo : ∀ t, Phases.Careful κ (Known κ s.store) (s.todo t).assigns
  phases : ∀ p ∈ s.phases, Phase.Careful κ p

variable {κ}

theorem Careful.mono {known known' : L → Prop} {as : List (Assign L V)} (h : Careful κ known as)
    (hle : ∀ l, known l → known' l) : Careful κ known' as := by
  induction as generalizing known known' with
  | nil => trivial
  | cons a as ih =>
    obtain ⟨hreads, htarget, hrest⟩ := h
    exact ⟨fun l hl => hle l (hreads l hl), htarget, ih hrest fun l hl => hl.imp_left (hle l)⟩

variable [DecidableEq L] [DecidableEq M]

omit [DecidableEq M] in
theorem run_fix_assign {a : Assign L V} {store : L → V} (h : ∀ l ∈ a.reads, Known κ store l) :
    (a.fix κ).run store = a.run store := by
  have hvalues : (a.reads.map fun l => (κ l).getD (store l)) = a.reads.map store := by
    refine List.map_congr_left fun l hl => ?_
    cases hc : κ l with
    | none => rfl
    | some c => exact (h l hl c hc).symm
  simp only [Assign.run, Assign.fix, refill_map, hvalues]

omit [DecidableEq M] in
/-- an assignment makes nothing unknown -/
theorem known_run {a : Assign L V} {store : L → V} (h : ∀ c, κ a.target = some c → ∀ v, a.value v = c) {l : L}
    (hl : Known κ store l ∨ l = a.target) : Known κ (a.run store) l := by
  intro c hc
  by_cases heq : l = a.target
  · subst heq
    rw [Assign.run, Function.update_self]
    exact h c hc _
  · rw [Assign.run, Function.update_of_ne heq]
    exact hl.resolve_right heq c hc

/-! ## Steps -/

variable {s : State n L V M} {t : Fin n}

omit [DecidableEq L] [DecidableEq M] in
theorem fix_todo (d : Todo L V M) :
    (fun u => (Function.update s.todo t d u).fix κ) = Function.update (fun u => (s.todo u).fix κ) t (d.fix κ) := by
  funext u
  by_cases hu : u = t
  · subst hu
    rw [Function.update_self, Function.update_self]
  · rw [Function.update_of_ne hu, Function.update_of_ne hu]

omit [DecidableEq L] [DecidableEq M] in
theorem done_fix {d : Todo L V M} : (d.fix κ).Done ↔ d.Done := by
  simp [Todo.Done, Todo.fix]

omit [DecidableEq L] [DecidableEq M] in
theorem free_fix {m : M} : (s.fix κ).Free m ↔ s.Free m := by
  refine forall_congr' fun u => ?_
  simp only [State.fix, Todo.fix, Option.map_map]
  exact Iff.rfl

omit [DecidableEq M] in
/-- a task makes an assignment, the next it has -/
theorem careful_assign (h : s.Careful κ) {a : Assign L V} {d : Todo L V M} (ht : (s.todo t).assigns = a :: d.assigns) :
    State.Careful κ { s with store := a.run s.store, todo := Function.update s.todo t d } ∧
      (a.fix κ).run s.store = a.run s.store := by
  have hmine := h.todo t
  rw [ht] at hmine
  obtain ⟨hreads, htarget, hrest⟩ := hmine
  refine ⟨⟨fun u => ?_, h.phases⟩, run_fix_assign hreads⟩
  simp only
  by_cases hu : u = t
  · subst hu
    rw [Function.update_self]
    exact hrest.mono fun l hl => known_run htarget hl
  · rw [Function.update_of_ne hu]
    exact (h.todo u).mono fun l hl => known_run htarget (Or.inl hl)

omit [DecidableEq L] [DecidableEq M] in
/-- a task makes no assignment -/
theorem careful_todo (h : s.Careful κ) {d : Todo L V M} (ht : (s.todo t).assigns = d.assigns) :
    State.Careful κ { s with todo := Function.update s.todo t d } := by
  refine ⟨fun u => ?_, h.phases⟩
  simp only
  by_cases hu : u = t
  · subst hu
    rw [Function.update_self, ← ht]
    exact h.todo u
  · rw [Function.update_of_ne hu]
    exact h.todo u

/-- **One step** of both programs. -/
theorem step_fix (h : s.Careful κ) (t : Fin n) : (step s t).Careful κ ∧ step (s.fix κ) t = (step s t).fix κ := by
  rcases hd : s.todo t with ⟨inside, bs⟩
  have hfix : (s.fix κ).todo t = Todo.fix κ ⟨inside, bs⟩ := congrArg (Todo.fix κ) hd
  cases inside with
  | some x =>
    obtain ⟨m, as⟩ := x
    cases as with
    | nil =>
      have hcare := careful_todo (t := t) (d := ⟨none, bs⟩) h (by rw [hd]; rfl)
      simp only [Todo.fix, Option.map_some, List.map_nil] at hfix
      simp only [step, hd, hfix]
      refine ⟨hcare, ?_⟩
      simp only [State.fix, fix_todo]
      rfl
    | cons a as =>
      obtain ⟨hcare, hrun⟩ := careful_assign (t := t) (d := ⟨some (m, as), bs⟩) h (by rw [hd]; rfl)
      simp only [Todo.fix, Option.map_some, List.map_cons] at hfix
      simp only [step, hd, hfix]
      refine ⟨hcare, ?_⟩
      simp only [State.fix, fix_todo, hrun]
      rfl
  | none =>
    cases bs with
    | cons b bs =>
      cases b with
      | act a =>
        obtain ⟨hcare, hrun⟩ := careful_assign (t := t) (d := ⟨none, bs⟩) h (by rw [hd]; rfl)
        simp only [Todo.fix, Option.map_none, List.map_cons, Block.fix] at hfix
        simp only [step, hd, hfix]
        refine ⟨hcare, ?_⟩
        simp only [State.fix, fix_todo, hrun]
        rfl
      | locked m as =>
        have hcare := careful_todo (t := t) (d := ⟨some (m, as), bs⟩) h (by rw [hd]; rfl)
        simp only [Todo.fix, Option.map_none, List.map_cons, Block.fix] at hfix
        simp only [step, hd, hfix, free_fix]
        split_ifs with hfree
        · refine ⟨hcare, ?_⟩
          simp only [State.fix, fix_todo]
          rfl
        · exact ⟨h, rfl⟩
    | nil =>
      simp only [Todo.fix, Option.map_none, List.map_nil] at hfix
      cases hp : s.phases with
      | nil =>
        have hnone : (s.fix κ).phases = [] := by rw [State.fix, hp]; rfl
        simp only [step, hd, hfix, hp, hnone]
        exact ⟨h, trivial⟩
      | cons p ps =>
        have hcons : (s.fix κ).phases = p.fix κ :: ps.map (Phase.fix κ) := by rw [State.fix, hp]; rfl
        have hdone : (∀ u, ((s.fix κ).todo u).Done) ↔ ∀ u, (s.todo u).Done := forall_congr' fun u => done_fix
        simp only [step, hd, hfix, hp, hcons, hdone]
        split_ifs with hall
        · refine ⟨⟨fun u => ?_, fun q hq => h.phases q (by rw [hp]; exact List.mem_cons_of_mem p hq)⟩, rfl⟩
          have hcare := h.phases p (by rw [hp]; exact List.mem_cons_self) u
          refine Phases.Careful.mono hcare fun l hl c hc => ?_
          rw [hl] at hc
          cases hc
        · exact ⟨h, rfl⟩

/-- **Any run** of both programs. -/
theorem run_fix (h : s.Careful κ) (acts : List (Fin n)) : (run s acts).Careful κ ∧ run (s.fix κ) acts = (run s acts).fix κ := by
  induction acts generalizing s with
  | nil => exact ⟨h, rfl⟩
  | cons t acts ih =>
    obtain ⟨hcare, hstep⟩ := step_fix h t
    obtain ⟨hcare', hrun⟩ := ih hcare
    refine ⟨hcare', ?_⟩
    rw [run, List.foldl_cons, hstep]
    exact hrun

/-! ## One task after the other -/

omit [DecidableEq M] in
theorem runAssigns_fix {as : List (Assign L V)} {store : L → V} (h : Phases.Careful κ (Known κ store) as) :
    runAssigns (as.map (Assign.fix κ)) store = runAssigns as store := by
  induction as generalizing store with
  | nil => rfl
  | cons a as ih =>
    obtain ⟨hreads, htarget, hrest⟩ := h
    rw [runAssigns, List.map_cons, List.foldl_cons, run_fix_assign hreads]
    exact ih (hrest.mono fun l hl => known_run htarget hl)

omit [DecidableEq M] in
theorem runBlocks_eq (bs : List (Block L V M)) (store : L → V) :
    runBlocks bs store = runAssigns (bs.flatMap Block.assigns) store := by
  rw [runAssigns, List.foldl_flatMap]
  rfl

omit [DecidableEq L] [DecidableEq M] in
theorem assigns_fix (b : Block L V M) : (b.fix κ).assigns = b.assigns.map (Assign.fix κ) := by
  cases b <;> rfl

omit [DecidableEq M] in
theorem phase_run_fix {p : Phase n L V M} (h : p.Careful κ) : (p.fix κ).run = p.run := by
  refine congrArg inOrder (funext fun t => funext fun store => ?_)
  have hknown : ∀ l, κ l = none → Known κ store l := fun l hl c hc => by
    rw [hl] at hc
    cases hc
  rw [Phase.fix, runBlocks_eq, runBlocks_eq, List.flatMap_map, List.flatMap_congr fun b _ => assigns_fix b,
    ← List.map_flatMap, runAssigns_fix ((h t).mono hknown)]

/-- **What a program leaves** whose tasks are careful, in whatever order they run: what they leave one after the other, if
their blocks are independent with the reads of `κ` replaced. -/
theorem store_of_finished_fix {program : List (Phase n L V M)} (hcare : ∀ p ∈ program, p.Careful κ)
    (hok : ∀ p ∈ program, (p.fix κ).Ok) (store : L → V) {acts : List (Fin n)}
    (h : (run (start program store) acts).Finished) :
    (run (start program store) acts).store = runPhases program store := by
  have hphases : ∀ ps : List (Phase n L V M), (∀ p ∈ ps, p.Careful κ) → ∀ store,
      runPhases (ps.map (Phase.fix κ)) store = runPhases ps store := by
    intro ps hps
    induction ps with
    | nil => exact fun _ => rfl
    | cons p ps ih =>
      intro store
      rw [List.map_cons, runPhases_cons, runPhases_cons, phase_run_fix (hps p List.mem_cons_self)]
      exact ih (fun q hq => hps q (List.mem_cons_of_mem p hq)) _
  rw [← hphases program hcare]
  have hcareful : (start program store).Careful κ := ⟨fun _ => trivial, hcare⟩
  have hrun := (run_fix hcareful acts).2
  have hstart : (start program store).fix κ = start (program.map (Phase.fix κ)) store := rfl
  rw [hstart] at hrun
  have hfin : (run (start (program.map (Phase.fix κ)) store) acts).Finished := by
    rw [hrun]
    exact ⟨by rw [State.fix, h.1]; rfl, fun t => done_fix.mpr (h.2 t)⟩
  have hstore := store_of_finished (fun p hp => ?_) store hfin
  · rw [← hstore, hrun]
    rfl
  · obtain ⟨q, hq, rfl⟩ := List.mem_map.mp hp
    exact hok q hq

end PimOfis.Lib.Phases
