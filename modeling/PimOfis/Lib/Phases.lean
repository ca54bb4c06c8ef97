/-
Programs of `n` tasks that share variables, cut into phases by barriers.

In a phase every task has a list of blocks. A block is one assignment, or the assignments of a section under a mutex. The
tasks step one assignment at a time, in any order; a section is entered only while no task is inside one of the same mutex;
the next phase begins when every task has come to the end of its list.

An assignment names the variable it sets and the variables it reads. Two of them are apart when neither sets what the other
sets or reads; two sections of one mutex may also commute as a whole. If the blocks of different tasks are apart, the order
of the tasks makes no difference: a phase leaves what the tasks leave one after the other.

- `step_value`, `run_value`: no step changes what the program will leave in the end;
- `store_of_finished`: what a run has left that has come to its end;
- `exists_finish`: every run can be continued to its end.
-/
import Mathlib.Tactic

namespace PimOfis.Lib.Phases

variable {L V M : Type} {n : ℕ}

/-! ## Programs -/

/-- a variable is set to a value made from some variables -/
structure Assign (L V : Type) where
  target : L
  reads : List L
  value : List V → V

def Assign.run [DecidableEq L] (a : Assign L V) (s : L → V) : L → V := Function.update s a.target (a.value (a.reads.map s))

/-- an assignment, or the assignments of a section under a mutex -/
inductive Block (L V M : Type) where
  | act (a : Assign L V)
  | locked (m : M) (as : List (Assign L V))

def Block.assigns : Block L V M → List (Assign L V)
  | .act a => [a]
  | .locked _ as => as

/-- the assignments one after the other -/
def runAssigns [DecidableEq L] (as : List (Assign L V)) (s : L → V) : L → V := as.foldl (fun s a => a.run s) s

def Block.run [DecidableEq L] (b : Block L V M) (s : L → V) : L → V := runAssigns b.assigns s

def runBlocks [DecidableEq L] (bs : List (Block L V M)) (s : L → V) : L → V := bs.foldl (fun s b => b.run s) s

theorem runBlocks_append [DecidableEq L] (bs cs : List (Block L V M)) (s : L → V) :
    runBlocks (bs ++ cs) s = runBlocks cs (runBlocks bs s) := List.foldl_append

/-- a variable that no assignment sets -/
theorem runBlocks_keep [DecidableEq L] {bs : List (Block L V M)} {l : L} (h : ∀ b ∈ bs, ∀ a ∈ b.assigns, a.target ≠ l)
    (s : L → V) : runBlocks bs s l = s l := by
  have hassigns : ∀ (as : List (Assign L V)), (∀ a ∈ as, a.target ≠ l) → ∀ s, runAssigns as s l = s l := by
    intro as
    induction as with
    | nil => exact fun _ _ => rfl
    | cons a as ih =>
      intro has s
      rw [runAssigns, List.foldl_cons]
      refine (ih (fun a' ha' => has a' (List.mem_cons_of_mem a ha')) _).trans ?_
      exact Function.update_of_ne (has a List.mem_cons_self).symm _ _
  induction bs generalizing s with
  | nil => rfl
  | cons b bs ih =>
    rw [runBlocks, List.foldl_cons]
    refine (ih (fun c hc => h c (List.mem_cons_of_mem b hc)) _).trans ?_
    exact hassigns b.assigns (h b List.mem_cons_self) s

/-- what the tasks do in a phase -/
abbrev Phase (n : ℕ) (L V M : Type) := Fin n → List (Block L V M)

/-- the tasks one after the other -/
def inOrder (f : Fin n → (L → V) → L → V) (s : L → V) : L → V := (List.finRange n).foldl (fun s t => f t s) s

def Phase.run [DecidableEq L] (p : Phase n L V M) : (L → V) → L → V := inOrder fun t => runBlocks (p t)

def runPhases [DecidableEq L] (ps : List (Phase n L V M)) (s : L → V) : L → V := ps.foldl (fun s p => p.run s) s

theorem runPhases_nil [DecidableEq L] (s : L → V) : runPhases ([] : List (Phase n L V M)) s = s := rfl

theorem runPhases_cons [DecidableEq L] (p : Phase n L V M) (ps : List (Phase n L V M)) (s : L → V) :
    runPhases (p :: ps) s = runPhases ps (p.run s) := rfl

theorem runPhases_append [DecidableEq L] (ps qs : List (Phase n L V M)) (s : L → V) :
    runPhases (ps ++ qs) s = runPhases qs (runPhases ps s) := List.foldl_append

/-! ## The machine -/

/-- where a task stands: inside a section, with these assignments left, and the blocks behind it -/
structure Todo (L V M : Type) where
  inside : Option (M × List (Assign L V))
  blocks : List (Block L V M)

structure State (n : ℕ) (L V M : Type) where
  store : L → V
  todo : Fin n → Todo L V M
  /-- the phases that have not begun -/
  phases : List (Phase n L V M)

def start (program : List (Phase n L V M)) (store : L → V) : State n L V M := ⟨store, fun _ => ⟨none, []⟩, program⟩

/-- no task is inside a section of this mutex -/
def State.Free (s : State n L V M) (m : M) : Prop := ∀ t, (s.todo t).inside.map Prod.fst ≠ some m

instance [DecidableEq M] (s : State n L V M) (m : M) : Decidable (s.Free m) := by unfold State.Free; infer_instance

/-- the task waits at the barrier -/
def Todo.Done (d : Todo L V M) : Prop := d.inside.isNone = true ∧ d.blocks.isEmpty = true

instance (d : Todo L V M) : Decidable d.Done := by unfold Todo.Done; infer_instance

theorem todo_of_done {d : Todo L V M} (h : d.Done) : d = ⟨none, []⟩ := by
  obtain ⟨inside, blocks⟩ := d
  obtain ⟨rfl⟩ := Option.isNone_iff_eq_none.mp h.1
  obtain ⟨rfl⟩ := List.isEmpty_iff.mp h.2
  rfl

def State.Finished (s : State n L V M) : Prop := s.phases = [] ∧ ∀ t, (s.todo t).Done

variable [DecidableEq L] [DecidableEq M]

/-- task `t` moves -/
def step (s : State n L V M) (t : Fin n) : State n L V M :=
  match s.todo t with
  | ⟨some (m, a :: as), bs⟩ => { s with store := a.run s.store, todo := Function.update s.todo t ⟨some (m, as), bs⟩ }
  | ⟨some (_, []), bs⟩ => { s with todo := Function.update s.todo t ⟨none, bs⟩ }
  | ⟨none, .act a :: bs⟩ => { s with store := a.run s.store, todo := Function.update s.todo t ⟨none, bs⟩ }
  | ⟨none, .locked m as :: bs⟩ =>
    if s.Free m then { s with todo := Function.update s.todo t ⟨some (m, as), bs⟩ } else s
  | ⟨none, []⟩ =>
    match s.phases with
    | p :: ps => if ∀ u, (s.todo u).Done then ⟨s.store, fun u => ⟨none, p u⟩, ps⟩ else s
    | [] => s

def run (s : State n L V M) (acts : List (Fin n)) : State n L V M := acts.foldl step s

theorem run_append (s : State n L V M) (as bs : List (Fin n)) : run s (as ++ bs) = run (run s as) bs := List.foldl_append

/-! ## Assignments that are apart -/

/-- neither sets what the other sets or reads -/
def Assign.Apart (a b : Assign L V) : Prop := a.target ≠ b.target ∧ a.target ∉ b.reads ∧ b.target ∉ a.reads

omit [DecidableEq L] [DecidableEq M] in
theorem Assign.Apart.symm {a b : Assign L V} (h : a.Apart b) : b.Apart a := ⟨h.1.symm, h.2.2, h.2.1⟩

omit [DecidableEq M] in
theorem map_update_of_notMem {reads : List L} {l : L} (h : l ∉ reads) (s : L → V) (v : V) :
    reads.map (Function.update s l v) = reads.map s :=
  List.map_congr_left fun _ hl' => Function.update_of_ne (ne_of_mem_of_not_mem hl' h) v s

omit [DecidableEq M] in
theorem Assign.Apart.commute {a b : Assign L V} (h : a.Apart b) : Function.Commute a.run b.run := by
  intro s
  simp only [Assign.run, map_update_of_notMem h.2.1, map_update_of_notMem h.2.2]
  exact Function.update_comm h.1.symm _ _ s

/-- all assignments of one are apart from those of the other -/
def AllApart (as bs : List (Assign L V)) : Prop := ∀ a ∈ as, ∀ b ∈ bs, a.Apart b

/-- sections of one mutex, which commute as a whole -/
def SameLock (b c : Block L V M) : Prop :=
  (∃ m as as', b = .locked m as ∧ c = .locked m as') ∧ Function.Commute b.run c.run

/-- one assignment, made by both -/
def SameAct (b c : Block L V M) : Prop := ∃ a, b = .act a ∧ c = .act a

def Independent (b c : Block L V M) : Prop := AllApart b.assigns c.assigns ∨ SameLock b c ∨ SameAct b c

omit [DecidableEq M] in
theorem commute_runAssigns {f : (L → V) → L → V} {bs : List (Assign L V)} (h : ∀ b ∈ bs, Function.Commute f b.run) :
    Function.Commute f (runAssigns bs) := by
  induction bs with
  | nil => exact fun s => rfl
  | cons b bs ih =>
    intro s
    change f (runAssigns bs (b.run s)) = runAssigns bs (b.run (f s))
    rw [ih fun c hc => h c (List.mem_cons_of_mem b hc), h b List.mem_cons_self]

omit [DecidableEq M] in
theorem AllApart.commute {as bs : List (Assign L V)} (h : AllApart as bs) :
    Function.Commute (runAssigns as) (runAssigns bs) :=
  commute_runAssigns fun b hb => (commute_runAssigns fun a ha => ((h a ha b hb).commute).symm).symm

omit [DecidableEq M] in
theorem Independent.commute {b c : Block L V M} (h : Independent b c) : Function.Commute b.run c.run := by
  rcases h with h | h | ⟨a, rfl, rfl⟩
  · exact h.commute
  · exact h.2
  · exact Function.Commute.refl _

omit [DecidableEq M] in
theorem commute_runBlocks {f : (L → V) → L → V} {bs : List (Block L V M)} (h : ∀ b ∈ bs, Function.Commute f b.run) :
    Function.Commute f (runBlocks bs) := by
  induction bs with
  | nil => exact fun s => rfl
  | cons b bs ih =>
    intro s
    change f (runBlocks bs (b.run s)) = runBlocks bs (b.run (f s))
    rw [ih fun c hc => h c (List.mem_cons_of_mem b hc), h b List.mem_cons_self]

/-! ## One task first -/

omit [DecidableEq L] [DecidableEq M] in
theorem commute_inOrder {f : (L → V) → L → V} {g : Fin n → (L → V) → L → V} (h : ∀ t, Function.Commute f (g t)) :
    Function.Commute f (inOrder g) := by
  have hlist : ∀ ts : List (Fin n), Function.Commute f fun s => ts.foldl (fun s t => g t s) s := by
    intro ts
    induction ts with
    | nil => exact fun s => rfl
    | cons t ts ih =>
      intro s
      simp only [List.foldl_cons]
      rw [ih, h t]
  exact hlist _

omit [DecidableEq L] [DecidableEq M] in
/-- what a task does first can be done before all others -/
theorem inOrder_first {f : (L → V) → L → V} {g : Fin n → (L → V) → L → V} {t : Fin n} {r : (L → V) → L → V}
    (ht : ∀ s, g t s = r (f s)) (h : ∀ u, u ≠ t → Function.Commute f (g u)) (s : L → V) :
    inOrder g s = inOrder (Function.update g t r) (f s) := by
  have hlist : ∀ ts : List (Fin n), ts.Nodup → ∀ s,
      (t ∈ ts → ts.foldl (fun s u => g u s) s = ts.foldl (fun s u => Function.update g t r u s) (f s)) ∧
      (t ∉ ts → ts.foldl (fun s u => Function.update g t r u s) s = ts.foldl (fun s u => g u s) s) := by
    intro ts hnodup
    induction ts with
    | nil => exact fun s => ⟨fun hmem => absurd hmem List.not_mem_nil, fun _ => rfl⟩
    | cons u ts ih =>
      intro s
      obtain ⟨hu, hts⟩ := List.nodup_cons.mp hnodup
      simp only [List.foldl_cons]
      by_cases hut : u = t
      · subst hut
        refine ⟨fun _ => ?_, fun hmem => absurd List.mem_cons_self hmem⟩
        rw [Function.update_self, (ih hts _).2 hu, ht]
      · refine ⟨fun hmem => ?_, fun hmem => ?_⟩
        · have hmem' := (List.mem_cons.mp hmem).resolve_left (Ne.symm hut)
          rw [Function.update_of_ne hut, (ih hts _).1 hmem', h u hut]
        · rw [Function.update_of_ne hut, (ih hts _).2 fun hmem' => hmem (List.mem_cons_of_mem u hmem')]
  exact (hlist _ (List.nodup_finRange n) s).1 (List.mem_finRange t)

omit [DecidableEq M] in
/-- a variable that no task changes -/
theorem phase_keep {p : Phase n L V M} {l : L} (h : ∀ u s, runBlocks (p u) s l = s l) (s : L → V) : p.run s l = s l := by
  have hlist : ∀ ts : List (Fin n), ∀ s, ts.foldl (fun s u => runBlocks (p u) s) s l = s l := by
    intro ts
    induction ts with
    | nil => exact fun _ => rfl
    | cons u ts ih =>
      intro s
      rw [List.foldl_cons, ih, h]
  exact hlist _ s

omit [DecidableEq M] in
/-- a variable that one task sets, whatever it finds -/
theorem phase_of_one {p : Phase n L V M} {t : Fin n} {l : L} {v : V} (ht : ∀ s, runBlocks (p t) s l = v)
    (h : ∀ u, u ≠ t → ∀ s, runBlocks (p u) s l = s l) (s : L → V) : p.run s l = v := by
  have hlist : ∀ ts : List (Fin n), ∀ s, (t ∈ ts ∨ s l = v) → ts.foldl (fun s u => runBlocks (p u) s) s l = v := by
    intro ts
    induction ts with
    | nil => exact fun s hs => hs.resolve_left List.not_mem_nil
    | cons u ts ih =>
      intro s hs
      refine ih _ ?_
      by_cases hu : u = t
      · subst hu
        exact Or.inr (ht s)
      · exact hs.imp (fun hmem => (List.mem_cons.mp hmem).resolve_left (Ne.symm hu)) (h u hu s).trans
  exact hlist _ s (Or.inl (List.mem_finRange t))

/-! ## What a program will leave -/

/-- what is left of a section -/
def Todo.finishInside (d : Todo L V M) : (L → V) → L → V :=
  match d.inside with
  | some (_, as) => runAssigns as
  | none => id

/-- what the program will leave, if open sections are finished first, and then the tasks run one after the other -/
def State.value (s : State n L V M) : L → V :=
  runPhases s.phases
    (inOrder (fun t => runBlocks (s.todo t).blocks) (inOrder (fun t => (s.todo t).finishInside) s.store))

/-- the blocks of different tasks do not get in each other's way -/
def Phase.Ok (p : Phase n L V M) : Prop := ∀ t u, t ≠ u → ∀ b ∈ p t, ∀ c ∈ p u, Independent b c

structure State.Ok (s : State n L V M) : Prop where
  phases : ∀ p ∈ s.phases, p.Ok
  blocks : Phase.Ok fun t => (s.todo t).blocks
  insides : ∀ t u, t ≠ u → ∀ m as m' bs, (s.todo t).inside = some (m, as) → (s.todo u).inside = some (m', bs) →
    m ≠ m' ∧ AllApart as bs
  mixed : ∀ t u, t ≠ u → ∀ m as, (s.todo t).inside = some (m, as) → ∀ b ∈ (s.todo u).blocks,
    AllApart as b.assigns ∨ ∃ bs, b = .locked m bs

/-! ## Steps -/

variable {s : State n L V M} {t : Fin n}

omit [DecidableEq M] in
theorem commute_finishInside {f : (L → V) → L → V} {d : Todo L V M}
    (h : ∀ m as, d.inside = some (m, as) → Function.Commute f (runAssigns as)) : Function.Commute f d.finishInside := by
  cases hd : d.inside with
  | none =>
    intro s
    simp only [Todo.finishInside, hd, id]
  | some x =>
    simp only [Todo.finishInside, hd]
    exact h x.1 x.2 hd

omit [DecidableEq M] in
/-- the blocks and the open sections of the tasks, when task `t` moves -/
theorem value_of_todo (d : Todo L V M) :
    (fun u => runBlocks (Function.update s.todo t d u).blocks) =
        Function.update (fun u => runBlocks (s.todo u).blocks) t (runBlocks d.blocks) ∧
      (fun u => (Function.update s.todo t d u).finishInside) =
        Function.update (fun u => (s.todo u).finishInside) t d.finishInside := by
  constructor <;> funext u <;> by_cases hu : u = t
  · subst hu
    rw [Function.update_self, Function.update_self]
  · rw [Function.update_of_ne hu, Function.update_of_ne hu]
  · subst hu
    rw [Function.update_self, Function.update_self]
  · rw [Function.update_of_ne hu, Function.update_of_ne hu]

omit [DecidableEq M] in
/-- one assignment inside a section -/
theorem value_inside (h : s.Ok) {m : M} {a : Assign L V} {as : List (Assign L V)} {bs : List (Block L V M)}
    (ht : s.todo t = ⟨some (m, a :: as), bs⟩) :
    State.value { s with store := a.run s.store, todo := Function.update s.todo t ⟨some (m, as), bs⟩ } = s.value := by
  obtain ⟨hblocks, hinsides⟩ := value_of_todo (s := s) (t := t) ⟨some (m, as), bs⟩
  simp only [State.value]
  rw [hblocks, hinsides]
  have hsame : Function.update (fun u => runBlocks (s.todo u).blocks) t (runBlocks bs) = fun u => runBlocks (s.todo u).blocks := by
    rw [Function.update_eq_self_iff, ht]
  rw [hsame]
  refine congrArg (fun store => runPhases s.phases
    (inOrder (fun u => runBlocks (s.todo u).blocks) store)) ?_
  refine (inOrder_first (g := fun u => (s.todo u).finishInside) (fun store => ?_) (fun u hu => ?_) s.store).symm
  · simp only [ht, Todo.finishInside]
    rfl
  · refine commute_finishInside fun m' bs' hinside => commute_runAssigns fun b hb => ?_
    exact ((h.insides t u hu.symm m _ m' bs' (by rw [ht]) hinside).2 a List.mem_cons_self b hb).commute

omit [DecidableEq M] in
/-- an assignment outside -/
theorem value_act (h : s.Ok) {a : Assign L V} {bs : List (Block L V M)} (ht : s.todo t = ⟨none, .act a :: bs⟩) :
    State.value { s with store := a.run s.store, todo := Function.update s.todo t ⟨none, bs⟩ } = s.value := by
  obtain ⟨hblocks, hinsides⟩ := value_of_todo (s := s) (t := t) ⟨none, bs⟩
  simp only [State.value]
  rw [hblocks, hinsides]
  have hsame : Function.update (fun u => (s.todo u).finishInside) t (Todo.finishInside ⟨none, bs⟩) =
      fun u => (s.todo u).finishInside := by
    rw [Function.update_eq_self_iff, ht]
    rfl
  rw [hsame]
  refine congrArg (fun store => runPhases s.phases store) ?_
  have hfirst := inOrder_first (g := fun u => runBlocks (s.todo u).blocks) (f := a.run) (t := t) (r := runBlocks bs)
    (fun store => by simp only [ht]; rfl) (fun u hu => ?_) (inOrder (fun u => (s.todo u).finishInside) s.store)
  · rw [hfirst]
    refine congrArg _ (commute_inOrder (fun u => ?_) s.store).symm
    by_cases hu : u = t
    · subst hu
      simp only [ht, Todo.finishInside]
      exact fun store => rfl
    · refine commute_finishInside fun m bs' hinside => commute_runAssigns fun b hb => ?_
      rcases h.mixed u t hu m bs' hinside (.act a) (by rw [ht]; exact List.mem_cons_self) with hapart | ⟨as, has⟩
      · exact (hapart b hb a (List.mem_singleton.mpr rfl)).symm.commute
      · cases has
  · refine commute_runBlocks fun b hb => ?_
    exact (h.blocks t u hu.symm (.act a) (by simp only [ht]; exact List.mem_cons_self) b hb).commute

omit [DecidableEq M] in
/-- the beginning of a section -/
theorem value_enter (h : s.Ok) {m : M} {as : List (Assign L V)} {bs : List (Block L V M)}
    (ht : s.todo t = ⟨none, .locked m as :: bs⟩) (hfree : s.Free m) :
    State.value { s with todo := Function.update s.todo t ⟨some (m, as), bs⟩ } = s.value := by
  obtain ⟨hblocks, hinsides⟩ := value_of_todo (s := s) (t := t) ⟨some (m, as), bs⟩
  simp only [State.value]
  rw [hblocks, hinsides]
  refine congrArg (fun store => runPhases s.phases store) ?_
  -- no open section of another task is of this mutex
  have hapart : ∀ u, Function.Commute (runAssigns as) (s.todo u).finishInside := by
    intro u
    by_cases hu : u = t
    · subst hu
      simp only [ht, Todo.finishInside]
      exact fun store => rfl
    · refine commute_finishInside fun m' bs' hinside => ?_
      rcases h.mixed u t hu m' bs' hinside (.locked m as) (by rw [ht]; exact List.mem_cons_self) with hall | ⟨as', has'⟩
      · exact hall.commute.symm
      · cases has'
        exact absurd (congrArg (Option.map Prod.fst) hinside) (hfree u)
  have hfirst := inOrder_first (g := fun u => runBlocks (s.todo u).blocks) (f := runAssigns as) (t := t) (r := runBlocks bs)
    (fun store => by simp only [ht]; rfl) (fun u hu => ?_) (inOrder (fun u => (s.todo u).finishInside) s.store)
  · rw [hfirst, commute_inOrder hapart s.store]
    refine congrArg _ ?_
    have hinner := inOrder_first (g := Function.update (fun u => (s.todo u).finishInside) t (Todo.finishInside ⟨some (m, as), bs⟩))
      (f := runAssigns as) (t := t) (r := id) (fun store => by rw [Function.update_self]; rfl)
      (fun u hu => by rw [Function.update_of_ne hu]; exact hapart u) s.store
    rw [hinner, Function.update_idem]
    refine congrArg (fun g => inOrder g _) ?_
    rw [Function.update_eq_self_iff, ht]
    rfl
  · refine commute_runBlocks fun b hb => ?_
    exact (h.blocks t u hu.symm (.locked m as) (by simp only [ht]; exact List.mem_cons_self) b hb).commute

omit [DecidableEq M] in
/-- a task goes on with blocks it had, and inside what it was inside of -/
theorem ok_of_todo (h : s.Ok) {d : Todo L V M} (store : L → V) (hblocks : ∀ b ∈ d.blocks, b ∈ (s.todo t).blocks)
    (hinside : ∀ u, u ≠ t → ∀ m as, d.inside = some (m, as) →
      (∀ m' bs, (s.todo u).inside = some (m', bs) → m ≠ m' ∧ AllApart as bs) ∧
      ∀ b ∈ (s.todo u).blocks, AllApart as b.assigns ∨ ∃ bs, b = .locked m bs) :
    State.Ok { s with store := store, todo := Function.update s.todo t d } := by
  have hmem : ∀ u, ∀ b ∈ (Function.update s.todo t d u).blocks, b ∈ (s.todo u).blocks := by
    intro u b hb
    by_cases hut : u = t
    · subst hut
      rw [Function.update_self] at hb
      exact hblocks b hb
    · rwa [Function.update_of_ne hut] at hb
  have hopen : ∀ u m as, (Function.update s.todo t d u).inside = some (m, as) →
      u = t ∧ d.inside = some (m, as) ∨ u ≠ t ∧ (s.todo u).inside = some (m, as) := by
    intro u m as hu
    by_cases hut : u = t
    · subst hut
      rw [Function.update_self] at hu
      exact Or.inl ⟨rfl, hu⟩
    · rw [Function.update_of_ne hut] at hu
      exact Or.inr ⟨hut, hu⟩
  refine ⟨h.phases, fun u v huv b hb c hc => h.blocks u v huv b (hmem u b hb) c (hmem v c hc), ?_, ?_⟩
  · intro u v huv m as m' bs hu hv
    rcases hopen u m as hu with ⟨rfl, hu'⟩ | ⟨hut, hu'⟩
    · rcases hopen v m' bs hv with ⟨rfl, -⟩ | ⟨hvt, hv'⟩
      · exact absurd rfl huv
      · exact (hinside v hvt m as hu').1 m' bs hv'
    · rcases hopen v m' bs hv with ⟨rfl, hv'⟩ | ⟨-, hv'⟩
      · obtain ⟨hne, hall⟩ := (hinside u hut m' bs hv').1 m as hu'
        exact ⟨hne.symm, fun a ha b hb => (hall b hb a ha).symm⟩
      · exact h.insides u v huv m as m' bs hu' hv'
  · intro u v huv m as hu b hb
    rcases hopen u m as hu with ⟨rfl, hu'⟩ | ⟨-, hu'⟩
    · exact (hinside v huv.symm m as hu').2 b (hmem v b hb)
    · exact h.mixed u v huv m as hu' b (hmem v b hb)

omit [DecidableEq L] [DecidableEq M] in
theorem inOrder_id (store : L → V) : inOrder (fun _ : Fin n => id) store = store :=
  List.foldl_fixed' (fun _ => rfl) _

/-- **One step** changes nothing in what the program will leave, and keeps the tasks out of each other's way. -/
theorem step_value (h : s.Ok) (t : Fin n) : (step s t).Ok ∧ (step s t).value = s.value := by
  unfold step
  split
  · rename_i m a as bs ht
    refine ⟨ok_of_todo h _ (fun b hb => by rw [ht]; exact hb) (fun u hu m' as' hinside => ?_), value_inside h ht⟩
    obtain ⟨rfl, rfl⟩ := Prod.mk.inj (Option.some.inj hinside)
    refine ⟨fun m' bs' hu' => ?_, fun b hb => ?_⟩
    · obtain ⟨hne, hall⟩ := h.insides t u hu.symm m _ m' bs' (by rw [ht]) hu'
      exact ⟨hne, fun a' ha' => hall a' (List.mem_cons_of_mem a ha')⟩
    · exact (h.mixed t u hu.symm m _ (by rw [ht]) b hb).imp_left fun hall a' ha' => hall a' (List.mem_cons_of_mem a ha')
  · rename_i m bs ht
    refine ⟨ok_of_todo h _ (fun b hb => by rw [ht]; exact hb) (fun u hu m' as' hinside => by cases hinside), ?_⟩
    obtain ⟨hblocks, hinsides⟩ := value_of_todo (s := s) (t := t) ⟨none, bs⟩
    simp only [State.value]
    rw [hblocks, hinsides, Function.update_eq_self_iff.mpr (by rw [ht]), Function.update_eq_self_iff.mpr (by rw [ht]; rfl)]
  · rename_i a bs ht
    refine ⟨ok_of_todo h _ (fun b hb => ?_) (fun u hu m' as' hinside => by cases hinside), value_act h ht⟩
    rw [ht]
    exact List.mem_cons_of_mem _ hb
  · rename_i m as bs ht
    split_ifs with hfree
    · refine ⟨ok_of_todo h _ (fun b hb => by rw [ht]; exact List.mem_cons_of_mem _ hb) (fun u hu m' as' hinside => ?_),
        value_enter h ht hfree⟩
      obtain ⟨rfl, rfl⟩ := Prod.mk.inj (Option.some.inj hinside)
      have hmine : Block.locked m as ∈ (s.todo t).blocks := by
        rw [ht]
        exact List.mem_cons_self
      refine ⟨fun m' bs' hu' => ?_, fun b hb => ?_⟩
      · have hne : m ≠ m' := fun heq => hfree u (by rw [hu', heq]; rfl)
        rcases h.mixed u t hu m' bs' hu' _ hmine with hall | ⟨as', has'⟩
        · exact ⟨hne, fun a ha b hb => (hall b hb a ha).symm⟩
        · cases has'
          exact absurd rfl hne
      · rcases h.blocks t u hu.symm _ hmine b hb with hall | ⟨⟨m', as', bs', heq, rfl⟩, -⟩ | ⟨a, heq, -⟩
        · exact Or.inl hall
        · cases heq
          exact Or.inr ⟨bs', rfl⟩
        · cases heq
    · exact ⟨h, rfl⟩
  · split
    · rename_i ht _ p ps hps
      split_ifs with hdone
      · have hnone : ∀ u, s.todo u = ⟨none, []⟩ := fun u => todo_of_done (hdone u)
        have hok : p.Ok := h.phases p (by rw [hps]; exact List.mem_cons_self)
        refine ⟨⟨fun q hq => h.phases q (by rw [hps]; exact List.mem_cons_of_mem p hq), hok,
          fun u v _ m as m' bs hu => (by cases hu), fun u v _ m as hu => (by cases hu)⟩, ?_⟩
        have hidle : (fun u => runBlocks (s.todo u).blocks) = fun _ : Fin n => (id : (L → V) → L → V) := by
          funext u
          rw [hnone u]
          rfl
        have hclosed : (fun u => (s.todo u).finishInside) = fun _ : Fin n => (id : (L → V) → L → V) := by
          funext u
          rw [hnone u]
          rfl
        simp only [State.value]
        rw [hidle, hclosed, inOrder_id, inOrder_id, hps]
        change runPhases ps (inOrder (fun u => runBlocks (p u)) (inOrder (fun _ => id) s.store)) = _
        rw [inOrder_id]
        rfl
      · exact ⟨h, rfl⟩
    · exact ⟨h, rfl⟩

/-- **Any run** leaves this unchanged. -/
theorem run_value (h : s.Ok) (acts : List (Fin n)) : (run s acts).Ok ∧ (run s acts).value = s.value := by
  induction acts generalizing s with
  | nil => exact ⟨h, rfl⟩
  | cons t acts ih =>
    obtain ⟨hok, hvalue⟩ := step_value h t
    obtain ⟨hok', hvalue'⟩ := ih hok
    exact ⟨hok', hvalue'.trans hvalue⟩

/-- **What a program leaves**, in whatever order its tasks run, is what they leave one after the other in each phase. -/
theorem store_of_finished {program : List (Phase n L V M)} (hok : ∀ p ∈ program, p.Ok) (store : L → V) {acts : List (Fin n)}
    (h : (run (start program store) acts).Finished) :
    (run (start program store) acts).store = runPhases program store := by
  have hstart : (start program store).Ok := by
    refine ⟨hok, fun t u _ b hb => absurd hb List.not_mem_nil, fun t u _ m as m' bs ht => ?_, fun t u _ m as ht => ?_⟩
    · cases ht
    · cases ht
  have hidle : (fun _ : Fin n => runBlocks ([] : List (Block L V M))) = fun _ => id := rfl
  have hvalue := (run_value hstart acts).2
  obtain ⟨hphases, hdone⟩ := h
  have hleft : (run (start program store) acts).value = (run (start program store) acts).store := by
    simp only [State.value, hphases, fun t => todo_of_done (hdone t)]
    change inOrder (fun _ => id) (inOrder (fun _ => id) _) = _
    rw [inOrder_id, inOrder_id]
  rw [← hleft, hvalue]
  change runPhases program (inOrder (fun _ => id) (inOrder (fun _ => id) store)) = _
  rw [inOrder_id, inOrder_id]

/-! ## The end of a program -/

/-- the steps a block takes -/
def Block.size : Block L V M → ℕ
  | .act _ => 1
  | .locked _ as => as.length + 2

def Todo.size (d : Todo L V M) : ℕ :=
  (match d.inside with
    | some (_, as) => as.length + 1
    | none => 0) + (d.blocks.map Block.size).sum

def State.size (s : State n L V M) : ℕ :=
  ∑ t, (s.todo t).size + (s.phases.map fun p => ∑ t, ((p t).map Block.size).sum + 1).sum

omit [DecidableEq L] [DecidableEq M] in
theorem size_of_todo {d : Todo L V M} (store : L → V) (h : d.size < (s.todo t).size) :
    State.size { s with store := store, todo := Function.update s.todo t d } < s.size := by
  refine Nat.add_lt_add_right (Finset.sum_lt_sum (fun u _ => ?_) ⟨t, Finset.mem_univ t, ?_⟩) _
  · simp only
    by_cases hu : u = t
    · subst hu
      rw [Function.update_self]
      exact h.le
    · rw [Function.update_of_ne hu]
  · simp only
    rw [Function.update_self]
    exact h

/-- some task can move -/
theorem exists_smaller (hn : 0 < n) (h : ¬s.Finished) : ∃ t, (step s t).size < s.size := by
  by_cases hinside : ∃ t, (s.todo t).inside ≠ none
  · -- a task inside a section
    obtain ⟨t, ht⟩ := hinside
    refine ⟨t, ?_⟩
    rcases hd : s.todo t with ⟨inside, bs⟩
    rw [hd] at ht
    cases inside with
    | none => exact absurd rfl ht
    | some x =>
      obtain ⟨m, as⟩ := x
      cases as with
      | nil =>
        simp only [step, hd]
        refine size_of_todo s.store ?_
        simp only [hd, Todo.size, List.length_nil]
        omega
      | cons a as =>
        simp only [step, hd]
        refine size_of_todo _ ?_
        simp only [hd, Todo.size, List.length_cons]
        omega
  · have hnone : ∀ t, (s.todo t).inside = none := fun t => not_not.mp fun hne => hinside ⟨t, hne⟩
    by_cases hblocks : ∃ t, (s.todo t).blocks ≠ []
    · -- no task is inside, so that every mutex is free
      obtain ⟨t, ht⟩ := hblocks
      refine ⟨t, ?_⟩
      have hopen := hnone t
      rcases hd : s.todo t with ⟨inside, bs⟩
      rw [hd] at ht hopen
      obtain rfl : inside = none := hopen
      cases bs with
      | nil => exact absurd rfl ht
      | cons b bs =>
        cases b with
        | act a =>
          simp only [step, hd]
          refine size_of_todo _ ?_
          simp only [hd, Todo.size, Block.size, List.map_cons, List.sum_cons]
          omega
        | locked m as =>
          have hfree : s.Free m := fun u hu => by
            rw [hnone u] at hu
            cases hu
          simp only [step, hd, if_pos hfree]
          refine size_of_todo s.store ?_
          simp only [hd, Todo.size, Block.size, List.map_cons, List.sum_cons]
          omega
    · -- all wait at the barrier
      have hdone : ∀ t, (s.todo t).Done := fun t => by
        have hempty : (s.todo t).blocks = [] := not_not.mp fun hne => hblocks ⟨t, hne⟩
        exact ⟨by rw [hnone t]; rfl, by rw [hempty]; rfl⟩
      cases hp : s.phases with
      | nil => exact absurd ⟨hp, hdone⟩ h
      | cons p ps =>
        refine ⟨⟨0, hn⟩, ?_⟩
        have hstep : step s ⟨0, hn⟩ = ⟨s.store, fun u => ⟨none, p u⟩, ps⟩ := by
          simp only [step, todo_of_done (hdone ⟨0, hn⟩), hp, if_pos hdone]
        rw [hstep]
        simp only [State.size, hp, fun t => todo_of_done (hdone t), Todo.size, List.map_cons, List.sum_cons, List.map_nil,
          List.sum_nil, Nat.zero_add, Finset.sum_const_zero]
        omega

/-- **The end** can be reached from every state, for any number of tasks. -/
theorem exists_finish (hn : 0 < n) (s : State n L V M) : ∃ acts, (run s acts).Finished := by
  induction hsize : s.size using Nat.strong_induction_on generalizing s with
  | _ size ih =>
    by_cases hfin : s.Finished
    · exact ⟨[], hfin⟩
    · obtain ⟨t, ht⟩ := exists_smaller hn hfin
      obtain ⟨acts, hacts⟩ := ih _ (hsize ▸ ht) (step s t) rfl
      exact ⟨t :: acts, hacts⟩

end PimOfis.Lib.Phases
