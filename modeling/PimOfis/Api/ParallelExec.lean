/-
Running the host threads (`OFIS_parallel_exec` of `dpu_runner.c` and the `main` of a host program behind it).

`OFIS_parallel_exec` creates `nr_thread` threads, thread `i` with `args[i]`, and joins them. When `pthread_create` fails it
returns at once. The threads created before are then neither joined nor stopped, and `main`, which drops the result, goes on
to `dpu_free` and to the shared arrays.

A run is any sequence of steps of the caller and of the threads. The results of `pthread_create` are a parameter.

Results:
- `run_inv`: what every run keeps, by the place the caller is at;
- `run_creates`: the caller alone on its way to the first failure;
- `leavesNone_iff`: no run leaves a thread behind exactly if no creation fails, or the very first one.
-/
import Mathlib.Tactic

namespace PimOfis.Api.ParallelExec

/-! ## Model -/

/-- a thread by the index of its argument in `args` -/
structure Worker where
  arg : ℕ
  finished : Bool
deriving DecidableEq, Repr

/-- where the caller is: at iteration `i` of the first or the second loop, back in `main`, or behind its `dpu_free` -/
inductive Pc where
  | create (i : ℕ)
  | join (i : ℕ)
  | returned
  | freed
deriving DecidableEq, Repr

/-- `threads` in the order of creation; `joined` are the joins that came back; `usedFreed` is set by a thread that uses the
shared data after they are freed -/
structure St where
  pc : Pc
  ret : ℤ
  threads : List Worker
  joined : ℕ
  usedFreed : Bool
deriving DecidableEq, Repr

inductive Act where
  | main
  | work (t : ℕ)
  | finish (t : ℕ)
deriving DecidableEq, Repr

/-- one step of the caller; a join of a thread that has not finished waits -/
def mainStep (nrThread : ℕ) (pthreadCreate : ℕ → ℤ) (s : St) : St :=
  match s.pc with
  | .create i =>
    if i < nrThread then
      if pthreadCreate i ≠ 0 then { s with pc := .returned, ret := pthreadCreate i }
      else { s with pc := .create (i + 1), ret := pthreadCreate i, threads := s.threads ++ [⟨i, false⟩] }
    else { s with pc := .join 0 }
  | .join i =>
    if i < nrThread then
      match s.threads[i]? with
      | some w => if w.finished then { s with pc := .join (i + 1), joined := s.joined + 1 } else s
      | none => s
    else { s with pc := .returned }
  | .returned => { s with pc := .freed }
  | .freed => s

/-- `exec_func` of thread `t` at work on its argument, the shared arrays and the DPUs -/
def workStep (t : ℕ) (s : St) : St :=
  match s.threads[t]? with
  | some w => if w.finished then s else { s with usedFreed := s.usedFreed || decide (s.pc = .freed) }
  | none => s

def finishStep (t : ℕ) (s : St) : St := { s with threads := s.threads.modify t fun w => { w with finished := true } }

def step (nrThread : ℕ) (pthreadCreate : ℕ → ℤ) (s : St) : Act → St
  | .main => mainStep nrThread pthreadCreate s
  | .work t => workStep t s
  | .finish t => finishStep t s

def start : St := ⟨.create 0, 0, [], 0, false⟩

def run (nrThread : ℕ) (pthreadCreate : ℕ → ℤ) (acts : List Act) : St :=
  acts.foldl (step nrThread pthreadCreate) start

/-- `OFIS_parallel_exec` has come back -/
def St.Back (s : St) : Prop := s.pc = .returned ∨ s.pc = .freed

instance (s : St) : Decidable s.Back := by unfold St.Back; infer_instance

/-- **No thread left behind.** Once `OFIS_parallel_exec` is back, every thread it created has finished, no `args[i]` went to
two of them, the result is 0 exactly if all threads were created and joined, and nobody uses what the caller has freed. -/
structure LeavesNone (nrThread : ℕ) (s : St) : Prop where
  finished : s.Back → ∀ w ∈ s.threads, w.finished = true
  once : s.Back → (s.threads.map Worker.arg).Nodup
  result : s.Back → (s.ret = 0 ↔ s.threads.map Worker.arg = List.range nrThread ∧ s.joined = nrThread)
  safe : s.usedFreed = false

/-! ## What every run keeps -/

section Runs

variable {n : ℕ} {create : ℕ → ℤ} {s : St}

/-- the threads are those of the first `k` arguments, in order -/
def Upto (k : ℕ) (s : St) : Prop := s.threads.map Worker.arg = List.range k

def AllFinished (s : St) : Prop := ∀ w ∈ s.threads, w.finished = true

/-- what holds at each place of the caller; back with a failure, there is no thread at all -/
def At (n : ℕ) (create : ℕ → ℤ) (s : St) : Pc → Prop
  | .create i => i ≤ n ∧ Upto i s ∧ s.ret = 0 ∧ s.joined = 0 ∧ ∀ k < i, create k = 0
  | .join i => i ≤ n ∧ Upto n s ∧ s.ret = 0 ∧ s.joined = i ∧ ∀ w ∈ s.threads.take i, w.finished = true
  | _ => (Upto n s ∧ s.ret = 0 ∧ s.joined = n ∨ Upto 0 s ∧ s.ret ≠ 0 ∧ 0 < n) ∧ AllFinished s

structure Inv (n : ℕ) (create : ℕ → ℤ) (s : St) : Prop where
  place : At n create s s.pc
  safe : s.usedFreed = false

theorem Upto.length {k : ℕ} (h : Upto k s) : s.threads.length = k := by
  have hlen := congrArg List.length h
  rwa [List.length_map, List.length_range] at hlen

theorem Upto.push {k : ℕ} (h : Upto k s) : (s.threads ++ [(⟨k, false⟩ : Worker)]).map Worker.arg = List.range (k + 1) := by
  rw [List.map_append, h, List.range_succ]
  rfl

theorem allFinished_of_upto_zero (h : Upto 0 s) : AllFinished s := by
  rw [AllFinished, List.eq_nil_of_length_eq_zero h.length]
  exact fun w hw => absurd hw List.not_mem_nil

theorem start_inv : Inv n create start := by
  refine ⟨⟨Nat.zero_le n, rfl, rfl, rfl, ?_⟩, rfl⟩
  intro k hk
  exact absurd hk (Nat.not_lt_zero k)

/-- the join of a thread that has finished -/
theorem finished_take_succ {i : ℕ} {w : Worker} (h : ∀ w ∈ s.threads.take i, w.finished = true) (hw : s.threads[i]? = some w)
    (hfin : w.finished = true) : ∀ w ∈ s.threads.take (i + 1), w.finished = true := by
  intro v hv
  rw [List.take_add_one, hw, List.mem_append] at hv
  rcases hv with hv | hv
  · exact h v hv
  · rw [Option.toList_some, List.mem_singleton] at hv
    rwa [hv]

/-- the caller's step; the only creation that may fail is the first one -/
theorem mainStep_inv (hc : (∀ i < n, create i = 0) ∨ create 0 ≠ 0) (h : Inv n create s) :
    Inv n create (mainStep n create s) := by
  obtain ⟨hplace, hsafe⟩ := h
  unfold mainStep
  cases hpc : s.pc with
  | create i =>
    rw [hpc] at hplace
    obtain ⟨hi, hup, hret, hjoined, hzero⟩ := hplace
    dsimp only
    split_ifs with hlt hfail
    · have hi0 : i = 0 := by
        rcases hc with hc | hc
        · exact absurd (hc i hlt) hfail
        · exact Nat.eq_zero_of_not_pos fun hpos => hc (hzero 0 hpos)
      subst hi0
      exact ⟨⟨.inr ⟨hup, hfail, hlt⟩, allFinished_of_upto_zero hup⟩, hsafe⟩
    · have hok : create i = 0 := not_not.mp hfail
      refine ⟨⟨hlt, hup.push, hok, hjoined, ?_⟩, hsafe⟩
      intro k hk
      rcases Nat.lt_succ_iff_lt_or_eq.mp hk with hk | rfl
      · exact hzero k hk
      · exact hok
    · have hin : i = n := le_antisymm hi (not_lt.mp hlt)
      subst hin
      refine ⟨⟨Nat.zero_le i, hup, hret, hjoined, ?_⟩, hsafe⟩
      intro w hw
      exact absurd hw List.not_mem_nil
  | join i =>
    rw [hpc] at hplace
    obtain ⟨hi, hup, hret, hjoined, hfin⟩ := hplace
    dsimp only
    split_ifs with hlt
    · cases hw : s.threads[i]? with
      | none => exact ⟨by rw [hpc]; exact ⟨hi, hup, hret, hjoined, hfin⟩, hsafe⟩
      | some w =>
        dsimp only
        split_ifs with hdone
        · exact ⟨⟨hlt, hup, hret, congrArg (· + 1) hjoined, finished_take_succ hfin hw hdone⟩, hsafe⟩
        · exact ⟨by rw [hpc]; exact ⟨hi, hup, hret, hjoined, hfin⟩, hsafe⟩
    · have hin : i = n := le_antisymm hi (not_lt.mp hlt)
      subst hin
      rw [List.take_of_length_le hup.length.le] at hfin
      exact ⟨⟨.inl ⟨hup, hret, hjoined⟩, hfin⟩, hsafe⟩
  | returned =>
    rw [hpc] at hplace
    exact ⟨hplace, hsafe⟩
  | freed => exact ⟨hplace, hsafe⟩

/-- a thread that has not finished finds the data still there -/
theorem workStep_inv (t : ℕ) (h : Inv n create s) : Inv n create (workStep t s) := by
  unfold workStep
  cases hw : s.threads[t]? with
  | none => exact h
  | some w =>
    dsimp only
    split_ifs with hfin
    · exact h
    · refine ⟨h.place, ?_⟩
      have hnot : s.pc ≠ .freed := by
        intro hpc
        have hplace := h.place
        rw [hpc] at hplace
        exact hfin (hplace.2 w (List.mem_of_getElem? hw))
      rw [h.safe, decide_eq_false hnot]
      rfl

theorem finishStep_args (t : ℕ) (s : St) : (finishStep t s).threads.map Worker.arg = s.threads.map Worker.arg := by
  apply List.ext_getElem
  · simp [finishStep]
  · intro i h1 h2
    simp only [finishStep, List.getElem_map, List.getElem_modify]
    split_ifs <;> rfl

/-- a thread that ends leaves those alone that have finished -/
theorem finished_modify (t : ℕ) {ws : List Worker} (h : ∀ w ∈ ws, w.finished = true) :
    ∀ w ∈ ws.modify t (fun w => { w with finished := true }), w.finished = true := by
  intro w hw
  obtain ⟨i, hi, rfl⟩ := List.getElem_of_mem hw
  rw [List.getElem_modify]
  split_ifs
  · rfl
  · exact h _ (List.getElem_mem _)

theorem finishStep_inv (t : ℕ) (h : Inv n create s) : Inv n create (finishStep t s) := by
  refine ⟨?_, h.safe⟩
  have hplace := h.place
  have hup : ∀ k, Upto k s → Upto k (finishStep t s) := fun k hk => (finishStep_args t s).trans hk
  change At n create (finishStep t s) s.pc
  cases hpc : s.pc with
  | create i =>
    rw [hpc] at hplace
    exact ⟨hplace.1, hup i hplace.2.1, hplace.2.2⟩
  | join i =>
    rw [hpc] at hplace
    obtain ⟨hi, hall, hret, hjoined, hfin⟩ := hplace
    refine ⟨hi, hup n hall, hret, hjoined, ?_⟩
    rw [finishStep, List.take_modify]
    exact finished_modify t hfin
  | returned =>
    rw [hpc] at hplace
    exact ⟨hplace.1.imp (fun h => ⟨hup n h.1, h.2⟩) (fun h => ⟨hup 0 h.1, h.2⟩), finished_modify t hplace.2⟩
  | freed =>
    rw [hpc] at hplace
    exact ⟨hplace.1.imp (fun h => ⟨hup n h.1, h.2⟩) (fun h => ⟨hup 0 h.1, h.2⟩), finished_modify t hplace.2⟩

theorem step_inv (hc : (∀ i < n, create i = 0) ∨ create 0 ≠ 0) (a : Act) (h : Inv n create s) :
    Inv n create (step n create s a) := by
  cases a with
  | main => exact mainStep_inv hc h
  | work t => exact workStep_inv t h
  | finish t => exact finishStep_inv t h

/-- **Every run.** Whatever the order of steps, the state is as its place says. -/
theorem run_inv (hc : (∀ i < n, create i = 0) ∨ create 0 ≠ 0) (acts : List Act) : Inv n create (run n create acts) := by
  unfold run
  induction acts using List.reverseRecOn with
  | nil => exact start_inv
  | append_singleton acts a ih =>
    rw [List.foldl_append]
    exact step_inv hc a ih

theorem Inv.leavesNone (h : Inv n create s) : LeavesNone n s := by
  have hback : s.Back → (Upto n s ∧ s.ret = 0 ∧ s.joined = n ∨ Upto 0 s ∧ s.ret ≠ 0 ∧ 0 < n) ∧ AllFinished s := by
    intro hb
    have hplace := h.place
    rcases hb with hb | hb <;> rwa [hb] at hplace
  refine ⟨fun hb => (hback hb).2, fun hb => ?_, fun hb => ?_, h.safe⟩
  · rcases (hback hb).1 with ⟨hup, -⟩ | ⟨hup, -⟩ <;> exact hup.symm ▸ List.nodup_range
  · rcases (hback hb).1 with ⟨hup, hret, hjoined⟩ | ⟨hup, hret, hpos⟩
    · exact iff_of_true hret ⟨hup, hjoined⟩
    · refine iff_of_false hret ?_
      rintro ⟨hall, -⟩
      have hlen := congrArg List.length (hup.symm.trans hall)
      rw [List.length_range, List.length_range] at hlen
      exact absurd hlen hpos.ne

end Runs

/-! ## The first failure -/

section Failure

variable {n : ℕ} {create : ℕ → ℤ}

/-- the caller alone, as far as no creation fails -/
theorem run_creates {k : ℕ} (hk : k ≤ n) (hok : ∀ i < k, create i = 0) :
    run n create (List.replicate k .main) = ⟨.create k, 0, (List.range k).map fun i => ⟨i, false⟩, 0, false⟩ := by
  induction k with
  | zero => rfl
  | succ k ih =>
    have hprev := ih (Nat.le_of_succ_le hk) fun i hi => hok i (Nat.lt_succ_of_lt hi)
    rw [List.replicate_succ', run, List.foldl_append, ← run, hprev]
    simp only [List.foldl_cons, List.foldl_nil, step, mainStep, if_pos (Nat.lt_of_succ_le hk), hok k (Nat.lt_succ_self k),
      ne_eq, not_true_eq_false, if_false, List.range_succ, List.map_append, List.map_cons, List.map_nil]

/-- a creation that fails after another one: the caller is back and the first thread still runs -/
theorem run_fails {k : ℕ} (hk : k < n) (hok : ∀ i < k, create i = 0) (hfail : create k ≠ 0) :
    run n create (List.replicate k .main ++ [.main])
      = ⟨.returned, create k, (List.range k).map fun i => ⟨i, false⟩, 0, false⟩ := by
  rw [run, List.foldl_append, ← run, run_creates hk.le hok]
  simp only [List.foldl_cons, List.foldl_nil, step, mainStep, if_pos hk, if_pos hfail]

end Failure

/-! ## Main result -/

/-- **No thread is left behind exactly if no creation fails after another one.** With no failure, and with a failure of the
very first creation, every order of steps is fine; with any other failure there is an order of steps in which the caller is
back while thread 0 runs. -/
theorem leavesNone_iff (nrThread : ℕ) (pthreadCreate : ℕ → ℤ) :
    (∀ acts, LeavesNone nrThread (run nrThread pthreadCreate acts)) ↔
      (∀ i < nrThread, pthreadCreate i = 0) ∨ pthreadCreate 0 ≠ 0 := by
  refine ⟨fun h => ?_, fun hc acts => (run_inv hc acts).leavesNone⟩
  by_contra hnot
  rw [not_or, not_not] at hnot
  obtain ⟨hsome, hzero⟩ := hnot
  -- the first creation that fails
  have hex : ∃ k, k < nrThread ∧ pthreadCreate k ≠ 0 := by
    simpa only [not_forall, exists_prop] using hsome
  obtain ⟨hlt, hfail⟩ := Nat.find_spec hex
  have hok : ∀ i < Nat.find hex, pthreadCreate i = 0 := by
    intro i hi
    by_contra hne
    exact Nat.find_min hex hi ⟨hi.trans hlt, hne⟩
  have hpos : 0 < Nat.find hex := by
    apply Nat.pos_of_ne_zero
    intro h0
    rw [h0] at hfail
    exact hfail hzero
  have hrun := h (List.replicate (Nat.find hex) .main ++ [.main])
  rw [run_fails hlt hok hfail] at hrun
  have hfin := hrun.finished (.inl rfl) ⟨0, false⟩ (List.mem_map.mpr ⟨0, List.mem_range.mpr hpos, rfl⟩)
  exact absurd hfin Bool.false_ne_true

/-- two threads of which the second cannot be created: thread 0 uses the shared arrays after `main` has freed them -/
theorem secondFails_leaks :
    ¬ LeavesNone 2 (run 2 (fun i => if i = 1 then 11 else 0) [.main, .main, .main, .work 0]) := by
  intro h
  exact absurd h.safe (by decide)

end PimOfis.Api.ParallelExec
