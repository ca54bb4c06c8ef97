/-
The address of the state word (`state_var` of `dpu_memory.c`): one word address for the whole process, whatever ranks and
programs it drives.

A polling call looks the symbol `OFIS_dpu_state` up if the variable is 0; a setter uses the variable as it is. The lookup
goes over the whole set it is given, which must have one common program, and its status is dropped: where it fails, what
stands in the uninitialised `symbol` is taken (an input of the model). What a call does at its word is the matter of the
modules `Finished` and `State`; here the addresses are followed through loads and calls on any ranks.

Results:
- `step_inv`: once a polling call has been made the variable is the common word;
- `run_right`: in every run whose steps meet `StepOk` each call accesses the state word of the program loaded on its rank;
- `setter_before_poll`, `second_program`: two ways to miss it.
-/
import Mathlib.Tactic
import PimOfis.Lib.Index

namespace PimOfis.Api.StateVar

/-! ## Model -/

/-- `struct dpu_program_t`: the object, and the address of its symbol `OFIS_dpu_state` in the 64 KB of WRAM, if it has one -/
structure DpuProgram where
  pointer : ℕ
  stateAddress : Option (Fin (2 ^ 16))
deriving DecidableEq, Repr

/-- the WRAM word of the symbol -/
def DpuProgram.stateWord (p : DpuProgram) : Option ℕ := p.stateAddress.map fun a => a.val >>> 2

/-- a `dpu_set_t` of ranks: the first one, and the others -/
structure DpuSet where
  rank : ℕ
  others : List ℕ
deriving DecidableEq, Repr

def DpuSet.ranks (s : DpuSet) : List ℕ := s.rank :: s.others

inductive LookupError where
  | differentDpuPrograms
  | noProgramLoaded
  | unknownSymbol
deriving DecidableEq, Repr

/-- the loop of `dpu_get_common_program`, `check_dpu_program` for the DPUs of one rank at a time -/
def checkPrograms (loaded : ℕ → Option DpuProgram) : List ℕ → Option DpuProgram → Except LookupError (Option DpuProgram)
  | [], theProgram => .ok theProgram
  | r :: rs, theProgram =>
    let theProgram := if theProgram = none then loaded r else theProgram
    if theProgram ≠ loaded r then .error .differentDpuPrograms else checkPrograms loaded rs theProgram

/-- `dpu_get_common_program` -/
def dpuGetCommonProgram (loaded : ℕ → Option DpuProgram) (set : DpuSet) : Except LookupError DpuProgram :=
  match checkPrograms loaded set.ranks none with
  | .error e => .error e
  | .ok none => .error .noProgramLoaded
  | .ok (some p) => .ok p

/-- `dpu_get_symbol` for `OFIS_dpu_state` -/
def dpuGetSymbol (p : DpuProgram) : Except LookupError ℕ :=
  match p.stateAddress with
  | none => .error .unknownSymbol
  | some a => .ok a.val

/-- `OFIS_init_set_var`, its status dropped; `junk` is the uninitialised `symbol.address` -/
def ofisInitSetVar (loaded : ℕ → Option DpuProgram) (set : DpuSet) (junk : ℕ) : ℕ :=
  match dpuGetCommonProgram loaded set with
  | .error _ => junk >>> 2
  | .ok p =>
    match dpuGetSymbol p with
    | .error _ => junk >>> 2
    | .ok address => address >>> 2

structure Process where
  stateVar : ℕ
  /-- the program loaded on each rank -/
  loaded : ℕ → Option DpuProgram
  /-- a polling call has been made -/
  polled : Bool

inductive Event where
  | load (ranks : List ℕ) (program : DpuProgram)
  | setStateDpu (set : DpuSet)
  | setStateIg (set : DpuSet)
  | setStateRank (set : DpuSet)
  | getFinishedDpu (set : DpuSet) (junk : ℕ)
  | getFinishedIg (set : DpuSet) (junk : ℕ)
  | getFinishedRank (set : DpuSet) (junk : ℕ)
deriving DecidableEq, Repr

/-- `if(state_var == 0) OFIS_init_set_var(rank, &state_var, "OFIS_dpu_state")` -/
def Process.checkStateVar (s : Process) (set : DpuSet) (junk : ℕ) : Process :=
  { s with stateVar := if s.stateVar = 0 then ofisInitSetVar s.loaded set junk else s.stateVar, polled := true }

def step (s : Process) : Event → Process
  | .load ranks program => { s with loaded := fun r => if r ∈ ranks then some program else s.loaded r }
  | .setStateDpu _ => s
  | .setStateIg _ => s
  | .setStateRank _ => s
  | .getFinishedDpu set junk => s.checkStateVar set junk
  | .getFinishedIg set junk => s.checkStateVar set junk
  | .getFinishedRank set junk => s.checkStateVar set junk

def run (s : Process) (events : List Event) : Process := events.foldl step s

theorem run_snoc (s : Process) (events : List Event) (e : Event) : run s (events ++ [e]) = step (run s events) e := by
  simp [run, List.foldl_append]

/-- the ranks and WRAM words of the `ufi_wram_write` and `ufi_wram_read` calls an event makes; the address is a `u16`. Each
polling call reads eight times, `OFIS_get_finished_rank` on every rank of its set. -/
def accesses (s : Process) : Event → List (ℕ × ℕ)
  | .load _ _ => []
  | .setStateDpu set => [(set.rank, s.stateVar % 2 ^ 16)]
  | .setStateIg set => [(set.rank, s.stateVar % 2 ^ 16)]
  | .setStateRank set => [(set.rank, s.stateVar % 2 ^ 16)]
  | .getFinishedDpu set junk => List.replicate 8 (set.rank, (s.checkStateVar set junk).stateVar % 2 ^ 16)
  | .getFinishedIg set junk => List.replicate 8 (set.rank, (s.checkStateVar set junk).stateVar % 2 ^ 16)
  | .getFinishedRank set junk =>
    set.ranks.flatMap fun r => List.replicate 8 (r, (s.checkStateVar set junk).stateVar % 2 ^ 16)

/-- every word accessed is that of the symbol in the program now loaded on its rank -/
def Right (s : Process) (e : Event) : Prop :=
  ∀ x ∈ accesses s e, ∃ p, s.loaded x.1 = some p ∧ p.stateWord = some x.2

/-! ## The condition -/

/-- the program now loaded on the rank has its state word at `w` -/
def HasWord (s : Process) (w r : ℕ) : Prop := ∃ p, s.loaded r = some p ∧ p.stateWord = some w

/-- the ranks of the set that have a program have the same one -/
def Common (s : Process) (set : DpuSet) : Prop := ∃ p, dpuGetCommonProgram s.loaded set = .ok p

/-- a polling call on the ranks `rs` of its set: their programs have the word `w`; the first one, which does the lookup,
is on a set with a common program -/
def PollOk (w : ℕ) (s : Process) (set : DpuSet) (rs : List ℕ) : Prop :=
  (∀ r ∈ rs, HasWord s w r) ∧ (s.polled = false ∨ w = 0 → Common s set)

/-- a setter: the program of its rank has the word `w`, and a polling call has come before -/
def SetOk (w : ℕ) (s : Process) (set : DpuSet) : Prop := HasWord s w set.rank ∧ (s.polled = true ∨ w = 0)

/-- the condition on the state before an event, `w` being one word for the whole run -/
def StepOk (w : ℕ) (s : Process) : Event → Prop
  | .load _ _ => True
  | .setStateDpu set => SetOk w s set
  | .setStateIg set => SetOk w s set
  | .setStateRank set => SetOk w s set
  | .getFinishedDpu set _ => PollOk w s set [set.rank]
  | .getFinishedIg set _ => PollOk w s set [set.rank]
  | .getFinishedRank set _ => PollOk w s set set.ranks

/-! ## Proof -/

/-- a common program is that of the first rank, if that has one -/
theorem checkPrograms_some {loaded : ℕ → Option DpuProgram} {p : DpuProgram} {rs : List ℕ} {q : Option DpuProgram}
    (h : checkPrograms loaded rs (some p) = .ok q) : q = some p := by
  induction rs with
  | nil => exact (Except.ok.inj h).symm
  | cons r rs ih =>
    simp only [checkPrograms, reduceCtorEq, if_false] at h
    split_ifs at h
    exact ih h

/-- the lookup over a set with a common program gives the word of its first rank -/
theorem ofisInitSetVar_common {s : Process} {set : DpuSet} {w : ℕ} (hc : Common s set) (hw : HasWord s w set.rank)
    (junk : ℕ) : ofisInitSetVar s.loaded set junk = w := by
  obtain ⟨p, hp⟩ := hc
  obtain ⟨q, hq, hqw⟩ := hw
  have hpq : p = q := by
    unfold dpuGetCommonProgram DpuSet.ranks checkPrograms at hp
    simp only [if_true, hq, ne_eq, not_true_eq_false, if_false] at hp
    cases hch : checkPrograms s.loaded set.others (some q) with
    | error e =>
      rw [hch] at hp
      exact absurd hp nofun
    | ok x =>
      rw [hch, checkPrograms_some hch] at hp
      exact (Except.ok.inj hp).symm
  subst hpq
  unfold DpuProgram.stateWord at hqw
  obtain ⟨a, ha, rfl⟩ := Option.map_eq_some_iff.mp hqw
  simp only [ofisInitSetVar, hp, dpuGetSymbol, ha]

theorem stateWord_lt {p : DpuProgram} {w : ℕ} (h : p.stateWord = some w) : w < 2 ^ 16 := by
  obtain ⟨a, -, rfl⟩ := Option.map_eq_some_iff.mp h
  exact lt_of_le_of_lt (Nat.shiftRight_le a.val 2) a.isLt

/-- **The invariant.** The variable is 0 until the first polling call, and the common word from then on. -/
def Inv (w : ℕ) (s : Process) : Prop := s.stateVar = if s.polled = true then w else 0

theorem poll_inv {w : ℕ} {s : Process} (h : Inv w s) {set : DpuSet} {rs : List ℕ} (hr : set.rank ∈ rs)
    (hok : PollOk w s set rs) (junk : ℕ) : Inv w (s.checkStateVar set junk) := by
  have hlook := fun hc => ofisInitSetVar_common (hok.2 hc) (hok.1 _ hr) junk
  simp only [Inv, Process.checkStateVar, if_true]
  cases hp : s.polled with
  | false =>
    have h0 : s.stateVar = 0 := by simpa only [Inv, hp, Bool.false_eq_true, if_false] using h
    rw [if_pos h0, hlook (.inl hp)]
  | true =>
    have hw : s.stateVar = w := by simpa only [Inv, hp, if_true] using h
    split_ifs with h0
    · exact hlook (.inr (hw.symm.trans h0))
    · exact hw

theorem step_inv {w : ℕ} {s : Process} (h : Inv w s) {e : Event} (hok : StepOk w s e) : Inv w (step s e) := by
  cases e with
  | load ranks program => exact h
  | setStateDpu set => exact h
  | setStateIg set => exact h
  | setStateRank set => exact h
  | getFinishedDpu set junk => exact poll_inv h (List.mem_singleton.mpr rfl) hok junk
  | getFinishedIg set junk => exact poll_inv h (List.mem_singleton.mpr rfl) hok junk
  | getFinishedRank set junk => exact poll_inv h List.mem_cons_self hok junk

theorem run_inv {w : ℕ} {s : Process} (h : Inv w s) (events : List Event)
    (hok : ∀ before e after, events = before ++ e :: after → StepOk w (run s before) e) : Inv w (run s events) := by
  induction events using List.reverseRecOn with
  | nil => exact h
  | append_singleton events e ih =>
    rw [run_snoc]
    refine step_inv (ih fun before e' after he => ?_) (hok events e [] rfl)
    exact hok before e' (after ++ [e]) (by rw [he, List.append_assoc]; rfl)

/-- a call that finds the common word in the variable accesses it on ranks whose program has it -/
theorem right_of_word {w : ℕ} {s : Process} {r : ℕ} (hw : HasWord s w r) {v : ℕ} (hv : v = w) :
    ∃ p, s.loaded r = some p ∧ p.stateWord = some (v % 2 ^ 16) := by
  obtain ⟨p, hp, hpw⟩ := hw
  exact ⟨p, hp, by rw [hv, Nat.mod_eq_of_lt (stateWord_lt hpw), hpw]⟩

theorem setter_right {w : ℕ} {s : Process} (h : Inv w s) {set : DpuSet} (hok : SetOk w s set) :
    ∀ x ∈ [(set.rank, s.stateVar % 2 ^ 16)], ∃ p, s.loaded x.1 = some p ∧ p.stateWord = some x.2 := by
  intro x hx
  rw [List.mem_singleton.mp hx]
  refine right_of_word hok.1 ?_
  rcases hok.2 with hp | rfl
  · simpa only [Inv, hp, if_true] using h
  · simpa only [Inv, ite_self] using h

theorem poll_right {w : ℕ} {s : Process} (h : Inv w s) {set : DpuSet} {rs : List ℕ} (hr : set.rank ∈ rs)
    (hok : PollOk w s set rs) (junk : ℕ) :
    ∀ x ∈ rs.flatMap fun r => List.replicate 8 (r, (s.checkStateVar set junk).stateVar % 2 ^ 16),
      ∃ p, s.loaded x.1 = some p ∧ p.stateWord = some x.2 := by
  intro x hx
  obtain ⟨r, hrs, hx⟩ := List.mem_flatMap.mp hx
  rw [List.eq_of_mem_replicate hx]
  exact right_of_word (hok.1 r hrs) (poll_inv h hr hok junk)

theorem step_right {w : ℕ} {s : Process} (h : Inv w s) {e : Event} (hok : StepOk w s e) : Right s e := by
  cases e with
  | load ranks program => exact nofun
  | setStateDpu set => exact setter_right h hok
  | setStateIg set => exact setter_right h hok
  | setStateRank set => exact setter_right h hok
  | getFinishedDpu set junk =>
    have hr : set.rank ∈ [set.rank] := List.mem_singleton.mpr rfl
    exact fun x hx => poll_right h hr hok junk x (List.mem_flatMap.mpr ⟨set.rank, hr, hx⟩)
  | getFinishedIg set junk =>
    have hr : set.rank ∈ [set.rank] := List.mem_singleton.mpr rfl
    exact fun x hx => poll_right h hr hok junk x (List.mem_flatMap.mpr ⟨set.rank, hr, hx⟩)
  | getFinishedRank set junk => exact poll_right h List.mem_cons_self hok junk

/-- a process that has made no call yet, whatever is loaded -/
def Process.start (loaded : ℕ → Option DpuProgram) : Process := ⟨0, loaded, false⟩

/-- **The right word over runs.** In a run of loads and calls whose steps all meet `StepOk` for one word, every call
accesses, on each of its ranks, the state word of the program loaded there. -/
theorem run_right (loaded : ℕ → Option DpuProgram) (w : ℕ) (events : List Event)
    (hok : ∀ before e after, events = before ++ e :: after → StepOk w (run (Process.start loaded) before) e) :
    ∀ before e after, events = before ++ e :: after → Right (run (Process.start loaded) before) e := by
  intro before e after he
  have hstart : Inv w (Process.start loaded) := rfl
  refine step_right (run_inv hstart before fun before' e' after' he' => ?_) (hok before e after he)
  exact hok before' e' (after' ++ e :: after) (by rw [he, he', List.append_assoc]; rfl)

/-- a program with its state word at `word` -/
def programAt (word : Fin (2 ^ 14)) : DpuProgram := ⟨word.val, some ⟨4 * word.val, by omega⟩⟩

/-- one program on two ranks, a poll of both, then a start of rank 1 alone -/
theorem run_right_two_ranks :
    Right (run (Process.start fun _ => none) [.load [0, 1] (programAt 16), .getFinishedRank ⟨0, [1]⟩ 0]) (.setStateIg ⟨1, []⟩) := by
  refine run_right (fun _ => none) 16 [.load [0, 1] (programAt 16), .getFinishedRank ⟨0, [1]⟩ 0, .setStateIg ⟨1, []⟩] ?_
    [.load [0, 1] (programAt 16), .getFinishedRank ⟨0, [1]⟩ 0] (.setStateIg ⟨1, []⟩) [] rfl
  intro before e after h
  rcases before with _ | ⟨b1, _ | ⟨b2, _ | ⟨b3, before⟩⟩⟩
  · obtain ⟨rfl, -⟩ : Event.load [0, 1] (programAt 16) = e ∧ _ := by simpa using h
    trivial
  · obtain ⟨rfl, rfl, -⟩ : Event.load [0, 1] (programAt 16) = b1 ∧ Event.getFinishedRank ⟨0, [1]⟩ 0 = e ∧ _ := by
      simpa using h
    refine ⟨fun r hr => ?_, fun _ => ⟨programAt 16, by decide⟩⟩
    simp only [DpuSet.ranks, List.mem_cons, List.not_mem_nil, or_false] at hr
    rcases hr with rfl | rfl
    · exact ⟨programAt 16, rfl, rfl⟩
    · exact ⟨programAt 16, rfl, rfl⟩
  · obtain ⟨rfl, rfl, rfl, -⟩ : Event.load [0, 1] (programAt 16) = b1 ∧ Event.getFinishedRank ⟨0, [1]⟩ 0 = b2 ∧
        Event.setStateIg ⟨1, []⟩ = e ∧ _ := by simpa using h
    exact ⟨⟨programAt 16, rfl, rfl⟩, .inl rfl⟩
  · simp at h

/-- a setter before any polling call takes the variable as it is and writes word 0 -/
theorem setter_before_poll :
    ¬ Right (run (Process.start fun _ => none) [.load [0] (programAt 16)]) (.setStateIg ⟨0, []⟩) := by
  intro h
  obtain ⟨p, hp, hw⟩ := h (0, 0) (List.mem_singleton.mpr rfl)
  obtain rfl : programAt 16 = p := Option.some.inj hp
  exact absurd hw (by decide)

/-- a program loaded after the first poll is polled at the word of the one before -/
theorem second_program :
    ¬ Right (run (Process.start fun _ => none) [.load [0] (programAt 16), .getFinishedIg ⟨0, []⟩ 0, .load [0] (programAt 32)])
      (.getFinishedIg ⟨0, []⟩ 0) := by
  intro h
  obtain ⟨p, hp, hw⟩ := h (0, 16) (List.mem_cons_self)
  obtain rfl : programAt 32 = p := Option.some.inj hp
  exact absurd hw (by decide)

end PimOfis.Api.StateVar
