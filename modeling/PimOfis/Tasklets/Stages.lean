/-
The stages of a round: an invariant of the tasklets of a DPU (`Machine`) for every program that keeps to a few rules.

All tasklets are in one stage at any time: on the way to the first barrier of a round, in the same segment behind it, or on
the way out of the last one. A tasklet that is late in leaving a round cannot be overtaken, since the next round needs it at
the first barrier; the host cannot interfere, since the word is 1 only between the report and the next round.

- `Kernel.Lawful`: the rules;
- `tasklet_inv`, `host_inv`: a step of a tasklet, or of the host, leads from stage to stage;
- `run_inv`: every state of every run is in a stage.
-/
import Mathlib.Tactic
import PimOfis.Tasklets.Machine

namespace PimOfis.Tasklets

variable {α : Type}

/-! ## Stages -/

/-- the variables that are clean when segment `i` begins: those that a round leaves cleared for the next, and those an
earlier segment cleans -/
def Kernel.Cleaned (k : Kernel α) (carried : List Var) (i : ℕ) (v : Var) : Prop :=
  v ∈ carried ∨ ∃ j < i, ∃ t, (k.code j t).Must v

/-- **A lawful program.** Tasklet 0 alone reports, at the end of the last segment, after it has cleared what is carried over;
every segment reads only what is clean by then. -/
structure Kernel.Lawful (k : Kernel α) (carried : List Var) : Prop where
  length : 2 ≤ k.segments.length
  bootAll : k.bootBarrier = none → ∀ t, k.boots t = true
  bootOne : k.bootBarrier ≠ none → ∀ t, k.boots t = decide (t = 0)
  safe : ∀ i t, (k.code i t).Safe (k.Cleaned carried i)
  quiet : ∀ i t, i + 1 < k.segments.length → (k.code i t).All fun o => o ≠ .report
  returns : ∀ i t, 0 < i → (k.code i t).All fun o => o ≠ .returnIfEmpty
  first : ∀ t, (k.code 0 t).All fun o => ∀ v ∈ carried, ¬ o.touches v
  last : k.code (k.segments.length - 1) 0 = .ofOps (carried.map .clear ++ [.report])
  lastOther : ∀ t ≠ 0, k.code (k.segments.length - 1) t = .nil

/-- the rounds a tasklet outside a round has done -/
def Dpu.done (d : Dpu α) : ℕ := if d.word = 2 then d.given.length - 1 else d.given.length

/-- what the variable depends on is of the present round -/
def Dpu.Clean (d : Dpu α) (v : Var) : Prop := ∀ r ∈ d.deps v, r = d.given.length

/-- what tasklet `t` has left to do in segment `i` -/
structure Left (k : Kernel α) (carried : List Var) (d : Dpu α) (i : ℕ) (t : Tasklet) (c : Code) : Prop where
  safe : c.Safe d.Clean
  pending : ∀ v, (k.code i t).Must v → d.Clean v ∨ c.Must v
  quiet : c.All fun o => o ≠ .report
  returns : 0 < i → c.All fun o => o ≠ .returnIfEmpty
  first : i = 0 → c.All fun o => ∀ v ∈ carried, ¬ o.touches v

/-- what tasklet 0 has left to do in the last segment -/
def LastLeft (carried : List Var) (d : Dpu α) (c : Code) : Prop :=
  ∃ l1 l2, carried = l1 ++ l2 ∧ c = .ofOps (l2.map .clear ++ [.report]) ∧ ∀ v ∈ l1, d.deps v = []

inductive Stage where
  | boot
  /-- on the way to the first barrier of a round -/
  | gather
  | seg (i : ℕ)
  /-- in the last segment, 1 not written -/
  | last
  /-- in the last segment, 1 written -/
  | closing

/-- where tasklet `t` may be in a stage -/
def Stage.Allows (k : Kernel α) (carried : List Var) (d : Dpu α) (t : Tasklet) : Stage → Pc → Prop
  | .boot, .start => True
  | .boot, .bootBarrier => k.bootBarrier ≠ none ∧ (t = 0 → d.word = 2)
  | .boot, .inBootBarrier => k.bootBarrier ≠ none ∧ (t = 0 → d.word = 2)
  | .gather, .start => k.bootBarrier = none ∧ d.word = 2 ∧ d.round t = d.done
  | .gather, .outer => d.round t = d.done
  | .gather, .wait => d.round t = d.done
  | .gather, .check => d.round t = d.done
  | .gather, .at j c => j = 0 ∧ d.word = 2 ∧ d.round t = d.given.length ∧ Left k carried d 0 t c
  | .gather, .inBarrier j => j = 0 ∧ d.word = 2 ∧ d.round t = d.given.length ∧ ∀ v, (k.code 0 t).Must v → d.Clean v
  | .gather, .ret => d.word = 0 ∧ d.round t = d.given.length
  | .seg i, .at j c => j = i ∧ d.round t = d.given.length ∧ Left k carried d i t c
  | .seg i, .inBarrier j => j = i ∧ d.round t = d.given.length ∧ ∀ v, (k.code i t).Must v → d.Clean v
  | .last, .at j c =>
    j = k.segments.length - 1 ∧ d.round t = d.given.length ∧ (t = 0 → LastLeft carried d c) ∧ (t ≠ 0 → c = .nil)
  | .last, .inBarrier j => j = k.segments.length - 1 ∧ d.round t = d.given.length ∧ t ≠ 0
  | .closing, .at j c => j = k.segments.length - 1 ∧ c = .nil ∧ d.round t = d.done
  | .closing, .inBarrier j => j = k.segments.length - 1 ∧ d.round t = d.done
  | _, _ => False

/-- what a stage says about the DPU as a whole -/
def Stage.Holds (k : Kernel α) (carried : List Var) (d : Dpu α) : Stage → Prop
  | .boot =>
    ((d.word = 0 ∧ d.given = []) ∨ (d.word = 2 ∧ d.given.length = 1 ∧ k.bootBarrier ≠ none)) ∧ (∀ t, d.round t = 0) ∧
      ∀ v, d.deps v = []
  | .gather => d.given ≠ [] ∧ ∀ v ∈ carried, d.deps v = []
  | .seg i => d.given ≠ [] ∧ d.word = 2 ∧ 0 < i ∧ i + 1 < k.segments.length ∧ ∀ v, k.Cleaned carried i v → d.Clean v
  | .last => d.given ≠ [] ∧ d.word = 2
  | .closing => d.given ≠ [] ∧ ∀ v ∈ carried, d.deps v = []

/-- **All tasklets are in one stage.** -/
structure InStage (k : Kernel α) (carried : List Var) (d : Dpu α) (st : Stage) : Prop where
  holds : st.Holds k carried d
  allows : ∀ t, st.Allows k carried d t (d.pc t)
  args : d.word = 2 → d.given.getLast? = some d.args
  awake : ∃ t, k.waitsAt (d.pc t) = none

def Inv (k : Kernel α) (carried : List Var) (d : Dpu α) : Prop := ∃ st, InStage k carried d st

theorem init_inv (k : Kernel α) (carried : List Var) (a : α) : Inv k carried (init a) :=
  ⟨.boot, ⟨⟨.inl ⟨rfl, rfl⟩, fun _ => rfl, fun _ => rfl⟩, fun _ => trivial, fun h => absurd h nofun, ⟨0, rfl⟩⟩⟩

/-! ## Moves within a stage -/

/-- tasklet `t` moves, and no other sees more than that clean variables stay clean -/
structure Moves (d d' : Dpu α) (t : Tasklet) : Prop where
  word : d'.word = d.word
  given : d'.given = d.given
  args : d'.args = d.args
  clean : ∀ v, d.Clean v → d'.Clean v
  round : ∀ u, u ≠ t → d'.round u = d.round u
  pc : ∀ u, u ≠ t → d'.pc u = d.pc u

theorem Moves.move (d : Dpu α) (t : Tasklet) (pc : Pc) : Moves d (d.move t pc) t :=
  ⟨rfl, rfl, rfl, fun _ h => h, fun _ _ => rfl, fun _ hu => Function.update_of_ne hu _ _⟩

theorem Left.moves {k : Kernel α} {carried : List Var} {d d' : Dpu α} {i : ℕ} {t u : Tasklet} {c : Code}
    (h : Left k carried d i u c) (hm : Moves d d' t) : Left k carried d' i u c :=
  ⟨h.safe.mono hm.clean, fun v hv => (h.pending v hv).imp_left (hm.clean v), h.quiet, h.returns, h.first⟩

/-- outside the segments in the middle of a round, what is carried over stays cleared -/
def Stage.KeepsCarried (carried : List Var) (d d' : Dpu α) : Stage → Prop
  | .seg _ => True
  | _ => ∀ v ∈ carried, d.deps v = [] → d'.deps v = []

theorem Stage.KeepsCarried.of_deps {carried : List Var} {d d' : Dpu α} (h : d'.deps = d.deps) (st : Stage) :
    st.KeepsCarried carried d d' := by
  cases st with
  | seg i => trivial
  | _ =>
    intro v _ hv
    rw [h]
    exact hv

theorem Stage.Allows.moves {k : Kernel α} {carried : List Var} {d d' : Dpu α} {t u : Tasklet} {st : Stage} {pc : Pc}
    (h : st.Allows k carried d u pc) (hm : Moves d d' t) (hc : st.KeepsCarried carried d d')
    (hround : d'.round u = d.round u) : st.Allows k carried d' u pc := by
  have hdone : d'.done = d.done := by simp only [Dpu.done, hm.word, hm.given]
  unfold Stage.Allows at h ⊢
  split at h
  · trivial
  · exact ⟨h.1, fun h0 => hm.word.trans (h.2 h0)⟩
  · exact ⟨h.1, fun h0 => hm.word.trans (h.2 h0)⟩
  · exact ⟨h.1, hm.word.trans h.2.1, by rw [hround, hdone, h.2.2]⟩
  · rw [hround, hdone, h]
  · rw [hround, hdone, h]
  · rw [hround, hdone, h]
  · exact ⟨h.1, hm.word.trans h.2.1, by rw [hround, hm.given, h.2.2.1], h.2.2.2.moves hm⟩
  · exact ⟨h.1, hm.word.trans h.2.1, by rw [hround, hm.given, h.2.2.1], fun v hv => hm.clean v (h.2.2.2 v hv)⟩
  · exact ⟨hm.word.trans h.1, by rw [hround, hm.given, h.2]⟩
  · exact ⟨h.1, by rw [hround, hm.given, h.2.1], h.2.2.moves hm⟩
  · exact ⟨h.1, by rw [hround, hm.given, h.2.1], fun v hv => hm.clean v (h.2.2 v hv)⟩
  · refine ⟨h.1, by rw [hround, hm.given, h.2.1], fun h0 => ?_, h.2.2.2⟩
    obtain ⟨l1, l2, happ, hcode, hl⟩ := h.2.2.1 h0
    exact ⟨l1, l2, happ, hcode, fun v hv => hc v (by simp [happ, hv]) (hl v hv)⟩
  · exact ⟨h.1, by rw [hround, hm.given, h.2.1], h.2.2⟩
  · exact ⟨h.1, h.2.1, by rw [hround, hdone, h.2.2]⟩
  · exact ⟨h.1, by rw [hround, hdone, h.2]⟩
  · exact h.elim

/-- a step of one tasklet that stays in the stage -/
theorem InStage.moves {k : Kernel α} {carried : List Var} {d d' : Dpu α} {t : Tasklet} {st : Stage}
    (h : InStage k carried d st) (hm : Moves d d' t) (hc : st.KeepsCarried carried d d')
    (hboot : st = .boot → d'.round = d.round ∧ d'.deps = d.deps)
    (ht : st.Allows k carried d' t (d'.pc t)) (hawake : ∃ u, k.waitsAt (d'.pc u) = none) : InStage k carried d' st where
  holds := by
    have hh := h.holds
    cases st with
    | boot =>
      obtain ⟨hr, hd⟩ := hboot rfl
      simpa only [Stage.Holds, hm.word, hm.given, hr, hd] using hh
    | gather => exact ⟨hm.given ▸ hh.1, fun v hv => hc v hv (hh.2 v hv)⟩
    | seg i => exact ⟨hm.given ▸ hh.1, hm.word.trans hh.2.1, hh.2.2.1, hh.2.2.2.1, fun v hv => hm.clean v (hh.2.2.2.2 v hv)⟩
    | last => exact ⟨hm.given ▸ hh.1, hm.word.trans hh.2⟩
    | closing => exact ⟨hm.given ▸ hh.1, fun v hv => hc v hv (hh.2 v hv)⟩
  allows u := by
    by_cases hu : u = t
    · rw [hu]
      exact ht
    · rw [hm.pc u hu]
      exact (h.allows u).moves hm hc (hm.round u hu)
  args hw := by
    rw [hm.given, hm.args]
    exact h.args (hm.word ▸ hw)
  awake := hawake

/-! ## Barriers -/

/-- where the tasklets of a stage wait -/
def Stage.inside (k : Kernel α) : Stage → Pc
  | .boot => .inBootBarrier
  | .gather => .inBarrier 0
  | .seg i => .inBarrier i
  | .last => .inBarrier (k.segments.length - 1)
  | .closing => .inBarrier (k.segments.length - 1)

/-- the tasklets of a stage wait at one barrier, in one place -/
theorem Stage.Allows.waits {k : Kernel α} {carried : List Var} {d : Dpu α} {t : Tasklet} {st : Stage} {pc : Pc}
    (h : st.Allows k carried d t pc) : k.waitsAt pc = none ∨ pc = st.inside k := by
  unfold Stage.Allows at h
  split at h
  · exact .inl rfl
  · exact .inl rfl
  · exact .inr rfl
  · exact .inl rfl
  · exact .inl rfl
  · exact .inl rfl
  · exact .inl rfl
  · exact .inl rfl
  · exact .inr (by rw [h.1]; rfl)
  · exact .inl rfl
  · exact .inl rfl
  · exact .inr (by rw [h.1]; rfl)
  · exact .inl rfl
  · exact .inr (by rw [h.1]; rfl)
  · exact .inl rfl
  · exact .inr (by rw [h.1]; rfl)
  · exact h.elim

/-- a tasklet arrives at the barrier of its stage: it waits, or all go on -/
theorem arrive_inv {k : Kernel α} {carried : List Var} {d : Dpu α} {st : Stage} (h : InStage k carried d st) {t : Tasklet}
    (hin : st.Allows k carried d t (st.inside k)) {b : ℕ} (hb : k.waitsAt (st.inside k) = some b)
    (hopen : (∀ u, u ≠ t → d.pc u = st.inside k) → Inv k carried { d with pc := fun u => k.resume u (st.inside k) }) :
    Inv k carried (d.arrive k t (st.inside k)) := by
  unfold Dpu.arrive
  split_ifs with hall
  · have hpc : ∀ u, u ≠ t → d.pc u = st.inside k := by
      intro u hu
      rcases (h.allows u).waits with hw | hw
      · rw [hall u hu, hb] at hw
        exact absurd hw nofun
      · exact hw
    have hsame : (fun u => k.resume u (if u = t then st.inside k else d.pc u)) = fun u => k.resume u (st.inside k) := by
      funext u
      split_ifs with hu
      · rfl
      · rw [hpc u hu]
    rw [hsame]
    exact hopen hpc
  · obtain ⟨u, hu⟩ := not_forall.mp hall
    obtain ⟨hne, hw⟩ := Classical.not_imp.mp hu
    have hc : st.KeepsCarried carried d (d.move t (st.inside k)) := .of_deps rfl st
    refine ⟨st, h.moves (Moves.move d t _) hc (fun _ => ⟨rfl, rfl⟩) ?_ ⟨u, ?_⟩⟩
    · simp only [Dpu.move, Function.update_self]
      exact hin.moves (Moves.move d t _) hc rfl
    · simp only [Dpu.move, Function.update_of_ne hne]
      exact (h.allows u).waits.resolve_right fun he => hw (by rw [he])

/-- the segments after the first: their tasklets all begin at once -/
theorem enter_inv {k : Kernel α} {carried : List Var} (hl : k.Lawful carried) {d : Dpu α} {i : ℕ} (hi : 0 < i)
    (hn : i < k.segments.length) (hgiven : d.given ≠ []) (hword : d.word = 2) (hargs : d.given.getLast? = some d.args)
    (hround : ∀ t, d.round t = d.given.length) (hclean : ∀ v, k.Cleaned carried i v → d.Clean v) :
    Inv k carried { d with pc := fun u => .at i (k.code i u) } := by
  by_cases hlast : i + 1 < k.segments.length
  · refine ⟨.seg i, ⟨hgiven, hword, hi, hlast, hclean⟩, fun t => ⟨rfl, hround t, ?_⟩, fun _ => hargs, ⟨0, rfl⟩⟩
    exact ⟨(hl.safe i t).mono hclean, fun v hv => .inr hv, hl.quiet i t hlast, hl.returns i t, fun h0 => by omega⟩
  · obtain rfl : i = k.segments.length - 1 := by omega
    refine ⟨.last, ⟨hgiven, hword⟩, fun t => ⟨rfl, hround t, fun h0 => ?_, hl.lastOther t⟩, fun _ => hargs, ⟨0, rfl⟩⟩
    refine ⟨[], carried, rfl, ?_, fun v hv => absurd hv List.not_mem_nil⟩
    rw [h0, hl.last]

theorem Kernel.Cleaned.succ {k : Kernel α} {carried : List Var} {d : Dpu α} {i : ℕ}
    (h : ∀ v, k.Cleaned carried i v → d.Clean v) (hm : ∀ t v, (k.code i t).Must v → d.Clean v) :
    ∀ v, k.Cleaned carried (i + 1) v → d.Clean v := by
  intro v hv
  rcases hv with hv | ⟨j, hj, t, hv⟩
  · exact h v (.inl hv)
  · rcases Nat.lt_succ_iff_lt_or_eq.mp hj with hj | rfl
    · exact h v (.inr ⟨j, hj, t, hv⟩)
    · exact hm t v hv

theorem clean_of_carried {k : Kernel α} {carried : List Var} {d : Dpu α} (h : ∀ v ∈ carried, d.deps v = []) :
    ∀ v, k.Cleaned carried 0 v → d.Clean v := by
  intro v hv
  rcases hv with hv | ⟨j, hj, -⟩
  · intro r hr
    rw [h v hv] at hr
    exact absurd hr List.not_mem_nil
  · exact absurd hj (Nat.not_lt_zero j)

/-- all tasklets wait for the host, or find its next word -/
theorem gather_inv {k : Kernel α} {carried : List Var} {d : Dpu α} (hgiven : d.given ≠ [])
    (hargs : d.word = 2 → d.given.getLast? = some d.args) (hcarried : ∀ v ∈ carried, d.deps v = [])
    (hround : ∀ t, d.round t = d.done) : Inv k carried { d with pc := fun _ => .outer } :=
  ⟨.gather, ⟨⟨hgiven, hcarried⟩, hround, hargs, ⟨0, rfl⟩⟩⟩

/-! ## A tasklet's step -/

theorem Dpu.access_clean {d : Dpu α} {v : Var} (o : Op) (h : d.Clean v ∨ o.cleans v) :
    (d.access d.given.length o).Clean v := by
  unfold Dpu.Clean
  intro r hr
  cases o with
  | clear w =>
    by_cases hw : v = w
    · subst hw
      simp [Dpu.access] at hr
    · simp only [Dpu.access, Function.update_of_ne hw] at hr
      exact (h.resolve_right fun he => hw he.symm) r hr
  | write w =>
    by_cases hw : v = w
    · subst hw
      simpa [Dpu.access] using hr
    · simp only [Dpu.access, Function.update_of_ne hw] at hr
      exact (h.resolve_right fun he => hw he.symm) r hr
  | update w =>
    by_cases hw : v = w
    · subst hw
      simp only [Dpu.access, Function.update_self, List.mem_cons] at hr
      exact hr.elim id ((h.resolve_right id) r)
    · simp only [Dpu.access, Function.update_of_ne hw] at hr
      exact (h.resolve_right id) r hr
  | _ => exact (h.resolve_right id) r hr

theorem Dpu.access_untouched {d : Dpu α} {v : Var} {o : Op} (r : ℕ) (h : ¬ o.touches v) :
    (d.access r o).deps v = d.deps v := by
  cases o with
  | clear w => exact Function.update_of_ne (fun he => h he.symm) _ _
  | write w => exact Function.update_of_ne (fun he => h he.symm) _ _
  | update w => exact Function.update_of_ne (fun he => h he.symm) _ _
  | _ => rfl

/-- an access other than the report is seen by the other tasklets through the variables alone -/
theorem Moves.access {d : Dpu α} {t : Tasklet} {o : Op} (ho : o ≠ .report) (pc : Pc) :
    Moves d ((d.access d.given.length o).move t pc) t where
  word := by cases o <;> first | rfl | exact absurd rfl ho
  given := by cases o <;> rfl
  args := by cases o <;> rfl
  clean _ hv := Dpu.access_clean o (.inl hv)
  round u _ := by cases o <;> rfl
  pc u hu := by
    have hpc : (d.access d.given.length o).pc = d.pc := by cases o <;> rfl
    simp only [Dpu.move, Function.update_of_ne hu, hpc]

theorem Dpu.go_of_two {d : Dpu α} (h : d.word = 2) : d.go = d := by
  obtain ⟨word, args, deps, pc, round, given⟩ := d
  obtain rfl : word = 2 := h
  rfl

/-- a move inside a stage that changes nothing but the place -/
theorem InStage.move {k : Kernel α} {carried : List Var} {d : Dpu α} {t : Tasklet} {st : Stage} {pc : Pc}
    (h : InStage k carried d st) (ht : st.Allows k carried d t pc) (hpc : k.waitsAt pc = none) :
    Inv k carried (d.move t pc) := by
  have hm := Moves.move d t pc
  have hc : st.KeepsCarried carried d (d.move t pc) := .of_deps rfl st
  refine ⟨st, h.moves hm hc (fun _ => ⟨rfl, rfl⟩) ?_ ⟨t, ?_⟩⟩
  · simp only [Dpu.move, Function.update_self]
    exact ht.moves hm hc rfl
  · simpa only [Dpu.move, Function.update_self] using hpc

theorem start_inv {k : Kernel α} {carried : List Var} (hl : k.Lawful carried) {d : Dpu α} {st : Stage}
    (h : InStage k carried d st) {t : Tasklet} (hpc : d.pc t = .start) (more : Bool) :
    Inv k carried (taskletStep k d t more) := by
  have ha := h.allows t
  rw [hpc] at ha
  simp only [taskletStep, hpc]
  by_cases hb : k.bootBarrier = none
  · -- every tasklet writes 2, and only the first write is new
    rw [if_pos (hl.bootAll hb t), hb, Option.isSome_none, if_neg Bool.false_ne_true]
    cases st with
    | boot =>
      obtain ⟨hword, hround, hdeps⟩ := h.holds
      obtain ⟨h0, hgiven⟩ := hword.resolve_right fun hw => hw.2.2 hb
      have hgo : ((d.move t .outer).go).given = [d.args] := by simp [Dpu.go, Dpu.move, h0, hgiven]
      have hdone : ∀ u, ((d.move t .outer).go).round u = ((d.move t .outer).go).done := by
        intro u
        have htwo : ((d.move t .outer).go).word = 2 := rfl
        rw [Dpu.done, if_pos htwo, hgo]
        exact hround u
      refine ⟨.gather, ⟨by rw [hgo]; nofun, fun v _ => hdeps v⟩, fun u => ?_, fun _ => by rw [hgo]; rfl, ⟨t, ?_⟩⟩
      · by_cases hu : u = t
        · subst hu
          simp only [Dpu.go, Dpu.move, Function.update_self]
          exact hdone u
        · have hau := h.allows u
          have hpcu : ((d.move t .outer).go).pc u = d.pc u := Function.update_of_ne hu _ _
          rw [hpcu]
          cases hp : d.pc u with
          | start => exact ⟨hb, rfl, hdone u⟩
          | bootBarrier =>
            rw [hp] at hau
            exact absurd hb hau.1
          | inBootBarrier =>
            rw [hp] at hau
            exact absurd hb hau.1
          | _ =>
            rw [hp] at hau
            exact hau.elim
      · simp [Dpu.go, Dpu.move, Kernel.waitsAt]
    | gather =>
      have hw : (d.move t .outer).word = 2 := ha.2.1
      rw [Dpu.go_of_two hw]
      exact h.move ha.2.2 rfl
    | _ => exact ha.elim
  · rw [if_pos (Option.isSome_iff_ne_none.mpr hb), hl.bootOne hb t]
    cases st with
    | boot =>
      obtain ⟨hword, hround, hdeps⟩ := h.holds
      by_cases ht : t = 0
      · -- tasklet 0 writes 2
        subst ht
        rw [if_pos (decide_eq_true rfl)]
        have hgiven : ((d.move 0 .bootBarrier).go).given.length = 1 := by
          rcases hword with ⟨h0, hg⟩ | ⟨h2, hg, -⟩
          · simp [Dpu.go, Dpu.move, h0, hg]
          · simp [Dpu.go, Dpu.move, h2, hg]
        have hargs : ((d.move 0 .bootBarrier).go).given.getLast? = some d.args := by
          rcases hword with ⟨h0, hg⟩ | ⟨h2, hg, -⟩
          · simp [Dpu.go, Dpu.move, h0]
          · simpa [Dpu.go, Dpu.move, h2] using h.args h2
        refine ⟨.boot, ⟨.inr ⟨rfl, hgiven, hb⟩, hround, hdeps⟩, fun u => ?_, fun _ => hargs, ⟨0, ?_⟩⟩
        · by_cases hu : u = 0
          · subst hu
            simp only [Dpu.go, Dpu.move, Function.update_self]
            exact ⟨hb, fun _ => rfl⟩
          · have hau := h.allows u
            have hpcu : ((d.move 0 .bootBarrier).go).pc u = d.pc u := Function.update_of_ne hu _ _
            rw [hpcu]
            cases hp : d.pc u with
            | start => trivial
            | bootBarrier => exact ⟨hb, fun _ => rfl⟩
            | inBootBarrier => exact ⟨hb, fun _ => rfl⟩
            | _ =>
              rw [hp] at hau
              exact hau.elim
        · simp [Dpu.go, Dpu.move, Kernel.waitsAt]
      · rw [if_neg (by simpa using ht)]
        exact h.move ⟨hb, fun h0 => absurd h0 ht⟩ rfl
    | gather => exact absurd ha.1 hb
    | _ => exact ha.elim

theorem bootBarrier_inv {k : Kernel α} {carried : List Var} {d : Dpu α} {st : Stage} (h : InStage k carried d st)
    {t : Tasklet} (hpc : d.pc t = .bootBarrier) : Inv k carried (d.arrive k t .inBootBarrier) := by
  have ha := h.allows t
  rw [hpc] at ha
  cases st with
  | boot =>
    obtain ⟨hb, h0⟩ := ha
    obtain ⟨b, hbar⟩ := Option.ne_none_iff_exists'.mp hb
    refine arrive_inv h ⟨hb, h0⟩ hbar fun hall => ?_
    obtain ⟨hword, hround, hdeps⟩ := h.holds
    -- tasklet 0 has written 2 before it came to the barrier
    have htwo : d.word = 2 := by
      by_cases ht : t = 0
      · exact h0 ht
      · have hz := h.allows 0
        rw [hall 0 (Ne.symm ht)] at hz
        exact hz.2 rfl
    have hgiven : d.given.length = 1 := by
      rcases hword with ⟨h0, -⟩ | ⟨-, hg, -⟩
      · rw [htwo] at h0
        exact absurd h0 nofun
      · exact hg
    refine gather_inv (fun hn => by simp [hn] at hgiven) h.args (fun v _ => hdeps v) fun u => ?_
    simp [Dpu.done, htwo, hgiven, hround u]
  | _ => exact ha.elim

/-- the loops between two rounds -/
theorem polling_inv {k : Kernel α} {carried : List Var} (hl : k.Lawful carried) {d : Dpu α} {st : Stage}
    (h : InStage k carried d st) {t : Tasklet} (hpc : d.pc t = .outer ∨ d.pc t = .wait ∨ d.pc t = .check) (more : Bool) :
    Inv k carried (taskletStep k d t more) := by
  have hstage : st = .gather ∧ d.round t = d.done := by
    have ha := h.allows t
    rcases hpc with hpc | hpc | hpc
    all_goals
      rw [hpc] at ha
      cases st with
      | gather => exact ⟨rfl, ha⟩
      | _ => exact ha.elim
  obtain ⟨rfl, hround⟩ := hstage
  obtain ⟨hgiven, hcarried⟩ := h.holds
  have hret : d.word = 0 → Stage.gather.Allows k carried d t .ret := by
    intro h0
    refine ⟨h0, hround.trans ?_⟩
    simp [Dpu.done, h0]
  rcases hpc with hpc | hpc | hpc
  · simp only [taskletStep, hpc]
    split_ifs with h0
    · exact h.move hround rfl
    · exact h.move (hret (not_not.mp h0)) rfl
  · simp only [taskletStep, hpc]
    split_ifs with h2
    · exact h.move hround rfl
    · -- the tasklet begins the round
      have htwo := not_not.mp h2
      have hbegun : d.round t + 1 = d.given.length := by
        have hpos := List.length_pos_of_ne_nil hgiven
        rw [hround, Dpu.done, if_pos htwo]
        omega
      have hm : Moves d { d.move t (.at 0 (k.code 0 t)) with round := Function.update d.round t (d.round t + 1) } t :=
        ⟨rfl, rfl, rfl, fun _ hv => hv, fun u hu => Function.update_of_ne hu _ _, fun u hu => Function.update_of_ne hu _ _⟩
      refine ⟨.gather, h.moves hm (fun _ _ hv => hv) nofun ?_ ⟨t, ?_⟩⟩
      · simp only [Dpu.move, Function.update_self]
        refine ⟨rfl, htwo, by simpa using hbegun, (hl.safe 0 t).mono (clean_of_carried hcarried), fun v hv => .inr hv,
          hl.quiet 0 t hl.length, fun h0 => absurd h0 (lt_irrefl 0), fun _ => hl.first t⟩
      · simp [Dpu.move, Kernel.waitsAt]
  · simp only [taskletStep, hpc]
    split_ifs with h0
    · exact h.move (hret h0) rfl
    · exact h.move hround rfl

/-- a tasklet with nothing left to do in its segment arrives at the barrier -/
theorem segmentEnd_inv {k : Kernel α} {carried : List Var} (hl : k.Lawful carried) {d : Dpu α} {st : Stage}
    (h : InStage k carried d st) {t : Tasklet} {i : ℕ} (hpc : d.pc t = .at i .nil) :
    Inv k carried (d.arrive k t (.inBarrier i)) := by
  have ha := h.allows t
  rw [hpc] at ha
  have hlen := hl.length
  cases st with
  | boot => exact ha.elim
  | gather =>
    obtain ⟨rfl, hword, hround, hleft⟩ := ha
    have hmust : ∀ v, (k.code 0 t).Must v → d.Clean v := fun v hv => (hleft.pending v hv).resolve_right id
    refine arrive_inv h ⟨rfl, hword, hround, hmust⟩ rfl fun hall => ?_
    obtain ⟨hgiven, hcarried⟩ := h.holds
    have hu : ∀ u, d.round u = d.given.length ∧ ∀ v, (k.code 0 u).Must v → d.Clean v := by
      intro u
      by_cases hut : u = t
      · rw [hut]
        exact ⟨hround, hmust⟩
      · have hau := h.allows u
        rw [hall u hut] at hau
        exact hau.2.2
    have hresume : (fun u => k.resume u (Stage.gather.inside k)) = fun u => .at 1 (k.code 1 u) := by
      funext u
      exact if_pos (by omega)
    rw [hresume]
    exact enter_inv hl Nat.one_pos (by omega) hgiven hword (h.args hword) (fun u => (hu u).1)
      (Kernel.Cleaned.succ (clean_of_carried hcarried) fun u => (hu u).2)
  | seg j =>
    obtain ⟨rfl, hround, hleft⟩ := ha
    have hmust : ∀ v, (k.code i t).Must v → d.Clean v := fun v hv => (hleft.pending v hv).resolve_right id
    refine arrive_inv h ⟨rfl, hround, hmust⟩ rfl fun hall => ?_
    obtain ⟨hgiven, hword, hi, hn, hclean⟩ := h.holds
    have hu : ∀ u, d.round u = d.given.length ∧ ∀ v, (k.code i u).Must v → d.Clean v := by
      intro u
      by_cases hut : u = t
      · rw [hut]
        exact ⟨hround, hmust⟩
      · have hau := h.allows u
        rw [hall u hut] at hau
        exact hau.2
    have hresume : (fun u => k.resume u ((Stage.seg i).inside k)) = fun u => .at (i + 1) (k.code (i + 1) u) := by
      funext u
      exact if_pos hn
    rw [hresume]
    exact enter_inv hl (by omega) hn hgiven hword (h.args hword) (fun u => (hu u).1)
      (Kernel.Cleaned.succ hclean fun u => (hu u).2)
  | last =>
    obtain ⟨rfl, hround, hzero, hother⟩ := ha
    -- tasklet 0 still has to report, so it is not the one
    have ht : t ≠ 0 := by
      intro h0
      obtain ⟨l1, l2, -, hc, -⟩ := hzero h0
      cases l2 with
      | nil => exact absurd hc nofun
      | cons v l2 => exact absurd hc nofun
    refine arrive_inv h ⟨rfl, hround, ht⟩ rfl fun hall => ?_
    have hz := h.allows 0
    rw [hall 0 (Ne.symm ht)] at hz
    exact absurd rfl hz.2.2
  | closing =>
    obtain ⟨rfl, -, hround⟩ := ha
    refine arrive_inv h ⟨rfl, hround⟩ rfl fun hall => ?_
    obtain ⟨hgiven, hcarried⟩ := h.holds
    have hresume : (fun u => k.resume u (Stage.closing.inside k)) = fun _ => .outer := by
      funext u
      exact if_neg (by omega)
    rw [hresume]
    refine gather_inv hgiven h.args hcarried fun u => ?_
    by_cases hut : u = t
    · rw [hut]
      exact hround
    · have hau := h.allows u
      rw [hall u hut] at hau
      exact hau.2

theorem Left.op {k : Kernel α} {carried : List Var} {d : Dpu α} {i : ℕ} {t : Tasklet} {o : Op} {rest : Code}
    (h : Left k carried d i t (.op o rest)) (pc : Pc) :
    Left k carried ((d.access d.given.length o).move t pc) i t rest where
  safe := by
    refine h.safe.2.mono fun v hv => ?_
    have hgiven : (d.access d.given.length o).given = d.given := by cases o <;> rfl
    exact Dpu.access_clean o hv
  pending v hv := by
    rcases h.pending v hv with hc | hc | hc
    · exact .inl (Dpu.access_clean o (.inl hc))
    · exact .inl (Dpu.access_clean o (.inr hc))
    · exact .inr hc
  quiet := h.quiet.2
  returns h0 := (h.returns h0).2
  first h0 := (h.first h0).2

theorem Left.loop {k : Kernel α} {carried : List Var} {d : Dpu α} {i : ℕ} {t : Tasklet} {body rest : Code}
    (h : Left k carried d i t (.loop body rest)) (more : Bool) :
    Left k carried d i t (if more then body.seq (.loop body rest) else rest) := by
  cases more with
  | false => exact ⟨h.safe.2, h.pending, h.quiet.2, fun h0 => (h.returns h0).2, fun h0 => (h.first h0).2⟩
  | true =>
    exact ⟨h.safe.1.seq h.safe, fun v hv => (h.pending v hv).imp_right Code.Must.seq, h.quiet.1.seq h.quiet,
      fun h0 => (h.returns h0).1.seq (h.returns h0), fun h0 => (h.first h0).1.seq (h.first h0)⟩

theorem Left.opt {k : Kernel α} {carried : List Var} {d : Dpu α} {i : ℕ} {t : Tasklet} {body rest : Code}
    (h : Left k carried d i t (.opt body rest)) (more : Bool) :
    Left k carried d i t (if more then body.seq rest else rest) := by
  cases more with
  | false => exact ⟨h.safe.2, h.pending, h.quiet.2, fun h0 => (h.returns h0).2, fun h0 => (h.first h0).2⟩
  | true =>
    exact ⟨h.safe.1.seq h.safe.2, fun v hv => (h.pending v hv).imp_right Code.Must.seq, h.quiet.1.seq h.quiet.2,
      fun h0 => (h.returns h0).1.seq (h.returns h0).2, fun h0 => (h.first h0).1.seq (h.first h0).2⟩

/-- where a round is on, the arguments are those it was given -/
theorem InStage.nonempty {k : Kernel α} {carried : List Var} {d : Dpu α} {st : Stage} (h : InStage k carried d st)
    (hne : ∀ a ∈ d.given, k.empty a = false) (hw : d.word = 2) : k.empty d.args = false :=
  hne d.args (List.mem_of_getLast? (h.args hw))

/-- tasklet 0 in the last segment: it clears, and then reports -/
theorem lastOp_inv {k : Kernel α} {carried : List Var} {d : Dpu α} (h : InStage k carried d .last) {o : Op} {rest : Code}
    (hpc : d.pc 0 = .at (k.segments.length - 1) (.op o rest)) (hleft : LastLeft carried d (.op o rest)) :
    Inv k carried ((d.access d.given.length o).move 0 (.at (k.segments.length - 1) rest)) := by
  obtain ⟨hgiven, hword⟩ := h.holds
  have hz := h.allows 0
  rw [hpc] at hz
  obtain ⟨l1, l2, happ, hcode, hclear⟩ := hleft
  cases l2 with
  | cons v l2 =>
    obtain ⟨rfl, rfl⟩ : o = .clear v ∧ rest = .ofOps (l2.map .clear ++ [.report]) := by simpa [Code.ofOps] using hcode
    have hm : Moves d ((d.access d.given.length (.clear v)).move 0 (.at (k.segments.length - 1)
        (.ofOps (l2.map .clear ++ [.report])))) 0 := Moves.access (o := .clear v) nofun _
    have hkeep : ∀ w, d.deps w = [] → (d.access d.given.length (.clear v)).deps w = [] := by
      intro w hw
      by_cases hwv : w = v
      · simp [Dpu.access, hwv]
      · exact (Function.update_of_ne hwv _ _).trans hw
    refine ⟨.last, h.moves hm (fun w _ => hkeep w) nofun ?_ ⟨0, ?_⟩⟩
    · simp only [Dpu.move, Function.update_self]
      refine ⟨rfl, hz.2.1, fun _ => ⟨l1 ++ [v], l2, by simp [happ], rfl, fun w hw => ?_⟩, fun h0 => absurd rfl h0⟩
      rcases List.mem_append.mp hw with hw | hw
      · exact hkeep w (hclear w hw)
      · rw [List.mem_singleton.mp hw]
        simp [Dpu.access]
    · simp [Dpu.move, Kernel.waitsAt]
  | nil =>
    obtain ⟨rfl, rfl⟩ : o = .report ∧ rest = .nil := by simpa [Code.ofOps] using hcode
    obtain rfl : carried = l1 := by simpa using happ
    refine ⟨.closing, ⟨hgiven, hclear⟩, fun u => ?_, nofun, ⟨0, ?_⟩⟩
    · by_cases hu : u = 0
      · subst hu
        simp only [Dpu.move, Function.update_self]
        exact ⟨rfl, rfl, hz.2.1⟩
      · have hau := h.allows u
        simp only [Dpu.move, Dpu.access, Function.update_of_ne hu]
        cases hp : d.pc u with
        | «at» j c =>
          rw [hp] at hau
          exact ⟨hau.1, hau.2.2.2 hu, hau.2.1⟩
        | inBarrier j =>
          rw [hp] at hau
          exact ⟨hau.1, hau.2.1⟩
        | _ =>
          rw [hp] at hau
          exact hau.elim
    · simp [Dpu.move, Kernel.waitsAt]

theorem op_inv {k : Kernel α} {carried : List Var} {d : Dpu α} {st : Stage} (h : InStage k carried d st)
    (hne : ∀ a ∈ d.given, k.empty a = false) {t : Tasklet} {i : ℕ} {o : Op} {rest : Code} (hpc : d.pc t = .at i (.op o rest))
    (more : Bool) : Inv k carried (taskletStep k d t more) := by
  have ha := h.allows t
  rw [hpc] at ha
  simp only [taskletStep, hpc]
  cases st with
  | boot => exact ha.elim
  | gather =>
    obtain ⟨rfl, hword, hround, hleft⟩ := ha
    rw [if_neg (fun hr => by simp [h.nonempty hne hword] at hr), hround]
    have hm : Moves d ((d.access d.given.length o).move t (.at 0 rest)) t := Moves.access hleft.quiet.1 _
    have hcar : ∀ v ∈ carried, d.deps v = [] → (d.access d.given.length o).deps v = [] := by
      intro v hv hd
      exact (Dpu.access_untouched _ ((hleft.first rfl).1 v hv)).trans hd
    refine ⟨.gather, h.moves hm hcar nofun ?_ ⟨t, ?_⟩⟩
    · simp only [Dpu.move, Function.update_self]
      refine ⟨rfl, hm.word.trans hword, ?_, hleft.op (.at 0 rest)⟩
      cases o <;> exact hround
    · simp [Dpu.move, Kernel.waitsAt]
  | seg j =>
    obtain ⟨rfl, hround, hleft⟩ := ha
    obtain ⟨-, hword, hi, -, -⟩ := h.holds
    rw [if_neg (fun hr => (hleft.returns hi).1 hr.1), hround]
    have hm : Moves d ((d.access d.given.length o).move t (.at i rest)) t := Moves.access hleft.quiet.1 _
    refine ⟨.seg i, h.moves hm trivial nofun ?_ ⟨t, ?_⟩⟩
    · simp only [Dpu.move, Function.update_self]
      refine ⟨rfl, ?_, hleft.op (.at i rest)⟩
      cases o <;> exact hround
    · simp [Dpu.move, Kernel.waitsAt]
  | last =>
    obtain ⟨rfl, hround, hzero, hother⟩ := ha
    by_cases ht : t = 0
    · subst ht
      rw [if_neg (fun hr => by simp [h.nonempty hne h.holds.2] at hr), hround]
      exact lastOp_inv h hpc (hzero rfl)
    · exact absurd (hother ht) nofun
  | closing => exact absurd ha.2.1 nofun

/-- a loop is run once more or left, an `if` is taken or not -/
theorem branch_inv {k : Kernel α} {carried : List Var} {d : Dpu α} {st : Stage} (h : InStage k carried d st) {t : Tasklet}
    {i : ℕ} {c c' : Code} (hpc : d.pc t = .at i c) (hop : ∀ os, c ≠ .ofOps os)
    (hleft : ∀ j, Left k carried d j t c → Left k carried d j t c') : Inv k carried (d.move t (.at i c')) := by
  have ha := h.allows t
  rw [hpc] at ha
  cases st with
  | boot => exact ha.elim
  | gather => exact h.move ⟨ha.1, ha.2.1, ha.2.2.1, hleft 0 ha.2.2.2⟩ rfl
  | seg j => exact h.move ⟨ha.1, ha.2.1, hleft j ha.2.2⟩ rfl
  | last =>
    obtain ⟨-, -, hzero, hother⟩ := ha
    by_cases ht : t = 0
    · obtain ⟨l1, l2, -, hc, -⟩ := hzero ht
      exact absurd hc (hop _)
    · exact absurd (hother ht) (hop [])
  | closing => exact absurd ha.2.1 (hop [])

/-- **A tasklet's step** keeps all tasklets in one stage. -/
theorem tasklet_inv {k : Kernel α} {carried : List Var} (hl : k.Lawful carried) {d : Dpu α} (h : Inv k carried d)
    (hne : ∀ a ∈ d.given, k.empty a = false) (t : Tasklet) (more : Bool) : Inv k carried (taskletStep k d t more) := by
  obtain ⟨st, h⟩ := h
  have hnot : ∀ (c : Code) (os : List Op), (∀ o rest, c ≠ .op o rest) → c ≠ .nil → c ≠ .ofOps os := by
    intro c os h1 h2
    cases os with
    | nil => exact h2
    | cons o os => exact h1 o _
  cases hpc : d.pc t with
  | start => exact start_inv hl h hpc more
  | outer => exact polling_inv hl h (.inl hpc) more
  | wait => exact polling_inv hl h (.inr (.inl hpc)) more
  | check => exact polling_inv hl h (.inr (.inr hpc)) more
  | bootBarrier =>
    simp only [taskletStep, hpc]
    exact bootBarrier_inv h hpc
  | «at» i c =>
    cases c with
    | nil =>
      simp only [taskletStep, hpc]
      exact segmentEnd_inv hl h hpc
    | op o rest => exact op_inv h hne hpc more
    | loop body rest =>
      simp only [taskletStep, hpc]
      exact branch_inv h hpc (fun os => hnot _ os nofun nofun) fun j hj => hj.loop more
    | opt body rest =>
      simp only [taskletStep, hpc]
      exact branch_inv h hpc (fun os => hnot _ os nofun nofun) fun j hj => hj.opt more
  | inBootBarrier =>
    simp only [taskletStep, hpc]
    exact ⟨st, h⟩
  | inBarrier i =>
    simp only [taskletStep, hpc]
    exact ⟨st, h⟩
  | ret =>
    simp only [taskletStep, hpc]
    exact ⟨st, h⟩

/-! ## The host, and runs -/

/-- the DPUs of a host that looks after them only while their word is 1 -/
theorem idle_stage {k : Kernel α} {carried : List Var} {d : Dpu α} {st : Stage} (h : InStage k carried d st)
    (hw : d.word = 1) : st = .gather ∨ st = .closing := by
  cases st with
  | boot =>
    rcases h.holds.1 with ⟨h0, -⟩ | ⟨h2, -⟩
    · exact absurd (hw.symm.trans h0) nofun
    · exact absurd (hw.symm.trans h2) nofun
  | gather => exact .inl rfl
  | seg i => exact absurd (hw.symm.trans h.holds.2.1) nofun
  | last => exact absurd (hw.symm.trans h.holds.2) nofun
  | closing => exact .inr rfl

/-- what the host writes leaves the tasklets of an idle DPU where they are -/
theorem host_inv {k : Kernel α} {carried : List Var} {d d' : Dpu α} (h : Inv k carried d) (hw : d.word = 1)
    (hpc : d'.pc = d.pc) (hround : d'.round = d.round) (hdeps : d'.deps = d.deps) (hgiven : d'.given ≠ [])
    (hargs : d'.word = 2 → d'.given.getLast? = some d'.args) (hdone : d'.done = d.done) : Inv k carried d' := by
  obtain ⟨st, h⟩ := h
  have hdone1 : d.done = d.given.length := by simp [Dpu.done, hw]
  rcases idle_stage h hw with rfl | rfl
  · refine ⟨.gather, ⟨hgiven, fun v hv => by rw [hdeps]; exact h.holds.2 v hv⟩, fun t => ?_, hargs, ?_⟩
    · have ha := h.allows t
      rw [hpc]
      cases hp : d.pc t with
      | outer =>
        rw [hp] at ha
        exact (congrFun hround t).trans (ha.trans hdone.symm)
      | wait =>
        rw [hp] at ha
        exact (congrFun hround t).trans (ha.trans hdone.symm)
      | check =>
        rw [hp] at ha
        exact (congrFun hround t).trans (ha.trans hdone.symm)
      | start =>
        rw [hp] at ha
        exact absurd (hw.symm.trans ha.2.1) nofun
      | «at» j c =>
        rw [hp] at ha
        exact absurd (hw.symm.trans ha.2.1) nofun
      | inBarrier j =>
        rw [hp] at ha
        exact absurd (hw.symm.trans ha.2.1) nofun
      | ret =>
        rw [hp] at ha
        exact absurd (hw.symm.trans ha.1) nofun
      | bootBarrier =>
        rw [hp] at ha
        exact ha.elim
      | inBootBarrier =>
        rw [hp] at ha
        exact ha.elim
    · rw [hpc]
      exact h.awake
  · refine ⟨.closing, ⟨hgiven, fun v hv => by rw [hdeps]; exact h.holds.2 v hv⟩, fun t => ?_, hargs, ?_⟩
    · have ha := h.allows t
      rw [hpc]
      cases hp : d.pc t with
      | «at» j c =>
        rw [hp] at ha
        exact ⟨ha.1, ha.2.1, (congrFun hround t).trans (ha.2.2.trans hdone.symm)⟩
      | inBarrier j =>
        rw [hp] at ha
        exact ⟨ha.1, (congrFun hround t).trans (ha.2.trans hdone.symm)⟩
      | _ =>
        rw [hp] at ha
        exact ha.elim
    · rw [hpc]
      exact h.awake

theorem given_ne_nil {k : Kernel α} {carried : List Var} {d : Dpu α} (h : Inv k carried d) (hw : d.word = 1) :
    d.given ≠ [] := by
  obtain ⟨st, h⟩ := h
  rcases idle_stage h hw with rfl | rfl
  · exact h.holds.1
  · exact h.holds.1

theorem step_inv {k : Kernel α} {carried : List Var} (hl : k.Lawful carried) {d : Dpu α} (h : Inv k carried d)
    (hne : ∀ a ∈ d.given, k.empty a = false) (a : Act α) : Inv k carried (step k d a) := by
  cases a with
  | tasklet t more => exact tasklet_inv hl h hne t more
  | args a =>
    simp only [step]
    split_ifs with hw
    · have hgiven := given_ne_nil h hw
      exact host_inv h hw rfl rfl rfl hgiven (fun h2 => absurd (hw.symm.trans h2) nofun) rfl
    · exact h
  | restart =>
    simp only [step]
    split_ifs with hw
    · have hgiven : d.go.given = d.given ++ [d.args] := by simp [Dpu.go, hw]
      have hlast : d.go.given.getLast? = some d.args := by rw [hgiven, List.getLast?_concat]
      refine host_inv h hw rfl rfl rfl (by simp [hgiven]) (fun _ => hlast) ?_
      have htwo : d.go.word = 2 := rfl
      simp [Dpu.done, htwo, hgiven, hw]
    · exact h
  | stop =>
    simp only [step]
    split_ifs with hw
    · have hgiven := given_ne_nil h hw
      exact host_inv h hw rfl rfl rfl hgiven nofun (by simp [Dpu.done, hw])
    · exact h

/-- a tasklet gives the DPU at most the round that its start begins, and leaves the arguments as they are -/
theorem tasklet_given (k : Kernel α) (d : Dpu α) (t : Tasklet) (more : Bool) :
    ((taskletStep k d t more).given = d.given ∨ (taskletStep k d t more).given = d.given ++ [d.args]) ∧
      (taskletStep k d t more).args = d.args := by
  have hmove : ∀ pc, (d.move t pc).given = d.given ∧ (d.move t pc).args = d.args := fun _ => ⟨rfl, rfl⟩
  have harrive : ∀ inside, (d.arrive k t inside).given = d.given ∧ (d.arrive k t inside).args = d.args := by
    intro inside
    unfold Dpu.arrive
    split_ifs
    · exact ⟨rfl, rfl⟩
    · exact ⟨rfl, rfl⟩
  have haccess : ∀ r o, (d.access r o).given = d.given ∧ (d.access r o).args = d.args := by
    intro r o
    cases o <;> exact ⟨rfl, rfl⟩
  unfold taskletStep
  split
  · simp only
    generalize (if k.bootBarrier.isSome = true then Pc.bootBarrier else Pc.outer) = pc
    split_ifs
    · refine ⟨?_, rfl⟩
      simp only [Dpu.go]
      split_ifs
      · exact .inl rfl
      · exact .inr rfl
    · exact ⟨.inl rfl, rfl⟩
  · exact ⟨.inl (harrive _).1, (harrive _).2⟩
  · exact ⟨.inl rfl, rfl⟩
  · split_ifs <;> exact ⟨.inl rfl, rfl⟩
  · split_ifs <;> exact ⟨.inl rfl, rfl⟩
  · split_ifs <;> exact ⟨.inl rfl, rfl⟩
  · exact ⟨.inl (harrive _).1, (harrive _).2⟩
  · split_ifs
    · exact ⟨.inl rfl, rfl⟩
    · exact ⟨.inl (haccess _ _).1, (haccess _ _).2⟩
  · exact ⟨.inl rfl, rfl⟩
  · exact ⟨.inl rfl, rfl⟩
  · exact ⟨.inl rfl, rfl⟩
  · exact ⟨.inl rfl, rfl⟩

/-- rounds that have been given are never taken back -/
theorem given_mono (k : Kernel α) (d : Dpu α) (a : Act α) : d.given <+: (step k d a).given := by
  cases a with
  | tasklet t more =>
    simp only [step]
    rcases (tasklet_given k d t more).1 with h | h
    · rw [h]
    · rw [h]
      exact List.prefix_append _ _
  | args a =>
    simp only [step]
    split_ifs <;> exact List.prefix_rfl
  | restart =>
    simp only [step]
    split_ifs with hw
    · simp [Dpu.go, hw]
    · exact List.prefix_rfl
  | stop =>
    simp only [step]
    split_ifs <;> exact List.prefix_rfl

/-- between two rounds no tasklet writes the state word -/
theorem rests {k : Kernel α} {carried : List Var} {d : Dpu α} (h : Inv k carried d) (hw : d.word ≠ 2) (hg : d.given ≠ [])
    (t : Tasklet) (more : Bool) :
    (taskletStep k d t more).word = d.word ∧ (taskletStep k d t more).given = d.given := by
  obtain ⟨st, h⟩ := h
  have harrive : ∀ inside, (d.arrive k t inside).word = d.word ∧ (d.arrive k t inside).given = d.given := by
    intro inside
    unfold Dpu.arrive
    split_ifs
    · exact ⟨rfl, rfl⟩
    · exact ⟨rfl, rfl⟩
  have ha := h.allows t
  cases st with
  | boot =>
    rcases h.holds.1 with ⟨-, h0⟩ | ⟨h2, -⟩
    · exact absurd h0 hg
    · exact absurd h2 hw
  | seg i => exact absurd h.holds.2.1 hw
  | last => exact absurd h.holds.2 hw
  | gather =>
    cases hp : d.pc t with
    | outer =>
      simp only [taskletStep, hp]
      split_ifs <;> exact ⟨rfl, rfl⟩
    | wait =>
      simp only [taskletStep, hp, if_pos hw]
      exact ⟨rfl, rfl⟩
    | check =>
      simp only [taskletStep, hp]
      split_ifs <;> exact ⟨rfl, rfl⟩
    | ret =>
      have hstay : taskletStep k d t more = d := by simp only [taskletStep, hp]
      rw [hstay]
      exact ⟨rfl, rfl⟩
    | start =>
      rw [hp] at ha
      exact absurd ha.2.1 hw
    | «at» j c =>
      rw [hp] at ha
      exact absurd ha.2.1 hw
    | inBarrier j =>
      rw [hp] at ha
      exact absurd ha.2.1 hw
    | _ =>
      rw [hp] at ha
      exact ha.elim
  | closing =>
    cases hp : d.pc t with
    | «at» j c =>
      rw [hp] at ha
      obtain ⟨-, rfl, -⟩ := ha
      simp only [taskletStep, hp]
      exact harrive _
    | inBarrier j =>
      have hstay : taskletStep k d t more = d := by simp only [taskletStep, hp]
      rw [hstay]
      exact ⟨rfl, rfl⟩
    | _ =>
      rw [hp] at ha
      exact ha.elim

/-- **Every run** of a lawful program whose rounds are given arguments that are not empty keeps all tasklets in one stage. -/
theorem run_inv {k : Kernel α} {carried : List Var} (hl : k.Lawful carried) (a : α) (acts : List (Act α))
    (hne : ∀ b ∈ (run k (init a) acts).given, k.empty b = false) : Inv k carried (run k (init a) acts) := by
  induction acts using List.reverseRecOn with
  | nil => exact init_inv k carried a
  | append_singleton acts x ih =>
    rw [run_snoc] at hne ⊢
    have hne' : ∀ b ∈ (run k (init a) acts).given, k.empty b = false :=
      fun b hb => hne b ((given_mono k _ x).subset hb)
    exact step_inv hl (ih hne') hne' x

end PimOfis.Tasklets
