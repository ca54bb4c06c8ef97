/-
The two programs of the OFIS hosts, `main` of `CSR_dpu.c` (SpMV) and of `pr_kernel.c` (PageRank), as tasklets in rounds.

SpMV has three barriers: tasklet 0 resets the heap before the first, all compute before the second, tasklet 0 reports before
the third. All its tasklets write 2 when they start. PageRank uses one barrier 160 times: tasklet 0 alone writes 2 before
the first use, and a round has 159 segments. Its tasklets return early where the sub-graph they are given is empty.

In the code of a segment the arguments, `ptr`, and what the host has put into MRAM are all `readArgs`; `rank` and the output
vector are `output` where they are written. The mutexes make an `update` of a section of `add` one step.

Results:
- `spmv_lawful`, `pageRank_lawful`: both programs keep to the rules;
- `all_return`: after the host has written 0, tasklets that get their turns all return;
- `tasklets_agree`: in every run the tasklets agree on rounds.
-/
import Mathlib.Tactic
import PimOfis.Tasklets.Stages

namespace PimOfis.Tasklets

variable {α : Type}

/-! ## The programs -/

/-- before `my_barrier` -/
def spmvReset (t : Tasklet) : Code := if t = 0 then .ofOps [.clear .heap] else .nil

/-- one row: its end, its entries, and a write of every second result -/
def spmvRow : Code :=
  .op .readArgs (.loop (.ofOps [.readArgs]) (.opt (.ofOps [.output]) .nil))

/-- between `my_barrier` and `exec_barrier`; the body is that of `if(rows_per_tasklets != 0 && nr_rows != 0)` -/
def spmvWork (_ : Tasklet) : Code :=
  .op .readArgs
    (.opt
      ((Code.ofOps [.readArgs, .write .nnzOffset, .update .heap, .readArgs, .read .nnzOffset, .read .nnzOffset,
          .update .heap, .update .heap, .readArgs, .readArgs, .update .heap, .update .heap]).seq
        (.loop spmvRow (.opt (.ofOps [.output]) .nil)))
      .nil)

/-- before `flag_barrier` -/
def spmvReport (t : Tasklet) : Code := if t = 0 then .ofOps [.report] else .nil

/-- `main` of `CSR_dpu.c` -/
def spmvKernel (α : Type) : Kernel α where
  boots _ := true
  bootBarrier := none
  segments := [spmvReset, spmvWork, spmvReport]
  barrier i := i
  empty _ := false

/-- `tid / GROUP` -/
def tidGroup (t : Tasklet) : Fin 4 := ⟨t.val / 4, by omega⟩

/-- from the top of the loop to the barrier after `mem_alloc` -/
def prReset (t : Tasklet) : Code :=
  .op .returnIfEmpty (.op .readArgs
    (if t = 0 then .ofOps [.clear .heap, .readArgs, .update .heap, .write .addPtr] else .nil))

/-- `if(tid == tid_group * GROUP)`: the first of a group zeroes its section -/
def prZero (t : Tasklet) : Code :=
  if t.val = (tidGroup t).val * 4 then .ofOps [.readArgs, .read .addPtr, .clear (.add (tidGroup t))] else .nil

/-- `rank` and the reader of the edges are set up, and the first iteration begins -/
def prInit (t : Tasklet) : Code :=
  .op .readArgs (.loop (.ofOps [.readArgs, .output]) ((Code.ofOps [.readArgs, .update .heap]).seq (prZero t)))

/-- the nodes of a tasklet: their edges are counted, and their moves added -/
def prAccumulate (t : Tasklet) : Code :=
  .loop
    (.op .readArgs (.loop (.ofOps [.readArgs])
      (.opt
        (.op .readArgs (.loop (.op .readArgs (.opt (.ofOps [.read .addPtr, .update (.add (tidGroup t))]) .nil)) .nil))
        .nil)))
    .nil

/-- the nodes of a tasklet: `acc` over the four sections -/
def prSum (_ : Tasklet) : Code :=
  .loop
    (.ofOps [.readArgs, .read .addPtr, .read (.add 0), .read (.add 1), .read (.add 2), .read (.add 3), .readArgs, .output])
    .nil

/-- `// 2. Refinement` -/
def prRefine (_ : Tasklet) : Code := .op (.update .heap) (.loop (.ofOps [.readArgs, .output]) .nil)

/-- `// 3. Normalization` up to its barrier -/
def prNorm (t : Tasklet) : Code := if t = 0 then .loop (.ofOps [.readArgs, .update .normSum]) .nil else .nil

def prDivide (_ : Tasklet) : Code := .loop (.ofOps [.read .normSum, .output]) .nil

/-- `// 5. Result Fusion` -/
def prFuse (_ : Tasklet) : Code := .loop (.ofOps [.readArgs, .output]) .nil

def prReport (t : Tasklet) : Code := if t = 0 then .ofOps [.clear .normSum, .report] else .nil

/-- the segments after the first barrier of a round, but for the last; `ITER` is 50, and the first iteration begins in
`prInit` -/
def prBody : List (Tasklet → Code) :=
  [prInit, prAccumulate, prSum] ++ (List.replicate 49 [prZero, prAccumulate, prSum]).flatten ++
    [prRefine, prNorm, prDivide, prZero, prAccumulate, prSum, prFuse]

/-- `main` of `pr_kernel.c` -/
def pageRankKernel (empty : α → Bool) : Kernel α where
  boots t := decide (t = 0)
  bootBarrier := some 0
  segments := prReset :: (prBody ++ [prReport])
  barrier _ := 0
  empty := empty

/-! ## They are lawful -/

/-- a program given by its first segment, those in the middle, and its last -/
theorem Kernel.Lawful.of_segments {k : Kernel α} {carried : List Var} (first : Tasklet → Code)
    (body : List (Tasklet → Code)) (last : Tasklet → Code) (hs : k.segments = first :: (body ++ [last]))
    (hboot : (k.bootBarrier = none → ∀ t, k.boots t = true) ∧ (k.bootBarrier ≠ none → ∀ t, k.boots t = decide (t = 0)))
    (hsafe : (∀ t, (first t).Safe fun v => v ∈ carried) ∧
      ∀ i (f : Tasklet → Code), body[i]? = some f → ∀ t, (f t).Safe (k.Cleaned carried (i + 1)))
    (hquiet : (∀ t, (first t).All fun o => o ≠ .report) ∧ ∀ f ∈ body, ∀ t, (f t).All fun o => o ≠ .report)
    (hreturns : ∀ f ∈ body, ∀ t, (f t).All fun o => o ≠ .returnIfEmpty)
    (hfirst : ∀ t, (first t).All fun o => ∀ v ∈ carried, ¬ o.touches v)
    (hlast : last 0 = .ofOps (carried.map .clear ++ [.report]) ∧ ∀ t ≠ 0, last t = .nil) : k.Lawful carried := by
  have hzero : ∀ t, k.code 0 t = first t := fun t => by simp [Kernel.code, hs]
  have hlen : k.segments.length = body.length + 2 := by simp [hs]
  have hlastCode : ∀ t, k.code (k.segments.length - 1) t = last t := by
    intro t
    simp [Kernel.code, hs]
  have hmid : ∀ i t, i + 1 < k.segments.length - 1 → ∃ f, body[i]? = some f ∧ k.code (i + 1) t = f t := by
    intro i t hi
    have hib : i < body.length := by omega
    refine ⟨body[i], List.getElem?_eq_getElem hib, ?_⟩
    simp [Kernel.code, hs, List.getElem?_append_left hib, List.getElem?_eq_getElem hib]
  have hpast : ∀ i t, k.segments.length ≤ i → k.code i t = .nil := by
    intro i t hi
    simp [Kernel.code, List.getElem?_eq_none hi]
  -- the last segment reads nothing, and returns nowhere
  have hends : ∀ t, (∀ known, (last t).Safe known) ∧ (last t).All fun o => o ≠ .returnIfEmpty := by
    intro t
    by_cases ht : t = 0
    · subst ht
      rw [hlast.1]
      have hops : ∀ (l : List Var), (∀ known, (Code.ofOps (l.map .clear ++ [.report])).Safe known) ∧
          (Code.ofOps (l.map .clear ++ [.report])).All fun o => o ≠ .returnIfEmpty := by
        intro l
        induction l with
        | nil => exact ⟨fun _ => ⟨fun _ h => h.elim, trivial⟩, nofun, trivial⟩
        | cons v l ih => exact ⟨fun _ => ⟨fun _ h => h.elim, ih.1 _⟩, nofun, ih.2⟩
      exact hops carried
    · rw [hlast.2 t ht]
      exact ⟨fun _ => trivial, trivial⟩
  refine ⟨by omega, hboot.1, hboot.2, fun i t => ?_, fun i t hi => ?_, fun i t hi => ?_, fun t => ?_, ?_, fun t ht => ?_⟩
  · rcases Nat.lt_or_ge i k.segments.length with hi | hi
    · rcases Nat.eq_zero_or_pos i with rfl | hpos
      · rw [hzero]
        exact (hsafe.1 t).mono fun v hv => .inl hv
      · obtain ⟨j, rfl⟩ := Nat.exists_eq_add_of_lt hpos
        rw [Nat.zero_add] at hi ⊢
        rcases Nat.lt_or_ge (j + 1) (k.segments.length - 1) with hj | hj
        · obtain ⟨f, hf, hcode⟩ := hmid j t hj
          rw [hcode]
          exact hsafe.2 j f hf t
        · rw [show j + 1 = k.segments.length - 1 by omega, hlastCode]
          exact (hends t).1 _
    · rw [hpast i t hi]
      trivial
  · rcases Nat.eq_zero_or_pos i with rfl | hpos
    · rw [hzero]
      exact hquiet.1 t
    · obtain ⟨j, rfl⟩ := Nat.exists_eq_add_of_lt hpos
      rw [Nat.zero_add] at hi ⊢
      obtain ⟨f, hf, hcode⟩ := hmid j t (by omega)
      rw [hcode]
      exact hquiet.2 f (List.mem_of_getElem? hf) t
  · obtain ⟨j, rfl⟩ := Nat.exists_eq_add_of_lt hi
    rw [Nat.zero_add]
    rcases Nat.lt_or_ge (j + 1) (k.segments.length - 1) with hj | hj
    · obtain ⟨f, hf, hcode⟩ := hmid j t hj
      rw [hcode]
      exact hreturns f (List.mem_of_getElem? hf) t
    · rcases Nat.lt_or_ge (j + 1) k.segments.length with hn | hn
      · rw [show j + 1 = k.segments.length - 1 by omega, hlastCode]
        exact (hends t).2
      · rw [hpast _ t hn]
        trivial
  · rw [hzero]
    exact hfirst t
  · rw [hlastCode]
    exact hlast.1
  · rw [hlastCode]
    exact hlast.2 t ht

theorem spmv_lawful : (spmvKernel α).Lawful [] := by
  have hheap : (spmvKernel α).Cleaned [] 1 .heap := .inr ⟨0, Nat.one_pos, 0, .inl rfl⟩
  refine Kernel.Lawful.of_segments spmvReset [spmvWork] spmvReport rfl ⟨fun _ _ => rfl, fun h => absurd rfl h⟩ ⟨fun t => ?_, fun i f hf t => ?_⟩ ⟨fun t => ?_, fun f hf t => ?_⟩
    (fun f hf t => ?_) (fun t => ?_) ⟨rfl, fun t ht => if_neg ht⟩
  · unfold spmvReset
    split_ifs <;> simp [Code.ofOps, Code.Safe, Op.reads]
  · obtain ⟨rfl, rfl⟩ : i = 0 ∧ spmvWork = f := by
      rcases i with _ | i
      · exact ⟨rfl, by simpa using hf⟩
      · simp at hf
    simp [spmvWork, spmvRow, Code.ofOps, Code.seq, Code.Safe, Op.reads, Op.cleans, hheap]
  · unfold spmvReset
    split_ifs <;> simp [Code.ofOps, Code.All]
  · rw [List.mem_singleton.mp hf]
    simp [spmvWork, spmvRow, Code.ofOps, Code.seq, Code.All]
  · rw [List.mem_singleton.mp hf]
    simp [spmvWork, spmvRow, Code.ofOps, Code.seq, Code.All]
  · unfold spmvReset
    split_ifs <;> simp [Code.ofOps, Code.All]

/-- the segments after `prInit` -/
theorem mem_prBody {f : Tasklet → Code} (h : f ∈ prBody) :
    f = prInit ∨ f = prAccumulate ∨ f = prSum ∨ f = prZero ∨ f = prRefine ∨ f = prNorm ∨ f = prDivide ∨ f = prFuse := by
  simp only [prBody, List.mem_append, List.mem_flatten, List.mem_replicate, List.mem_cons, List.not_mem_nil, or_false] at h
  rcases h with (h | ⟨l, ⟨-, rfl⟩, h⟩) | h
  · tauto
  · simp only [List.mem_cons, List.not_mem_nil, or_false] at h
    tauto
  · tauto

/-- every variable of the PageRank program but `nnzOffset`, which it does not have -/
theorem prBody_safe {f : Tasklet → Code} (h : f ∈ prBody) (t : Tasklet) {known : Var → Prop}
    (hk : known .heap ∧ known .addPtr ∧ known .normSum ∧ (f ≠ prInit → ∀ g, known (.add g))) : (f t).Safe known := by
  obtain ⟨hheap, hptr, hnorm, hadd⟩ := hk
  rcases mem_prBody h with rfl | rfl | rfl | rfl | rfl | rfl | rfl | rfl
  · unfold prInit prZero
    split_ifs <;> simp [Code.ofOps, Code.seq, Code.Safe, Op.reads, Op.cleans, hheap, hptr]
  · by_cases hf : prAccumulate = prInit
    · exact absurd (congrFun hf 1) (by decide)
    · simp [prAccumulate, Code.ofOps, Code.Safe, Op.reads, hptr, hadd hf]
  · by_cases hf : prSum = prInit
    · exact absurd (congrFun hf 1) (by decide)
    · simp [prSum, Code.ofOps, Code.Safe, Op.reads, hptr, hadd hf]
  · unfold prZero
    split_ifs <;> simp [Code.ofOps, Code.Safe, Op.reads, hptr]
  · simp [prRefine, Code.ofOps, Code.Safe, Op.reads, hheap]
  · unfold prNorm
    split_ifs <;> simp [Code.ofOps, Code.Safe, Op.reads, hnorm]
  · simp [prDivide, Code.ofOps, Code.Safe, Op.reads, hnorm]
  · simp [prFuse, Code.ofOps, Code.Safe, Op.reads]

theorem prBody_all {f : Tasklet → Code} (h : f ∈ prBody) (t : Tasklet) :
    (f t).All (fun o => o ≠ .report) ∧ (f t).All fun o => o ≠ .returnIfEmpty := by
  rcases mem_prBody h with rfl | rfl | rfl | rfl | rfl | rfl | rfl | rfl
  · unfold prInit prZero
    split_ifs <;> simp [Code.ofOps, Code.seq, Code.All]
  · simp [prAccumulate, Code.ofOps, Code.All]
  · simp [prSum, Code.ofOps, Code.All]
  · unfold prZero
    split_ifs <;> simp [Code.ofOps, Code.All]
  · simp [prRefine, Code.ofOps, Code.All]
  · unfold prNorm
    split_ifs <;> simp [Code.ofOps, Code.All]
  · simp [prDivide, Code.ofOps, Code.All]
  · simp [prFuse, Code.ofOps, Code.All]

theorem pageRank_lawful (empty : α → Bool) : (pageRankKernel empty).Lawful [.normSum] := by
  have hreset : (pageRankKernel empty).code 0 0 = prReset 0 := rfl
  have hinit : ∀ t, (pageRankKernel empty).code 1 t = prInit t := fun _ => rfl
  have hknown : ∀ i, (pageRankKernel empty).Cleaned [.normSum] (i + 1) .heap ∧
      (pageRankKernel empty).Cleaned [.normSum] (i + 1) .addPtr ∧
      (pageRankKernel empty).Cleaned [.normSum] (i + 1) .normSum := by
    intro i
    refine ⟨.inr ⟨0, i.succ_pos, 0, ?_⟩, .inr ⟨0, i.succ_pos, 0, ?_⟩, .inl List.mem_cons_self⟩
    · rw [hreset]
      simp [prReset, Code.ofOps, Code.Must, Op.cleans]
    · rw [hreset]
      simp [prReset, Code.ofOps, Code.Must, Op.cleans]
  -- the first tasklet of each group zeroes its section in `prInit`
  have hadd : ∀ i g, (pageRankKernel empty).Cleaned [.normSum] (i + 2) (.add g) := by
    intro i g
    refine .inr ⟨1, by omega, ⟨4 * g.val, by omega⟩, ?_⟩
    have hg : tidGroup ⟨4 * g.val, by omega⟩ = g := Fin.ext (Nat.mul_div_cancel_left g.val (by decide))
    rw [hinit, prInit, prZero, hg, if_pos (Nat.mul_comm 4 g.val)]
    simp [Code.ofOps, Code.seq, Code.Must, Op.cleans]
  refine Kernel.Lawful.of_segments prReset prBody prReport rfl ⟨fun h => absurd h (Option.some_ne_none _), fun _ _ => rfl⟩
    ⟨fun t => ?_, fun i f hf t => ?_⟩ ⟨fun t => ?_, fun f hf t => (prBody_all hf t).1⟩ (fun f hf t => (prBody_all hf t).2)
    (fun t => ?_) ⟨rfl, fun t ht => if_neg ht⟩
  · unfold prReset
    split_ifs <;> simp [Code.ofOps, Code.Safe, Op.reads, Op.cleans]
  · refine prBody_safe (List.mem_of_getElem? hf) t ⟨(hknown i).1, (hknown i).2.1, (hknown i).2.2, fun hne => ?_⟩
    cases i with
    | zero => exact absurd (Option.some.inj hf).symm hne
    | succ i => exact hadd i
  · unfold prReset
    split_ifs <;> simp [Code.ofOps, Code.All]
  · unfold prReset
    split_ifs <;> simp [Code.ofOps, Code.All, Op.touches]

/-! ## Rounds -/

/-- nothing of a round is left to do -/
def Pc.Finished : Pc → Prop
  | .at _ c => c = .nil
  | .start => False
  | .bootBarrier => False
  | .inBootBarrier => False
  | _ => True

/-- **The tasklets agree on rounds.** -/
structure RoundsAgree (d : Dpu α) : Prop where
  /-- each tasklet has begun every round it was given, or all but the last -/
  rounds : ∀ t, d.round t ≤ d.given.length ∧ d.given.length ≤ d.round t + 1
  /-- wherever it has an access to do, the arguments are those its round was given -/
  args : ∀ t i o rest, d.pc t = .at i (.op o rest) → d.given[d.round t - 1]? = some d.args
  /-- the variables it reads in a round depend on accesses of that round alone -/
  vars : ∀ t i o rest v, d.pc t = .at i (.op o rest) → o.reads v → ∀ r ∈ d.deps v, r = d.round t
  /-- the word is 1 only when every tasklet has finished the last round -/
  reported : d.word = 1 → ∀ t, (d.pc t).Finished ∧ d.round t = d.given.length
  /-- a tasklet returns only when the host has written 0, after every round -/
  returned : ∀ t, d.pc t = .ret → d.word = 0 ∧ d.round t = d.given.length

theorem Stage.Allows.round {k : Kernel α} {carried : List Var} {d : Dpu α} {t : Tasklet} {st : Stage} {pc : Pc}
    (h : st.Allows k carried d t pc) : st = .boot ∨ d.round t = d.done ∨ d.round t = d.given.length := by
  unfold Stage.Allows at h
  split at h
  · exact .inl rfl
  · exact .inl rfl
  · exact .inl rfl
  · exact .inr (.inl h.2.2)
  · exact .inr (.inl h)
  · exact .inr (.inl h)
  · exact .inr (.inl h)
  · exact .inr (.inr h.2.2.1)
  · exact .inr (.inr h.2.2.1)
  · exact .inr (.inr h.2)
  · exact .inr (.inr h.2.1)
  · exact .inr (.inr h.2.1)
  · exact .inr (.inr h.2.1)
  · exact .inr (.inr h.2.1)
  · exact .inr (.inl h.2.2)
  · exact .inr (.inl h.2)
  · exact h.elim

/-- a tasklet with an access to do is in the present round, and reads clean variables -/
theorem InStage.working {k : Kernel α} {carried : List Var} {d : Dpu α} {st : Stage} (h : InStage k carried d st)
    {t : Tasklet} {i : ℕ} {o : Op} {rest : Code} (hp : d.pc t = .at i (.op o rest)) :
    d.word = 2 ∧ d.round t = d.given.length ∧ ∀ v, o.reads v → d.Clean v := by
  have ha := h.allows t
  rw [hp] at ha
  cases st with
  | boot => exact ha.elim
  | gather => exact ⟨ha.2.1, ha.2.2.1, ha.2.2.2.safe.1⟩
  | seg j => exact ⟨h.holds.2.1, ha.2.1, ha.2.2.safe.1⟩
  | last =>
    refine ⟨h.holds.2, ha.2.1, fun v hv => ?_⟩
    by_cases ht : t = 0
    · -- tasklet 0 clears and reports, it reads nothing
      obtain ⟨l1, l2, -, hcode, -⟩ := ha.2.2.1 ht
      cases l2 with
      | nil =>
        obtain ⟨rfl, -⟩ : o = .report ∧ _ := by simpa [Code.ofOps] using hcode
        exact hv.elim
      | cons w l2 =>
        obtain ⟨rfl, -⟩ : o = .clear w ∧ _ := by simpa [Code.ofOps] using hcode
        exact hv.elim
    · exact absurd (ha.2.2.2 ht) (by simp)
  | closing => exact absurd ha.2.1 (by simp)

theorem InStage.roundsAgree {k : Kernel α} {carried : List Var} {d : Dpu α} {st : Stage} (h : InStage k carried d st) :
    RoundsAgree d where
  rounds t := by
    have hd : d.done ≤ d.given.length ∧ d.given.length ≤ d.done + 1 := by
      unfold Dpu.done
      split_ifs <;> omega
    rcases (h.allows t).round with rfl | hr | hr
    · obtain ⟨hword, hround, -⟩ := h.holds
      rw [hround t]
      rcases hword with ⟨-, hg⟩ | ⟨-, hg, -⟩
      · simp [hg]
      · omega
    · rw [hr]
      exact hd
    · rw [hr]
      omega
  args t i o rest hp := by
    obtain ⟨hw, hr, -⟩ := h.working hp
    rw [hr, ← List.getLast?_eq_getElem?]
    exact h.args hw
  vars t i o rest v hp hv r hr := by
    obtain ⟨-, hround, hclean⟩ := h.working hp
    rw [hround]
    exact hclean v hv r hr
  reported hw t := by
    have ha := h.allows t
    have hdone : d.done = d.given.length := by simp [Dpu.done, hw]
    rcases idle_stage h hw with rfl | rfl
    · cases hp : d.pc t with
      | outer =>
        rw [hp] at ha
        exact ⟨trivial, ha.trans hdone⟩
      | wait =>
        rw [hp] at ha
        exact ⟨trivial, ha.trans hdone⟩
      | check =>
        rw [hp] at ha
        exact ⟨trivial, ha.trans hdone⟩
      | start =>
        rw [hp] at ha
        exact absurd (hw.symm.trans ha.2.1) (by simp)
      | «at» j c =>
        rw [hp] at ha
        exact absurd (hw.symm.trans ha.2.1) (by simp)
      | inBarrier j =>
        rw [hp] at ha
        exact absurd (hw.symm.trans ha.2.1) (by simp)
      | ret =>
        rw [hp] at ha
        exact absurd (hw.symm.trans ha.1) (by simp)
      | bootBarrier =>
        rw [hp] at ha
        exact ha.elim
      | inBootBarrier =>
        rw [hp] at ha
        exact ha.elim
    · cases hp : d.pc t with
      | «at» j c =>
        rw [hp] at ha
        exact ⟨ha.2.1, ha.2.2.trans hdone⟩
      | inBarrier j =>
        rw [hp] at ha
        exact ⟨trivial, ha.2.trans hdone⟩
      | _ =>
        rw [hp] at ha
        exact ha.elim
  returned t hp := by
    have ha := h.allows t
    rw [hp] at ha
    cases st with
    | gather => exact ha
    | _ => exact ha.elim

/-! ## The end -/

/-- the steps a tasklet has left once the word is 0 -/
def Pc.weight : Pc → ℕ
  | .at _ _ => 3
  | .inBarrier _ => 2
  | .wait => 2
  | .outer => 1
  | .check => 1
  | _ => 0

def Dpu.weight (d : Dpu α) : ℕ := ∑ t, (d.pc t).weight

theorem weight_le (d : Dpu α) : d.weight ≤ 48 := by
  have hle : ∀ t ∈ Finset.univ, (d.pc t).weight ≤ 3 := by
    intro t _
    cases d.pc t <;> simp [Pc.weight]
  calc d.weight ≤ ∑ _t : Tasklet, 3 := Finset.sum_le_sum hle
    _ = 48 := by simp

theorem weight_lt {d d' : Dpu α} (hle : ∀ u, (d'.pc u).weight ≤ (d.pc u).weight) {t : Tasklet}
    (hlt : (d'.pc t).weight < (d.pc t).weight) : d'.weight < d.weight :=
  Finset.sum_lt_sum (fun u _ => hle u) ⟨t, Finset.mem_univ t, hlt⟩

theorem move_weight {d : Dpu α} {t : Tasklet} {pc : Pc} (h : pc.weight < (d.pc t).weight) :
    (d.move t pc).weight < d.weight := by
  refine weight_lt (t := t) (fun u => ?_) (by simpa [Dpu.move] using h)
  by_cases hu : u = t
  · subst hu
    simpa [Dpu.move] using h.le
  · simp [Dpu.move, hu]

/-- the word is 0 after a round -/
structure Stopped (k : Kernel α) (carried : List Var) (d : Dpu α) : Prop where
  inv : Inv k carried d
  word : d.word = 0
  given : d.given ≠ []

theorem Stopped.stage {k : Kernel α} {carried : List Var} {d : Dpu α} (h : Stopped k carried d) :
    InStage k carried d .gather ∨ InStage k carried d .closing := by
  obtain ⟨st, hst⟩ := h.inv
  cases st with
  | boot =>
    rcases hst.holds.1 with ⟨-, hg⟩ | ⟨hw, -⟩
    · exact absurd hg h.given
    · exact absurd (h.word.symm.trans hw) nofun
  | gather => exact .inl hst
  | seg i => exact absurd (h.word.symm.trans hst.holds.2.1) nofun
  | last => exact absurd (h.word.symm.trans hst.holds.2) nofun
  | closing => exact .inr hst

/-- a step of a tasklet that is neither blocked nor back brings it nearer to its end -/
theorem Stopped.tasklet {k : Kernel α} {carried : List Var} (hl : k.Lawful carried) {d : Dpu α} (h : Stopped k carried d)
    (t : Tasklet) (more : Bool) :
    ((d.pc t = .ret ∨ k.waitsAt (d.pc t) ≠ none) ∧ taskletStep k d t more = d) ∨
      ((taskletStep k d t more).weight < d.weight ∧ (taskletStep k d t more).word = 0 ∧
        (taskletStep k d t more).given = d.given) := by
  have hmove : ∀ pc : Pc, pc.weight < (d.pc t).weight →
      (d.move t pc).weight < d.weight ∧ (d.move t pc).word = 0 ∧ (d.move t pc).given = d.given :=
    fun pc hpc => ⟨move_weight hpc, h.word, rfl⟩
  rcases h.stage with hst | hst
  · have ha := hst.allows t
    cases hp : d.pc t with
    | outer =>
      simp only [taskletStep, hp, h.word, ne_eq, not_true_eq_false, if_false]
      exact .inr (hmove .ret (by simp [hp, Pc.weight]))
    | wait =>
      simp only [taskletStep, hp, h.word, ne_eq, OfNat.zero_ne_ofNat, not_false_eq_true, if_true]
      exact .inr (hmove .check (by simp [hp, Pc.weight]))
    | check =>
      simp only [taskletStep, hp, h.word, if_true]
      exact .inr (hmove .ret (by simp [hp, Pc.weight]))
    | ret =>
      have hstay : taskletStep k d t more = d := by simp only [taskletStep, hp]
      exact .inl ⟨.inl rfl, hstay⟩
    | start =>
      rw [hp] at ha
      exact absurd (h.word.symm.trans ha.2.1) (by simp)
    | «at» j c =>
      rw [hp] at ha
      exact absurd (h.word.symm.trans ha.2.1) (by simp)
    | inBarrier j =>
      rw [hp] at ha
      exact absurd (h.word.symm.trans ha.2.1) (by simp)
    | bootBarrier =>
      rw [hp] at ha
      exact ha.elim
    | inBootBarrier =>
      rw [hp] at ha
      exact ha.elim
  · have ha := hst.allows t
    cases hp : d.pc t with
    | «at» j c =>
      rw [hp] at ha
      obtain ⟨rfl, rfl, -⟩ := ha
      simp only [taskletStep, hp, Dpu.arrive]
      refine .inr ?_
      split_ifs with hall
      · -- all leave the last barrier
        have hlen := hl.length
        have hout : ∀ u, k.resume u (if u = t then .inBarrier (k.segments.length - 1) else d.pc u) = .outer ∧
            1 < (d.pc u).weight := by
          intro u
          by_cases hu : u = t
          · subst hu
            rw [if_pos rfl, hp]
            exact ⟨if_neg (by omega), by simp [Pc.weight]⟩
          · rw [if_neg hu]
            have hw := (hst.allows u).waits.resolve_left (by rw [hall u hu]; exact fun h => by cases h)
            rw [hw]
            exact ⟨if_neg (by omega), by simp [Stage.inside, Pc.weight]⟩
        have hpc : (fun u => k.resume u (if u = t then .inBarrier (k.segments.length - 1) else d.pc u)) = fun _ => .outer :=
          funext fun u => (hout u).1
        rw [hpc]
        exact ⟨weight_lt (t := t) (fun u => (hout u).2.le) (hout t).2, h.word, rfl⟩
      · exact hmove _ (by simp [hp, Pc.weight])
    | inBarrier j =>
      have hstay : taskletStep k d t more = d := by simp only [taskletStep, hp]
      exact .inl ⟨.inr (fun h => by cases h), hstay⟩
    | _ =>
      rw [hp] at ha
      exact ha.elim

/-- a step after the host has written 0: nothing happens, or the end is nearer -/
theorem Stopped.of_step {k : Kernel α} {carried : List Var} (hl : k.Lawful carried) {d : Dpu α} (h : Stopped k carried d)
    (hne : ∀ b ∈ d.given, k.empty b = false) (a : Act α) :
    step k d a = d ∨ ((step k d a).weight < d.weight ∧ Stopped k carried (step k d a) ∧ (step k d a).given = d.given) := by
  have hidle : d.word ≠ 1 := by
    rw [h.word]
    decide
  cases a with
  | tasklet t more =>
    rcases h.tasklet hl t more with ⟨-, hsame⟩ | ⟨hlt, hw, hg⟩
    · exact .inl hsame
    · exact .inr ⟨hlt, ⟨tasklet_inv hl h.inv hne t more, hw, hg ▸ h.given⟩, hg⟩
  | args a => exact .inl (if_neg hidle)
  | restart => exact .inl (if_neg hidle)
  | stop => exact .inl (if_neg hidle)

theorem Stopped.of_run {k : Kernel α} {carried : List Var} (hl : k.Lawful carried) {d : Dpu α} (h : Stopped k carried d)
    (hne : ∀ b ∈ d.given, k.empty b = false) (acts : List (Act α)) :
    run k d acts = d ∨ ((run k d acts).weight < d.weight ∧ Stopped k carried (run k d acts) ∧
      (run k d acts).given = d.given) := by
  induction acts using List.reverseRecOn with
  | nil => exact .inl rfl
  | append_singleton acts a ih =>
    rw [run_snoc]
    rcases ih with hsame | ⟨hlt, hst, hg⟩
    · rw [hsame]
      exact h.of_step hl hne a
    · rcases hst.of_step hl (hg ▸ hne) a with hstep | ⟨hlt', hst', hg'⟩
      · rw [hstep]
        exact .inr ⟨hlt, hst, hg⟩
      · exact .inr ⟨hlt'.trans hlt, hst', hg'.trans hg⟩

/-- in a stopped DPU with a tasklet that is not back some tasklet can move -/
theorem Stopped.awake {k : Kernel α} {carried : List Var} {d : Dpu α} (h : Stopped k carried d) {t : Tasklet}
    (ht : d.pc t ≠ .ret) : ∃ u, d.pc u ≠ .ret ∧ k.waitsAt (d.pc u) = none := by
  rcases h.stage with hst | hst
  · refine ⟨t, ht, (hst.allows t).waits.resolve_right fun hin => ?_⟩
    have ha := hst.allows t
    rw [hin] at ha
    exact absurd (h.word.symm.trans ha.2.1) nofun
  · obtain ⟨u, hu⟩ := hst.awake
    refine ⟨u, fun hret => ?_, hu⟩
    have ha := hst.allows u
    rw [hret] at ha
    exact ha

/-- while a turn of every tasklet goes by, a DPU that is not back comes nearer to its end -/
theorem Stopped.turn {k : Kernel α} {carried : List Var} (hl : k.Lawful carried) {d : Dpu α} (h : Stopped k carried d)
    (hne : ∀ b ∈ d.given, k.empty b = false) {acts : List (Act α)} (hacts : ∀ t, ∃ more, Act.tasklet t more ∈ acts)
    {t : Tasklet} (ht : d.pc t ≠ .ret) : (run k d acts).weight < d.weight := by
  obtain ⟨u, hu, hfree⟩ := h.awake ht
  obtain ⟨more, hmem⟩ := hacts u
  obtain ⟨before, after, rfl⟩ := List.append_of_mem hmem
  rw [show before ++ Act.tasklet u more :: after = (before ++ [.tasklet u more]) ++ after by simp, run_append, run_snoc]
  -- up to its turn either nothing has happened, or the end is nearer already
  have hturn : (step k (run k d before) (.tasklet u more)).weight < d.weight ∧
      Stopped k carried (step k (run k d before) (.tasklet u more)) ∧
      (step k (run k d before) (.tasklet u more)).given = d.given := by
    rcases h.of_run hl hne before with hsame | ⟨hlt, hst, hg⟩
    · rw [hsame]
      rcases h.tasklet hl u more with ⟨hblocked, -⟩ | ⟨hlt, hw, hg⟩
      · rcases hblocked with hret | hwait
        · exact absurd hret hu
        · exact absurd hfree hwait
      · exact ⟨hlt, ⟨tasklet_inv hl h.inv hne u more, hw, hg ▸ h.given⟩, hg⟩
    · rcases hst.of_step hl (hg ▸ hne) (.tasklet u more) with hstep | ⟨hlt', hst', hg'⟩
      · rw [hstep]
        exact ⟨hlt, hst, hg⟩
      · exact ⟨hlt'.trans hlt, hst', hg'.trans hg⟩
  obtain ⟨hlt, hst, hg⟩ := hturn
  rcases hst.of_run hl (hg ▸ hne) after with hsame | ⟨hlt', -, -⟩
  · rw [hsame]
    exact hlt
  · exact hlt'.trans hlt

/-- every tasklet gets a turn in each of these parts of a schedule -/
def Turns (parts : List (List (Act α))) : Prop := ∀ acts ∈ parts, ∀ t, ∃ more, Act.tasklet t more ∈ acts

/-- **The end.** After the host has written 0, tasklets that get as many turns as there are steps left all return. -/
theorem all_return {k : Kernel α} {carried : List Var} (hl : k.Lawful carried) {d : Dpu α} (h : Stopped k carried d)
    (hne : ∀ b ∈ d.given, k.empty b = false) {parts : List (List (Act α))} (hparts : Turns parts)
    (hlen : d.weight ≤ parts.length) (t : Tasklet) : (run k d parts.flatten).pc t = .ret := by
  induction parts generalizing d with
  | nil =>
    by_contra ht
    obtain ⟨u, hu, hfree⟩ := h.awake (t := t) ht
    rcases h.tasklet hl u true with ⟨hblocked, -⟩ | ⟨hlt, -, -⟩
    · rcases hblocked with hret | hwait
      · exact hu hret
      · exact hwait hfree
    · exact absurd (Nat.lt_of_lt_of_le hlt hlen) (Nat.not_lt_zero _)
  | cons acts parts ih =>
    rw [List.flatten_cons, run_append]
    have hrest : Turns parts := fun l hm => hparts l (List.mem_cons_of_mem _ hm)
    by_cases hall : ∀ u, d.pc u = .ret
    · -- nothing is left to do, and nothing happens
      have hzero : d.weight = 0 := Finset.sum_eq_zero fun u _ => by rw [hall u]; rfl
      rcases h.of_run hl hne acts with hsame | ⟨hlt, -, -⟩
      · rw [hsame]
        exact ih h hne hrest (by omega)
      · omega
    · obtain ⟨u, hu⟩ := not_forall.mp hall
      have hlt := h.turn hl hne (hparts acts List.mem_cons_self) hu
      rcases h.of_run hl hne acts with hsame | ⟨-, hst, hg⟩
      · rw [hsame] at hlt
        exact absurd hlt (lt_irrefl _)
      · rw [List.length_cons] at hlen
        exact ih hst (hg ▸ hne) hrest (by omega)

/-! ## Both programs -/

inductive Program where
  | spmv
  | pageRank

/-- the kernel of a program; of the two only PageRank looks whether its arguments are empty -/
def Program.kernel (empty : α → Bool) : Program → Kernel α
  | .spmv => spmvKernel α
  | .pageRank => pageRankKernel empty

theorem Program.lawful (empty : α → Bool) (p : Program) : ∃ carried, (p.kernel empty).Lawful carried := by
  cases p with
  | spmv => exact ⟨[], spmv_lawful⟩
  | pageRank => exact ⟨[.normSum], pageRank_lawful empty⟩

/-- **The tasklets of a DPU agree on rounds.** For both programs, whatever the host has sent (sub-graphs that are not empty,
for PageRank) and however tasklets and host take turns; and once the host has written 0, all 16 return, provided each of
them gets 48 turns. -/
theorem tasklets_agree (p : Program) (empty : α → Bool) (a : α) (acts : List (Act α))
    (hne : ∀ b ∈ (run (p.kernel empty) (init a) acts).given, (p.kernel empty).empty b = false) :
    RoundsAgree (run (p.kernel empty) (init a) acts) ∧
      ((run (p.kernel empty) (init a) acts).word = 0 → (run (p.kernel empty) (init a) acts).given ≠ [] →
        ∀ parts : List (List (Act α)), Turns parts → 48 ≤ parts.length →
          ∀ t, (run (p.kernel empty) (init a) (acts ++ parts.flatten)).pc t = .ret) := by
  obtain ⟨carried, hl⟩ := p.lawful empty
  have hinv := run_inv hl a acts hne
  refine ⟨?_, fun hw hg parts hparts hlen t => ?_⟩
  · obtain ⟨st, hst⟩ := hinv
    exact hst.roundsAgree
  · rw [run_append]
    exact all_return hl ⟨hinv, hw, hg⟩ hne hparts ((weight_le _).trans hlen) t

/-- a DPU of PageRank with a sub-graph of 3 nodes, whose tasklet 0 has written 2 -/
theorem tasklets_agree_three_nodes :
    RoundsAgree (run (Program.pageRank.kernel fun n : ℕ => n == 0) (init 3) [.tasklet 0 true]) :=
  (tasklets_agree .pageRank (fun n : ℕ => n == 0) 3 [.tasklet 0 true] (by decide)).1

end PimOfis.Tasklets
