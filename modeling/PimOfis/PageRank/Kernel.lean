/-
The DPU program of PageRank (`main` of `pr_kernel.c`) in exact arithmetic, with the values that its 16 tasklets compute.

A round is a program in phases. A tasklet has the nodes of one part of the sub-graph: it spreads their ranks into the section
of `add` that its group of four shares, under the mutex of the group, and adds the four sections up for them. `add`, `rank`
and `norm_sum` are what an earlier round left there. The heap in MRAM is a list of words, first `refine_vec`, with the number
of nodes rounded up, then `mat.idx`. Node numbers are `int` on the host, so that the casts to `int32_t` change nothing.

Results:
- `program_ok`: tasklets do not get in each other's way;
- `iteration_spec`: one iteration is a round of the walk inside the sub-graph;
- `program_spec`: what a round leaves, whatever was in WRAM before but for `norm_sum`.
-/
import Mathlib.Tactic
import PimOfis.Lib.Index
import PimOfis.Lib.Phases
import PimOfis.PageRank.Buffers
import PimOfis.PageRank.LocalRank

namespace PimOfis.PageRank.Kernel

open Lib Lib.Phases

/-! ## Model -/

/-- a word of the heap in MRAM -/
inductive Word where
  | float (q : ℚ)
  | uint (n : ℕ)
deriving DecidableEq

/-- `*current_ref` -/
def Word.asFloat : Word → ℚ
  | .float q => q
  | .uint _ => 0

/-- `*current_edge` -/
def Word.asUint : Word → ℕ
  | .float _ => 0
  | .uint n => n

/-- `arg`, `ptr` and the heap -/
structure Input where
  startNode : ℕ
  numNode : ℕ
  totNode : ℕ
  servRank : ℚ
  ptr : ℕ → ℕ
  heap : ℕ → Word

/-- `rank`, `add` and `norm_sum`, and the variables of each tasklet; `old` is the value that `add[...] += move` has loaded, and
is 0 outside the section -/
inductive Cell where
  | rank (n : ℕ)
  | add (i : ℕ)
  | normSum
  | move (tid : Fin 16)
  | old (tid : Fin 16)
  | acc (tid : Fin 16)
deriving DecidableEq

abbrev Code := List (Block Cell ℚ (Fin 4))

/-- a phase of the round -/
abbrev Stage := Phase 16 Cell ℚ (Fin 4)

def tidGroup (tid : Fin 16) : Fin 4 := ⟨tid.val / 4, by omega⟩

variable (x : Input)

/-- the nodes from `start` to `end` -/
def own (tid : Fin 16) : List ℕ :=
  let start := x.numNode / 16 * tid.val
  let stop := if tid.val = 15 then x.numNode else x.numNode / 16 * (tid.val + 1)
  List.range' start (stop - start)

/-- `node_dst` of edge `e` of a node: `idx_base` is `refine_size` behind the start of the heap -/
def nodeDst (node e : ℕ) : ℤ := ((x.heap (align2 x.totNode + (x.ptr node + e))).asUint : ℤ) - x.startNode

/-- the `node_dst` that pass the test, in the order of the edges -/
def conEdges (node : ℕ) : List ℕ :=
  (((List.range (x.ptr (node + 1) - x.ptr node)).map (nodeDst x node)).filter
    fun nodeDst : ℤ => 0 ≤ nodeDst ∧ nodeDst < (x.numNode : ℤ)).map Int.toNat

/-- `rank[n] = scale / arg.num_node` for every sixteenth node -/
def initRank : Stage := fun tid =>
  (List.range' tid.val ((x.numNode + 15 - tid.val) / 16) 16).map fun n => .act ⟨.rank n, [], fun _ => 1 / x.numNode⟩

/-- the first tasklet of a group zeroes its section -/
def zeroAdd : Stage := fun tid =>
  if tid.val = (tidGroup tid).val * 4 then
    (List.range x.numNode).map fun node => .act ⟨.add ((tidGroup tid).val * x.numNode + node), [], fun _ => 0⟩
  else []

/-- `add[tid_group * arg.num_node + node_dst] += move` under the mutex of the group -/
def addMove (tid : Fin 16) (dst : ℕ) : Block Cell ℚ (Fin 4) :=
  let i := (tidGroup tid).val * x.numNode + dst
  .locked (tidGroup tid)
    [⟨.old tid, [.add i], fun v => v.getD 0 0⟩, ⟨.add i, [.old tid, .move tid], fun v => v.getD 0 0 + v.getD 1 0⟩,
      ⟨.old tid, [], fun _ => 0⟩]

def accumulateNode (tid : Fin 16) (node : ℕ) : Code :=
  let conEdge := (conEdges x node).length
  if 0 < conEdge then
    .act ⟨.move tid, [.rank node], fun v => v.getD 0 0 / conEdge⟩ :: (conEdges x node).map (addMove x tid)
  else []

def accumulate : Stage := fun tid => (own x tid).flatMap (accumulateNode x tid)

/-- `acc` over the four sections, and the new rank -/
def sumNode (tid : Fin 16) (node : ℕ) : Code :=
  .act ⟨.acc tid, [], fun _ => 0⟩ ::
    (List.range 4).map (fun i => .act ⟨.acc tid, [.acc tid, .add (i * x.numNode + node)], fun v => v.getD 0 0 + v.getD 1 0⟩) ++
    [.act ⟨.rank node, [.acc tid], fun v => (1 - damping) / x.numNode + damping * v.getD 0 0⟩]

def sumAdd : Stage := fun tid => (own x tid).flatMap (sumNode x tid)

/-- `// 2. Refinement` -/
def refine : Stage := fun tid => (own x tid).flatMap fun node =>
  [.act ⟨.rank node, [.rank node], fun v => v.getD 0 0 + (x.heap (x.startNode + node)).asFloat⟩]

/-- `// 3. Normalization`: tasklet 0 alone -/
def sumRanks : Stage := fun tid =>
  if tid = 0 then
    (List.range x.numNode).map fun node => .act ⟨.normSum, [.normSum, .rank node], fun v => v.getD 0 0 + v.getD 1 0⟩
  else []

def divide : Stage := fun tid => (own x tid).flatMap fun node =>
  [.act ⟨.rank node, [.rank node, .normSum], fun v => v.getD 0 0 / v.getD 1 0⟩]

/-- `// 5. Result Fusion` -/
def fuse : Stage := fun tid => (own x tid).flatMap fun node =>
  [.act ⟨.rank node, [.rank node], fun v => v.getD 0 0 * x.servRank⟩]

/-- `norm_sum = 0`; the state word is in `Tasklets` -/
def report : Stage := fun tid => if tid = 0 then [.act ⟨.normSum, [], fun _ => 0⟩] else []

/-- one iteration of the loops over edges -/
def iteration : List Stage := [zeroAdd x, accumulate x, sumAdd x]

/-- `// 1. Calculate Local Rank`: the ranks are set up in the phase in which the first iteration begins -/
def localRank : List Stage :=
  [fun tid => initRank x tid ++ zeroAdd x tid, accumulate x, sumAdd x] ++ (List.replicate (iter - 1) (iteration x)).flatten

/-- a round -/
def program : List Stage := localRank x ++ [refine x, sumRanks x, divide x] ++ iteration x ++ [fuse x, report]

/-! ## Tasklets keep apart -/

/-- the tasklet whose variable this is -/
def Cell.tasklet : Cell → Option (Fin 16)
  | .move tid => some tid
  | .old tid => some tid
  | .acc tid => some tid
  | _ => none

/-- a variable that no loop over nodes sets -/
def Cell.Shared : Cell → Prop
  | .add _ => True
  | .normSum => True
  | _ => False

/-- an assignment for a node of a tasklet -/
structure ForNode (tid : Fin 16) (node : ℕ) (a : Assign Cell ℚ) : Prop where
  target : a.target = .rank node ∨ a.target.tasklet = some tid
  reads : ∀ c ∈ a.reads, c = .rank node ∨ c.tasklet = some tid ∨ c.Shared

theorem notMem_of_forNode {tid tid' : Fin 16} {node node' : ℕ} (ht : tid ≠ tid') (hn : node ≠ node') {c : Cell}
    (hc : c = .rank node ∨ c.tasklet = some tid) :
    ¬(c = .rank node' ∨ c.tasklet = some tid') ∧ ¬c.Shared := by
  rcases hc with rfl | hc
  · exact ⟨by simp [Cell.tasklet, hn], id⟩
  · cases c with
    | move t | old t | acc t =>
      simp only [Cell.tasklet, Option.some.injEq] at hc
      subst hc
      exact ⟨by simp [Cell.tasklet, ht], id⟩
    | rank n | add i | normSum => simp [Cell.tasklet] at hc

theorem ForNode.apart {tid tid' : Fin 16} {node node' : ℕ} {a b : Assign Cell ℚ} (ha : ForNode tid node a)
    (hb : ForNode tid' node' b) (ht : tid ≠ tid') (hn : node ≠ node') : a.Apart b := by
  refine ⟨fun heq => ?_, fun hmem => ?_, fun hmem => ?_⟩
  · exact (notMem_of_forNode ht hn ha.target).1 (heq ▸ hb.target)
  · have hc := notMem_of_forNode ht hn ha.target
    rcases hb.reads _ hmem with h | h | h
    · exact hc.1 (Or.inl h)
    · exact hc.1 (Or.inr h)
    · exact hc.2 h
  · have hc := notMem_of_forNode ht.symm hn.symm hb.target
    rcases ha.reads _ hmem with h | h | h
    · exact hc.1 (Or.inl h)
    · exact hc.1 (Or.inr h)
    · exact hc.2 h

theorem own_cuts : Cuts (fun i => if i = 16 then x.numNode else x.numNode / 16 * i) 16 0 x.numNode := by
  refine ⟨rfl, rfl, fun i hi => ?_⟩
  have hnext : x.numNode / 16 * i ≤ x.numNode / 16 * (i + 1) := Nat.mul_le_mul_left _ (Nat.le_succ i)
  rw [if_neg hi.ne]
  split_ifs with hlast
  · rw [hlast] at hnext
    exact hnext.trans (Nat.div_mul_le_self _ _)
  · exact hnext

theorem own_eq (tid : Fin 16) :
    own x tid = List.range' (if tid.val = 16 then x.numNode else x.numNode / 16 * tid.val)
      ((if tid.val + 1 = 16 then x.numNode else x.numNode / 16 * (tid.val + 1)) -
        if tid.val = 16 then x.numNode else x.numNode / 16 * tid.val) := by
  have hlt := tid.isLt
  simp only [own, show tid.val ≠ 16 by omega, if_false, show tid.val + 1 = 16 ↔ tid.val = 15 by omega]

variable {x}

theorem own_unique {t u : Fin 16} {node : ℕ} (ht : node ∈ own x t) (hu : node ∈ own x u) : t = u := by
  have hmono := (own_cuts x).mono
  have ht' := hmono t.val t.isLt
  have hu' := hmono u.val u.isLt
  rw [own_eq, List.mem_range'_1] at ht hu
  exact Fin.ext ((own_cuts x).piece_unique t.isLt u.isLt ⟨ht.1, by omega⟩ ⟨hu.1, by omega⟩)

/-- a loop over the nodes of each tasklet -/
theorem ok_of_nodes {body : Fin 16 → ℕ → Code} (h : ∀ tid node, ∀ b ∈ body tid node, ∀ a ∈ b.assigns, ForNode tid node a) :
    Phase.Ok fun tid => (own x tid).flatMap (body tid) := by
  intro t u htu b hb c hc
  obtain ⟨node, hnode, hb⟩ := List.mem_flatMap.mp hb
  obtain ⟨node', hnode', hc⟩ := List.mem_flatMap.mp hc
  refine Or.inl fun a ha a' ha' => (h t node b hb a ha).apart (h u node' c hc a' ha') htu fun heq => ?_
  subst heq
  exact htu (own_unique hnode hnode')

/-- a loop that sets the rank of each node once -/
theorem ok_of_setRank {reads : ℕ → List Cell} {value : ℕ → List ℚ → ℚ}
    (hreads : ∀ node, ∀ c ∈ reads node, c = .rank node ∨ c.Shared) :
    Phase.Ok (M := Fin 4) fun tid => (own x tid).flatMap fun node => [.act ⟨.rank node, reads node, value node⟩] :=
  ok_of_nodes fun tid node b hb a ha => by
    obtain rfl := List.mem_singleton.mp hb
    obtain rfl := List.mem_singleton.mp ha
    exact ⟨Or.inl rfl, fun c hc => (hreads node c hc).imp_right Or.inr⟩

theorem refine_reads (node : ℕ) : ∀ c ∈ [Cell.rank node], c = .rank node ∨ c.Shared := fun _ hc =>
  Or.inl (List.mem_singleton.mp hc)

theorem divide_reads (node : ℕ) : ∀ c ∈ [Cell.rank node, Cell.normSum], c = .rank node ∨ c.Shared := fun c hc => by
  rcases List.mem_cons.mp hc with rfl | hc
  · exact Or.inl rfl
  · rw [List.mem_singleton.mp hc]
    exact Or.inr trivial

theorem refine_ok : (refine x).Ok := ok_of_setRank refine_reads

theorem divide_ok : (divide x).Ok := ok_of_setRank divide_reads

theorem fuse_ok : (fuse x).Ok := ok_of_setRank refine_reads

theorem sumAdd_ok : (sumAdd x).Ok := ok_of_nodes fun tid node b hb a ha => by
  simp only [sumNode, List.cons_append, List.mem_cons, List.mem_append, List.mem_map, List.not_mem_nil, or_false] at hb
  rcases hb with rfl | ⟨i, -, rfl⟩ | rfl
  · obtain rfl := List.mem_singleton.mp ha
    exact ⟨Or.inr rfl, fun c hc => absurd hc List.not_mem_nil⟩
  · obtain rfl := List.mem_singleton.mp ha
    refine ⟨Or.inr rfl, fun c hc => ?_⟩
    rcases List.mem_cons.mp hc with rfl | hc
    · exact Or.inr (Or.inl rfl)
    · rw [List.mem_singleton.mp hc]
      exact Or.inr (Or.inr trivial)
  · obtain rfl := List.mem_singleton.mp ha
    exact ⟨Or.inl rfl, fun c hc => Or.inr (Or.inl (by rw [List.mem_singleton.mp hc]; rfl))⟩

/-- tasklet 0 alone -/
theorem ok_of_first {code : Code} : Phase.Ok fun tid : Fin 16 => if tid = 0 then code else [] := by
  intro t u htu b hb c hc
  dsimp only at hb hc
  split_ifs at hb hc with ht hu
  · exact absurd (ht.trans hu.symm) htu
  · exact absurd hc List.not_mem_nil
  · exact absurd hb List.not_mem_nil
  · exact absurd hb List.not_mem_nil

theorem sumRanks_ok : (sumRanks x).Ok := ok_of_first

theorem report_ok : report.Ok := ok_of_first

theorem mem_initRank {tid : Fin 16} {b : Block Cell ℚ (Fin 4)} :
    b ∈ initRank x tid ↔ ∃ n < x.numNode, n % 16 = tid.val ∧ b = .act ⟨.rank n, [], fun _ => 1 / x.numNode⟩ := by
  have hlt := tid.isLt
  simp only [initRank, List.mem_map, List.mem_range']
  constructor
  · rintro ⟨n, ⟨i, hi, rfl⟩, rfl⟩
    exact ⟨_, by omega, by omega, rfl⟩
  · rintro ⟨n, hn, hmod, rfl⟩
    exact ⟨n, ⟨n / 16, by omega, by omega⟩, rfl⟩

theorem mem_zeroAdd {tid : Fin 16} {b : Block Cell ℚ (Fin 4)} :
    b ∈ zeroAdd x tid ↔ tid.val = (tidGroup tid).val * 4 ∧
      ∃ node < x.numNode, b = .act ⟨.add ((tidGroup tid).val * x.numNode + node), [], fun _ => 0⟩ := by
  unfold zeroAdd
  split_ifs with h
  · simp only [List.mem_map, List.mem_range, h, true_and, eq_comm (a := b)]
  · simp [h]

/-- a place in the sections of `add` -/
theorem section_unique {g g' node node' num : ℕ} (hn : node < num) (hn' : node' < num) (h : g * num + node = g' * num + node') :
    g = g' ∧ node = node' := by
  have hg : (g * num + node) / num = g := by
    rw [Nat.mul_comm, Nat.mul_add_div (Nat.zero_lt_of_lt hn), Nat.div_eq_of_lt hn, Nat.add_zero]
  have hg' : (g' * num + node') / num = g' := by
    rw [Nat.mul_comm, Nat.mul_add_div (Nat.zero_lt_of_lt hn'), Nat.div_eq_of_lt hn', Nat.add_zero]
  rw [h, hg'] at hg
  subst hg
  exact ⟨rfl, Nat.add_left_cancel h⟩

theorem first_ok : Phase.Ok fun tid => initRank x tid ++ zeroAdd x tid := by
  intro t u htu b hb c hc
  have hconst : ∀ {a a' : Cell} {v v' : List ℚ → ℚ}, a ≠ a' →
      Independent (.act ⟨a, [], v⟩ : Block Cell ℚ (Fin 4)) (.act ⟨a', [], v'⟩) := by
    intro a a' v v' hne
    refine Or.inl fun b hb c hc => ?_
    obtain rfl := List.mem_singleton.mp hb
    obtain rfl := List.mem_singleton.mp hc
    exact ⟨hne, List.not_mem_nil, List.not_mem_nil⟩
  rcases List.mem_append.mp hb with hb | hb
  · obtain ⟨n, -, hmod, rfl⟩ := mem_initRank.mp hb
    rcases List.mem_append.mp hc with hc | hc
    · obtain ⟨n', -, hmod', rfl⟩ := mem_initRank.mp hc
      refine hconst fun heq => htu (Fin.ext ?_)
      obtain rfl := Cell.rank.inj heq
      exact hmod.symm.trans hmod'
    · obtain ⟨-, node, -, rfl⟩ := mem_zeroAdd.mp hc
      exact hconst fun heq => by cases heq
  · obtain ⟨hfirst, node, hnode, rfl⟩ := mem_zeroAdd.mp hb
    rcases List.mem_append.mp hc with hc | hc
    · obtain ⟨n', -, hmod', rfl⟩ := mem_initRank.mp hc
      exact hconst fun heq => by cases heq
    · obtain ⟨hfirst', node', hnode', rfl⟩ := mem_zeroAdd.mp hc
      refine hconst fun heq => htu (Fin.ext ?_)
      rw [hfirst, hfirst', (section_unique hnode hnode' (Cell.add.inj heq)).1]

theorem Phase.Ok.sublist {p q : Stage} (h : Phase.Ok p) (hsub : ∀ tid, ∀ b ∈ q tid, b ∈ p tid) : Phase.Ok q :=
  fun t u htu b hb c hc => h t u htu b (hsub t b hb) c (hsub u c hc)

theorem zeroAdd_ok : (zeroAdd x).Ok := Phase.Ok.sublist first_ok fun _ _ hb => List.mem_append_right _ hb

theorem mem_conEdges {node dst : ℕ} (h : dst ∈ conEdges x node) : dst < x.numNode := by
  obtain ⟨d, hd, rfl⟩ := List.mem_map.mp h
  have hrange := of_decide_eq_true (List.mem_filter.mp hd).2
  omega

/-- what a section leaves -/
theorem addMove_run (tid : Fin 16) (dst : ℕ) (s : Cell → ℚ) (c : Cell) :
    (addMove x tid dst).run s c =
      if c = .old tid then 0
      else if c = .add ((tidGroup tid).val * x.numNode + dst) then s c + s (.move tid)
      else s c := by
  simp only [addMove, Block.run, Block.assigns, runAssigns, Assign.run, List.foldl_cons, List.foldl_nil, List.map_cons,
    List.map_nil, List.getD_cons_zero, List.getD_cons_succ]
  by_cases hold : c = .old tid
  · rw [if_pos hold, hold, Function.update_self]
  · rw [if_neg hold, Function.update_of_ne hold]
    by_cases hadd : c = .add ((tidGroup tid).val * x.numNode + dst)
    · rw [if_pos hadd, hadd, Function.update_self, Function.update_self, Function.update_of_ne (by simp)]
    · rw [if_neg hadd, Function.update_of_ne hadd, Function.update_of_ne hold]

/-- **Two sections** commute as a whole: additions do. -/
theorem addMove_commute (t u : Fin 16) (dst dst' : ℕ) :
    Function.Commute (addMove x t dst).run (addMove x u dst').run := by
  intro s
  funext c
  simp only [addMove_run]
  have hmove : ∀ v w : Fin 16, Cell.move v ≠ .old w := fun v w => by simp
  have hmove' : ∀ (v : Fin 16) (i : ℕ), Cell.move v ≠ .add i := fun v i => by simp
  simp only [hmove, hmove', if_false]
  cases c with
  | old v =>
    simp only [reduceCtorEq, if_false]
    split_ifs <;> rfl
  | add i =>
    simp only [reduceCtorEq, if_false]
    split_ifs <;> ring
  | _ => simp only [reduceCtorEq, if_false]

theorem mem_accumulateNode {tid : Fin 16} {node : ℕ} {b : Block Cell ℚ (Fin 4)} (h : b ∈ accumulateNode x tid node) :
    b = .act ⟨.move tid, [.rank node], fun v => v.getD 0 0 / (conEdges x node).length⟩ ∨
      ∃ dst ∈ conEdges x node, b = addMove x tid dst := by
  unfold accumulateNode at h
  dsimp only at h
  split_ifs at h
  · rcases List.mem_cons.mp h with h | h
    · exact Or.inl h
    · obtain ⟨dst, hdst, rfl⟩ := List.mem_map.mp h
      exact Or.inr ⟨dst, hdst, rfl⟩
  · exact absurd h List.not_mem_nil

theorem accumulate_ok : (accumulate x).Ok := by
  intro t u htu b hb c hc
  obtain ⟨node, hnode, hb⟩ := List.mem_flatMap.mp hb
  obtain ⟨node', hnode', hc⟩ := List.mem_flatMap.mp hc
  rcases mem_accumulateNode hb with rfl | ⟨dst, hdst, rfl⟩
  · refine Or.inl fun a ha a' ha' => ?_
    obtain rfl := List.mem_singleton.mp ha
    rcases mem_accumulateNode hc with rfl | ⟨dst, -, rfl⟩
    · obtain rfl := List.mem_singleton.mp ha'
      simp [Assign.Apart, htu]
    · simp only [addMove, Block.assigns, List.mem_cons, List.not_mem_nil, or_false] at ha'
      rcases ha' with rfl | rfl | rfl <;> simp [Assign.Apart, htu]
  · rcases mem_accumulateNode hc with rfl | ⟨dst', hdst', rfl⟩
    · refine Or.inl fun a ha a' ha' => ?_
      obtain rfl := List.mem_singleton.mp ha'
      simp only [addMove, Block.assigns, List.mem_cons, List.not_mem_nil, or_false] at ha
      rcases ha with rfl | rfl | rfl <;> simp [Assign.Apart, htu.symm]
    · by_cases hgroup : tidGroup t = tidGroup u
      · exact Or.inr (Or.inl ⟨⟨tidGroup t, _, _, rfl, by rw [hgroup]; rfl⟩, addMove_commute t u dst dst'⟩)
      · refine Or.inl fun a ha a' ha' => ?_
        have hplace : (tidGroup t).val * x.numNode + dst ≠ (tidGroup u).val * x.numNode + dst' := fun heq =>
          hgroup (Fin.ext (section_unique (mem_conEdges hdst) (mem_conEdges hdst') heq).1)
        simp only [addMove, Block.assigns, List.mem_cons, List.not_mem_nil, or_false] at ha ha'
        rcases ha with rfl | rfl | rfl <;> rcases ha' with rfl | rfl | rfl <;>
          simp [Assign.Apart, htu, htu.symm, hplace, hplace.symm]

/-- **Tasklets keep apart** in every phase of a round. -/
theorem program_ok (x : Input) : ∀ p ∈ program x, p.Ok := by
  have hiteration : ∀ p ∈ iteration x, p.Ok := by
    intro p hp
    simp only [iteration, List.mem_cons, List.not_mem_nil, or_false] at hp
    rcases hp with rfl | rfl | rfl
    · exact zeroAdd_ok
    · exact accumulate_ok
    · exact sumAdd_ok
  intro p hp
  simp only [program, localRank, List.mem_append, List.mem_cons, List.not_mem_nil, or_false, List.mem_flatten, List.mem_replicate] at hp
  rcases hp with ((((rfl | rfl | rfl) | ⟨l, ⟨-, rfl⟩, hp⟩) | rfl | rfl | rfl) | hp) | rfl | rfl
  · exact first_ok
  · exact accumulate_ok
  · exact sumAdd_ok
  · exact hiteration p hp
  · exact refine_ok
  · exact sumRanks_ok
  · exact divide_ok
  · exact hiteration p hp
  · exact fuse_ok
  · exact report_ok

/-! ## What a phase leaves -/

variable (x) in
/-- the nodes with their tasklets -/
def items : List (Fin 16 × ℕ) := (List.finRange 16).flatMap fun tid => (own x tid).map (Prod.mk tid)

theorem items_snd : (items x).map Prod.snd = List.range x.numNode := by
  have hown : ∀ tid : Fin 16, ((own x tid).map (Prod.mk tid)).map Prod.snd = own x tid := fun tid => by
    rw [List.map_map]
    exact List.map_id _
  have hcuts := (own_cuts x).flatMap_range'
  rw [← List.map_coe_finRange_eq_range, List.flatMap_map, Nat.sub_zero] at hcuts
  rw [items, List.map_flatMap, List.flatMap_congr fun tid _ => hown tid, List.range_eq_range', ← hcuts]
  exact List.flatMap_congr fun tid _ => own_eq x tid

theorem run_nodes (body : Fin 16 → ℕ → Code) (s : Cell → ℚ) :
    Phase.run (fun tid => (own x tid).flatMap (body tid)) s = (items x).foldl (fun s i => runBlocks (body i.1 i.2) s) s := by
  have htasklet : ∀ s tid, runBlocks ((own x tid).flatMap (body tid)) s =
      ((own x tid).map (Prod.mk tid)).foldl (fun s i => runBlocks (body i.1 i.2) s) s := by
    intro s tid
    rw [List.foldl_map, runBlocks, List.foldl_flatMap]
    rfl
  simp only [Phase.run, inOrder, htasklet, items, List.foldl_flatMap]

/-- a loop over nodes that gives each a new rank, made from its own and from what no node changes -/
theorem foldl_nodes {f : Fin 16 × ℕ → (Cell → ℚ) → Cell → ℚ} {v : ℕ → (Cell → ℚ) → ℚ}
    (hrank : ∀ i s, f i s (.rank i.2) = v i.2 s)
    (hkeep : ∀ i s c, c ≠ .rank i.2 → c.tasklet = none → f i s c = s c)
    (hvalue : ∀ node s s', s (.rank node) = s' (.rank node) → (∀ c, c.Shared → s c = s' c) → v node s = v node s')
    (l : List (Fin 16 × ℕ)) (hnodup : (l.map Prod.snd).Nodup) (s : Cell → ℚ) :
    (∀ n ∈ l.map Prod.snd, l.foldl (fun s i => f i s) s (.rank n) = v n s) ∧
      (∀ n ∉ l.map Prod.snd, l.foldl (fun s i => f i s) s (.rank n) = s (.rank n)) ∧
      ∀ c, c.Shared → l.foldl (fun s i => f i s) s c = s c := by
  have hshared : ∀ i s c, c.Shared → f i s c = s c := by
    intro i s c hc
    refine hkeep i s c ?_ ?_
    · rintro rfl
      exact hc
    · cases c with
      | add i => rfl
      | normSum => rfl
      | _ => exact absurd hc id
  induction l generalizing s with
  | nil => exact ⟨fun n hn => absurd hn List.not_mem_nil, fun n _ => rfl, fun c _ => rfl⟩
  | cons i l ih =>
    rw [List.map_cons, List.nodup_cons] at hnodup
    obtain ⟨hin, hout, hkept⟩ := ih hnodup.2 (f i s)
    simp only [List.foldl_cons, List.map_cons, List.mem_cons]
    refine ⟨fun n hn => ?_, fun n hn => ?_, fun c hc => (hkept c hc).trans (hshared i s c hc)⟩
    · rcases hn with rfl | hn
      · rw [hout _ hnodup.1]
        exact hrank i s
      · have hne : n ≠ i.2 := ne_of_mem_of_not_mem hn hnodup.1
        rw [hin n hn]
        exact hvalue n _ _ (hkeep i s _ (fun heq => hne (Cell.rank.inj heq)) rfl) fun c hc => hshared i s c hc
    · rw [not_or] at hn
      rw [hout n hn.2]
      exact hkeep i s _ (fun heq => hn.1 (Cell.rank.inj heq)) rfl

/-- the same for all nodes of the sub-graph -/
theorem run_ranks {f : Fin 16 → ℕ → Code} {v : ℕ → (Cell → ℚ) → ℚ}
    (hrank : ∀ tid node s, runBlocks (f tid node) s (.rank node) = v node s)
    (hkeep : ∀ tid node s c, c ≠ .rank node → c.tasklet = none → runBlocks (f tid node) s c = s c)
    (hvalue : ∀ node s s', s (.rank node) = s' (.rank node) → (∀ c, c.Shared → s c = s' c) → v node s = v node s')
    (s : Cell → ℚ) :
    (∀ n < x.numNode, Phase.run (fun tid => (own x tid).flatMap (f tid)) s (.rank n) = v n s) ∧
      ∀ c, c.Shared → Phase.run (fun tid => (own x tid).flatMap (f tid)) s c = s c := by
  rw [run_nodes]
  obtain ⟨hin, -, hkept⟩ := foldl_nodes (f := fun i => runBlocks (f i.1 i.2)) (fun i => hrank i.1 i.2)
    (fun i => hkeep i.1 i.2) hvalue (items x) (by rw [items_snd]; exact List.nodup_range) s
  refine ⟨fun n hn => hin n ?_, hkept⟩
  rw [items_snd]
  exact List.mem_range.mpr hn

/-- a loop that sets the rank of each node once -/
theorem run_setRank {reads : ℕ → List Cell} {value : ℕ → List ℚ → ℚ}
    (hreads : ∀ node, ∀ c ∈ reads node, c = .rank node ∨ c.Shared) (s : Cell → ℚ) :
    (∀ n < x.numNode, Phase.run (M := Fin 4)
        (fun tid => (own x tid).flatMap fun node => [.act ⟨.rank node, reads node, value node⟩]) s (.rank n) =
      value n ((reads n).map s)) ∧
    ∀ c, c.Shared → Phase.run (M := Fin 4)
        (fun tid => (own x tid).flatMap fun node => [.act ⟨.rank node, reads node, value node⟩]) s c = s c := by
  refine run_ranks (f := fun _ node => [.act ⟨.rank node, reads node, value node⟩])
    (v := fun n s => value n ((reads n).map s)) (fun tid node s => Function.update_self ..)
    (fun tid node s c hc _ => Function.update_of_ne hc _ _) (fun node s s' hrank hshared => ?_) s
  refine congrArg (value node) (List.map_congr_left fun c hc => ?_)
  rcases hreads node c hc with rfl | hc
  · exact hrank
  · exact hshared c hc

theorem refine_spec (s : Cell → ℚ) :
    (∀ n < x.numNode, (refine x).run s (.rank n) = s (.rank n) + (x.heap (x.startNode + n)).asFloat) ∧
      ∀ c, c.Shared → (refine x).run s c = s c :=
  run_setRank refine_reads s

theorem divide_spec (s : Cell → ℚ) :
    (∀ n < x.numNode, (divide x).run s (.rank n) = s (.rank n) / s .normSum) ∧ ∀ c, c.Shared → (divide x).run s c = s c :=
  run_setRank divide_reads s

theorem fuse_spec (s : Cell → ℚ) :
    (∀ n < x.numNode, (fuse x).run s (.rank n) = s (.rank n) * x.servRank) ∧ ∀ c, c.Shared → (fuse x).run s c = s c :=
  run_setRank refine_reads s

/-- the new rank of a node, from the four sections -/
theorem sumAdd_spec (s : Cell → ℚ) :
    (∀ n < x.numNode, (sumAdd x).run s (.rank n) =
        (1 - damping) / x.numNode + damping * ((List.range 4).map fun i => s (.add (i * x.numNode + n))).sum) ∧
      ∀ c, c.Shared → (sumAdd x).run s c = s c := by
  refine run_ranks
    (v := fun n s => (1 - damping) / x.numNode + damping * ((List.range 4).map fun i => s (.add (i * x.numNode + n))).sum)
    (fun tid node s => ?_) (fun tid node s c hc hlocal => ?_) (fun node s s' _ hshared => ?_) s
  · simp only [runBlocks, sumNode, Block.run, Block.assigns, runAssigns, Assign.run, List.range_succ]
    simp [add_assoc]
  · have hacc : c ≠ .acc tid := by
      rintro rfl
      cases hlocal
    simp [runBlocks, sumNode, Block.run, Block.assigns, runAssigns, Assign.run, List.range_succ, hc, hacc]
  · have hadd : ∀ i, s (.add (i * x.numNode + node)) = s' (.add (i * x.numNode + node)) := fun i => hshared _ trivial
    simp only [hadd]

theorem run_first (code : Code) (s : Cell → ℚ) :
    Phase.run (fun tid : Fin 16 => if tid = 0 then code else []) s = runBlocks code s := by
  have hrest : ∀ l : List (Fin 15), ∀ s : Cell → ℚ, (l.map Fin.succ).foldl
      (fun s tid => runBlocks (if tid = (0 : Fin 16) then code else []) s) s = s := by
    intro l
    induction l with
    | nil => exact fun _ => rfl
    | cons t l ih =>
      intro s
      rw [List.map_cons, List.foldl_cons, if_neg (Fin.succ_ne_zero t)]
      exact ih s
  rw [Phase.run, inOrder, List.finRange_succ, List.foldl_cons, if_pos rfl]
  exact hrest _ _

theorem sumRanks_spec (s : Cell → ℚ) :
    (sumRanks x).run s .normSum = s .normSum + ((List.range x.numNode).map fun n => s (.rank n)).sum ∧
      ∀ c, c ≠ .normSum → (sumRanks x).run s c = s c := by
  have hloop : ∀ ns : List ℕ, ∀ s : Cell → ℚ,
      runBlocks (M := Fin 4) (ns.map fun node => .act ⟨.normSum, [.normSum, .rank node], fun v => v.getD 0 0 + v.getD 1 0⟩) s =
        Function.update s .normSum (s .normSum + (ns.map fun n => s (.rank n)).sum) := by
    intro ns
    induction ns with
    | nil => exact fun s => by simp [runBlocks]
    | cons n ns ih =>
      intro s
      rw [List.map_cons, runBlocks, List.foldl_cons]
      refine (ih _).trans ?_
      simp [Block.run, Block.assigns, runAssigns, Assign.run, add_assoc]
  have hrun : (sumRanks x).run s = _ := (run_first _ s).trans (hloop _ s)
  rw [hrun]
  exact ⟨Function.update_self .., fun c hc => Function.update_of_ne hc _ _⟩

theorem report_spec (s : Cell → ℚ) : report.run s = Function.update s .normSum 0 := run_first _ s

theorem run_flatMap (p : Stage) (s : Cell → ℚ) : p.run s = runBlocks ((List.finRange 16).flatMap p) s := by
  rw [runBlocks, List.foldl_flatMap]
  rfl

/-- constants, which depend on the variable alone -/
theorem runBlocks_consts (w : Cell → ℚ) (bs : Code) (h : ∀ b ∈ bs, ∃ c, b = .act ⟨c, [], fun _ => w c⟩) (c : Cell)
    (hmem : .act ⟨c, [], fun _ => w c⟩ ∈ bs) (s : Cell → ℚ) : runBlocks bs s c = w c := by
  -- once it is set, it is never set to anything else
  have hstep : ∀ bs : Code, (∀ b ∈ bs, ∃ c, b = .act ⟨c, [], fun _ => w c⟩) → ∀ s : Cell → ℚ,
      s c = w c → runBlocks bs s c = w c := by
    intro bs h
    induction bs with
    | nil => exact fun s => id
    | cons b bs ih =>
      intro s hs
      obtain ⟨c', rfl⟩ := h b List.mem_cons_self
      refine ih (fun b hb => h b (List.mem_cons_of_mem _ hb)) (Function.update s c' (w c')) ?_
      by_cases hc : c = c'
      · rw [hc, Function.update_self]
      · rw [Function.update_of_ne hc, hs]
  obtain ⟨as, bs', rfl⟩ := List.append_of_mem hmem
  rw [runBlocks_append]
  refine hstep bs' (fun b hb => h b (List.mem_append_right _ (List.mem_cons_of_mem _ hb))) _ ?_
  exact Function.update_self ..

variable (x) in
/-- what the first phase sets -/
def initial : Cell → ℚ
  | .rank _ => 1 / x.numNode
  | _ => 0

theorem first_consts : ∀ b ∈ (List.finRange 16).flatMap fun tid => initRank x tid ++ zeroAdd x tid,
    ∃ c, b = .act ⟨c, [], fun _ => initial x c⟩ := by
  intro b hb
  obtain ⟨tid, -, hb⟩ := List.mem_flatMap.mp hb
  rcases List.mem_append.mp hb with hb | hb
  · obtain ⟨n, -, -, rfl⟩ := mem_initRank.mp hb
    exact ⟨_, rfl⟩
  · obtain ⟨-, node, -, rfl⟩ := mem_zeroAdd.mp hb
    exact ⟨_, rfl⟩

/-- the first tasklet of a group -/
theorem leader_mem {g node : ℕ} (hg : g < 4) (hnode : node < x.numNode) :
    .act ⟨.add (g * x.numNode + node), [], fun _ => 0⟩ ∈ (List.finRange 16).flatMap (zeroAdd x) := by
  have hgroup : (tidGroup ⟨g * 4, by omega⟩).val = g := by simp only [tidGroup]; omega
  refine List.mem_flatMap.mpr ⟨⟨g * 4, by omega⟩, List.mem_finRange _, mem_zeroAdd.mpr ⟨by rw [hgroup], node, hnode, ?_⟩⟩
  rw [hgroup]

/-- sections of `add` that are all zero -/
def Cleared (x : Input) (s : Cell → ℚ) : Prop := ∀ g < 4, ∀ node < x.numNode, s (.add (g * x.numNode + node)) = 0

theorem first_spec (s : Cell → ℚ) :
    (∀ n < x.numNode, Phase.run (fun tid => initRank x tid ++ zeroAdd x tid) s (.rank n) = 1 / x.numNode) ∧
      Cleared x (Phase.run (fun tid => initRank x tid ++ zeroAdd x tid) s) ∧
      Phase.run (fun tid => initRank x tid ++ zeroAdd x tid) s .normSum = s .normSum := by
  rw [run_flatMap]
  have hconsts := runBlocks_consts (initial x) _ first_consts
  refine ⟨fun n hn => hconsts (.rank n) ?_ s, fun g hg node hnode => hconsts (.add _) ?_ s,
    runBlocks_keep (fun b hb a ha => ?_) s⟩
  · refine List.mem_flatMap.mpr ⟨⟨n % 16, Nat.mod_lt n (by decide)⟩, List.mem_finRange _, List.mem_append_left _ ?_⟩
    exact mem_initRank.mpr ⟨n, hn, rfl, rfl⟩
  · obtain ⟨tid, htid, hmem⟩ := List.mem_flatMap.mp (leader_mem hg hnode)
    exact List.mem_flatMap.mpr ⟨tid, htid, List.mem_append_right _ hmem⟩
  · obtain ⟨tid, -, hb⟩ := List.mem_flatMap.mp hb
    rcases List.mem_append.mp hb with hb | hb
    · obtain ⟨n, -, -, rfl⟩ := mem_initRank.mp hb
      rw [List.mem_singleton.mp ha]
      simp
    · obtain ⟨-, node, -, rfl⟩ := mem_zeroAdd.mp hb
      rw [List.mem_singleton.mp ha]
      simp

theorem zeroAdd_spec (s : Cell → ℚ) :
    Cleared x ((zeroAdd x).run s) ∧ (∀ n, (zeroAdd x).run s (.rank n) = s (.rank n)) ∧
      (zeroAdd x).run s .normSum = s .normSum := by
  have hall : ∀ b ∈ (List.finRange 16).flatMap (zeroAdd x), ∃ i, b = .act ⟨.add i, [], fun _ => 0⟩ := by
    intro b hb
    obtain ⟨tid, -, hb⟩ := List.mem_flatMap.mp hb
    obtain ⟨-, node, -, rfl⟩ := mem_zeroAdd.mp hb
    exact ⟨_, rfl⟩
  have hother : ∀ c, (∀ i, c ≠ .add i) → ∀ b ∈ (List.finRange 16).flatMap (zeroAdd x), ∀ a ∈ b.assigns, a.target ≠ c := by
    intro c hc b hb a ha
    obtain ⟨i, rfl⟩ := hall b hb
    rw [List.mem_singleton.mp ha]
    exact (hc i).symm
  rw [run_flatMap]
  have hconsts := runBlocks_consts (fun _ => 0) _ fun b hb => (hall b hb).elim fun i hi => ⟨_, hi⟩
  exact ⟨fun g hg node hnode => hconsts _ (leader_mem hg hnode) s,
    fun n => runBlocks_keep (hother _ fun i => by simp) s, runBlocks_keep (hother _ fun i => by simp) s⟩

/-- the sections of a node's edges -/
theorem run_addMoves (tid : Fin 16) (dsts : List ℕ) (s : Cell → ℚ) :
    (∀ i, runBlocks (dsts.map (addMove x tid)) s (.add i) =
        s (.add i) + (dsts.map fun dst => (tidGroup tid).val * x.numNode + dst).count i * s (.move tid)) ∧
      ∀ c, c ≠ .old tid → (∀ i, c ≠ .add i) → runBlocks (dsts.map (addMove x tid)) s c = s c := by
  induction dsts generalizing s with
  | nil => exact ⟨fun i => by simp [runBlocks], fun c _ _ => rfl⟩
  | cons dst dsts ih =>
    obtain ⟨hadd, hkeep⟩ := ih ((addMove x tid dst).run s)
    refine ⟨fun i => (hadd i).trans ?_, fun c hc hi => (hkeep c hc hi).trans ?_⟩
    · rw [addMove_run, addMove_run, List.map_cons, List.count_cons]
      simp only [reduceCtorEq, if_false, Cell.add.injEq]
      by_cases hi : i = (tidGroup tid).val * x.numNode + dst
      · simp only [hi, beq_self_eq_true, if_true, Nat.cast_add, Nat.cast_one]
        ring
      · simp only [if_neg hi, beq_false_of_ne (Ne.symm hi), Bool.false_eq_true, if_false, Nat.add_zero]
    · rw [addMove_run, if_neg hc, if_neg (hi _)]

/-- what a node adds to a place of `add` -/
def share (x : Input) (rank : ℕ → ℚ) (i : ℕ) (item : Fin 16 × ℕ) : ℚ :=
  ((conEdges x item.2).map fun dst => (tidGroup item.1).val * x.numNode + dst).count i *
    (rank item.2 / (conEdges x item.2).length)

theorem run_accumulateNode (tid : Fin 16) (node : ℕ) (s : Cell → ℚ) :
    (∀ i, runBlocks (accumulateNode x tid node) s (.add i) = s (.add i) + share x (fun n => s (.rank n)) i (tid, node)) ∧
      ∀ c, c.tasklet = none → (∀ i, c ≠ .add i) → runBlocks (accumulateNode x tid node) s c = s c := by
  unfold accumulateNode
  dsimp only
  split_ifs with h
  · obtain ⟨hadd, hkeep⟩ := run_addMoves (x := x) tid (conEdges x node)
      (Function.update s (.move tid) (s (.rank node) / (conEdges x node).length))
    refine ⟨fun i => (hadd i).trans ?_, fun c hc hi => (hkeep c ?_ hi).trans (Function.update_of_ne ?_ _ _)⟩
    · rw [Function.update_self, Function.update_of_ne (by simp)]
      rfl
    · rintro rfl
      cases hc
    · rintro rfl
      cases hc
  · have hnil : conEdges x node = [] := List.length_eq_zero_iff.mp (Nat.eq_zero_of_not_pos h)
    refine ⟨fun i => ?_, fun c _ _ => rfl⟩
    simp [runBlocks, share, hnil]

/-- **The edges**: what all nodes add, and `rank` and `norm_sum` as they were. -/
theorem accumulate_spec (s : Cell → ℚ) :
    (∀ i, (accumulate x).run s (.add i) = s (.add i) + ((items x).map (share x (fun n => s (.rank n)) i)).sum) ∧
      (∀ n, (accumulate x).run s (.rank n) = s (.rank n)) ∧ (accumulate x).run s .normSum = s .normSum := by
  have hloop : ∀ l : List (Fin 16 × ℕ), ∀ s : Cell → ℚ,
      (∀ i, l.foldl (fun s i => runBlocks (accumulateNode x i.1 i.2) s) s (.add i) =
          s (.add i) + (l.map (share x (fun n => s (.rank n)) i)).sum) ∧
        ∀ c, c.tasklet = none → (∀ i, c ≠ .add i) → l.foldl (fun s i => runBlocks (accumulateNode x i.1 i.2) s) s c = s c := by
    intro l
    induction l with
    | nil => exact fun s => ⟨fun i => (add_zero _).symm, fun c _ _ => rfl⟩
    | cons item l ih =>
      intro s
      obtain ⟨hadd, hkeep⟩ := run_accumulateNode (x := x) item.1 item.2 s
      obtain ⟨hadd', hkeep'⟩ := ih (runBlocks (accumulateNode x item.1 item.2) s)
      refine ⟨fun i => (hadd' i).trans ?_, fun c hc hi => (hkeep' c hc hi).trans (hkeep c hc hi)⟩
      have hrank : (fun n => runBlocks (accumulateNode x item.1 item.2) s (.rank n)) = fun n => s (.rank n) :=
        funext fun n => hkeep (.rank n) rfl fun i => by simp
      rw [hrank, hadd, List.map_cons, List.sum_cons, add_assoc]
  have hrun : (accumulate x).run s = _ := run_nodes (accumulateNode x) s
  rw [hrun]
  obtain ⟨hadd, hkeep⟩ := hloop (items x) s
  exact ⟨hadd, fun n => hkeep _ rfl fun i => by simp, hkeep _ rfl fun i => by simp⟩

/-! ## Iterations -/

/-- the rank of a node after an iteration -/
def nextRank (x : Input) (rank : ℕ → ℚ) (n : ℕ) : ℚ :=
  (1 - damping) / x.numNode + damping * arriving (conEdges x) rank (List.range x.numNode) n

/-- what a node adds to the four sections for another is what it gives to it -/
theorem sum_share (rank : ℕ → ℚ) {n : ℕ} (hn : n < x.numNode) (item : Fin 16 × ℕ) :
    ((List.range 4).map fun g => share x rank (g * x.numNode + n) item).sum =
      (conEdges x item.2).count n * (rank item.2 / (conEdges x item.2).length) := by
  have hcount : ∀ g, ((conEdges x item.2).map fun dst => (tidGroup item.1).val * x.numNode + dst).count (g * x.numNode + n) =
      if g = (tidGroup item.1).val then (conEdges x item.2).count n else 0 := by
    intro g
    split_ifs with hg
    · subst hg
      exact List.count_map_of_injective _ _ (fun a b h => Nat.add_left_cancel h) n
    · refine List.count_eq_zero.mpr fun hmem => ?_
      obtain ⟨dst, hdst, heq⟩ := List.mem_map.mp hmem
      exact hg (section_unique (mem_conEdges hdst) hn heq).1.symm
  have hlt := (tidGroup item.1).isLt
  simp only [share, hcount, List.range_succ, List.range_zero, List.nil_append, List.map_append, List.map_cons, List.map_nil,
    List.sum_append, List.sum_cons, List.sum_nil, add_zero]
  interval_cases (tidGroup item.1).val <;> simp

/-- the sections together hold what arrives over all edges -/
theorem sum_shares (rank : ℕ → ℚ) {n : ℕ} (hn : n < x.numNode) :
    ((List.range 4).map fun g => ((items x).map (share x rank (g * x.numNode + n))).sum).sum =
      arriving (conEdges x) rank (List.range x.numNode) n := by
  have hswap : ∀ l : List (Fin 16 × ℕ), ((List.range 4).map fun g => (l.map (share x rank (g * x.numNode + n))).sum).sum =
      arriving (conEdges x) rank (l.map Prod.snd) n := by
    intro l
    induction l with
    | nil => simp [arriving]
    | cons item l ih =>
      calc ((List.range 4).map fun g => ((item :: l).map (share x rank (g * x.numNode + n))).sum).sum
          = ((List.range 4).map fun g =>
              share x rank (g * x.numNode + n) item + (l.map (share x rank (g * x.numNode + n))).sum).sum := rfl
        _ = ((List.range 4).map fun g => share x rank (g * x.numNode + n) item).sum +
              ((List.range 4).map fun g => (l.map (share x rank (g * x.numNode + n))).sum).sum := List.sum_map_add
        _ = (conEdges x item.2).count n * (rank item.2 / (conEdges x item.2).length) +
              arriving (conEdges x) rank (l.map Prod.snd) n := by rw [sum_share rank hn, ih]
        _ = arriving (conEdges x) rank ((item :: l).map Prod.snd) n := (arriving_cons ..).symm
  rw [hswap, items_snd]

/-- the loops over edges and sums, once the sections are zero -/
theorem accumulate_sumAdd_spec {s : Cell → ℚ} (h : Cleared x s) :
    (∀ n < x.numNode, (sumAdd x).run ((accumulate x).run s) (.rank n) = nextRank x (fun n => s (.rank n)) n) ∧
      (sumAdd x).run ((accumulate x).run s) .normSum = s .normSum := by
  obtain ⟨hadd, -, hnorm⟩ := accumulate_spec (x := x) s
  obtain ⟨hrank, hkept⟩ := sumAdd_spec (x := x) ((accumulate x).run s)
  refine ⟨fun n hn => ?_, (hkept .normSum trivial).trans hnorm⟩
  rw [hrank n hn, nextRank, ← sum_shares _ hn]
  refine congrArg (fun q => (1 - damping) / (x.numNode : ℚ) + damping * q) (congrArg List.sum ?_)
  refine List.map_congr_left fun g hg => ?_
  rw [hadd, h g (List.mem_range.mp hg) n hn, zero_add]

theorem nextRank_congr {rank rank' : ℕ → ℚ} (h : ∀ n < x.numNode, rank n = rank' n) : nextRank x rank = nextRank x rank' := by
  funext n
  rw [nextRank, nextRank, arriving_congr fun n hn => h n (List.mem_range.mp hn)]

/-- **One iteration** gives every node its next rank, whatever the sections held before. -/
theorem iteration_spec (s : Cell → ℚ) :
    (∀ n < x.numNode, runPhases (iteration x) s (.rank n) = nextRank x (fun n => s (.rank n)) n) ∧
      runPhases (iteration x) s .normSum = s .normSum := by
  obtain ⟨hclear, hrank, hnorm⟩ := zeroAdd_spec (x := x) s
  obtain ⟨hnext, hkept⟩ := accumulate_sumAdd_spec hclear
  refine ⟨fun n hn => (hnext n hn).trans ?_, hkept.trans hnorm⟩
  rw [nextRank_congr fun n _ => hrank n]

variable (x) in
/-- the ranks after some iterations -/
def ranks : ℕ → ℕ → ℚ
  | 0 => fun _ => 1 / x.numNode
  | i + 1 => nextRank x (ranks i)

theorem iterations_spec (k : ℕ) {i : ℕ} {s : Cell → ℚ} (h : ∀ n < x.numNode, s (.rank n) = ranks x i n) :
    (∀ n < x.numNode, runPhases (List.replicate k (iteration x)).flatten s (.rank n) = ranks x (i + k) n) ∧
      runPhases (List.replicate k (iteration x)).flatten s .normSum = s .normSum := by
  induction k generalizing i s with
  | zero => exact ⟨h, rfl⟩
  | succ k ih =>
    obtain ⟨hnext, hnorm⟩ := iteration_spec (x := x) s
    have hranks : ∀ n < x.numNode, runPhases (iteration x) s (.rank n) = ranks x (i + 1) n := by
      intro n hn
      rw [hnext n hn, nextRank_congr h]
      rfl
    obtain ⟨hrest, hnorm'⟩ := ih hranks
    rw [List.replicate_succ, List.flatten_cons, runPhases_append]
    refine ⟨fun n hn => ?_, hnorm'.trans hnorm⟩
    rw [hrest n hn, Nat.add_right_comm, Nat.add_assoc]

variable (x) in
/-- the ranks with `refine_vec` added -/
def refined (n : ℕ) : ℚ := ranks x iter n + (x.heap (x.startNode + n)).asFloat

variable (x) in
/-- the rank a round leaves -/
def finalRank (n : ℕ) : ℚ :=
  nextRank x (fun n => refined x n / ((List.range x.numNode).map (refined x)).sum) n * x.servRank

theorem localRank_spec (s : Cell → ℚ) :
    (∀ n < x.numNode, runPhases (localRank x) s (.rank n) = ranks x iter n) ∧
      runPhases (localRank x) s .normSum = s .normSum := by
  obtain ⟨hinit, hclear, hnorm⟩ := first_spec (x := x) s
  obtain ⟨hnext, hkept⟩ := accumulate_sumAdd_spec hclear
  have hfirst : ∀ n < x.numNode, (sumAdd x).run ((accumulate x).run
      (Phase.run (fun tid => initRank x tid ++ zeroAdd x tid) s)) (.rank n) = ranks x 1 n := by
    intro n hn
    rw [hnext n hn, nextRank_congr hinit]
    rfl
  obtain ⟨hranks, hkept'⟩ := iterations_spec (iter - 1) hfirst
  rw [localRank, runPhases_append]
  exact ⟨hranks, hkept'.trans (hkept.trans hnorm)⟩

/-- **A round** leaves the ranks of its own input, whatever was in WRAM before but for `norm_sum`, which it leaves as it
found it. -/
theorem program_spec {s : Cell → ℚ} (h : s .normSum = 0) :
    (∀ n < x.numNode, runPhases (program x) s (.rank n) = finalRank x n) ∧ runPhases (program x) s .normSum = 0 := by
  obtain ⟨hranks, hnorm⟩ := localRank_spec (x := x) s
  set s₁ := runPhases (localRank x) s
  obtain ⟨hrefine, hnorm₂⟩ := refine_spec (x := x) s₁
  obtain ⟨hsum, hsame⟩ := sumRanks_spec (x := x) ((refine x).run s₁)
  obtain ⟨hdivide, -⟩ := divide_spec (x := x) ((sumRanks x).run ((refine x).run s₁))
  set s₂ := (divide x).run ((sumRanks x).run ((refine x).run s₁))
  obtain ⟨hsingle, -⟩ := iteration_spec (x := x) s₂
  obtain ⟨hfuse, -⟩ := fuse_spec (x := x) (runPhases (iteration x) s₂)
  have hprogram : runPhases (program x) s = report.run ((fuse x).run (runPhases (iteration x) s₂)) := by
    simp only [program, runPhases_append, runPhases_cons, runPhases_nil, s₁, s₂]
  have hrefined : ∀ n < x.numNode, (refine x).run s₁ (.rank n) = refined x n := by
    intro n hn
    rw [hrefine n hn, hranks n hn]
    rfl
  have hnormSum : (sumRanks x).run ((refine x).run s₁) .normSum = ((List.range x.numNode).map (refined x)).sum := by
    rw [hsum, hnorm₂ .normSum trivial, hnorm, h, zero_add]
    exact congrArg List.sum (List.map_congr_left fun n hn => hrefined n (List.mem_range.mp hn))
  have hnormal : ∀ n < x.numNode, s₂ (.rank n) = refined x n / ((List.range x.numNode).map (refined x)).sum := by
    intro n hn
    rw [hdivide n hn, hnormSum, hsame _ (by simp), hrefined n hn]
  rw [hprogram, report_spec]
  refine ⟨fun n hn => ?_, Function.update_self ..⟩
  rw [Function.update_of_ne (by simp), hfuse n hn, hsingle n hn, nextRank_congr hnormal]
  rfl

end PimOfis.PageRank.Kernel
