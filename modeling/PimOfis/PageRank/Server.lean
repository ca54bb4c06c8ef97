/-
The ranks of the sub-graphs (`analyze_sg` and `server_PR_float` of `pr_host.c`), in exact arithmetic.

`analyze_sg` counts the edges of each sub-graph that lead into another one, in all and for each node they lead to.
`server_PR_float` then lets every sub-graph give its rank to the sub-graphs that these edges lead to, in equal parts for
each edge: a sub-graph is a place of a `Walk`, and `num_ICE` the number of its edges. The `float` variables are rationals.

Results:
- `analyzeSg_spec`: what `analyze_sg` counts;
- `sum_numICEsSg`, `numICEsSg_own`: the counts of all nodes add up, and a node has none from its own sub-graph;
- `serverRanks_eq`: the loops of `server_PR_float` are rounds of the walk.
-/
import Mathlib.Tactic
import PimOfis.Lib.Walk
import PimOfis.PageRank.Graph

namespace PimOfis.PageRank

open Lib

/-! ## Model -/

def damping : ℚ := 17 / 20

variable {numSGs : ℕ} (m : Mat numSGs)

/-- what `analyze_sg` fills: `SGs[sg].num_ICE` and `num_ICEs_sg[n][sg]` -/
structure CrossEdges where
  numICE : ℕ → ℕ
  numICEsSg : ℕ → ℕ → ℕ

/-- `num_sg_edge` and `num_ICEs_sg` in the loops over the nodes of a sub-graph -/
structure Count where
  numSgEdge : ℕ
  numICEsSg : ℕ → ℕ → ℕ

/-- `num_sg_edge++` and `num_ICEs_sg[dst][sg]++` -/
def Count.edge (sg : ℕ) (c : Count) (dst : ℕ) : Count where
  numSgEdge := c.numSgEdge + 1
  numICEsSg := Function.update c.numICEsSg dst (Function.update (c.numICEsSg dst) sg (c.numICEsSg dst sg + 1))

def countSg (t : ℕ → ℕ → ℕ) (sg : ℕ) : Count :=
  (m.nodes sg).foldl
    (fun c n =>
      (m.edges n).foldl
        (fun c e =>
          let dst := m.idx e
          if m.sgInfo dst ≠ sg then c.edge sg dst else c)
        c)
    ⟨0, t⟩

def analyzeStep (x : CrossEdges) (sg : ℕ) : CrossEdges :=
  let c := countSg m x.numICEsSg sg
  ⟨Function.update x.numICE sg c.numSgEdge, c.numICEsSg⟩

/-- `analyze_sg` -/
def analyzeSg : CrossEdges := (List.range numSGs).foldl (analyzeStep m) ⟨fun _ => 0, fun _ _ => 0⟩

def serverMove (numICE : ℕ → ℕ) (rank : ℕ → ℚ) (add : ℕ → ℚ) (sg : ℕ) : ℕ → ℚ :=
  if 0 < numICE sg then
    let move := rank sg / numICE sg
    (m.nodes sg).foldl
      (fun add n =>
        (m.edges n).foldl
          (fun add e =>
            let dst := m.idx e
            if m.sgInfo dst ≠ sg then addAt add (m.sgInfo dst) move else add)
          add)
      add
  else add

/-- `add` after the loops over all sub-graphs -/
def serverAdd (numICE : ℕ → ℕ) (rank : ℕ → ℚ) : ℕ → ℚ :=
  (List.range numSGs).foldl (serverMove m numICE rank) fun _ => 0

/-- one iteration of `server_PR_float` -/
def serverRound (numICE : ℕ → ℕ) (rank : ℕ → ℚ) : ℕ → ℚ :=
  let add := serverAdd m numICE rank
  fun sg => if sg < numSGs then (1 - damping) / numSGs + damping * add sg else rank sg

/-- `server_rank` after `i` iterations -/
def serverRanks (numICE : ℕ → ℕ) : ℕ → ℕ → ℚ
  | 0 => fun sg => if sg < numSGs then 1 / numSGs else 0
  | i + 1 => serverRound m numICE (serverRanks numICE i)

/-- `ITER` -/
def iter : ℕ := 50

/-- `server_PR_float` -/
def serverPRFloat : ℕ → ℚ := serverRanks m (analyzeSg m).numICE iter

/-! ## Edges into other sub-graphs -/

/-- the nodes that the edges of a sub-graph into other ones lead to, one for each edge -/
def Mat.crossTo (sg : ℕ) : List ℕ :=
  (((m.nodes sg).flatMap m.edges).filter fun e => m.sgInfo (m.idx e) ≠ sg).map m.idx

/-- loops over the nodes of a sub-graph and their edges that only look at edges into other ones -/
theorem foldl_crossing {β : Type} (g : β → ℕ → β) (sg : ℕ) (b : β) :
    (m.nodes sg).foldl
      (fun b n => (m.edges n).foldl (fun b e => if m.sgInfo (m.idx e) ≠ sg then g b (m.idx e) else b) b) b =
      (m.crossTo sg).foldl g b := by
  rw [Mat.crossTo, List.foldl_map, List.foldl_filter, List.foldl_flatMap]
  simp only [decide_eq_true_eq]

variable {m}

theorem mem_crossTo {sg : ℕ} (hsg : sg < numSGs) {dst : ℕ} (h : dst ∈ m.crossTo sg) : dst < m.row ∧ m.sgInfo dst ≠ sg := by
  obtain ⟨e, he, rfl⟩ := List.mem_map.mp h
  obtain ⟨hflat, hne⟩ := List.mem_filter.mp he
  obtain ⟨n, hn, hen⟩ := List.mem_flatMap.mp hflat
  have hnode := (mem_nodes hsg).mp hn
  have hhi := m.parts.le_hi (show sg + 1 ≤ numSGs from hsg)
  have hedge := (mem_edges (show n < m.row by omega)).mp hen
  have hlast := m.rows.le_hi (show n + 1 ≤ m.row by omega)
  exact ⟨m.idx_lt e (by omega), of_decide_eq_true hne⟩

theorem foldl_edge (sg : ℕ) (dsts : List ℕ) (c : Count) :
    (dsts.foldl (Count.edge sg) c).numSgEdge = c.numSgEdge + dsts.length ∧
      ∀ n sg', (dsts.foldl (Count.edge sg) c).numICEsSg n sg' =
        c.numICEsSg n sg' + if sg' = sg then dsts.count n else 0 := by
  induction dsts generalizing c with
  | nil => exact ⟨rfl, fun n sg' => by simp⟩
  | cons dst dsts ih =>
    obtain ⟨hedge, hnode⟩ := ih (c.edge sg dst)
    refine ⟨?_, fun n sg' => ?_⟩
    · rw [List.foldl_cons, hedge, List.length_cons]
      simp only [Count.edge]
      omega
    · rw [List.foldl_cons, hnode, List.count_cons]
      by_cases hn : n = dst
      · subst hn
        by_cases hs : sg' = sg
        · subst hs
          simp only [Count.edge, Function.update_self, beq_self_eq_true, if_true]
          omega
        · simp only [Count.edge, Function.update_self, Function.update_of_ne hs, if_neg hs]
      · simp only [Count.edge, Function.update_of_ne hn, beq_false_of_ne (Ne.symm hn), Bool.false_eq_true, if_false,
          Nat.add_zero]

theorem analyzeStep_spec (m : Mat numSGs) (x : CrossEdges) (k : ℕ) :
    analyzeStep m x k = ⟨Function.update x.numICE k (m.crossTo k).length, fun n sg =>
      x.numICEsSg n sg + if sg = k then (m.crossTo k).count n else 0⟩ := by
  have hcount : countSg m x.numICEsSg k = (m.crossTo k).foldl (Count.edge k) ⟨0, x.numICEsSg⟩ :=
    foldl_crossing m (Count.edge k) k ⟨0, x.numICEsSg⟩
  obtain ⟨hedge, hnode⟩ := foldl_edge k (m.crossTo k) ⟨0, x.numICEsSg⟩
  simp only [analyzeStep, hcount, hedge, Nat.zero_add, CrossEdges.mk.injEq, true_and]
  exact funext fun n => funext fun sg => hnode n sg

/-- **What `analyze_sg` counts.** -/
theorem analyzeSg_spec (m : Mat numSGs) {sg : ℕ} (hsg : sg < numSGs) :
    (analyzeSg m).numICE sg = (m.crossTo sg).length ∧ ∀ n, (analyzeSg m).numICEsSg n sg = (m.crossTo sg).count n := by
  have hloop : ∀ k, (List.range k).foldl (analyzeStep m) ⟨fun _ => 0, fun _ _ => 0⟩ =
      ⟨fun sg => if sg < k then (m.crossTo sg).length else 0, fun n sg => if sg < k then (m.crossTo sg).count n else 0⟩ := by
    intro k
    induction k with
    | zero => simp
    | succ k ih =>
      rw [List.range_succ, List.foldl_append, ih, List.foldl_cons, List.foldl_nil, analyzeStep_spec, CrossEdges.mk.injEq]
      refine ⟨funext fun s => ?_, funext fun n => funext fun s => ?_⟩
      · by_cases hs : s = k
        · rw [hs, Function.update_self, if_pos (Nat.lt_succ_self k)]
        · rw [Function.update_of_ne hs]
          simp only [show s < k + 1 ↔ s < k by omega]
      · by_cases hs : s = k
        · simp only [hs, lt_irrefl, if_false, if_true, Nat.zero_add, Nat.lt_succ_self]
        · simp only [show s < k + 1 ↔ s < k by omega, if_neg hs, Nat.add_zero]
  rw [analyzeSg, hloop]
  simp only [if_pos hsg]
  exact ⟨trivial, fun _ => trivial⟩

/-- every edge into another sub-graph is counted at one node -/
theorem sum_numICEsSg (m : Mat numSGs) {sg : ℕ} (hsg : sg < numSGs) :
    ∑ n ∈ Finset.range m.row, (analyzeSg m).numICEsSg n sg = (analyzeSg m).numICE sg := by
  obtain ⟨hedge, hnode⟩ := analyzeSg_spec m hsg
  have hsum : ∑ n ∈ Finset.range m.row, (m.crossTo sg : Multiset ℕ).count n = Multiset.card (m.crossTo sg : Multiset ℕ) :=
    Multiset.sum_count_eq_card fun dst hdst => Finset.mem_range.mpr (mem_crossTo hsg hdst).1
  rw [hedge, ← Multiset.coe_card, ← hsum]
  exact Finset.sum_congr rfl fun n _ => (hnode n).trans (Multiset.coe_count n _).symm

theorem numICEsSg_own (m : Mat numSGs) {sg n : ℕ} (hsg : sg < numSGs) (hn : n ∈ m.nodes sg) :
    (analyzeSg m).numICEsSg n sg = 0 := by
  rw [(analyzeSg_spec m hsg).2, List.count_eq_zero]
  exact fun hmem => (mem_crossTo hsg hmem).2 (m.sgInfo_eq hsg hn)

/-! ## The walk -/

/-- the sub-graphs and the sub-graphs their edges lead to -/
def Mat.serverWalk (m : Mat numSGs) (hpos : 0 < numSGs) : Walk ℕ where
  places := List.range numSGs
  nodup := List.nodup_range
  nonempty := by simpa using hpos.ne'
  out sg := (m.crossTo sg).map m.sgInfo
  out_mem sg hsg sg' h := by
    obtain ⟨dst, hdst, rfl⟩ := List.mem_map.mp h
    exact List.mem_range.mpr (m.numbered dst (mem_crossTo (List.mem_range.mp hsg) hdst).1).1

theorem serverMove_eq (m : Mat numSGs) (hpos : 0 < numSGs) (rank add : ℕ → ℚ) {sg : ℕ} (hsg : sg < numSGs) :
    serverMove m (analyzeSg m).numICE rank add sg = spread add ((m.serverWalk hpos).out sg) (rank sg) := by
  have hlen : ((m.serverWalk hpos).out sg).length = (analyzeSg m).numICE sg := by
    rw [(analyzeSg_spec m hsg).1]
    exact List.length_map ..
  unfold serverMove spread
  rw [hlen]
  split_ifs
  · refine (foldl_crossing m (fun add dst => addAt add (m.sgInfo dst) (rank sg / (analyzeSg m).numICE sg)) sg add).trans ?_
    rw [show (m.serverWalk hpos).out sg = (m.crossTo sg).map m.sgInfo from rfl, List.foldl_map]
  · rfl

theorem serverAdd_eq (m : Mat numSGs) (hpos : 0 < numSGs) (rank : ℕ → ℚ) :
    serverAdd m (analyzeSg m).numICE rank = arriving (m.serverWalk hpos).out rank (List.range numSGs) := by
  funext i
  have hspread := List.foldl_ext (serverMove m (analyzeSg m).numICE rank)
    (fun add sg => spread add ((m.serverWalk hpos).out sg) (rank sg)) (fun _ => 0) (l := List.range numSGs)
    fun add sg hsg => serverMove_eq m hpos rank add (List.mem_range.mp hsg)
  rw [serverAdd, hspread, foldl_spread, zero_add]

/-- **The loops of `server_PR_float`** are rounds of the walk. -/
theorem serverRanks_eq (m : Mat numSGs) (hpos : 0 < numSGs) (i : ℕ) {sg : ℕ} (hsg : sg < numSGs) :
    serverRanks m (analyzeSg m).numICE i sg = (m.serverWalk hpos).ranks damping i sg := by
  have hlen : ((m.serverWalk hpos).places.length : ℚ) = numSGs := congrArg Nat.cast List.length_range
  induction i generalizing sg with
  | zero => simp only [serverRanks, if_pos hsg, Walk.ranks, hlen]
  | succ i ih =>
    have hadd := serverAdd_eq m hpos (serverRanks m (analyzeSg m).numICE i)
    have harr : arriving (m.serverWalk hpos).out (serverRanks m (analyzeSg m).numICE i) (List.range numSGs) =
        arriving (m.serverWalk hpos).out ((m.serverWalk hpos).ranks damping i) (List.range numSGs) :=
      arriving_congr fun s hs => ih (List.mem_range.mp hs)
    simp only [serverRanks, serverRound, if_pos hsg, hadd, harr, Walk.ranks, Walk.round, hlen]
    rfl

theorem damping_pos : 0 < damping := by norm_num [damping]

theorem damping_lt_one : damping < 1 := by norm_num [damping]

theorem serverRanks_pos (m : Mat numSGs) (i : ℕ) {sg : ℕ} (hsg : sg < numSGs) :
    0 < serverRanks m (analyzeSg m).numICE i sg := by
  rw [serverRanks_eq m (by omega) i hsg]
  exact Walk.ranks_pos damping_pos.le damping_lt_one i sg

end PimOfis.PageRank
