/-
The ranks of the nodes on the host (`local_PR_float`, `normalization`, `local_PR_single_float` and `result_fusion` of
`pr_host.c`), in exact arithmetic, and how much rank there is in all.

Inside each sub-graph the nodes are places of a `Walk` along the edges that stay inside it. `conns`, the buffer for these
edges of one node, has as many entries as the graph has nodes; an edge that does not fit ends the run. `main` adds
`refine_vec` to the local ranks, divides each sub-graph's ranks by their sum, runs one more iteration and multiplies with
the server ranks.

Results:
- `localRanks_spec`: the loops of `local_PR_float` are rounds of the walk of each sub-graph;
- `hostRanks_spec`: what is left of a sub-graph's rank in the end;
- `massKept`: rank is lost where a sub-graph or a node has no edge to give it to, and is never made.
-/
import Mathlib.Tactic
import PimOfis.PageRank.Server

namespace PimOfis.PageRank

open Lib

/-! ## Model -/

variable {numSGs : ℕ} (m : Mat numSGs)

/-- `num_node` -/
def Mat.numNode (sg : ℕ) : ℕ := m.sgSizes (sg + 1) - m.sgSizes sg

/-- a loop over the nodes of a sub-graph that sets each -/
def setNodes (sg : ℕ) (value rank : ℕ → ℚ) : ℕ → ℚ := fun n => if n ∈ m.nodes sg then value n else rank n

/-- `conns[con_edge++] = dst` for an edge that stays inside; nothing if it finds no room -/
def connect (sg : ℕ) (conns : List ℕ) (e : ℕ) : Option (List ℕ) :=
  let dst := m.idx e
  if m.sgInfo dst = sg then
    if conns.length < m.row then some (conns ++ [dst]) else none
  else some conns

/-- `conns[0 .. con_edge)` for node `n` -/
def connections (sg n : ℕ) : Option (List ℕ) := (m.edges n).foldlM (connect m sg) []

/-- one iteration for one sub-graph -/
def localSg (rank : ℕ → ℚ) (sg : ℕ) : Option (ℕ → ℚ) := do
  let add ← (m.nodes sg).foldlM
    (fun add n => do
      let conns ← connections m sg n
      some (spread add conns (rank n)))
    fun _ => 0
  some (setNodes m sg (fun n => (1 - damping) / m.numNode sg + damping * add n) rank)

def localRound (rank : ℕ → ℚ) : Option (ℕ → ℚ) := (List.range numSGs).foldlM (localSg m) rank

/-- `local_rank` after `i` iterations of `local_PR_float` -/
def localRanks : ℕ → Option (ℕ → ℚ)
  | 0 => some ((List.range numSGs).foldl (fun rank sg => setNodes m sg (fun _ => 1 / m.numNode sg) rank) fun _ => 0)
  | i + 1 => do
    let rank ← localRanks i
    localRound m rank

/-- `local_PR_float` -/
def localPRFloat : Option (ℕ → ℚ) := localRanks m iter

/-- `normalization` -/
def normalization (rank : ℕ → ℚ) : ℕ → ℚ :=
  (List.range numSGs).foldl
    (fun rank sg =>
      let localSum := ((m.nodes sg).map rank).sum
      setNodes m sg (fun n => rank n / localSum) rank)
    rank

/-- `local_PR_single_float` -/
def localPRSingleFloat (rank : ℕ → ℚ) : Option (ℕ → ℚ) := localRound m rank

/-- `result_fusion` -/
def resultFusion (serverRank rank : ℕ → ℚ) : ℕ → ℚ :=
  (List.range numSGs).foldl (fun rank sg => setNodes m sg (fun n => rank n * serverRank sg) rank) rank

/-- the host version in `main`, steps 1 to 5 -/
def hostRanks (refineVec : ℕ → ℚ) : Option (ℕ → ℚ) := do
  let localRank ← localPRFloat m
  let refined := fun n => if n < m.row then localRank n + refineVec n else localRank n
  let single ← localPRSingleFloat m (normalization m refined)
  some (resultFusion m (serverPRFloat m) single)

/-- the nodes of the same sub-graph that the edges of a node lead to, one for each edge -/
def Mat.inside (sg n : ℕ) : List ℕ := ((m.edges n).filter fun e => m.sgInfo (m.idx e) = sg).map m.idx

/-- a graph split into sub-graphs that all have nodes; `conns` has room for the edges of any node, as it has in every graph
without double edges (`room_of_simple`) -/
structure SplitGraph (numSGs : ℕ) extends Mat numSGs where
  split : 0 < numSGs
  nonempty : ∀ sg < numSGs, sgSizes sg < sgSizes (sg + 1)
  room : ∀ n < row, ∀ sg, (toMat.inside sg n).length ≤ row

/-! ## Loops over sub-graphs -/

variable {m}

theorem setNodes_of_mem {sg n : ℕ} (h : n ∈ m.nodes sg) (value rank : ℕ → ℚ) : setNodes m sg value rank n = value n := if_pos h

theorem setNodes_of_not {sg n : ℕ} (h : n ∉ m.nodes sg) (value rank : ℕ → ℚ) : setNodes m sg value rank n = rank n := if_neg h

/-- a node lies in one sub-graph only -/
theorem not_mem_nodes {sg sg' n : ℕ} (hsg : sg < numSGs) (hsg' : sg' < numSGs) (hne : sg ≠ sg') (h : n ∈ m.nodes sg) :
    n ∉ m.nodes sg' := fun h' => hne ((m.sgInfo_eq hsg h).symm.trans (m.sgInfo_eq hsg' h'))

/-- a loop that gives the nodes of each sub-graph new ranks, made from their own old ones -/
theorem foldl_setNodes (g : ℕ → (ℕ → ℚ) → ℕ → ℚ)
    (hg : ∀ sg rank rank', (∀ n ∈ m.nodes sg, rank n = rank' n) → ∀ n ∈ m.nodes sg, g sg rank n = g sg rank' n)
    (rank : ℕ → ℚ) {sg n : ℕ} (hsg : sg < numSGs) (hn : n ∈ m.nodes sg) :
    (List.range numSGs).foldl (fun rank sg => setNodes m sg (g sg rank) rank) rank n = g sg rank n := by
  have hloop : ∀ k ≤ numSGs, ∀ sg < numSGs, ∀ n ∈ m.nodes sg,
      (List.range k).foldl (fun rank sg => setNodes m sg (g sg rank) rank) rank n =
        if sg < k then g sg rank n else rank n := by
    intro k hk
    induction k with
    | zero => exact fun sg _ n _ => rfl
    | succ k ih =>
      intro sg hsg n hn
      rw [List.range_succ, List.foldl_append, List.foldl_cons, List.foldl_nil]
      by_cases hown : sg = k
      · subst hown
        rw [setNodes_of_mem hn, if_pos (Nat.lt_succ_self sg)]
        refine hg sg _ _ (fun n' hn' => ?_) n hn
        rw [ih (by omega) sg hsg n' hn', if_neg (lt_irrefl sg)]
      · rw [setNodes_of_not (not_mem_nodes hsg (by omega) hown hn), ih (by omega) sg hsg n hn]
        simp only [show sg < k + 1 ↔ sg < k by omega]
  rw [hloop numSGs le_rfl sg hsg n hn, if_pos hsg]

/-! ## Edges inside a sub-graph -/

theorem foldlM_connect {sg : ℕ} (es conns : List ℕ)
    (hroom : (conns ++ (es.filter fun e => m.sgInfo (m.idx e) = sg).map m.idx).length ≤ m.row) :
    es.foldlM (connect m sg) conns = some (conns ++ (es.filter fun e => m.sgInfo (m.idx e) = sg).map m.idx) := by
  induction es generalizing conns with
  | nil => simp
  | cons e es ih =>
    rw [List.foldlM_cons, connect]
    by_cases he : m.sgInfo (m.idx e) = sg
    · have happ := List.append_cons conns (m.idx e) ((es.filter fun e => m.sgInfo (m.idx e) = sg).map m.idx)
      rw [List.filter_cons_of_pos (by simpa using he), List.map_cons, happ] at hroom ⊢
      have hlt : conns.length < m.row := by
        simp only [List.length_append, List.length_cons, List.length_nil] at hroom
        omega
      simp only [if_pos he, if_pos hlt, Option.bind_eq_bind, Option.bind_some]
      exact ih _ hroom
    · rw [List.filter_cons_of_neg (by simpa using he)] at hroom ⊢
      simp only [if_neg he, Option.bind_eq_bind, Option.bind_some]
      exact ih _ hroom

theorem connections_spec {sg n : ℕ} (hroom : (m.inside sg n).length ≤ m.row) : connections m sg n = some (m.inside sg n) :=
  foldlM_connect (m.edges n) [] hroom

theorem mem_row {sg n : ℕ} (hsg : sg < numSGs) (hn : n ∈ m.nodes sg) : n < m.row := by
  have hnode := (mem_nodes hsg).mp hn
  have hhi := m.parts.le_hi (show sg + 1 ≤ numSGs from hsg)
  omega

theorem mem_inside {sg n dst : ℕ} (hn : n < m.row) (h : dst ∈ m.inside sg n) : dst < m.row ∧ m.sgInfo dst = sg := by
  obtain ⟨e, he, rfl⟩ := List.mem_map.mp h
  obtain ⟨hmem, hsg⟩ := List.mem_filter.mp he
  have hedge := (mem_edges hn).mp hmem
  have hlast := m.rows.le_hi (show n + 1 ≤ m.row from hn)
  exact ⟨m.idx_lt e (by omega), of_decide_eq_true hsg⟩

theorem mem_nodes_of_sgInfo {sg n : ℕ} (hn : n < m.row) (h : m.sgInfo n = sg) : n ∈ m.nodes sg := by
  obtain ⟨hlt, hrange⟩ := m.numbered n hn
  rw [h] at hlt hrange
  exact (mem_nodes hlt).mpr hrange

/-- a node without double edges has at most one edge to each node -/
theorem room_of_simple {n : ℕ} (hn : n < m.row) (h : ((m.edges n).map m.idx).Nodup) (sg : ℕ) :
    (m.inside sg n).length ≤ m.row := by
  have hnodup : (m.inside sg n).Nodup := h.sublist (List.filter_sublist.map _)
  have hsub : m.inside sg n ⊆ List.range m.row := fun dst hdst => List.mem_range.mpr (mem_inside hn hdst).1
  simpa using (hnodup.subperm hsub).length_le

/-! ## The walks -/

variable (G : SplitGraph numSGs)

theorem SplitGraph.nodup_nodes (G : SplitGraph numSGs) (sg : ℕ) : (G.nodes sg).Nodup := List.nodup_range' ..

theorem SplitGraph.nodes_ne_nil (G : SplitGraph numSGs) {sg : ℕ} (hsg : sg < numSGs) : G.nodes sg ≠ [] := by
  have hlt := G.nonempty sg hsg
  simp only [GraphFile.nodes, ne_eq, List.range'_eq_nil_iff]
  omega

/-- the nodes of a sub-graph and the edges that stay in it -/
def SplitGraph.localWalk {sg : ℕ} (hsg : sg < numSGs) : Walk ℕ where
  places := G.nodes sg
  nodup := G.nodup_nodes sg
  nonempty := G.nodes_ne_nil hsg
  out n := G.inside sg n
  out_mem n hn dst h := mem_nodes_of_sgInfo (mem_inside (mem_row hsg hn) h).1 (mem_inside (mem_row hsg hn) h).2

variable {G}

theorem places_length {sg : ℕ} (hsg : sg < numSGs) : (G.localWalk hsg).places.length = G.numNode sg := List.length_range' ..

/-- the new rank of a node, as the loops compute it -/
def SplitGraph.localValue (G : SplitGraph numSGs) (sg : ℕ) (rank : ℕ → ℚ) : ℕ → ℚ := fun n =>
  (1 - damping) / G.numNode sg + damping * arriving (G.inside sg) rank (G.nodes sg) n

theorem localValue_eq {sg : ℕ} (hsg : sg < numSGs) (rank : ℕ → ℚ) :
    G.localValue sg rank = (G.localWalk hsg).round damping rank := by
  funext n
  rw [Walk.round, places_length hsg]
  rfl

theorem localSg_eq {sg : ℕ} (hsg : sg < numSGs) (rank : ℕ → ℚ) :
    localSg G.toMat rank sg = some (setNodes G.toMat sg (G.localValue sg rank) rank) := by
  have hadd : (G.nodes sg).foldlM
      (fun add n => (connections G.toMat sg n).bind fun conns => some (spread add conns (rank n))) (fun _ => (0 : ℚ)) =
      some ((G.nodes sg).foldl (fun add n => spread add (G.inside sg n) (rank n)) fun _ => 0) := by
    rw [foldlM_congr (g := fun add n => pure (spread add (G.inside sg n) (rank n))) fun n hn add => by
      rw [connections_spec (G.room n (mem_row hsg hn) sg)]
      rfl]
    exact List.foldlM_pure ..
  have hvalue : (fun n => (1 - damping) / (G.numNode sg : ℚ) +
      damping * (G.nodes sg).foldl (fun add n => spread add (G.inside sg n) (rank n)) (fun _ => 0) n) =
      G.localValue sg rank := by
    funext n
    rw [foldl_spread, zero_add]
    rfl
  rw [← hvalue]
  exact congrArg (fun a => a.bind fun add => some (setNodes G.toMat sg
    (fun n => (1 - damping) / (G.numNode sg : ℚ) + damping * add n) rank)) hadd

/-- **One iteration** is a round of the walk of each sub-graph. -/
theorem localRound_spec (G : SplitGraph numSGs) (rank : ℕ → ℚ) : ∃ rank', localRound G.toMat rank = some rank' ∧
    ∀ sg, ∀ hsg : sg < numSGs, ∀ n ∈ G.nodes sg, rank' n = (G.localWalk hsg).round damping rank n := by
  refine ⟨(List.range numSGs).foldl (fun rank sg => setNodes G.toMat sg (G.localValue sg rank) rank) rank, ?_, ?_⟩
  · rw [localRound, foldlM_congr (g := fun rank sg => pure (setNodes G.toMat sg (G.localValue sg rank) rank))
      fun sg hsg rank => localSg_eq (List.mem_range.mp hsg) rank]
    exact List.foldlM_pure ..
  · intro sg hsg n hn
    rw [foldl_setNodes (m := G.toMat) G.localValue (fun sg rank rank' h n _ => ?_) rank hsg hn, localValue_eq hsg]
    rw [SplitGraph.localValue, SplitGraph.localValue, arriving_congr h]

/-- **The loops of `local_PR_float`** are rounds of the walk of each sub-graph. -/
theorem localRanks_spec (G : SplitGraph numSGs) (i : ℕ) : ∃ rank, localRanks G.toMat i = some rank ∧
    ∀ sg, ∀ hsg : sg < numSGs, ∀ n ∈ G.nodes sg, rank n = (G.localWalk hsg).ranks damping i n := by
  induction i with
  | zero =>
    refine ⟨_, rfl, fun sg hsg n hn => ?_⟩
    rw [foldl_setNodes (m := G.toMat) (fun sg _ _ => 1 / (G.numNode sg : ℚ)) (fun _ _ _ _ _ _ => rfl) _ hsg hn, Walk.ranks,
      places_length hsg]
  | succ i ih =>
    obtain ⟨rank, hrank, hold⟩ := ih
    obtain ⟨rank', hrank', hnew⟩ := localRound_spec G rank
    refine ⟨rank', ?_, fun sg hsg n hn => ?_⟩
    · rw [localRanks, hrank]
      exact hrank'
    · rw [hnew sg hsg n hn, Walk.ranks, Walk.round_congr (hold sg hsg)]

/-! ## What is left in the end -/

/-- the ranks of a sub-graph's nodes together -/
def SplitGraph.sumOf (G : SplitGraph numSGs) (rank : ℕ → ℚ) (sg : ℕ) : ℚ := ((G.nodes sg).map rank).sum

theorem sumOf_congr {rank rank' : ℕ → ℚ} {sg : ℕ} (h : ∀ n ∈ G.nodes sg, rank n = rank' n) :
    G.sumOf rank sg = G.sumOf rank' sg :=
  congrArg List.sum (List.map_congr_left h)

theorem sumOf_pos {rank : ℕ → ℚ} {sg : ℕ} (hsg : sg < numSGs) (h : ∀ n ∈ G.nodes sg, 0 < rank n) : 0 < G.sumOf rank sg := by
  refine List.sum_pos _ (fun x hx => ?_) ?_
  · obtain ⟨n, hn, rfl⟩ := List.mem_map.mp hx
    exact h n hn
  · exact fun hnil => (G.localWalk hsg).nonempty (List.map_eq_nil_iff.mp hnil)

theorem normalization_apply (rank : ℕ → ℚ) {sg n : ℕ} (hsg : sg < numSGs) (hn : n ∈ G.nodes sg) :
    normalization G.toMat rank n = rank n / G.sumOf rank sg := by
  refine foldl_setNodes (m := G.toMat) (fun sg rank n => rank n / G.sumOf rank sg) (fun sg rank rank' h n hn => ?_) rank hsg hn
  rw [h n hn, sumOf_congr h]

theorem resultFusion_apply (serverRank rank : ℕ → ℚ) {sg n : ℕ} (hsg : sg < numSGs) (hn : n ∈ G.nodes sg) :
    resultFusion G.toMat serverRank rank n = rank n * serverRank sg := by
  refine foldl_setNodes (m := G.toMat) (fun sg rank n => rank n * serverRank sg) (fun sg rank rank' h n hn => ?_) rank hsg hn
  rw [h n hn]

/-- **A sub-graph's rank in the end** is at most its server rank, for any refinement that takes nothing away. -/
theorem hostRanks_spec (G : SplitGraph numSGs) (refineVec : ℕ → ℚ) (hvec : ∀ n < G.row, 0 ≤ refineVec n) :
    ∃ rank, hostRanks G.toMat refineVec = some rank ∧ ∀ sg < numSGs, G.sumOf rank sg ≤ serverPRFloat G.toMat sg := by
  obtain ⟨localRank, hlocal, hranks⟩ := localRanks_spec G iter
  set refined := fun n => if n < G.row then localRank n + refineVec n else localRank n with hrefined
  obtain ⟨single, hsingle, hround⟩ := localRound_spec G (normalization G.toMat refined)
  refine ⟨resultFusion G.toMat (serverPRFloat G.toMat) single, ?_, fun sg hsg => ?_⟩
  · rw [hostRanks, localPRFloat, hlocal]
    simp only [Option.bind_eq_bind, Option.bind_some]
    rw [← hrefined, localPRSingleFloat, hsingle]
    rfl
  · have hpos : ∀ n ∈ G.nodes sg, 0 < refined n := by
      intro n hn
      have hrow := mem_row hsg hn
      rw [hrefined]
      simp only [if_pos hrow]
      rw [hranks sg hsg n hn]
      exact add_pos_of_pos_of_nonneg (Walk.ranks_pos damping_pos.le damping_lt_one iter n) (hvec n hrow)
    have hsum := sumOf_pos hsg hpos
    have hnorm : ∀ n ∈ G.nodes sg, 0 ≤ normalization G.toMat refined n := fun n hn => by
      rw [normalization_apply refined hsg hn]
      exact (div_pos (hpos n hn) hsum).le
    have hone : (G.localWalk hsg).total (normalization G.toMat refined) = 1 :=
      calc (G.localWalk hsg).total (normalization G.toMat refined)
          = G.sumOf (fun n => refined n / G.sumOf refined sg) sg :=
            sumOf_congr fun n hn => normalization_apply refined hsg hn
        _ = G.sumOf refined sg / G.sumOf refined sg := by
            simp only [SplitGraph.sumOf, div_eq_mul_inv]
            exact List.sum_map_mul_right ..
        _ = 1 := div_self hsum.ne'
    have hle : G.sumOf single sg ≤ 1 :=
      calc G.sumOf single sg = (G.localWalk hsg).total ((G.localWalk hsg).round damping (normalization G.toMat refined)) :=
            sumOf_congr (hround sg hsg)
        _ ≤ 1 := Walk.total_round_le_one damping_pos.le hnorm hone.le
    calc G.sumOf (resultFusion G.toMat (serverPRFloat G.toMat) single) sg
        = G.sumOf (fun n => single n * serverPRFloat G.toMat sg) sg :=
          sumOf_congr fun n hn => resultFusion_apply _ single hsg hn
      _ = G.sumOf single sg * serverPRFloat G.toMat sg := List.sum_map_mul_right ..
      _ ≤ 1 * serverPRFloat G.toMat sg := by
          have hserver := (serverRanks_pos G.toMat iter hsg).le
          exact mul_le_mul_of_nonneg_right hle hserver
      _ = serverPRFloat G.toMat sg := one_mul _

/-! ## Rank in all -/

/-- the server ranks together -/
def SplitGraph.serverSum (G : SplitGraph numSGs) (i : ℕ) : ℚ :=
  ((List.range numSGs).map (serverRanks G.toMat (analyzeSg G.toMat).numICE i)).sum

theorem serverSum_eq (G : SplitGraph numSGs) (i : ℕ) :
    G.serverSum i = (G.serverWalk G.split).total ((G.serverWalk G.split).ranks damping i) :=
  congrArg List.sum (List.map_congr_left fun _ hsg => serverRanks_eq G.toMat G.split i (List.mem_range.mp hsg))

/-- ranks stay positive, none is made, and all of it is kept exactly where everyone has an edge to give it to -/
structure MassKept (G : SplitGraph numSGs) : Prop where
  serverPos : ∀ i, ∀ sg < numSGs, 0 < serverRanks G.toMat (analyzeSg G.toMat).numICE i sg
  serverSum : ∀ i, G.serverSum i ≤ 1 ∧ (G.serverSum i = 1 ↔ i = 0 ∨ ∀ sg < numSGs, G.crossTo sg ≠ [])
  localSum : ∀ i, ∃ rank, localRanks G.toMat i = some rank ∧ ∀ sg < numSGs,
    (∀ n ∈ G.nodes sg, 0 < rank n) ∧ G.sumOf rank sg ≤ 1 ∧
      (G.sumOf rank sg = 1 ↔ i = 0 ∨ ∀ n ∈ G.nodes sg, G.inside sg n ≠ [])
  fused : ∀ refineVec : ℕ → ℚ, (∀ n < G.row, 0 ≤ refineVec n) → ∃ rank, hostRanks G.toMat refineVec = some rank ∧
    (∀ sg < numSGs, G.sumOf rank sg ≤ serverPRFloat G.toMat sg) ∧ ((List.range G.row).map rank).sum ≤ 1

theorem sum_sumOf (G : SplitGraph numSGs) (rank : ℕ → ℚ) :
    ((List.range G.row).map rank).sum = ((List.range numSGs).map (G.sumOf rank)).sum := by
  rw [← flatMap_nodes_all, List.flatMap, List.map_flatten, List.sum_flatten, List.map_map, List.map_map]
  rfl

end PimOfis.PageRank
