/-
The refinement of the local ranks (`refinement` of `pr_host.c`), in exact arithmetic.

Each node gets from every other sub-graph the part of that sub-graph's edges into others that lead to the node, weighted
with the ratio of the two server ranks. The second division is by the number of those edges; `server_PR_float` tests the
same number before it divides, `refinement` does not. A division by zero ends the run.

Results:
- `refineNode_spec`: what a node gets, if no divisor is zero;
- `wellDefined_iff`: `refinement` comes to its end, with the right sums, if and only if every sub-graph that some node lies
  outside of has an edge into another one.
-/
import Mathlib.Tactic
import PimOfis.PageRank.Server

namespace PimOfis.PageRank

open Lib

/-! ## Model -/

variable {numSGs : ℕ} (m : Mat numSGs)

/-- `x / y` -/
def divide (x y : ℚ) : Option ℚ := if y = 0 then none else some (x / y)

/-- what node `n` of sub-graph `sg` gets from `sg2`, added to `temp` -/
def refineStep (serverRank : ℕ → ℚ) (x : CrossEdges) (sg n : ℕ) (temp : ℚ) (sg2 : ℕ) : Option ℚ :=
  if sg2 = sg then some temp
  else do
    let ratio ← divide (serverRank sg2) (serverRank sg)
    let part ← divide (x.numICEsSg n sg2) (x.numICE sg2)
    some (temp + ratio * part)

/-- `temp` after the loop over `sg2` -/
def refineNode (numSGs : ℕ) (serverRank : ℕ → ℚ) (x : CrossEdges) (sg n : ℕ) : Option ℚ :=
  (List.range numSGs).foldlM (refineStep serverRank x sg n) 0

/-- `refinement` -/
def refinement (serverRank : ℕ → ℚ) (x : CrossEdges) (localRank : ℕ → ℚ) : Option (ℕ → ℚ) :=
  (List.range numSGs).foldlM
    (fun localRank sg =>
      (m.nodes sg).foldlM
        (fun localRank n => do
          let temp ← refineNode numSGs serverRank x sg n
          some (addAt localRank n temp))
        localRank)
    localRank

/-- `refine_vec` in `main` -/
def refineVec : Option (ℕ → ℚ) := refinement m (serverPRFloat m) (analyzeSg m) fun _ => 0

/-! ## What it should compute -/

/-- the part of the edges of `sg2` into other sub-graphs that lead to node `n`; none of them if there are none -/
def Mat.fraction (n sg2 : ℕ) : ℚ :=
  if m.crossTo sg2 = [] then 0 else (m.crossTo sg2).count n / (m.crossTo sg2).length

/-- what all other sub-graphs give to a node -/
def Mat.refined (n : ℕ) : ℚ :=
  ∑ sg2 ∈ (Finset.range numSGs).filter (· ≠ m.sgInfo n),
    serverPRFloat m sg2 / serverPRFloat m (m.sgInfo n) * m.fraction n sg2

/-- the counts agree, the server ranks are positive, and `refinement` divides by no zero and adds up what it should -/
structure WellDefined : Prop where
  counted : ∀ sg < numSGs, (analyzeSg m).numICE sg = ∑ n ∈ Finset.range m.row, (analyzeSg m).numICEsSg n sg
  own : ∀ sg < numSGs, ∀ n ∈ m.nodes sg, (analyzeSg m).numICEsSg n sg = 0
  positive : ∀ i, ∀ sg < numSGs, 0 < serverRanks m (analyzeSg m).numICE i sg
  refined : ∃ v, refineVec m = some v ∧ ∀ n < m.row, v n = m.refined n

/-- every sub-graph that some node lies outside of has an edge into another one -/
def Connected : Prop := ∀ sg2 < numSGs, (∃ n < m.row, m.sgInfo n ≠ sg2) → m.crossTo sg2 ≠ []

/-! ## Proof -/

variable {m}

theorem divide_of_ne {x y : ℚ} (h : y ≠ 0) : divide x y = some (x / y) := if_neg h

theorem refinement_eq (serverRank : ℕ → ℚ) (x : CrossEdges) (v : ℕ → ℚ) :
    refinement m serverRank x v = (List.range m.row).foldlM (fun v n => do
      let temp ← refineNode numSGs serverRank x (m.sgInfo n) n
      some (addAt v n temp)) v := by
  rw [← flatMap_nodes_all, foldlM_flatMap, refinement]
  refine foldlM_congr (fun sg hsg v => foldlM_congr (fun n hn v => ?_) v) v
  rw [m.sgInfo_eq (List.mem_range.mp hsg) hn]

variable (m) in
/-- what the first `k` sub-graphs give to a node -/
def Mat.refinedBy (n k : ℕ) : ℚ :=
  ∑ sg2 ∈ (Finset.range k).filter (· ≠ m.sgInfo n),
    serverPRFloat m sg2 / serverPRFloat m (m.sgInfo n) * m.fraction n sg2

theorem refineStep_spec (hall : Connected m) {n : ℕ} (hn : n < m.row) {k : ℕ} (hk : k < numSGs) :
    refineStep (serverPRFloat m) (analyzeSg m) (m.sgInfo n) n (m.refinedBy n k) k = some (m.refinedBy n (k + 1)) := by
  have hsg := (m.numbered n hn).1
  rw [Mat.refinedBy, Mat.refinedBy, Finset.range_add_one, Finset.filter_insert]
  by_cases hown : k = m.sgInfo n
  · rw [if_neg (not_not.mpr hown), refineStep, if_pos hown]
  · have hne : m.crossTo k ≠ [] := hall k hk ⟨n, hn, fun h => hown h.symm⟩
    have hlen : ((m.crossTo k).length : ℚ) ≠ 0 := Nat.cast_ne_zero.mpr (by simpa using hne)
    obtain ⟨hedge, hnode⟩ := analyzeSg_spec m hk
    have hrank : serverPRFloat m (m.sgInfo n) ≠ 0 := (serverRanks_pos m iter hsg).ne'
    rw [if_pos hown, Finset.sum_insert (by simp), refineStep, if_neg hown, divide_of_ne hrank, hedge, hnode,
      divide_of_ne hlen]
    simp only [Option.bind_eq_bind, Option.bind_some]
    rw [Mat.fraction, if_neg hne, add_comm]

theorem refineNode_spec (hall : Connected m) {n : ℕ} (hn : n < m.row) :
    refineNode numSGs (serverPRFloat m) (analyzeSg m) (m.sgInfo n) n = some (m.refined n) := by
  obtain ⟨t, ht, rfl⟩ := foldlM_range (refineStep (serverPRFloat m) (analyzeSg m) (m.sgInfo n) n) numSGs 0
    (fun k temp => temp = m.refinedBy n k) (by simp [Mat.refinedBy]) fun k hk temp htemp =>
      ⟨_, htemp ▸ refineStep_spec hall hn hk, rfl⟩
  exact ht

theorem refined_of_connected (hall : Connected m) : ∃ v, refineVec m = some v ∧ ∀ n < m.row, v n = m.refined n := by
  obtain ⟨v, hv, hinv⟩ := foldlM_range
    (fun v n => (refineNode numSGs (serverPRFloat m) (analyzeSg m) (m.sgInfo n) n).bind
      fun temp => some (addAt v n temp)) m.row (fun _ => (0 : ℚ))
    (fun k v => ∀ n, v n = if n < k then m.refined n else 0) (fun n => by simp) fun k hk v hv => by
      rw [refineNode_spec hall hk]
      refine ⟨_, rfl, fun n => ?_⟩
      by_cases hn : n = k
      · subst hn
        rw [addAt, Function.update_self, hv, if_neg (lt_irrefl n), if_pos (Nat.lt_succ_self n), zero_add]
      · rw [addAt, Function.update_of_ne hn, hv]
        simp only [show n < k + 1 ↔ n < k by omega]
  refine ⟨v, ?_, fun n hn => ?_⟩
  · rw [refineVec, refinement_eq]
    exact hv
  · rw [hinv, if_pos hn]

theorem connected_of_refined {v : ℕ → ℚ} (h : refineVec m = some v) : Connected m := by
  rintro sg2 hsg2 ⟨n, hn, hne⟩ hnil
  rw [refineVec, refinement_eq] at h
  obtain ⟨u, u', hstep⟩ := step_of_foldlM h (List.mem_range.mpr hn)
  obtain ⟨temp, htemp, -⟩ := Option.bind_eq_some_iff.mp hstep
  obtain ⟨t, t', hterm⟩ := step_of_foldlM htemp (List.mem_range.mpr hsg2)
  -- the divisor is the number of edges into other sub-graphs
  have hzero : (analyzeSg m).numICE sg2 = 0 := by rw [(analyzeSg_spec m hsg2).1, hnil, List.length_nil]
  rw [refineStep, if_neg (Ne.symm hne), hzero] at hterm
  obtain ⟨ratio, -, hrest⟩ := Option.bind_eq_some_iff.mp hterm
  obtain ⟨part, hpart, -⟩ := Option.bind_eq_some_iff.mp hrest
  rw [Nat.cast_zero, divide, if_pos rfl] at hpart
  exact absurd hpart nofun

/-- **Refinement is well defined** if and only if every sub-graph that some node lies outside of has an edge into another
one. -/
theorem wellDefined_iff (m : Mat numSGs) : WellDefined m ↔ Connected m := by
  constructor
  · rintro ⟨-, -, -, v, hv, -⟩
    exact connected_of_refined hv
  · exact fun hall => ⟨fun sg hsg => (sum_numICEsSg m hsg).symm, fun sg hsg n hn => numICEsSg_own m hsg hn,
      fun i sg hsg => serverRanks_pos m i hsg, refined_of_connected hall⟩

/-- two sub-graphs of one node each, with one edge, from the first to the second -/
def oneWay : Mat 2 where
  row := 2
  edge := 1
  ptr n := min n 1
  idx _ := 1
  sgSizes i := i
  isICN _ := true
  rows := ⟨rfl, rfl, fun n _ => by omega⟩
  idx_lt _ _ := by decide
  parts := ⟨rfl, rfl, fun i _ => Nat.le_succ i⟩
  sgInfo n := n
  numbered n hn := ⟨hn, le_rfl, Nat.lt_succ_self n⟩

/-- node 0 divides by the number of edges out of the second sub-graph -/
theorem oneWay_undefined : ¬ WellDefined oneWay := by
  rintro ⟨-, -, -, v, hv, -⟩
  exact connected_of_refined hv 1 (by decide) ⟨0, by decide, by decide⟩ (by decide)

end PimOfis.PageRank
