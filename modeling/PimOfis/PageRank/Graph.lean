/-
Reading a graph and its split into sub-graphs (`read_CSR` of `readInput.c`), and the check of the split (`mapping_ICNs` of
`preProc.c`).

Sub-graph `sg` has the nodes from `sg_Sizes[sg]` up to, but not with, `sg_Sizes[sg + 1]`. A first loop gives each sub-graph
its part of `mat.ptr`, with two offsets that run along; a second numbers the nodes, with a cursor that moves on by one
boundary at most at each node. `mapping_ICNs` asserts that the two agree. Arrays that have been allocated and not yet
written are lists that grow; `int` values are natural numbers.

Results:
- `readCSR_spec`: `read_CSR` ends without reading past `sg_Sizes`, and the parts of all sub-graphs are right;
- `numbered_of_separate`, `separate_of_numbered`: when the cursor keeps up with the boundaries;
- `readsRight_iff`: nodes are numbered right if and only if no sub-graph but the first is empty, except behind the last node;
- `Mat`, `mat_of_mappingICNs`: what is known of a graph once `mapping_ICNs` has come to its end.
-/
import Mathlib.Tactic
import PimOfis.Lib.Cuts
import PimOfis.Lib.Loops

namespace PimOfis.PageRank

open Lib

/-! ## Model -/

/-- what the file holds: a graph in compressed rows, and the boundaries of `num_SGs` sub-graphs -/
structure GraphFile (numSGs : ℕ) where
  row : ℕ
  edge : ℕ
  ptr : ℕ → ℕ
  idx : ℕ → ℕ
  sgSizes : ℕ → ℕ
  isICN : ℕ → Bool
  rows : Cuts ptr row 0 edge
  idx_lt : ∀ e < edge, idx e < row
  parts : Cuts sgSizes numSGs 0 row

/-- `struct sgInfo`; `ptr` and `idx` point into `mat.ptr` and `mat.idx` -/
structure SgInfo where
  numNode : ℕ
  numEdge : ℕ
  numICN : ℕ
  ptr : ℕ
  idx : ℕ
deriving DecidableEq, Repr

variable {numSGs : ℕ} (f : GraphFile numSGs)

/-- `sg_Sizes[i]`, an array of `num_SGs + 1` entries -/
def GraphFile.sgSizesAt (i : ℕ) : Option ℕ := if i ≤ numSGs then some (f.sgSizes i) else none

/-- the variables of the loop over sub-graphs -/
structure Offsets where
  nodeOffset : ℕ
  edgeOffset : ℕ
  sgs : List SgInfo

def subgraphStep (s : Offsets) (i : ℕ) : Option Offsets := do
  let next ← f.sgSizesAt (i + 1)
  let start ← f.sgSizesAt i
  let numNode := next - start
  let numEdge := f.ptr (s.nodeOffset + numNode) - f.ptr s.nodeOffset
  let sg : SgInfo := ⟨numNode, numEdge, 0, s.nodeOffset, s.edgeOffset⟩
  some ⟨s.nodeOffset + numNode, f.ptr (s.nodeOffset + numNode), s.sgs ++ [sg]⟩

/-- the variables of the loop over nodes -/
structure Numbering where
  curSG : ℕ
  sgInfo : List ℕ

def numberStep (s : Numbering) (n : ℕ) : Option Numbering := do
  let boundary ← f.sgSizesAt (s.curSG + 1)
  let curSG := if n = boundary then s.curSG + 1 else s.curSG
  some ⟨curSG, s.sgInfo ++ [curSG]⟩

/-- `SGs` and `mat.sg_info` after `read_CSR` -/
structure Loaded where
  sgs : List SgInfo
  sgInfo : List ℕ
deriving DecidableEq, Repr

/-- `read_CSR`; nothing if it reads past `sg_Sizes` -/
def readCSR : Option Loaded := do
  let s ← (List.range numSGs).foldlM (subgraphStep f) ⟨0, 0, []⟩
  let t ← (List.range f.row).foldlM (numberStep f) ⟨0, []⟩
  some ⟨s.sgs, t.sgInfo⟩

/-- the assertions of `mapping_ICNs` -/
inductive Assertion where
  /-- `mat.sg_info[n] == sg` -/
  | sgInfo (sg n : ℕ)
  /-- `is_ICN[n]`, for a node with an edge into another sub-graph -/
  | isICN (n : ℕ)
  /-- `is_ICN[ICNs[n]]` -/
  | listed (n : ℕ)
deriving DecidableEq, Repr

/-- what `mapping_ICNs` fills -/
structure Mapping where
  totalICN : ℕ
  icns : ℕ → ℕ
  mappingIntra : ℕ → Option ℕ
  numICN : ℕ → ℕ

/-- the edges of a node -/
def GraphFile.edges (n : ℕ) : List ℕ := List.range' (f.ptr n) (f.ptr (n + 1) - f.ptr n)

/-- the nodes of a sub-graph -/
def GraphFile.nodes (sg : ℕ) : List ℕ := List.range' (f.sgSizes sg) (f.sgSizes (sg + 1) - f.sgSizes sg)

def mapNode (l : Loaded) (sg : ℕ) (s : Mapping) (n : ℕ) : Except Assertion Mapping :=
  if l.sgInfo[n]? ≠ some sg then .error (.sgInfo sg n)
  else if (f.edges n).any (fun e => l.sgInfo[f.idx e]? ≠ some sg) ∧ f.isICN n = false then .error (.isICN n)
  else if f.isICN n then
    .ok
      { totalICN := s.totalICN + 1
        icns := Function.update s.icns (f.sgSizes sg + s.numICN sg) n
        mappingIntra := Function.update s.mappingIntra n (some (s.numICN sg))
        numICN := Function.update s.numICN sg (s.numICN sg + 1) }
  else .ok s

/-- the second pair of loops -/
def checkListed (s : Mapping) : Except Assertion Mapping :=
  match ((List.range numSGs).flatMap fun sg => List.range' (f.sgSizes sg) (s.numICN sg)).find?
      fun n => f.isICN (s.icns n) = false with
  | some n => .error (.listed n)
  | none => .ok s

/-- `mapping_ICNs` -/
def mappingICNs (l : Loaded) : Except Assertion Mapping := do
  let s ← (List.range numSGs).foldlM (fun s sg => (f.nodes sg).foldlM (mapNode f l sg) s)
    ⟨0, fun _ => 0, fun _ => none, fun _ => 0⟩
  checkListed f s

/-! ## The sub-graphs -/

variable {f}

theorem sgSizesAt_of_le {i : ℕ} (hi : i ≤ numSGs) : f.sgSizesAt i = some (f.sgSizes i) := if_pos hi

/-- the edges that leave the nodes of a sub-graph -/
def GraphFile.leaving (f : GraphFile numSGs) (sg : ℕ) : ℕ := ((f.nodes sg).map fun n => (f.edges n).length).sum

theorem mem_nodes {sg n : ℕ} (hsg : sg < numSGs) : n ∈ f.nodes sg ↔ f.sgSizes sg ≤ n ∧ n < f.sgSizes (sg + 1) := by
  have hmono := f.parts.mono sg hsg
  rw [GraphFile.nodes, List.mem_range'_1]
  omega

theorem mem_edges {n e : ℕ} (hn : n < f.row) : e ∈ f.edges n ↔ f.ptr n ≤ e ∧ e < f.ptr (n + 1) := by
  have hmono := f.rows.mono n hn
  rw [GraphFile.edges, List.mem_range'_1]
  omega

theorem sum_degrees (a k : ℕ) (hak : a + k ≤ f.row) :
    ((List.range' a k).map fun n => (f.edges n).length).sum = f.ptr (a + k) - f.ptr a := by
  induction k with
  | zero => simp
  | succ k ih =>
    have hle : f.ptr a ≤ f.ptr (a + k) := f.rows.le (Nat.le_add_right a k) (by omega)
    have hmono := f.rows.mono (a + k) (by omega)
    rw [List.range'_concat, List.map_append, List.sum_append, ih (by omega)]
    simp only [Nat.one_mul, List.map_cons, List.map_nil, List.sum_cons, List.sum_nil, GraphFile.edges, List.length_range',
      Nat.add_zero]
    rw [show a + (k + 1) = a + k + 1 from rfl]
    omega

theorem leaving_eq {sg : ℕ} (hsg : sg < numSGs) :
    f.leaving sg = f.ptr (f.sgSizes (sg + 1)) - f.ptr (f.sgSizes sg) := by
  have hmono := f.parts.mono sg hsg
  have hhi := f.parts.le_hi (show sg + 1 ≤ numSGs from hsg)
  rw [GraphFile.leaving, GraphFile.nodes, sum_degrees _ _ (by omega), Nat.add_sub_cancel' hmono]

variable (f) in
/-- what the loop makes of sub-graph `sg` -/
def GraphFile.sub (sg : ℕ) : SgInfo where
  numNode := f.sgSizes (sg + 1) - f.sgSizes sg
  numEdge := f.leaving sg
  numICN := 0
  ptr := f.sgSizes sg
  idx := f.ptr (f.sgSizes sg)

theorem subgraphStep_spec {i : ℕ} (hi : i < numSGs) :
    subgraphStep f ⟨f.sgSizes i, f.ptr (f.sgSizes i), (List.range i).map f.sub⟩ i =
      some ⟨f.sgSizes (i + 1), f.ptr (f.sgSizes (i + 1)), (List.range (i + 1)).map f.sub⟩ := by
  have hmono := f.parts.mono i hi
  rw [subgraphStep, sgSizesAt_of_le (Nat.succ_le_of_lt hi), sgSizesAt_of_le hi.le]
  simp only [Option.bind_eq_bind, Option.bind_some, Nat.add_sub_cancel' hmono, List.range_succ, List.map_append,
    List.map_cons, List.map_nil, GraphFile.sub, leaving_eq hi]

theorem subgraphs_spec : (List.range numSGs).foldlM (subgraphStep f) ⟨0, 0, []⟩ =
    some ⟨f.row, f.edge, (List.range numSGs).map f.sub⟩ := by
  have h0 : (⟨0, 0, []⟩ : Offsets) = ⟨f.sgSizes 0, f.ptr (f.sgSizes 0), (List.range 0).map f.sub⟩ := by
    rw [f.parts.first, f.rows.first, List.range_zero, List.map_nil]
  obtain ⟨t, ht, hinv⟩ := foldlM_range (subgraphStep f) numSGs ⟨0, 0, []⟩
    (fun i s => s = ⟨f.sgSizes i, f.ptr (f.sgSizes i), (List.range i).map f.sub⟩) h0 fun i hi s hs =>
      ⟨_, hs ▸ subgraphStep_spec hi, rfl⟩
  rw [ht, hinv, f.parts.last, f.rows.last]

/-! ## The numbers of the nodes -/

variable (f) in
/-- the cursor at node `n`, and what it has numbered -/
structure NumberInv (n : ℕ) (s : Numbering) : Prop where
  length : s.sgInfo.length = n
  within : 0 < f.row → s.curSG < numSGs
  low : f.sgSizes s.curSG ≤ n

theorem numberStep_spec {n : ℕ} (hn : n < f.row) {s : Numbering} (h : NumberInv f n s) :
    ∃ t, numberStep f s n = some t ∧ NumberInv f (n + 1) t ∧ t.sgInfo = s.sgInfo ++ [t.curSG] ∧
      (t.curSG = s.curSG ∧ n ≠ f.sgSizes (s.curSG + 1) ∨ t.curSG = s.curSG + 1 ∧ n = f.sgSizes (s.curSG + 1)) := by
  have hcur : s.curSG < numSGs := h.within (by omega)
  rw [numberStep, sgSizesAt_of_le (Nat.succ_le_of_lt hcur)]
  simp only [Option.bind_eq_bind, Option.bind_some]
  have hlength : ∀ c, (s.sgInfo ++ [c]).length = n + 1 := fun c => by
    rw [List.length_append, h.length, List.length_singleton]
  by_cases hb : n = f.sgSizes (s.curSG + 1)
  · rw [if_pos hb]
    refine ⟨_, rfl, ⟨hlength _, fun _ => ?_, by simp only; omega⟩, rfl, Or.inr ⟨rfl, hb⟩⟩
    -- the last boundary is `row`, which no node reaches
    by_contra hend
    have heq : s.curSG + 1 = numSGs := by simp only at hend; omega
    rw [heq, f.parts.last] at hb
    omega
  · rw [if_neg hb]
    exact ⟨_, rfl, ⟨hlength _, fun _ => hcur, h.low.trans (Nat.le_succ n)⟩, rfl, Or.inl ⟨rfl, hb⟩⟩

theorem numberInv_zero : NumberInv f 0 ⟨0, []⟩ where
  length := rfl
  within hrow := by
    refine Nat.pos_of_ne_zero fun heq => ?_
    subst heq
    have hlast := f.parts.last
    rw [f.parts.first] at hlast
    omega
  low := f.parts.first.le

/-- **`read_CSR` comes to its end**: it reads no boundary behind the last, whatever the boundaries are. -/
theorem readCSR_spec : ∃ t, (List.range f.row).foldlM (numberStep f) ⟨0, []⟩ = some t ∧ t.sgInfo.length = f.row ∧
    readCSR f = some ⟨(List.range numSGs).map f.sub, t.sgInfo⟩ := by
  obtain ⟨t, ht, hinv⟩ := foldlM_range (numberStep f) f.row ⟨0, []⟩ (NumberInv f) numberInv_zero fun n hn s h => by
    obtain ⟨t, ht, hinv, -⟩ := numberStep_spec hn h
    exact ⟨t, ht, hinv⟩
  refine ⟨t, ht, hinv.length, ?_⟩
  simp only [readCSR, subgraphs_spec, ht, Option.bind_eq_bind, Option.bind_some]

/-! ## When the numbers are right -/

variable (f) in
/-- every node has the number of the one sub-graph that it lies in -/
def Numbered (l : Loaded) : Prop :=
  ∀ n < f.row, ∀ sg, l.sgInfo[n]? = some sg ↔ sg < numSGs ∧ f.sgSizes sg ≤ n ∧ n < f.sgSizes (sg + 1)

variable (f) in
/-- a sub-graph that is empty is the first, or lies behind the last node -/
def Separate : Prop := ∀ sg, 0 < sg → sg < numSGs → f.sgSizes sg = f.sgSizes (sg + 1) → f.sgSizes sg = f.row

/-- the cursor points at or just before the sub-graph of the next node, and all numbers so far are right -/
structure Keeping (f : GraphFile numSGs) (n : ℕ) (s : Numbering) : Prop where
  inv : NumberInv f n s
  high : 0 < f.row → n ≤ f.sgSizes (s.curSG + 1)
  right : ∀ i < n, ∃ sg < numSGs, s.sgInfo[i]? = some sg ∧ f.sgSizes sg ≤ i ∧ i < f.sgSizes (sg + 1)

theorem keeping_step (hsep : Separate f) {n : ℕ} (hn : n < f.row) {s : Numbering} (h : Keeping f n s) :
    ∃ t, numberStep f s n = some t ∧ Keeping f (n + 1) t := by
  obtain ⟨t, ht, hinv, hinfo, hcur⟩ := numberStep_spec hn h.inv
  have hlt : t.curSG < numSGs := hinv.within (by omega)
  have hmono := f.parts.mono t.curSG hlt
  have hhigh := h.high (by omega)
  -- node `n` lies in the sub-graph that the cursor now points at
  have hpiece : f.sgSizes t.curSG ≤ n ∧ n < f.sgSizes (t.curSG + 1) := by
    rcases hcur with ⟨hsame, hne⟩ | ⟨hnext, heq⟩
    · have hlow := h.inv.low
      rw [hsame]
      omega
    · rw [← hnext] at heq
      refine ⟨heq.ge, lt_of_le_of_ne (heq ▸ hmono) fun hempty => ?_⟩
      have hend := hsep t.curSG (by omega) hlt (heq.symm.trans hempty)
      omega
  refine ⟨t, ht, hinv, fun _ => hpiece.2, fun i hi => ?_⟩
  rw [hinfo]
  rcases Nat.lt_succ_iff_lt_or_eq.mp hi with hi | rfl
  · obtain ⟨sg, hsg, hget, hrange⟩ := h.right i hi
    refine ⟨sg, hsg, ?_, hrange⟩
    rw [List.getElem?_append_left (by rw [h.inv.length]; exact hi), hget]
  · refine ⟨t.curSG, hlt, ?_, hpiece⟩
    rw [List.getElem?_append_right h.inv.length.le, h.inv.length, Nat.sub_self]
    rfl

theorem numbered_of_separate (hsep : Separate f) {l : Loaded} (hl : readCSR f = some l) : Numbered f l := by
  have h0 : Keeping f 0 ⟨0, []⟩ := ⟨numberInv_zero, fun _ => Nat.zero_le _, fun i hi => absurd hi (Nat.not_lt_zero i)⟩
  obtain ⟨t, ht, hkeep⟩ := foldlM_range (numberStep f) f.row ⟨0, []⟩ (Keeping f) h0 fun n hn s h => keeping_step hsep hn h
  obtain ⟨t', ht', -, hread⟩ := readCSR_spec (f := f)
  obtain rfl : t = t' := Option.some.inj (ht.symm.trans ht')
  obtain rfl := Option.some.inj (hl.symm.trans hread)
  intro n hn sg
  obtain ⟨sg', hsg', hget, hrange'⟩ := hkeep.right n hn
  simp only
  rw [hget]
  constructor
  · rintro heq
    obtain rfl := Option.some.inj heq
    exact ⟨hsg', hrange'⟩
  · rintro ⟨hsg, hrange⟩
    exact congrArg some (f.parts.piece_unique hsg' hsg hrange' hrange)

/-- the cursor before node `n` -/
def cursor (info : List ℕ) (n : ℕ) : ℕ := (0 :: info)[n]?.getD 0

/-- the cursor moves on by one boundary at most -/
structure Slow (n : ℕ) (s : Numbering) : Prop where
  cur : s.curSG = cursor s.sgInfo n
  steps : ∀ i < n, cursor s.sgInfo (i + 1) ≤ cursor s.sgInfo i + 1

theorem cursor_append {info : List ℕ} {n : ℕ} (hn : n ≤ info.length) (c : ℕ) : cursor (info ++ [c]) n = cursor info n := by
  unfold cursor
  rw [← List.cons_append, List.getElem?_append_left (by rw [List.length_cons]; omega)]

theorem slow_of_run {t : Numbering} (ht : (List.range f.row).foldlM (numberStep f) ⟨0, []⟩ = some t) : Slow f.row t := by
  have hrun := foldlM_range_of_some (fun n s => n ≤ f.row → NumberInv f n s ∧ Slow n s)
    (fun _ => ⟨numberInv_zero, rfl, fun i hi => absurd hi (Nat.not_lt_zero i)⟩) ?_ ht
  · exact (hrun le_rfl).2
  · intro n hn s t' h hstep _
    obtain ⟨hinv, hslow⟩ := h hn.le
    obtain ⟨u, hu, hinv', hinfo, hcur⟩ := numberStep_spec hn hinv
    obtain rfl : u = t' := Option.some.inj (hu.symm.trans hstep)
    have hlast : cursor (s.sgInfo ++ [u.curSG]) (n + 1) = u.curSG := by
      rw [cursor, List.getElem?_cons_succ, List.getElem?_append_right hinv.length.le, hinv.length, Nat.sub_self]
      rfl
    refine ⟨hinv', by rw [hinfo, hlast], fun i hi => ?_⟩
    rw [hinfo]
    rcases Nat.lt_succ_iff_lt_or_eq.mp hi with hi | rfl
    · rw [cursor_append (by rw [hinv.length]; exact hi), cursor_append (by rw [hinv.length]; exact hi.le)]
      exact hslow.steps i hi
    · rw [hlast, cursor_append hinv.length.ge, ← hslow.cur]
      omega

theorem separate_of_numbered {l : Loaded} (hl : readCSR f = some l) (h : Numbered f l) : Separate f := by
  obtain ⟨t, ht, -, hread⟩ := readCSR_spec (f := f)
  obtain rfl := Option.some.inj (hl.symm.trans hread)
  have hslow := slow_of_run ht
  intro sg hpos hsg hempty
  by_contra hne
  have hle := f.parts.le_hi hsg.le
  have hb : f.sgSizes sg < f.row := by omega
  have hcursor : ∀ n < f.row, ∀ c < numSGs, f.sgSizes c ≤ n → n < f.sgSizes (c + 1) → cursor t.sgInfo (n + 1) = c := by
    intro n hn c hc hlo hhi
    have hget : t.sgInfo[n]? = some c := (h n hn c).mpr ⟨hc, hlo, hhi⟩
    rw [cursor, List.getElem?_cons_succ, hget, Option.getD_some]
  -- the node at the double boundary lies behind both
  obtain ⟨c, ⟨hc, hclo, hchi⟩, -⟩ := f.parts.existsUnique (Nat.zero_le _) hb
  have hsgc : sg + 1 ≤ c := by
    by_contra hlt
    have hmono := f.parts.le (show c + 1 ≤ sg + 1 by omega) (show sg + 1 ≤ numSGs from hsg)
    omega
  have hcur := hcursor _ hb c hc hclo hchi
  have hstep := hslow.steps _ hb
  rw [hcur] at hstep
  rcases Nat.eq_zero_or_pos (f.sgSizes sg) with hzero | hbpos
  · rw [hzero] at hstep
    have hfirst : cursor t.sgInfo 0 = 0 := rfl
    omega
  · -- and the node before it lies before both
    obtain ⟨d, ⟨hd, hdlo, hdhi⟩, -⟩ := f.parts.existsUnique (Nat.zero_le _) (show f.sgSizes sg - 1 < f.row by omega)
    have hdsg : d < sg := by
      by_contra hge
      have hmono := f.parts.le (show sg ≤ d by omega) hd.le
      omega
    have hprev := hcursor _ (by omega) d hd hdlo hdhi
    rw [Nat.sub_add_cancel hbpos] at hprev
    omega

/-! ## The assertions -/

theorem mapNode_sgInfo {l : Loaded} {s : Mapping} {sg n sg' n' : ℕ} (h : mapNode f l sg s n = .error (.sgInfo sg' n')) :
    sg' = sg ∧ n' = n ∧ l.sgInfo[n]? ≠ some sg := by
  unfold mapNode at h
  split_ifs at h with hinfo
  · cases h
    exact ⟨rfl, rfl, hinfo⟩
  · cases h

theorem mapNode_ok {l : Loaded} {s t : Mapping} {sg n : ℕ} (h : mapNode f l sg s n = .ok t) : l.sgInfo[n]? = some sg := by
  unfold mapNode at h
  split_ifs at h with hinfo
  all_goals exact not_not.mp hinfo

theorem checkListed_ne (s : Mapping) (sg n : ℕ) : checkListed f s ≠ .error (.sgInfo sg n) := by
  unfold checkListed
  split <;> exact nofun

/-- **The assertion holds** of nodes that are numbered right. -/
theorem mappingICNs_ne {l : Loaded} (h : Numbered f l) (sg n : ℕ) : mappingICNs f l ≠ .error (.sgInfo sg n) := by
  intro herr
  unfold mappingICNs at herr
  cases hloop : (List.range numSGs).foldlM (fun s sg => (f.nodes sg).foldlM (mapNode f l sg) s)
      (⟨0, fun _ => 0, fun _ => none, fun _ => 0⟩ : Mapping) with
  | ok s =>
    rw [hloop] at herr
    exact checkListed_ne s sg n herr
  | error e =>
    rw [hloop] at herr
    obtain rfl : e = .sgInfo sg n := Except.error.inj herr
    obtain ⟨sg', hsg', t, hinner⟩ := exists_of_foldlM_error hloop
    obtain ⟨n', hn', u, hfail⟩ := exists_of_foldlM_error hinner
    obtain ⟨rfl, rfl, hne⟩ := mapNode_sgInfo hfail
    have hsg := List.mem_range.mp hsg'
    have hmem := (mem_nodes hsg).mp hn'
    have hrow := f.parts.le_hi (show sg + 1 ≤ numSGs from hsg)
    exact hne ((h n (by omega) sg).mpr ⟨hsg, hmem⟩)

/-- a graph with the number of each node's sub-graph -/
structure Mat (numSGs : ℕ) extends GraphFile numSGs where
  sgInfo : ℕ → ℕ
  numbered : ∀ n < row, sgInfo n < numSGs ∧ sgSizes (sgInfo n) ≤ n ∧ n < sgSizes (sgInfo n + 1)

theorem Mat.sgInfo_eq (m : Mat numSGs) {n sg : ℕ} (hsg : sg < numSGs) (hn : n ∈ m.nodes sg) : m.sgInfo n = sg := by
  have hmem := (mem_nodes hsg).mp hn
  have hrow := m.parts.le_hi (show sg + 1 ≤ numSGs from hsg)
  obtain ⟨hlt, hrange⟩ := m.numbered n (by omega)
  exact m.parts.piece_unique hlt hsg hrange hmem

/-- **Behind `mapping_ICNs`** the numbers are right, whatever the boundaries are: it would have failed otherwise. -/
theorem mat_of_mappingICNs {l : Loaded} {s : Mapping} (h : mappingICNs f l = .ok s) :
    ∃ m : Mat numSGs, m.toGraphFile = f ∧ ∀ n < f.row, l.sgInfo[n]? = some (m.sgInfo n) := by
  have hnode : ∀ sg < numSGs, ∀ n ∈ f.nodes sg, l.sgInfo[n]? = some sg := by
    intro sg hsg n hn
    unfold mappingICNs at h
    cases hloop : (List.range numSGs).foldlM (fun s sg => (f.nodes sg).foldlM (mapNode f l sg) s)
        (⟨0, fun _ => 0, fun _ => none, fun _ => 0⟩ : Mapping) with
    | error e =>
      rw [hloop] at h
      exact absurd h nofun
    | ok t =>
      obtain ⟨u, v, hinner⟩ := foldlM_ok_of_mem hloop (List.mem_range.mpr hsg)
      obtain ⟨u', v', hok⟩ := foldlM_ok_of_mem hinner hn
      exact mapNode_ok hok
  have hpiece : ∀ n < f.row, ∃ sg < numSGs, l.sgInfo[n]? = some sg ∧ f.sgSizes sg ≤ n ∧ n < f.sgSizes (sg + 1) := by
    intro n hn
    obtain ⟨sg, ⟨hsg, hrange⟩, -⟩ := f.parts.existsUnique (Nat.zero_le n) hn
    exact ⟨sg, hsg, hnode sg hsg n ((mem_nodes hsg).mpr hrange), hrange⟩
  have hget : ∀ n < f.row, l.sgInfo[n]? = some (l.sgInfo[n]?.getD 0) := by
    intro n hn
    obtain ⟨sg, -, hinfo, -⟩ := hpiece n hn
    rw [hinfo, Option.getD_some]
  refine ⟨⟨f, fun n => l.sgInfo[n]?.getD 0, fun n hn => ?_⟩, rfl, hget⟩
  obtain ⟨sg, hsg, hinfo, hrange⟩ := hpiece n hn
  simp only [hinfo, Option.getD_some]
  exact ⟨hsg, hrange⟩

/-- the nodes of all sub-graphs, one sub-graph after the other -/
theorem flatMap_nodes (f : GraphFile numSGs) {k : ℕ} (hk : k ≤ numSGs) :
    (List.range k).flatMap f.nodes = List.range (f.sgSizes k) := by
  induction k with
  | zero => rw [f.parts.first]; rfl
  | succ k ih =>
    have hmono := f.parts.mono k hk
    have happ := List.range'_append_1 (s := 0) (m := f.sgSizes k) (n := f.sgSizes (k + 1) - f.sgSizes k)
    rw [Nat.zero_add, Nat.add_sub_cancel' hmono] at happ
    rw [List.range_succ, List.flatMap_append, ih (Nat.le_of_succ_le hk), List.flatMap_singleton, GraphFile.nodes,
      List.range_eq_range', List.range_eq_range', happ]

theorem flatMap_nodes_all (f : GraphFile numSGs) : (List.range numSGs).flatMap f.nodes = List.range f.row := by
  rw [flatMap_nodes f le_rfl, f.parts.last]

/-! ## When `read_CSR` is right -/

variable (f) in
/-- `read_CSR` comes to its end, numbers every node with its sub-graph, gives each sub-graph the row pointers of its first
node and the number of its edges, and passes the assertion on the numbers -/
def ReadsRight : Prop :=
  ∃ l, readCSR f = some l ∧ Numbered f l ∧
    (∀ sg < numSGs, ∃ s, l.sgs[sg]? = some s ∧ s.ptr = f.sgSizes sg ∧ s.numEdge = f.leaving sg) ∧
    ∀ sg n, mappingICNs f l ≠ .error (.sgInfo sg n)

/-- **When it is right**: if and only if every empty sub-graph but the first lies behind the last node. -/
theorem readsRight_iff (f : GraphFile numSGs) : ReadsRight f ↔ Separate f := by
  obtain ⟨t, -, -, hread⟩ := readCSR_spec (f := f)
  constructor
  · rintro ⟨l, hl, hnum, -⟩
    exact separate_of_numbered hl hnum
  · intro hsep
    have hnum := numbered_of_separate hsep hread
    refine ⟨_, hread, hnum, fun sg hsg => ⟨f.sub sg, ?_, rfl, rfl⟩, mappingICNs_ne hnum⟩
    simp only
    rw [List.getElem?_map, List.getElem?_range hsg, Option.map_some]

/-- two nodes without edges, the middle one of three sub-graphs empty -/
def emptyMiddle : GraphFile 3 where
  row := 2
  edge := 0
  ptr _ := 0
  idx _ := 0
  sgSizes i := if i = 0 then 0 else if i = 3 then 2 else 1
  isICN _ := false
  rows := ⟨rfl, rfl, fun _ _ => le_rfl⟩
  idx_lt e he := absurd he (Nat.not_lt_zero e)
  parts := ⟨rfl, rfl, by decide⟩

/-- node 1 gets the number of the empty sub-graph -/
theorem emptyMiddle_wrong : ¬ ReadsRight emptyMiddle := by
  rintro ⟨l, hl, hnum, -⟩
  have hread : readCSR emptyMiddle = some ⟨(List.range 3).map emptyMiddle.sub, [0, 1]⟩ := by decide
  obtain rfl := Option.some.inj (hl.symm.trans hread)
  exact absurd ((hnum 1 (by decide) 1).mp rfl).2.2 (by decide)

end PimOfis.PageRank
