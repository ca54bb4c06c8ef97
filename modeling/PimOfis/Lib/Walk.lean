/-
Ranks that are spread along edges: every place gives its rank, in equal parts, to the places its edges lead to, and a
round damps what arrives and adds the same amount everywhere. A place without edges keeps nothing and gives nothing.

- `foldl_addAt`, `foldl_spread`: an array after the additions of all places;
- `Walk.total_round`: what all places have after a round;
- `Walk.ranks_pos`, `Walk.total_ranks_le_one`, `Walk.total_ranks_eq_one_iff`: ranks over any number of rounds, from equal
  shares of 1 on.
-/
import Mathlib.Tactic

namespace PimOfis.Lib

variable {ι K : Type} [Field K]

/-! ## Additions to an array -/

section Additions

variable [DecidableEq ι]

/-- `a[i] += x` -/
def addAt (a : ι → K) (i : ι) (x : K) : ι → K := Function.update a i (a i + x)

/-- the same amount added for every entry of a list -/
theorem foldl_addAt (js : List ι) (x : K) (a : ι → K) (i : ι) :
    js.foldl (fun a j => addAt a j x) a i = a i + js.count i * x := by
  induction js generalizing a with
  | nil => simp
  | cons j js ih =>
    rw [List.foldl_cons, ih, List.count_cons]
    by_cases hj : j = i
    · subst hj
      simp only [addAt, Function.update_self, beq_self_eq_true, if_true, Nat.cast_add, Nat.cast_one]
      ring
    · rw [addAt, Function.update_of_ne (Ne.symm hj), beq_false_of_ne hj]
      simp

/-- a rank in equal parts to the places of a list -/
def spread (a : ι → K) (js : List ι) (rank : K) : ι → K :=
  if 0 < js.length then js.foldl (fun a j => addAt a j (rank / js.length)) a else a

theorem spread_apply (a : ι → K) (js : List ι) (rank : K) (i : ι) :
    spread a js rank i = a i + js.count i * (rank / js.length) := by
  unfold spread
  split_ifs with h
  · exact foldl_addAt js _ a i
  · have hnil : js = [] := List.length_eq_zero_iff.mp (by omega)
    simp [hnil]

/-- what arrives at a place from a list of others -/
def arriving (out : ι → List ι) (rank : ι → K) (ss : List ι) (i : ι) : K :=
  (ss.map fun s => (out s).count i * (rank s / (out s).length)).sum

theorem arriving_cons (out : ι → List ι) (rank : ι → K) (s : ι) (ss : List ι) (i : ι) :
    arriving out rank (s :: ss) i = (out s).count i * (rank s / (out s).length) + arriving out rank ss i := List.sum_cons

theorem arriving_congr {out : ι → List ι} {rank rank' : ι → K} {ss : List ι} (h : ∀ s ∈ ss, rank s = rank' s) :
    arriving out rank ss = arriving out rank' ss := by
  funext i
  refine congrArg List.sum (List.map_congr_left fun s hs => ?_)
  rw [h s hs]

theorem foldl_spread (out : ι → List ι) (rank : ι → K) (ss : List ι) (a : ι → K) (i : ι) :
    ss.foldl (fun a s => spread a (out s) (rank s)) a i = a i + arriving out rank ss i := by
  induction ss generalizing a with
  | nil => simp [arriving]
  | cons s ss ih =>
    rw [List.foldl_cons, ih, spread_apply, arriving_cons]
    ring

end Additions

/-! ## Walks -/

/-- places, and for each the places that its edges lead to -/
structure Walk (ι : Type) where
  places : List ι
  nodup : places.Nodup
  nonempty : places ≠ []
  out : ι → List ι
  out_mem : ∀ s ∈ places, ∀ j ∈ out s, j ∈ places

namespace Walk

/-- what all places have -/
def total (w : Walk ι) (rank : ι → K) : K := (w.places.map rank).sum

/-- one round: a place gets its share of `1 - d`, and `d` times what arrives -/
def round [DecidableEq ι] (w : Walk ι) (d : K) (rank : ι → K) : ι → K := fun i =>
  (1 - d) / w.places.length + d * arriving w.out rank w.places i

/-- the ranks after `n` rounds -/
def ranks [DecidableEq ι] (w : Walk ι) (d : K) : ℕ → ι → K
  | 0 => fun _ => 1 / w.places.length
  | n + 1 => w.round d (ranks w d n)

variable {w : Walk ι}

theorem length_pos : 0 < w.places.length := List.length_pos_iff.mpr w.nonempty

theorem total_add (f g : ι → K) : w.total (fun i => f i + g i) = w.total f + w.total g := List.sum_map_add

theorem total_mul (d : K) (f : ι → K) : w.total (fun i => d * f i) = d * w.total f := List.sum_map_mul_left ..

theorem total_congr {f g : ι → K} (h : ∀ i ∈ w.places, f i = g i) : w.total f = w.total g :=
  congrArg List.sum (List.map_congr_left h)

section Rounds

variable [DecidableEq ι]

/-- an edge is counted at exactly one place -/
theorem sum_count {s : ι} (hs : s ∈ w.places) : (w.places.map fun i => (w.out s).count i).sum = (w.out s).length := by
  have hsum : ∑ i ∈ w.places.toFinset, (w.out s : Multiset ι).count i = Multiset.card (w.out s : Multiset ι) :=
    Multiset.sum_count_eq_card fun j hj => List.mem_toFinset.mpr (w.out_mem s hs j hj)
  rw [List.sum_toFinset _ w.nodup] at hsum
  simpa only [Multiset.coe_count, Multiset.coe_card] using hsum

/-- what leaves a place arrives, if it has edges -/
theorem total_share [CharZero K] {s : ι} (hs : s ∈ w.places) (x : K) :
    w.total (fun i => (w.out s).count i * (x / (w.out s).length)) = if w.out s = [] then 0 else x := by
  have hcount : w.total (fun i => ((w.out s).count i : K)) = (w.out s).length := by
    rw [← sum_count hs, total, Nat.cast_list_sum, List.map_map]
    rfl
  rw [total, List.sum_map_mul_right]
  change w.total (fun i => ((w.out s).count i : K)) * _ = _
  rw [hcount]
  split_ifs with hnil
  · simp [hnil]
  · have hne : ((w.out s).length : K) ≠ 0 := Nat.cast_ne_zero.mpr (by simpa using hnil)
    exact mul_div_cancel₀ x hne

theorem total_arriving [CharZero K] (rank : ι → K) :
    w.total (arriving w.out rank w.places) = w.total fun s => if w.out s = [] then 0 else rank s := by
  have hswap : ∀ ss ⊆ w.places, w.total (arriving w.out rank ss) =
      (ss.map fun s => if w.out s = [] then 0 else rank s).sum := by
    intro ss hss
    induction ss with
    | nil =>
      have hzero : w.total (arriving w.out rank []) = w.total fun _ => (0 : K) := total_congr fun _ _ => rfl
      rw [hzero, total, List.map_const', List.sum_replicate, smul_zero]
      rfl
    | cons s ss ih =>
      have hs : s ∈ w.places := hss List.mem_cons_self
      have hrest := ih fun t ht => hss (List.mem_cons_of_mem s ht)
      rw [total_congr fun i _ => arriving_cons w.out rank s ss i, total_add, total_share hs, hrest, List.map_cons,
        List.sum_cons]
  exact hswap w.places (List.Subset.refl _)

theorem round_congr {rank rank' : ι → K} (h : ∀ s ∈ w.places, rank s = rank' s) (d : K) :
    w.round d rank = w.round d rank' := by
  unfold round
  rw [arriving_congr h]

/-- **A round**: the places without edges lose what they had. -/
theorem total_round [CharZero K] (d : K) (rank : ι → K) :
    w.total (w.round d rank) = 1 - d + d * w.total fun s => if w.out s = [] then 0 else rank s := by
  have hne : (w.places.length : K) ≠ 0 := Nat.cast_ne_zero.mpr length_pos.ne'
  have hconst : w.total (fun _ => (1 - d) / (w.places.length : K)) = 1 - d := by
    rw [total, List.map_const', List.sum_replicate, nsmul_eq_mul]
    exact mul_div_cancel₀ (1 - d) hne
  unfold round
  rw [total_add, hconst, total_mul, total_arriving]

end Rounds

/-! ## Bounds -/

section Order

variable [LinearOrder K] [IsStrictOrderedRing K] {d : K} {rank : ι → K}

theorem total_le {f g : ι → K} (h : ∀ i ∈ w.places, f i ≤ g i) : w.total f ≤ w.total g := List.sum_le_sum h

theorem kept_le (h : ∀ s ∈ w.places, 0 ≤ rank s) :
    w.total (fun s => if w.out s = [] then 0 else rank s) ≤ w.total rank := by
  refine total_le fun s hs => ?_
  split_ifs
  · exact h s hs
  · exact le_rfl

/-- nothing is lost if and only if every place has an edge -/
theorem kept_eq_iff (h : ∀ s ∈ w.places, 0 < rank s) :
    w.total (fun s => if w.out s = [] then 0 else rank s) = w.total rank ↔ ∀ s ∈ w.places, w.out s ≠ [] := by
  constructor
  · intro heq s hs hnil
    refine absurd heq (ne_of_lt (List.sum_lt_sum _ _ (fun t ht => ?_) ⟨s, hs, ?_⟩))
    · split_ifs
      · exact (h t ht).le
      · exact le_rfl
    · rw [if_pos hnil]
      exact h s hs
  · exact fun hout => total_congr fun s hs => if_neg (hout s hs)

variable [DecidableEq ι]

theorem arriving_nonneg {out : ι → List ι} {ss : List ι} (h : ∀ s ∈ ss, 0 ≤ rank s) (i : ι) : 0 ≤ arriving out rank ss i := by
  refine List.sum_nonneg fun x hx => ?_
  obtain ⟨s, hs, rfl⟩ := List.mem_map.mp hx
  have := h s hs
  positivity

theorem round_pos (h0 : 0 ≤ d) (h1 : d < 1) (h : ∀ s ∈ w.places, 0 ≤ rank s) (i : ι) : 0 < w.round d rank i := by
  have hlen : (0 : K) < w.places.length := Nat.cast_pos.mpr length_pos
  have hshare : 0 < (1 - d) / w.places.length := div_pos (sub_pos.mpr h1) hlen
  exact add_pos_of_pos_of_nonneg hshare (mul_nonneg h0 (arriving_nonneg h i))

theorem total_round_le_one (h0 : 0 ≤ d) (h : ∀ s ∈ w.places, 0 ≤ rank s) (hle : w.total rank ≤ 1) :
    w.total (w.round d rank) ≤ 1 :=
  calc w.total (w.round d rank) = 1 - d + d * w.total fun s => if w.out s = [] then 0 else rank s := total_round d rank
    _ ≤ 1 - d + d * 1 := by
      have hkept := (kept_le h).trans hle
      gcongr
    _ = 1 := by ring

theorem total_round_eq_one_iff (h0 : 0 < d) (h : ∀ s ∈ w.places, 0 < rank s) (hle : w.total rank ≤ 1) :
    w.total (w.round d rank) = 1 ↔ w.total rank = 1 ∧ ∀ s ∈ w.places, w.out s ≠ [] := by
  have hkept : w.total (fun s => if w.out s = [] then 0 else rank s) ≤ w.total rank :=
    kept_le fun s hs => (h s hs).le
  have hround : w.total (w.round d rank) = 1 ↔ w.total (fun s => if w.out s = [] then 0 else rank s) = 1 := by
    rw [total_round]
    constructor
    · intro heq
      have hmul : d * w.total (fun s => if w.out s = [] then 0 else rank s) = d * 1 := by linear_combination heq
      exact mul_left_cancel₀ h0.ne' hmul
    · intro heq
      rw [heq]
      ring
  rw [hround, ← kept_eq_iff h]
  constructor
  · intro heq
    have hone : w.total rank = 1 := le_antisymm hle (heq ▸ hkept)
    exact ⟨hone, heq.trans hone.symm⟩
  · rintro ⟨hone, heq⟩
    exact heq.trans hone

theorem total_ranks_zero : w.total (w.ranks d 0) = 1 := by
  have hne : (w.places.length : K) ≠ 0 := Nat.cast_ne_zero.mpr length_pos.ne'
  rw [total, ranks, List.map_const', List.sum_replicate, nsmul_eq_mul]
  exact mul_one_div_cancel hne

theorem ranks_pos (h0 : 0 ≤ d) (h1 : d < 1) (n : ℕ) (i : ι) : 0 < w.ranks d n i := by
  induction n generalizing i with
  | zero => exact one_div_pos.mpr (Nat.cast_pos.mpr length_pos)
  | succ n ih => exact round_pos h0 h1 (fun s _ => (ih s).le) i

theorem total_ranks_le_one (h0 : 0 ≤ d) (h1 : d < 1) (n : ℕ) : w.total (w.ranks d n) ≤ 1 := by
  induction n with
  | zero => exact total_ranks_zero.le
  | succ n ih => exact total_round_le_one h0 (fun s _ => (ranks_pos h0 h1 n s).le) ih

/-- **The whole is kept** over any number of rounds if and only if every place has an edge. -/
theorem total_ranks_eq_one_iff (h0 : 0 < d) (h1 : d < 1) (n : ℕ) :
    w.total (w.ranks d n) = 1 ↔ n = 0 ∨ ∀ s ∈ w.places, w.out s ≠ [] := by
  induction n with
  | zero => simp [total_ranks_zero]
  | succ n ih =>
    rw [ranks, total_round_eq_one_iff h0 (fun s _ => ranks_pos h0.le h1 n s) (total_ranks_le_one h0.le h1 n), ih]
    constructor
    · exact fun h => Or.inr h.2
    · rintro (h | h)
      · exact absurd h (Nat.succ_ne_zero n)
      · exact ⟨Or.inr h, h⟩

end Order

end Walk

end PimOfis.Lib
