/-
Loops `for i in 0 .. n` whose body may fail.

- `foldlM_range`: a body that keeps an invariant and does not fail;
- `foldlM_range_of_some`: what holds of a loop that came to its end;
- `step_of_foldlM`: each of its steps came to an end;
- `foldlM_flatMap`: a loop in a loop is one loop;
- `exists_of_foldlM_error`, `foldlM_ok_of_mem`: the body that failed, and that none did, when failures are told apart;
- `le_foldl_max`, `foldl_max_le`: the maximum a loop finds;
- `filter_range'_find`: a search that is continued behind what it has found finds all there is;
- `foldl_of_mem`: what one step of a search brings about and no other undoes.
-/
import Mathlib.Tactic

namespace PimOfis.Lib

variable {σ : Type} {step : σ → ℕ → Option σ} {n : ℕ} {s t : σ}

theorem foldlM_range_succ (step : σ → ℕ → Option σ) (n : ℕ) (s : σ) :
    (List.range (n + 1)).foldlM step s = ((List.range n).foldlM step s).bind fun t => step t n := by
  rw [List.range_succ, List.foldlM_append]
  simp only [List.foldlM_cons, List.foldlM_nil, bind_pure]
  rfl

theorem foldlM_range (step : σ → ℕ → Option σ) (n : ℕ) (s : σ) (Inv : ℕ → σ → Prop) (h0 : Inv 0 s)
    (hstep : ∀ i < n, ∀ s, Inv i s → ∃ t, step s i = some t ∧ Inv (i + 1) t) :
    ∃ t, (List.range n).foldlM step s = some t ∧ Inv n t := by
  induction n with
  | zero => exact ⟨s, rfl, h0⟩
  | succ n ih =>
    obtain ⟨t, ht, hinv⟩ := ih fun i hi => hstep i (Nat.lt_succ_of_lt hi)
    obtain ⟨u, hu, hinv'⟩ := hstep n (Nat.lt_succ_self n) t hinv
    refine ⟨u, ?_, hinv'⟩
    rw [foldlM_range_succ, ht]
    exact hu

theorem foldlM_range_of_some (Inv : ℕ → σ → Prop) (h0 : Inv 0 s)
    (hstep : ∀ i < n, ∀ s t, Inv i s → step s i = some t → Inv (i + 1) t) (h : (List.range n).foldlM step s = some t) :
    Inv n t := by
  induction n generalizing t with
  | zero =>
    rw [← Option.some.inj h]
    exact h0
  | succ n ih =>
    rw [foldlM_range_succ] at h
    obtain ⟨u, hu, ht⟩ := Option.bind_eq_some_iff.mp h
    exact hstep n (Nat.lt_succ_self n) u t (ih (fun i hi => hstep i (Nat.lt_succ_of_lt hi)) hu) ht

theorem step_of_foldlM {α : Type} {body : σ → α → Option σ} {xs : List α} (h : xs.foldlM body s = some t) {x : α}
    (hx : x ∈ xs) : ∃ u v, body u x = some v := by
  induction xs generalizing s with
  | nil => exact absurd hx List.not_mem_nil
  | cons y xs ih =>
    rw [List.foldlM_cons] at h
    obtain ⟨u, hu, hrest⟩ := Option.bind_eq_some_iff.mp h
    rcases List.mem_cons.mp hx with rfl | hx
    · exact ⟨s, u, hu⟩
    · exact ih hrest hx

/-! ## Loops in loops -/

section Nested

variable {M : Type → Type} [Monad M] {α β : Type}

theorem foldlM_congr {f g : σ → α → M σ} {xs : List α} (h : ∀ x ∈ xs, ∀ s, f s x = g s x) (s : σ) :
    xs.foldlM f s = xs.foldlM g s := by
  induction xs generalizing s with
  | nil => rfl
  | cons x xs ih =>
    rw [List.foldlM_cons, List.foldlM_cons, h x List.mem_cons_self]
    exact congrArg _ (funext fun t => ih (fun y hy => h y (List.mem_cons_of_mem x hy)) t)

theorem foldlM_flatMap [LawfulMonad M] (f : α → List β) (g : σ → β → M σ) (xs : List α) (s : σ) :
    (xs.flatMap f).foldlM g s = xs.foldlM (fun s x => (f x).foldlM g s) s := by
  induction xs generalizing s with
  | nil => rfl
  | cons x xs ih =>
    rw [List.flatMap_cons, List.foldlM_append, List.foldlM_cons]
    exact congrArg _ (funext fun t => ih t)

end Nested

/-! ## Failures told apart -/

section Errors

variable {ε α : Type} {body : σ → α → Except ε σ}

theorem exists_of_foldlM_error {xs : List α} {s : σ} {e : ε} (h : xs.foldlM body s = .error e) :
    ∃ x ∈ xs, ∃ t, body t x = .error e := by
  induction xs generalizing s with
  | nil => exact absurd h nofun
  | cons x xs ih =>
    rw [List.foldlM_cons] at h
    cases hx : body s x with
    | error e' =>
      rw [hx] at h
      exact ⟨x, List.mem_cons_self, s, hx.trans h⟩
    | ok t =>
      rw [hx] at h
      obtain ⟨y, hy, hfail⟩ := ih h
      exact ⟨y, List.mem_cons_of_mem x hy, hfail⟩

theorem foldlM_ok_of_mem {xs : List α} {s t : σ} (h : xs.foldlM body s = .ok t) {x : α} (hx : x ∈ xs) :
    ∃ u v, body u x = .ok v := by
  induction xs generalizing s with
  | nil => exact absurd hx List.not_mem_nil
  | cons y xs ih =>
    rw [List.foldlM_cons] at h
    cases hy : body s y with
    | error e =>
      rw [hy] at h
      exact absurd h nofun
    | ok u =>
      rw [hy] at h
      rcases List.mem_cons.mp hx with rfl | hx
      · exact ⟨s, u, hy⟩
      · exact ih h hx

end Errors

/-! ## Maxima -/

section Maxima

variable {ι : Type} {f : ι → ℕ} {l : List ι}

theorem le_foldl_max {x : ι} (hx : x ∈ l) (a : ℕ) :
    f x ≤ l.foldl (fun m y => max m (f y)) a := by
  induction l using List.reverseRecOn with
  | nil => exact absurd hx List.not_mem_nil
  | append_singleton l y ih =>
    rw [List.foldl_append]
    rcases List.mem_append.mp hx with hx | hx
    · exact (ih hx).trans (le_max_left _ _)
    · rw [List.mem_singleton.mp hx]
      exact le_max_right _ _

theorem foldl_max_le {a b : ℕ} (ha : a ≤ b) (h : ∀ x ∈ l, f x ≤ b) :
    l.foldl (fun m y => max m (f y)) a ≤ b := by
  induction l using List.reverseRecOn with
  | nil => exact ha
  | append_singleton l y ih =>
    rw [List.foldl_append]
    exact max_le (ih fun x hx => h x (List.mem_append_left _ hx)) (h y (List.mem_append_right _ List.mem_cons_self))

/-- the test and the assignment of a C loop -/
theorem foldl_ite_max (f : ι → ℕ) (l : List ι) (a : ℕ) :
    l.foldl (fun m y => if f y > m then f y else m) a = l.foldl (fun m y => max m (f y)) a := by
  refine congrArg (fun g => l.foldl g a) (funext fun m => funext fun y => ?_)
  split_ifs with h
  · exact (max_eq_right h.le).symm
  · exact (max_eq_left (not_lt.mp h)).symm

end Maxima

/-! ## Searches -/

theorem filter_range'_find (p : ℕ → Bool) (n k : ℕ) : (List.range' k n).filter p =
    match (List.range' k n).find? p with
    | some i => i :: (List.range' (i + 1) (k + n - (i + 1))).filter p
    | none => [] := by
  induction n generalizing k with
  | zero => rfl
  | succ n ih =>
    rw [List.range'_succ]
    cases hk : p k with
    | true =>
      have hlen : k + (n + 1) - (k + 1) = n := by rw [Nat.add_sub_add_left, Nat.add_sub_cancel]
      rw [List.filter_cons_of_pos hk, List.find?_cons_of_pos hk]
      dsimp only
      rw [hlen]
    | false =>
      have hno : ¬ p k = true := Bool.eq_false_iff.mp hk
      rw [List.filter_cons_of_neg hno, List.find?_cons_of_neg hno, ih (k + 1), Nat.add_right_comm k 1 n]
      rfl

/-- the search up to a fixed place, from `k` on -/
theorem filter_range'_of_find (p : ℕ → Bool) {n k i : ℕ} (h : (List.range' k (n - k)).find? p = some i) :
    (List.range' k (n - k)).filter p = i :: (List.range' (i + 1) (n - (i + 1))).filter p := by
  have hmem := List.mem_range'_1.mp (List.mem_of_find?_eq_some h)
  have hlen : k + (n - k) - (i + 1) = n - (i + 1) := by omega
  rw [filter_range'_find, h]
  dsimp only
  rw [hlen]

section Kept

variable {τ ι : Type} {f : τ → ι → τ} {xs : List ι} {P Q : τ → Prop}

theorem foldl_keeps (h : ∀ x ∈ xs, ∀ s, P s → P (f s x)) {s : τ} (hs : P s) : P (xs.foldl f s) := by
  induction xs generalizing s with
  | nil => exact hs
  | cons x xs ih => exact ih (fun y hy => h y (List.mem_cons_of_mem _ hy)) (h x List.mem_cons_self s hs)

/-- every step keeps `P` and `Q`, and the step for `x` leads from `P` to `Q` -/
theorem foldl_of_mem (hP : ∀ x ∈ xs, ∀ s, P s → P (f s x)) (hQ : ∀ x ∈ xs, ∀ s, Q s → Q (f s x)) {x : ι} (hx : x ∈ xs)
    (hit : ∀ s, P s → Q (f s x)) {s : τ} (hs : P s) : Q (xs.foldl f s) := by
  obtain ⟨before, after, rfl⟩ := List.append_of_mem hx
  rw [List.foldl_append, List.foldl_cons]
  refine foldl_keeps (fun y hy => hQ y (List.mem_append_right _ (List.mem_cons_of_mem _ hy))) (hit _ ?_)
  exact foldl_keeps (fun y hy => hP y (List.mem_append_left _ hy)) hs

end Kept

end PimOfis.Lib
