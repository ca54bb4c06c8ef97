/-
Ranges of an allocation, and blocks of one width side by side.

A transfer reads or writes a range; the allocation is given by its size in bytes. Block `i` of width `w` starts at `i * w`.

Results:
- `block_apart`: two blocks of the same width do not meet;
- `exists_block_past`: if the blocks are larger together than the allocation, one of them starts inside and ends outside;
- `blocks_inside_iff`: all blocks lie inside if and only if they do together;
- `block_wrapped`: where all blocks lie inside, a start that is computed with a wrap is the right one;
- `putAll_get`: ranges that do not meet, written in any order, hold what was written.
-/
import Mathlib.Tactic

namespace PimOfis.Lib

/-- `len` bytes from `start` on -/
structure Range where
  start : ℕ
  len : ℕ
deriving DecidableEq, Repr

namespace Range

/-- within an allocation of `size` bytes -/
def Inside (r : Range) (size : ℕ) : Prop := r.start + r.len ≤ size

/-- no byte in common -/
def Apart (r s : Range) : Prop := r.start + r.len ≤ s.start ∨ s.start + s.len ≤ r.start

instance (r : Range) (size : ℕ) : Decidable (r.Inside size) := inferInstanceAs (Decidable (_ ≤ _))

instance (r s : Range) : Decidable (r.Apart s) := inferInstanceAs (Decidable (_ ∨ _))

theorem inside_mk {start len size : ℕ} : (⟨start, len⟩ : Range).Inside size ↔ start + len ≤ size := Iff.rfl

theorem Inside.mono {r : Range} {size size' : ℕ} (h : r.Inside size) (hle : size ≤ size') : r.Inside size' :=
  Nat.le_trans h hle

theorem Apart.symm {r s : Range} (h : r.Apart s) : s.Apart r := Or.symm h

end Range

/-- block `i` of width `w` -/
def block (w i : ℕ) : Range := ⟨i * w, w⟩

theorem block_end (w i : ℕ) : (block w i).start + (block w i).len = (i + 1) * w := (Nat.succ_mul i w).symm

theorem block_apart (w : ℕ) {i j : ℕ} (hij : i ≠ j) : (block w i).Apart (block w j) := by
  rcases Nat.lt_or_gt_of_ne hij with hlt | hlt
  · exact Or.inl ((block_end w i).trans_le (Nat.mul_le_mul_right w hlt))
  · exact Or.inr ((block_end w j).trans_le (Nat.mul_le_mul_right w hlt))

/-- **A block past the end**: it starts inside and ends outside. -/
theorem exists_block_past {n w size : ℕ} (h : size < n * w) : ∃ i < n, i * w ≤ size ∧ size < (i + 1) * w := by
  have hw : 0 < w := Nat.pos_of_mul_pos_left (Nat.zero_lt_of_lt h)
  refine ⟨size / w, (Nat.div_lt_iff_lt_mul hw).mpr h, Nat.div_mul_le_self size w, ?_⟩
  rw [Nat.mul_comm]
  exact Nat.lt_mul_div_succ size hw

theorem blocks_inside_iff {n w size : ℕ} : (∀ i < n, (block w i).Inside size) ↔ n * w ≤ size := by
  constructor
  · intro h
    by_contra hlt
    obtain ⟨i, hi, -, hpast⟩ := exists_block_past (Nat.lt_of_not_le hlt)
    exact absurd ((block_end w i).ge.trans (h i hi)) (Nat.not_le_of_lt hpast)
  · intro h i hi
    exact (block_end w i).trans_le ((Nat.mul_le_mul_right w hi).trans h)

/-- the start of a block among `n`, computed modulo `m` -/
theorem block_wrapped {n w m i : ℕ} (h : n * w ≤ m) (hi : i < n) (hw : 0 < w) : i * w % m = i * w := by
  refine Nat.mod_eq_of_lt (Nat.lt_of_lt_of_le ?_ h)
  exact Nat.mul_lt_mul_of_pos_right hi hw

/-! ## Writing ranges -/

section Put

variable {V : Type}

/-- the values `v 0`, `v 1`, .. are written to a range -/
def put (y : ℕ → V) (r : Range) (v : ℕ → V) : ℕ → V := fun k => if r.start ≤ k ∧ k < r.start + r.len then v (k - r.start) else y k

/-- the writes of a list, one after the other -/
def putAll (y : ℕ → V) (l : List (Range × (ℕ → V))) : ℕ → V := l.foldl (fun y b => put y b.1 b.2) y

theorem put_get (y : ℕ → V) {r : Range} (v : ℕ → V) {t : ℕ} (ht : t < r.len) : put y r v (r.start + t) = v t := by
  rw [put, if_pos ⟨Nat.le_add_right _ _, Nat.add_lt_add_left ht _⟩, Nat.add_sub_cancel_left]

theorem put_of_apart (y : ℕ → V) {r s : Range} (v : ℕ → V) (h : r.Apart s) {t : ℕ} (ht : t < s.len) :
    put y r v (s.start + t) = y (s.start + t) := by
  refine if_neg fun hin => ?_
  unfold Range.Apart at h
  omega

/-- **Ranges that do not meet**, in any order: each holds what was written to it. -/
theorem putAll_get {l : List (Range × (ℕ → V))} (hl : ∀ b ∈ l, ∀ c ∈ l, b = c ∨ b.1.Apart c.1) (y : ℕ → V)
    {b : Range × (ℕ → V)} (hb : b ∈ l) {t : ℕ} (ht : t < b.1.len) : putAll y l (b.1.start + t) = b.2 t := by
  induction l using List.reverseRecOn with
  | nil => exact absurd hb List.not_mem_nil
  | append_singleton l c ih =>
    have hlast : putAll y (l ++ [c]) = put (putAll y l) c.1 c.2 := by
      rw [putAll, List.foldl_append]
      rfl
    rw [hlast]
    rcases hl c (List.mem_append_right _ List.mem_cons_self) b hb with rfl | hapart
    · exact put_get _ _ ht
    · rw [put_of_apart _ _ hapart ht]
      rcases List.mem_append.mp hb with hb | hb
      · exact ih (fun b hb c hc => hl b (List.mem_append_left _ hb) c (List.mem_append_left _ hc)) hb
      · -- a range that is apart from itself is empty
        obtain rfl := List.mem_singleton.mp hb
        unfold Range.Apart at hapart
        omega

end Put

end PimOfis.Lib
