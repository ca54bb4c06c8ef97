/-
Bit maps as natural numbers: loops that set bits one by one, and the number of bits set.

- `testBit_foldl_set`: the bits a loop `if p x then b |= 1 << f x` leaves;
- `bitCount`, `bitCount_set`: the number of set bits below a width grows by one with a fresh bit;
- `and_not_add`, `and_not_one`: a mask splits a word in two parts that add up to it.
-/
import Mathlib.Tactic

namespace PimOfis.Lib

theorem testBit_one_shiftLeft (n m : ℕ) : (1 <<< n).testBit m = decide (n = m) := by
  rw [Nat.one_shiftLeft, Nat.testBit_two_pow]

theorem testBit_set (b n m : ℕ) : (b ||| (1 <<< n)).testBit m = true ↔ b.testBit m = true ∨ m = n := by
  rw [Nat.testBit_or, testBit_one_shiftLeft, Bool.or_eq_true, decide_eq_true_eq]
  exact or_congr_right eq_comm

/-- the bits after a loop that sets bit `f x` for every `x` of the list with `p x` -/
theorem testBit_foldl_set {α : Type} (p : α → Prop) [DecidablePred p] (f : α → ℕ) (l : List α) (b m : ℕ) :
    (l.foldl (fun b x => if p x then b ||| (1 <<< f x) else b) b).testBit m = true ↔
      b.testBit m = true ∨ ∃ x ∈ l, p x ∧ m = f x := by
  induction l generalizing b with
  | nil => simp
  | cons x l ih =>
    rw [List.foldl_cons, ih]
    by_cases hx : p x
    · simp only [hx, if_true, testBit_set, List.mem_cons, exists_eq_or_imp, true_and]
      tauto
    · simp [hx]

/-- the number of bits set below `width` -/
def bitCount (width b : ℕ) : ℕ := ((Finset.range width).filter fun i => b.testBit i = true).card

@[simp] theorem bitCount_zero (width : ℕ) : bitCount width 0 = 0 := by simp [bitCount]

theorem bitCount_set {width b n : ℕ} (hn : n < width) (hb : b.testBit n = false) :
    bitCount width (b ||| (1 <<< n)) = bitCount width b + 1 := by
  have hins : (Finset.range width).filter (fun i => (b ||| (1 <<< n)).testBit i = true) =
      insert n ((Finset.range width).filter fun i => b.testBit i = true) := by
    ext i
    simp only [Finset.mem_filter, Finset.mem_range, Finset.mem_insert, testBit_set]
    constructor
    · rintro ⟨hi, h | h⟩
      · exact Or.inr ⟨hi, h⟩
      · exact Or.inl h
    · rintro (rfl | ⟨hi, h⟩)
      · exact ⟨hn, Or.inr rfl⟩
      · exact ⟨hi, Or.inl h⟩
  unfold bitCount
  rw [hins, Finset.card_insert_of_notMem (by simp [hb])]

/-- a mask and its complement split a word -/
theorem and_not_add (x m : UInt32) : (x &&& ~~~m).toNat + (x &&& m).toNat = x.toNat := by
  have hdisj : (x.toBitVec &&& ~~~m.toBitVec) &&& (x.toBitVec &&& m.toBitVec) = 0#32 := by
    ext i hi
    simp only [BitVec.getElem_and, BitVec.getElem_not, BitVec.getElem_zero]
    cases x.toBitVec[i] <;> cases m.toBitVec[i] <;> rfl
  have hjoin : (x.toBitVec &&& ~~~m.toBitVec) ||| (x.toBitVec &&& m.toBitVec) = x.toBitVec := by
    ext i hi
    simp only [BitVec.getElem_or, BitVec.getElem_and, BitVec.getElem_not]
    cases x.toBitVec[i] <;> cases m.toBitVec[i] <;> rfl
  have hsum := BitVec.add_eq_or_of_and_eq_zero _ _ hdisj
  rw [hjoin] at hsum
  have hnat := congrArg BitVec.toNat hsum
  rw [BitVec.toNat_add_of_and_eq_zero hdisj] at hnat
  exact hnat

/-- masking the lowest bit out rounds down to an even number -/
theorem and_not_one (x : UInt32) : (x &&& ~~~1).toNat = x.toNat / 2 * 2 := by
  have hsplit := and_not_add x 1
  have hlow : (x &&& 1).toNat = x.toNat % 2 := by
    rw [UInt32.toNat_and]
    exact Nat.and_one_is_mod _
  omega

end PimOfis.Lib
