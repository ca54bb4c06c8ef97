/-
Where a 64-bit word of a DPU's MRAM lies in the mapped region of its rank (`xeon_sp_translation.c`).

The eight chips of a rank answer together: word `w` of line `d` of all of them is one 64-byte line of the region. Its
offset comes from the MRAM address by a permutation of address bits, a stride of two lines for each word, a step of 1 MB
for each 128 KB, and the start of the bank, where eight lines of DPUs share the same windows. `uint32_t` values are
natural numbers: inside a MRAM of 64 MB nothing wraps.

Results:
- `testBit_translate`, `translate_injective`: the translation permutes the 26 bits of a MRAM address;
- `lineOffset_injective`: different words or lines of DPUs lie in different 64-byte lines;
- `lineOffset_controlInterface`: none of them is a line of the control interfaces.
-/
import Mathlib.Tactic
import PimOfis.Lib.Bits

namespace PimOfis.Hw

open Lib

/-! ## Model -/

/-- the bytes of a MRAM -/
def mramSize : ℕ := 2 ^ 26

/-- `apply_address_translation_on_mram_offset` -/
def applyAddressTranslationOnMramOffset (byteOffset : ℕ) : ℕ :=
  let mask21To15 := ((1 <<< (21 - 15 + 1)) - 1) <<< 15
  let mask21To14 := ((1 <<< (21 - 14 + 1)) - 1) <<< 14
  let bits21To15 := (byteOffset &&& mask21To15) >>> 15
  let bit14 := (byteOffset >>> 14) &&& 1
  let unchangedBits := byteOffset &&& (2 ^ 32 - 1 - mask21To14)
  unchangedBits ||| (bits21To15 <<< 14) ||| (bit14 <<< 21)

def bankStart (dpuId : ℕ) : ℕ := 0x40000 * (dpuId % 4) + if 4 ≤ dpuId then 0x40 else 0

def bankOffsetNextData (i : ℕ) : ℕ := i * 16

def bankChunkSize : ℕ := 0x20000

def bankNextChunkOffset : ℕ := 0x100000

/-- the offset of the MRAM word at `byteOffset` from the start of its bank, as every transfer loop computes it -/
def bankOffset (byteOffset : ℕ) : ℕ :=
  let mram64BitWordOffset := applyAddressTranslationOnMramOffset byteOffset / 8
  let nextData := bankOffsetNextData (mram64BitWordOffset * 8)
  nextData % bankChunkSize + nextData / bankChunkSize * bankNextChunkOffset

/-- the offset in the region of the 64 bytes that hold this word of all eight chips -/
def lineOffset (dpuId byteOffset : ℕ) : ℕ := bankStart dpuId + bankOffset byteOffset

/-- the lines through which the control interfaces are written and read -/
def ciWriteLine : ℕ := 0x20000

def ciReadLine : ℕ := 0x20000 + 32 * 1024

/-- two lines of 64 bytes have no byte in common -/
def Apart (a b : ℕ) : Prop := a + 64 ≤ b ∨ b + 64 ≤ a

theorem Apart.symm {a b : ℕ} (h : Apart a b) : Apart b a := Or.symm h

/-! ## The translation -/

/-- the bit of the physical address that bit `i` of the virtual address is taken from -/
def sourceBit (i : ℕ) : ℕ := if i < 14 then i else if i < 21 then i + 1 else if i = 21 then 14 else i

theorem testBit_translate {x : ℕ} (hx : x < mramSize) (i : ℕ) :
    (applyAddressTranslationOnMramOffset x).testBit i = x.testBit (sourceBit i) := by
  have hmask : 2 ^ 32 - 1 - ((1 <<< (21 - 14 + 1)) - 1) <<< 14 = (2 ^ 14 - 1) ||| (2 ^ 10 - 1) <<< 22 := by decide
  have hmask' : ((1 <<< (21 - 15 + 1)) - 1) <<< 15 = (2 ^ 7 - 1) <<< 15 := by decide
  have hhigh : ∀ j, 26 ≤ j → x.testBit j = false := fun j hj =>
    Nat.testBit_lt_two_pow (hx.trans_le (Nat.pow_le_pow_right (by decide) hj))
  have hone : ∀ j, (1 : ℕ).testBit j = decide (0 = j) := fun j => testBit_one_shiftLeft 0 j
  simp only [applyAddressTranslationOnMramOffset, hmask, hmask', sourceBit, Nat.testBit_or, Nat.testBit_and,
    Nat.testBit_shiftLeft, Nat.testBit_shiftRight, Nat.testBit_two_pow_sub_one, hone]
  rcases Nat.lt_or_ge i 14 with h | h
  · simp [h, show ¬21 ≤ i by omega, show ¬14 ≤ i by omega, show ¬22 ≤ i by omega]
  rcases Nat.lt_or_ge i 21 with h' | h'
  · have hsub : 15 + (i - 14) = i + 1 := by omega
    simp [h, h', show ¬21 ≤ i by omega, show ¬i < 14 by omega, show ¬22 ≤ i by omega, hsub]
    omega
  rcases Nat.eq_or_lt_of_le h' with rfl | h''
  · simp
  · have hzero : ¬0 = i - 21 := by omega
    simp only [show ¬i < 14 by omega, show ¬i < 21 by omega, show i ≠ 21 by omega, show 22 ≤ i from h'', hzero, if_false,
      decide_true, decide_false, Bool.false_or, Bool.true_and, Bool.and_false, Bool.or_false]
    rcases Nat.lt_or_ge i 26 with h26 | h26
    · simp [show i - 22 < 10 by omega, show ¬i - 14 < 7 by omega]
    · simp [hhigh i h26, hhigh (15 + (i - 14)) (by omega)]

theorem sourceBit_surjective (j : ℕ) : ∃ i, sourceBit i = j := by
  rcases Nat.lt_or_ge j 14 with h | h
  · exact ⟨j, if_pos h⟩
  rcases Nat.eq_or_lt_of_le h with rfl | h'
  · exact ⟨21, rfl⟩
  rcases Nat.lt_or_ge 21 j with h'' | h''
  · exact ⟨j, by simp [sourceBit, show ¬j < 14 by omega, show ¬j < 21 by omega, show j ≠ 21 by omega]⟩
  · exact ⟨j - 1, by simp [sourceBit, show ¬j - 1 < 14 by omega, show j - 1 < 21 by omega]; omega⟩

theorem translate_lt {x : ℕ} (hx : x < mramSize) : applyAddressTranslationOnMramOffset x < mramSize := by
  apply Nat.lt_pow_two_of_testBit
  intro i hi
  rw [testBit_translate hx, sourceBit, if_neg (by omega), if_neg (by omega), if_neg (by omega)]
  exact Nat.testBit_lt_two_pow (hx.trans_le (Nat.pow_le_pow_right (by decide) hi))

/-- **The translation** takes different addresses to different addresses. -/
theorem translate_injective {x y : ℕ} (hx : x < mramSize) (hy : y < mramSize)
    (h : applyAddressTranslationOnMramOffset x = applyAddressTranslationOnMramOffset y) : x = y := by
  apply Nat.eq_of_testBit_eq
  intro j
  obtain ⟨i, rfl⟩ := sourceBit_surjective j
  rw [← testBit_translate hx, ← testBit_translate hy, h]

/-- the bits inside a 64-bit word stay -/
theorem translate_aligned {x : ℕ} (hx : x < mramSize) (h8 : 8 ∣ x) : 8 ∣ applyAddressTranslationOnMramOffset x := by
  have hlow : ∀ i < 3, x.testBit i = false := by
    intro i hi
    obtain ⟨w, rfl⟩ := h8
    rw [show 8 * w = 2 ^ 3 * w from rfl, Nat.testBit_two_pow_mul, decide_eq_false (by omega), Bool.false_and]
  apply Nat.dvd_of_mod_eq_zero
  apply Nat.eq_of_testBit_eq
  intro i
  rw [show 8 = 2 ^ 3 from rfl, Nat.testBit_mod_two_pow, Nat.zero_testBit]
  by_cases hi : i < 3
  · rw [testBit_translate hx, sourceBit, if_pos (by omega), hlow i hi, Bool.and_false]
  · simp [hi]

/-! ## The lines -/

/-- the offset of a line, field by field -/
theorem lineOffset_eq (dpuId byteOffset : ℕ) :
    lineOffset dpuId byteOffset =
      (applyAddressTranslationOnMramOffset byteOffset / 8 / 1024) * 2 ^ 20 + (dpuId % 4) * 2 ^ 18 +
        (applyAddressTranslationOnMramOffset byteOffset / 8 % 1024) * 2 ^ 7 + if 4 ≤ dpuId then 2 ^ 6 else 0 := by
  simp only [lineOffset, bankStart, bankOffset, bankOffsetNextData, bankChunkSize, bankNextChunkOffset]
  split_ifs <;> omega

/-- **No aliasing.** Two lines that are not apart are the same word of the same DPUs. -/
theorem lineOffset_injective {d d' x x' : ℕ} (hd : d < 8) (hd' : d' < 8) (hx : x < mramSize) (hx' : x' < mramSize)
    (h8 : 8 ∣ x) (h8' : 8 ∣ x') (h : ¬ Apart (lineOffset d x) (lineOffset d' x')) : d = d' ∧ x = x' := by
  have ht := translate_aligned hx h8
  have ht' := translate_aligned hx' h8'
  rw [Apart, lineOffset_eq, lineOffset_eq] at h
  have hfields : d = d' ∧ applyAddressTranslationOnMramOffset x = applyAddressTranslationOnMramOffset x' := by
    split_ifs at h <;> omega
  exact ⟨hfields.1, translate_injective hx hx' hfields.2⟩

/-- **The control interfaces** have lines of their own. -/
theorem lineOffset_controlInterface (d x : ℕ) :
    Apart (lineOffset d x) ciWriteLine ∧ Apart (lineOffset d x) ciReadLine := by
  rw [Apart, Apart, lineOffset_eq, ciWriteLine, ciReadLine]
  split_ifs <;> omega

end PimOfis.Hw
