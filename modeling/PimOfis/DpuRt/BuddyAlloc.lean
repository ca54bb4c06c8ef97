/-
The buddy allocator of the DPU's runtime (`buddy_alloc.c`): the bit map and the functions that search and change it.

A bit stands for a block: level 0 is the heap, level `l + 1` has the halves of the blocks of level `l`. The first five levels
share the first word, behind one another from the top, and level `l` from 5 on has the words `2 ^ (l - 5)` to
`2 ^ (l - 4) - 1`. A register shift takes its count modulo 32, as `1 << index_in_level` needs for the indexes above 31. The
heap lies behind the bit map in the memory that `buddy_init` gets from `mem_alloc`. The lock around each call
(`__buddy_lock`) makes the calls of the tasklets one sequence, so a call is one step here.

Results:
- `pickInWord_some`, `pickInWord_none`: what the search in one word finds is free, and it misses nothing;
- `findLevel_some`, `findLevel_none`: the same of a whole level;
- `search_seek`, `fusion_fuse`, `descend_mark`: on the nodes of the tree the loops are the walks of `BuddyTree`.
-/
import Mathlib.Tactic
import PimOfis.Lib.BuddyTree

namespace PimOfis.DpuRt.BuddyAlloc

open Lib

/-! ## Model -/

/-- what a failing call leaves in `errno` -/
inductive Errno where
  | einval
  | enomem
deriving DecidableEq, Repr

/-- the allocator's variables; `blocks i` is word `i` of the memory from `__buddy_blocks` on -/
structure Buddy where
  blocks : ℕ → BitVec 32
  heapStart : BitVec 32
  sizeOfHeap : BitVec 32
  maxPower : ℕ
  numberOfLevels : ℕ

/-- `1 << index` -/
def oneShift (index : ℕ) : BitVec 32 := 1#32 <<< (index % 32)

def nextPowerOf2 (x : BitVec 32) : ℕ :=
  let powerOf2 := 31 - x.clz.toNat
  if x.cpop ≠ 1#32 then powerOf2 + 1 else powerOf2

/-- the bits of a level in its words -/
def loadedCaseMask : ℕ → BitVec 32
  | 0 => 0x40000000
  | 1 => 0x30000000
  | 2 => 0x0F000000
  | 3 => 0x00FF0000
  | 4 => 0x0000FFFF
  | _ => 0xFFFFFFFF

/-- a free block: the word of its bit, its index in the level, the bit -/
structure Pick where
  word : ℕ
  indexInLevel : ℕ
  highlightTargetBit : BitVec 32

/-- the body of the loop over the words of a level, down to the choice of the target -/
def pickInWord (blocks : ℕ → BitVec 32) (level number : ℕ) (indexInLevel : BitVec 32) : Option Pick :=
  let word := number + 1 <<< level >>> 5
  let loadedCase := blocks word &&& loadedCaseMask level
  let firstPair := ((loadedCase <<< 1) ^^^ loadedCase) &&& 0xAAAAAAAA
  if firstPair ≠ 0 then
    -- for the first levels the difference wraps and the sum brings it back
    let index := indexInLevel - firstPair.clz - 1#32
    let index := if level < 5 then index + BitVec.ofNat 32 (1 <<< level) else index
    let target := oneShift index.toNat
    let target := if level < 4 then target <<< (32 - 2 <<< level) else target
    if loadedCase &&& target = 0 then some ⟨word, (index - 1#32).toNat, target >>> 1⟩ else some ⟨word, index.toNat, target⟩
  else none

/-- the loop over the words of a level, from `number` down -/
def findInLevel (blocks : ℕ → BitVec 32) (level : ℕ) : ℕ → BitVec 32 → Option Pick
  | 0, index => pickInWord blocks level 0 index
  | number + 1, index =>
    match pickInWord blocks level (number + 1) index with
    | some pick => some pick
    | none => findInLevel blocks level number (index - 32)

def initialNumber (level : ℕ) : ℕ := if level < 5 then 0 else (1 <<< level >>> 5) - 1

/-- the offset in words from the first bit field (written out in the three loops over the levels) -/
def realIndex (level index : ℕ) : ℕ := if 5 ≤ level then 1 <<< (level - 5) + index >>> 5 else 0

/-- the bit of a block in its word (written out in the three loops over the levels) -/
def highlightTargetBit (level index : ℕ) : BitVec 32 :=
  if level < 4 then oneShift index <<< (32 - 2 <<< level) else oneShift index

/-- the bit of the buddy of a block -/
def highlightBuddyBit (level index : ℕ) : BitVec 32 :=
  let target := oneShift index
  let buddy := if target.clz &&& 1 = 0 then target >>> 1 else target <<< 1
  if level < 4 then buddy <<< (32 - 2 <<< level) else buddy

/-- the loop that cuts the block in halves: `steps` levels from `level` on, always the first half -/
def descend (blocks : ℕ → BitVec 32) (level index : ℕ) : ℕ → (ℕ → BitVec 32) × ℕ
  | 0 => (blocks, index)
  | steps + 1 =>
    let index := index <<< 1
    let word := realIndex level index
    descend (Function.update blocks word (blocks word - highlightTargetBit level index)) (level + 1) index steps

/-- what is done with a pick of `level` for a block of `blocksLevel` -/
def usePick (blocks : ℕ → BitVec 32) (blocksLevel level : ℕ) (pick : Pick) : (ℕ → BitVec 32) × ℕ :=
  let blocks := Function.update blocks pick.word (blocks pick.word - pick.highlightTargetBit)
  if blocksLevel = level then (blocks, pick.indexInLevel)
  else descend blocks (level + 1) pick.indexInLevel (blocksLevel - level)

/-- the loop over the levels, from `level` up to the root: the new words and the index of the block -/
def allocFrom (blocks : ℕ → BitVec 32) (blocksLevel : ℕ) : ℕ → Option ((ℕ → BitVec 32) × ℕ)
  | 0 =>
    match findInLevel blocks 0 (initialNumber 0) (BitVec.ofNat 32 (1 <<< 0)) with
    | some pick => some (usePick blocks blocksLevel 0 pick)
    | none => none
  | level + 1 =>
    match findInLevel blocks (level + 1) (initialNumber (level + 1)) (BitVec.ofNat 32 (1 <<< (level + 1))) with
    | some pick => some (usePick blocks blocksLevel (level + 1) pick)
    | none => allocFrom blocks blocksLevel level

/-- `blocks_level`, signed as in the source -/
def blocksLevelOf (h : Buddy) (size : BitVec 32) : ℤ :=
  let blocksLevel : ℤ := h.maxPower - nextPowerOf2 size
  if h.numberOfLevels ≤ blocksLevel then h.numberOfLevels - 1 else blocksLevel

def safeBuddyAlloc (h : Buddy) (size : BitVec 32) : Buddy × Except Errno (BitVec 32) :=
  if size = 0 ∨ h.sizeOfHeap < size then (h, .error .einval)
  else
    let blocksLevel := blocksLevelOf h size
    if blocksLevel < 0 then (h, .error .enomem)
    else
      match allocFrom h.blocks blocksLevel.toNat blocksLevel.toNat with
      | some (blocks, index) =>
        ({ h with blocks }, .ok (h.heapStart + BitVec.ofNat 32 (index <<< (h.maxPower - blocksLevel.toNat))))
      | none => (h, .error .enomem)

structure SearchContext where
  targetLevel : ℕ
  realIndex : ℕ
  highlightTargetBit : BitVec 32
  highlightBuddyBit : BitVec 32

def searchContext (level index : ℕ) : SearchContext :=
  ⟨level, realIndex level index, highlightTargetBit level index, highlightBuddyBit level index⟩

/-- the loop of `buddy_search_for_pointer`, from `level` up -/
def searchFrom (blocks : ℕ → BitVec 32) : ℕ → ℕ → Except Errno (ℕ × SearchContext)
  | 0, index => .ok (index, searchContext 0 index)
  | level + 1, index =>
    let context := searchContext (level + 1) index
    let loadedCase := blocks context.realIndex
    if loadedCase &&& context.highlightTargetBit = 0 then .ok (index, context)
    else if loadedCase &&& context.highlightBuddyBit = 0 then .error .einval
    else searchFrom blocks level (index >>> 1)

def buddySearchForPointer (h : Buddy) (pointer : BitVec 32) : Except Errno (ℕ × SearchContext) :=
  if pointer &&& 7 ≠ 0 ∨ pointer < h.heapStart ∨ h.heapStart + h.sizeOfHeap - 1#32 < pointer then .error .einval
  else searchFrom h.blocks (h.numberOfLevels - 1) ((pointer - h.heapStart).toNat >>> 4)

/-- the loop of `buddy_free_fusion_of_blocks`, at a block whose word has been loaded -/
def fusionOfBlocks (blocks : ℕ → BitVec 32) : ℕ → ℕ → BitVec 32 → BitVec 32 → BitVec 32 → (ℕ → BitVec 32)
  | 0, _, _, _, _ => blocks
  | level + 1, index, loadedCase, target, buddy =>
    if loadedCase &&& target = 0 ∨ loadedCase &&& buddy = 0 then blocks
    else
      let index := index >>> 1
      let word := realIndex level index
      let loadedCase := blocks word ||| highlightTargetBit level index
      fusionOfBlocks (Function.update blocks word loadedCase) level index loadedCase (highlightTargetBit level index)
        (highlightBuddyBit level index)

def safeBuddyFree (h : Buddy) (pointer : BitVec 32) : Buddy × Except Errno Unit :=
  match buddySearchForPointer h pointer with
  | .error e => (h, .error e)
  | .ok (index, c) =>
    let blocks := Function.update h.blocks c.realIndex (h.blocks c.realIndex ||| c.highlightTargetBit)
    ({ h with
        blocks := fusionOfBlocks blocks c.targetLevel index (blocks c.realIndex) c.highlightTargetBit c.highlightBuddyBit },
      .ok ())

/-- the bytes of the bit map -/
def blocksInBuddyBlocks (numberOfLevels : ℕ) : ℕ := 1 <<< (numberOfLevels - 5) <<< 2

/-- the bit map as `buddy_init` and `buddy_reset` write it -/
def clearBlocks (blocks : ℕ → BitVec 32) (numberOfLevels : ℕ) (i : ℕ) : BitVec 32 :=
  if i = 0 then 0x7fffffff
  else if 4 * i < blocksInBuddyBlocks numberOfLevels then 0xffffffff
  else blocks i

def buddyReset (h : Buddy) : Buddy := { h with blocks := clearBlocks h.blocks h.numberOfLevels }

/-- `mem_alloc_nolock` of `alloc.c`: the pointer and the new heap pointer; `none` is its fault -/
def memAlloc (heapPointer heapEnd size : BitVec 32) : Option (BitVec 32 × BitVec 32) :=
  if size = 0 then some (heapPointer, heapPointer)
  else
    let pointer := (heapPointer + 7) &&& ~~~7#32
    let newHeapPointer := pointer + size
    if pointer.toNat + size.toNat < 2 ^ 32 ∧ newHeapPointer < heapEnd then some (pointer, newHeapPointer) else none

/-- `buddy_init`, the first time it is called; `memory` gives the words behind the pointer of `mem_alloc` -/
def buddyInit (memory : BitVec 32 → ℕ → BitVec 32) (heapPointer heapEnd sizeOfHeap : BitVec 32) : Option Buddy :=
  let maxPower := 31 - sizeOfHeap.clz.toNat
  let numberOfLevels := maxPower - 3
  let inBlocks := blocksInBuddyBlocks numberOfLevels
  match memAlloc heapPointer heapEnd (sizeOfHeap + BitVec.ofNat 32 inBlocks) with
  | none => none
  | some (pointer, _) =>
    some ⟨clearBlocks (memory pointer) numberOfLevels, pointer + BitVec.ofNat 32 (4 * (inBlocks >>> 2)), sizeOfHeap, maxPower,
      numberOfLevels⟩

/-! ## The tree in the words -/

/-- the bit of node `n` in its word; 0 has the bit beside the root's, which stands for no block -/
def place (n : ℕ) : ℕ :=
  if n = 0 then 31
  else if n < 2 then n + 29
  else if n < 4 then n + 26
  else if n < 8 then n + 20
  else if n < 16 then n + 8
  else if n < 32 then n - 16
  else n % 32

def bitAt (blocks : ℕ → BitVec 32) (n : ℕ) : Bool := (blocks (n / 32)).getLsbD (place n)

section Words

variable {blocks : ℕ → BitVec 32} {level index n m : ℕ}

theorem place_lt (n : ℕ) : place n < 32 := by unfold place; split_ifs <;> omega

theorem place_inj (hword : n / 32 = m / 32) (hplace : place n = place m) : n = m := by
  unfold place at hplace
  split_ifs at hplace <;> omega

theorem place_of_le (hle : 32 ≤ n) : place n = n % 32 := by unfold place; split_ifs <;> omega

theorem place_buddy (n : ℕ) : place (BuddyTree.buddy n) = BuddyTree.buddy (place n) := by
  rcases Nat.lt_or_ge n 32 with hlt | hge
  · have hall : ∀ n < 32, place (BuddyTree.buddy n) = BuddyTree.buddy (place n) := by decide
    exact hall n hlt
  · have hle : 32 ≤ BuddyTree.buddy n := by unfold BuddyTree.buddy; split_ifs <;> omega
    rw [place_of_le hge, place_of_le hle]
    unfold BuddyTree.buddy
    split_ifs <;> omega

theorem buddy_word (n : ℕ) : BuddyTree.buddy n / 32 = n / 32 := by unfold BuddyTree.buddy; split_ifs <;> omega

theorem bitAt_buddy (blocks : ℕ → BitVec 32) (n : ℕ) :
    bitAt blocks (BuddyTree.buddy n) = (blocks (n / 32)).getLsbD (BuddyTree.buddy (place n)) := by
  rw [bitAt, buddy_word, place_buddy]

/-- a word whose bit of `n` alone is changed changes the bit of `n` alone -/
theorem bitAt_update {w : BitVec 32} (hsame : ∀ p, p ≠ place n → w.getLsbD p = (blocks (n / 32)).getLsbD p) :
    bitAt (Function.update blocks (n / 32) w) = Function.update (bitAt blocks) n (w.getLsbD (place n)) := by
  funext m
  rcases eq_or_ne m n with rfl | hne
  · simp [bitAt]
  · rw [Function.update_of_ne hne, bitAt, bitAt]
    rcases eq_or_ne (m / 32) (n / 32) with hword | hword
    · rw [hword, Function.update_self]
      exact hsame _ fun hplace => hne (place_inj hword hplace)
    · rw [Function.update_of_ne hword]

theorem sub_twoPow {x : BitVec 32} {p : ℕ} (hon : x.getLsbD p = true) : x - BitVec.twoPow 32 p = x &&& ~~~BitVec.twoPow 32 p := by
  have hp : p < 32 := BitVec.lt_of_getLsbD hon
  have hapart : (x &&& ~~~BitVec.twoPow 32 p) &&& BitVec.twoPow 32 p = 0#32 := by
    ext i hi
    simp
  have hjoin : (x &&& ~~~BitVec.twoPow 32 p) + BitVec.twoPow 32 p = x := by
    rw [BitVec.add_eq_or_of_and_eq_zero _ _ hapart]
    ext i hi
    simp only [BitVec.getElem_or, BitVec.getElem_and, BitVec.getElem_not, BitVec.getElem_twoPow]
    by_cases hpi : p = i
    · subst hpi
      rw [← BitVec.getLsbD_eq_getElem hi, hon]
      simp
    · simp [Ne.symm hpi]
  rw [← BitVec.eq_sub_iff_add_eq.2 hjoin]

/-- the subtraction takes the bit of `n` out, as the bit is on -/
theorem bitAt_off (hon : bitAt blocks n = true) :
    bitAt (Function.update blocks (n / 32) (blocks (n / 32) - BitVec.twoPow 32 (place n))) =
      Function.update (bitAt blocks) n false := by
  rw [sub_twoPow hon, bitAt_update]
  · simp [place_lt]
  · intro p hp
    rw [BitVec.getLsbD_and, BitVec.getLsbD_not, BitVec.getLsbD_twoPow]
    by_cases hlt : p < 32
    · simp [hlt, Ne.symm hp]
    · rw [BitVec.getLsbD_of_ge _ _ (by omega), Bool.false_and]

theorem bitAt_on (blocks : ℕ → BitVec 32) (n : ℕ) :
    bitAt (Function.update blocks (n / 32) (blocks (n / 32) ||| BitVec.twoPow 32 (place n))) =
      Function.update (bitAt blocks) n true := by
  rw [bitAt_update]
  · simp [place_lt]
  · intro p hp
    simp [Ne.symm hp]

theorem and_twoPow_eq_zero {x : BitVec 32} {p : ℕ} (hp : p < 32) : x &&& BitVec.twoPow 32 p = 0 ↔ x.getLsbD p = false := by
  rw [BitVec.and_twoPow]
  split_ifs with hbit
  · simp only [hbit, Bool.true_eq_false, iff_false]
    intro hzero
    have hget : (BitVec.twoPow 32 p).getLsbD p = (0#32).getLsbD p := by rw [hzero]; rfl
    simp [hp] at hget
  · simpa using hbit

theorem twoPow_shiftLeft (p k : ℕ) : BitVec.twoPow 32 p <<< k = BitVec.twoPow 32 (p + k) := by
  rw [BitVec.twoPow, BitVec.twoPow, BitVec.shiftLeft_add]

theorem twoPow_shiftRight {p : ℕ} (hp : p < 32) (hpos : 0 < p) : BitVec.twoPow 32 p >>> 1 = BitVec.twoPow 32 (p - 1) := by
  have hall : ∀ p < 32, 0 < p → BitVec.twoPow 32 p >>> 1 = BitVec.twoPow 32 (p - 1) := by decide
  exact hall p hp hpos

theorem oneShift_eq (index : ℕ) : oneShift index = BitVec.twoPow 32 (index % 32) := rfl

/-- before the shift by the offset of the level, the buddy has the bit of its index -/
theorem oneShift_buddy (index : ℕ) :
    (if (oneShift index).clz &&& 1 = 0 then oneShift index >>> 1 else oneShift index <<< 1) =
      BitVec.twoPow 32 (BuddyTree.buddy (index % 32)) := by
  have hall : ∀ p < 32, (if (BitVec.twoPow 32 p).clz &&& 1 = 0 then BitVec.twoPow 32 p >>> 1 else BitVec.twoPow 32 p <<< 1) =
      BitVec.twoPow 32 (BuddyTree.buddy p) := by decide
  rw [oneShift_eq]
  exact hall _ (Nat.mod_lt _ (by norm_num))

theorem two_pow_later (hl : 5 ≤ level) : 2 ^ level = 2 ^ (level - 5) * 32 := by
  calc 2 ^ level = 2 ^ (level - 5 + 5) := by rw [Nat.sub_add_cancel hl]
    _ = 2 ^ (level - 5) * 32 := by rw [pow_add]; rfl

theorem realIndex_eq (hi : index < 2 ^ level) : realIndex level index = (2 ^ level + index) / 32 := by
  unfold realIndex
  rw [Nat.one_shiftLeft, Nat.shiftRight_eq_div_pow]
  split_ifs with h5
  · rw [two_pow_later h5]
    omega
  · have hpow : 2 ^ level ≤ 2 ^ 4 := Nat.pow_le_pow_right (by norm_num) (by omega)
    omega

/-- where the bits of a level begin in the first word -/
theorem place_first (hl : level < 5) (hi : index < 2 ^ level) : place (2 ^ level + index) = index + (32 - 2 <<< level) := by
  have hall : ∀ level < 5, ∀ index < 2 ^ level, place (2 ^ level + index) = index + (32 - 2 <<< level) := by decide
  exact hall level hl index hi

theorem place_later (hl : 5 ≤ level) : place (2 ^ level + index) = index % 32 := by
  have hpow := two_pow_later hl
  have hpos : 0 < 2 ^ (level - 5) := by positivity
  rw [place_of_le (by omega)]
  omega

/-- the shift by the offset of the level, which is 0 for level 4 -/
theorem twoPow_offset (level p : ℕ) (hl : level < 5) :
    (if level < 4 then BitVec.twoPow 32 p <<< (32 - 2 <<< level) else BitVec.twoPow 32 p) =
      BitVec.twoPow 32 (p + (32 - 2 <<< level)) := by
  split_ifs with h4
  · exact twoPow_shiftLeft p _
  · have hlevel : level = 4 := by omega
    subst hlevel
    rfl

theorem highlightTargetBit_eq (hi : index < 2 ^ level) :
    highlightTargetBit level index = BitVec.twoPow 32 (place (2 ^ level + index)) := by
  unfold highlightTargetBit
  rw [oneShift_eq]
  rcases Nat.lt_or_ge level 5 with hl | hl
  · have hpow : 2 ^ level ≤ 2 ^ 4 := Nat.pow_le_pow_right (by norm_num) (by omega)
    rw [twoPow_offset _ _ hl, place_first hl hi, Nat.mod_eq_of_lt (by omega)]
  · rw [if_neg (by omega), place_later hl]

theorem highlightBuddyBit_eq (hi : index < 2 ^ level) :
    highlightBuddyBit level index = BitVec.twoPow 32 (place (BuddyTree.buddy (2 ^ level + index))) := by
  unfold highlightBuddyBit
  simp only [oneShift_buddy]
  rw [place_buddy]
  rcases Nat.lt_or_ge level 5 with hl | hl
  · have hpow : 2 ^ level ≤ 2 ^ 4 := Nat.pow_le_pow_right (by norm_num) (by omega)
    have heven : (32 - 2 <<< level) % 2 = 0 := by rw [Nat.shiftLeft_eq]; omega
    rw [twoPow_offset _ _ hl, place_first hl hi, Nat.mod_eq_of_lt (by omega)]
    congr 1
    unfold BuddyTree.buddy
    split_ifs <;> omega
  · rw [if_neg (by omega), place_later hl]

end Words

/-! ## The search for a free block -/

section Pick

variable {blocks : ℕ → BitVec 32} {level number : ℕ} {pick : Pick}

/-- the node of level `level` whose bit is bit `p` of the `number`-th word of the level -/
def nodeAt (level number p : ℕ) : ℕ :=
  if level < 5 then 2 ^ level + (p - (32 - 2 <<< level)) else 2 ^ level + (32 * number + p)

/-- the pick is a block of the level that is on beside a buddy that is off -/
structure Points (blocks : ℕ → BitVec 32) (level : ℕ) (pick : Pick) (n : ℕ) : Prop where
  low : 2 ^ level ≤ n
  high : n < 2 ^ (level + 1)
  word : pick.word = n / 32
  index : pick.indexInLevel = n - 2 ^ level
  bit : pick.highlightTargetBit = BitVec.twoPow 32 (place n)
  on : bitAt blocks n = true
  buddyOff : bitAt blocks (BuddyTree.buddy n) = false

theorem mask_first {p : ℕ} (hl : level < 5) (hp : p < 32) :
    (loadedCaseMask level).getLsbD p = decide (32 - 2 <<< level ≤ p ∧ p < 32 - 1 <<< level) := by
  have hall : ∀ level < 5, ∀ p < 32, (loadedCaseMask level).getLsbD p =
      decide (32 - 2 <<< level ≤ p ∧ p < 32 - 1 <<< level) := by decide
  exact hall level hl p hp

theorem mask_later {p : ℕ} (hl : 5 ≤ level) (hp : p < 32) : (loadedCaseMask level).getLsbD p = true := by
  have hmask : loadedCaseMask level = 0xFFFFFFFF := by
    obtain ⟨k, rfl⟩ := Nat.exists_eq_add_of_le' hl
    rfl
  have hall : ∀ p < 32, (0xFFFFFFFF : BitVec 32).getLsbD p = true := by decide
  rw [hmask]
  exact hall p hp

/-- a bit of the mask is the bit of its node -/
theorem nodeAt_spec {p : ℕ} (hp : p < 32) (hnum : 32 * number < 2 ^ level) (hmask : (loadedCaseMask level).getLsbD p = true) :
    2 ^ level ≤ nodeAt level number p ∧ nodeAt level number p < 2 ^ (level + 1) ∧
      nodeAt level number p / 32 = number + 1 <<< level >>> 5 ∧ place (nodeAt level number p) = p := by
  unfold nodeAt
  rw [Nat.one_shiftLeft, Nat.shiftRight_eq_div_pow, pow_succ]
  rcases Nat.lt_or_ge level 5 with hl | hl
  · rw [mask_first hl hp, decide_eq_true_eq] at hmask
    rw [if_pos hl]
    have hpow : 2 ^ level ≤ 2 ^ 4 := Nat.pow_le_pow_right (by norm_num) (by omega)
    have hoff : 2 <<< level = 2 * 2 ^ level := Nat.shiftLeft_eq 2 level
    have hone : 1 <<< level = 2 ^ level := Nat.one_shiftLeft level
    have hi : p - (32 - 2 <<< level) < 2 ^ level := by omega
    have hsmall : 2 ^ level + (p - (32 - 2 <<< level)) < 32 := by omega
    have hplace := place_first hl hi
    refine ⟨by omega, by omega, ?_, by omega⟩
    rw [Nat.div_eq_of_lt hsmall]
    omega
  · have hpow := two_pow_later hl
    rw [if_neg (by omega), place_later hl]
    refine ⟨by omega, by omega, by omega, by omega⟩

theorem mask_place {n : ℕ} (hlow : 2 ^ level ≤ n) (hhigh : n < 2 ^ (level + 1)) : (loadedCaseMask level).getLsbD (place n) = true := by
  obtain ⟨index, rfl⟩ := Nat.exists_eq_add_of_le hlow
  rw [pow_succ] at hhigh
  rcases Nat.lt_or_ge level 5 with hl | hl
  · have hi : index < 2 ^ level := by omega
    have hpow : 2 ^ level ≤ 2 ^ 4 := Nat.pow_le_pow_right (by norm_num) (by omega)
    have hoff : 2 <<< level = 2 * 2 ^ level := Nat.shiftLeft_eq 2 level
    have hone : 1 <<< level = 2 ^ level := Nat.one_shiftLeft level
    have hplace := place_first hl hi
    rw [mask_first hl (place_lt _), decide_eq_true_eq, hplace]
    omega
  · exact mask_later hl (place_lt _)

/-- the only bit of a mask without its buddy's is the root's -/
theorem mask_buddy {p : ℕ} (hp : p < 32) (hmask : (loadedCaseMask level).getLsbD p = true)
    (hbuddy : (loadedCaseMask level).getLsbD (BuddyTree.buddy p) = false) : level = 0 ∧ BuddyTree.buddy p = 31 := by
  rcases Nat.lt_or_ge level 5 with hl | hl
  · have hall : ∀ level < 5, ∀ p < 32, (loadedCaseMask level).getLsbD p = true →
        (loadedCaseMask level).getLsbD (BuddyTree.buddy p) = false → level = 0 ∧ BuddyTree.buddy p = 31 := by decide
    exact hall level hl p hp hmask hbuddy
  · have hlt : BuddyTree.buddy p < 32 := BuddyTree.buddy_lt (by norm_num) hp
    rw [mask_later hl hlt] at hbuddy
    cases hbuddy

/-- the odd bits of the word in which pairs are sought say where a bit differs from its buddy -/
theorem firstPair_getLsbD (x : BitVec 32) {p : ℕ} (hp : p < 32) :
    (((x <<< 1) ^^^ x) &&& 0xAAAAAAAA).getLsbD p = (decide (p % 2 = 1) && (x.getLsbD (p - 1) ^^ x.getLsbD p)) := by
  have hmask : ∀ p < 32, (0xAAAAAAAA : BitVec 32).getLsbD p = decide (p % 2 = 1) := by decide
  rw [BitVec.getLsbD_and, BitVec.getLsbD_xor, BitVec.getLsbD_shiftLeft, hmask p hp, Bool.and_comm]
  by_cases hodd : p % 2 = 1
  · have hpos : ¬ p < 1 := by omega
    simp [hodd, hp, hpos]
  · simp [hodd]

/-- a bit of the level that is on, with its buddy off, is a pick -/
theorem points_of_bit (hzero : bitAt blocks 0 = false) (hnum : 32 * number < 2 ^ level) {p : ℕ} (hp : p < 32)
    (hon : (blocks (number + 1 <<< level >>> 5) &&& loadedCaseMask level).getLsbD p = true)
    (hoff : (blocks (number + 1 <<< level >>> 5) &&& loadedCaseMask level).getLsbD (BuddyTree.buddy p) = false) :
    Points blocks level ⟨number + 1 <<< level >>> 5, nodeAt level number p - 2 ^ level, BitVec.twoPow 32 p⟩
      (nodeAt level number p) := by
  rw [BitVec.getLsbD_and, Bool.and_eq_true] at hon
  rw [BitVec.getLsbD_and, Bool.and_eq_false_iff] at hoff
  obtain ⟨hlow, hhigh, hword, hplace⟩ := nodeAt_spec hp hnum hon.2
  refine ⟨hlow, hhigh, hword.symm, rfl, by rw [hplace], ?_, ?_⟩
  · rw [bitAt, hword, hplace]
    exact hon.1
  · rw [bitAt_buddy, hword, hplace]
    rcases hoff with hbit | hmask
    · exact hbit
    · -- the root: its buddy is the bit that is always off
      obtain ⟨rfl, h31⟩ := mask_buddy hp hon.2 hmask
      have hnumber : number = 0 := by omega
      rw [h31, hnumber]
      exact hzero

/-- the index of the pair's upper bit `p`, computed with a wrap for the first levels -/
theorem pickIndex {start clz : BitVec 32} (hl : level < 32) (hnum : 32 * number < 2 ^ level)
    (hstart : start = BitVec.ofNat 32 (if level < 5 then 2 ^ level else 32 * (number + 1))) (hclz : clz.toNat < 32)
    (hp : level < 5 → 32 - 2 <<< level ≤ 31 - clz.toNat) :
    (if level < 5 then start - clz - 1#32 + BitVec.ofNat 32 (1 <<< level) else start - clz - 1#32).toNat =
      nodeAt level number (31 - clz.toNat) - 2 ^ level := by
  unfold nodeAt
  rcases Nat.lt_or_ge level 5 with h5 | h5
  · have hpow : 2 ^ level ≤ 2 ^ 4 := Nat.pow_le_pow_right (by norm_num) (by omega)
    have hoff : 2 <<< level = 2 * 2 ^ level := Nat.shiftLeft_eq 2 level
    have hle := hp h5
    rw [if_pos h5] at hstart
    rw [if_pos h5, if_pos h5, hstart, Nat.one_shiftLeft]
    simp only [BitVec.toNat_add, BitVec.toNat_sub, BitVec.toNat_ofNat]
    omega
  · have hpow : 2 ^ level ≤ 2 ^ 31 := Nat.pow_le_pow_right (by norm_num) (by omega)
    have hlater := two_pow_later h5
    rw [if_neg (by omega)] at hstart
    rw [if_neg (by omega), if_neg (by omega), hstart]
    simp only [BitVec.toNat_sub, BitVec.toNat_ofNat]
    omega

theorem nodeAt_pred {p : ℕ} (hpos : 0 < p) (hoff : level < 5 → 32 - 2 <<< level ≤ p - 1) :
    nodeAt level number (p - 1) - 2 ^ level = nodeAt level number p - 2 ^ level - 1 ∧ 1 ≤ nodeAt level number p - 2 ^ level := by
  unfold nodeAt
  rcases Nat.lt_or_ge level 5 with h5 | h5
  · have hle := hoff h5
    rw [if_pos h5, if_pos h5]
    omega
  · rw [if_neg (by omega), if_neg (by omega)]
    omega

theorem pickBit {index p : ℕ} (hp : p < 32) (hoff : level < 5 → 32 - 2 <<< level ≤ p)
    (hindex : index = nodeAt level number p - 2 ^ level) :
    (if level < 4 then oneShift index <<< (32 - 2 <<< level) else oneShift index) = BitVec.twoPow 32 p := by
  unfold nodeAt at hindex
  rw [oneShift_eq]
  rcases Nat.lt_or_ge level 5 with h5 | h5
  · have hle := hoff h5
    rw [if_pos h5] at hindex
    rw [twoPow_offset _ _ h5, Nat.mod_eq_of_lt (by omega)]
    congr 1
    omega
  · rw [if_neg (by omega)] at hindex
    rw [if_neg (by omega)]
    congr 1
    omega

/-- what the search in a word has to go on: the bit that is always off, a word of the level, and the index behind the word -/
structure Start (blocks : ℕ → BitVec 32) (level number : ℕ) (start : BitVec 32) : Prop where
  zero : bitAt blocks 0 = false
  level_lt : level < 32
  number_lt : 32 * number < 2 ^ level
  start_eq : start = BitVec.ofNat 32 (if level < 5 then 2 ^ level else 32 * (number + 1))

/-- in the first word one of the two bits is on, and so both are of the level -/
theorem pair_in_level (h5 : level < 5) {x w : BitVec 32} (hx : x = w &&& loadedCaseMask level) {p : ℕ} (hp : p < 32)
    (hodd : p % 2 = 1) (hdiff : (x.getLsbD (p - 1) ^^ x.getLsbD p) = true) : 32 - 2 <<< level ≤ p - 1 := by
  have heven : (32 - 2 <<< level) % 2 = 0 := by rw [Nat.shiftLeft_eq]; omega
  have hin : ∀ r < 32, x.getLsbD r = true → 32 - 2 <<< level ≤ r := by
    intro r hr hxr
    rw [hx, BitVec.getLsbD_and, Bool.and_eq_true, mask_first h5 hr, decide_eq_true_eq] at hxr
    exact hxr.2.1
  cases hxp : x.getLsbD p with
  | true =>
    have hle := hin p hp hxp
    omega
  | false =>
    rw [hxp, Bool.xor_false] at hdiff
    exact hin (p - 1) (by omega) hdiff

/-- **What is found in a word is free**: it is on and its buddy is off. -/
theorem pickInWord_some {start : BitVec 32} (hs : Start blocks level number start)
    (h : pickInWord blocks level number start = some pick) : ∃ n, Points blocks level pick n := by
  unfold pickInWord at h
  simp only at h
  set x := blocks (number + 1 <<< level >>> 5) &&& loadedCaseMask level with hx
  set pair := ((x <<< 1) ^^^ x) &&& 0xAAAAAAAA with hpair
  by_cases hne : pair = 0
  · simp [hne] at h
  rw [if_pos hne] at h
  have hclz : pair.clz.toNat < 32 := by
    have hlt := BitVec.clz_lt_iff_ne_zero.2 hne
    exact BitVec.lt_def.1 hlt
  obtain ⟨p, hp⟩ : ∃ p, p = 31 - pair.clz.toNat := ⟨_, rfl⟩
  have hp32 : p < 32 := by omega
  have hbit : pair.getLsbD p = true := hp ▸ BitVec.getLsbD_true_clz_of_ne_zero (by norm_num) hne
  rw [hpair, firstPair_getLsbD x hp32, Bool.and_eq_true, decide_eq_true_eq] at hbit
  obtain ⟨hodd, hdiff⟩ := hbit
  have hbuddy : BuddyTree.buddy p = p - 1 := by unfold BuddyTree.buddy; rw [if_neg (by omega)]
  have hbuddy' : BuddyTree.buddy (p - 1) = p := by unfold BuddyTree.buddy; rw [if_pos (by omega)]; omega
  have hoff : level < 5 → 32 - 2 <<< level ≤ p - 1 := fun h5 => pair_in_level h5 hx hp32 hodd hdiff
  have hindex := pickIndex hs.level_lt hs.number_lt hs.start_eq hclz fun h5 => by have := hoff h5; omega
  rw [← hp] at hindex
  have htarget := pickBit hp32 (fun h5 => by have := hoff h5; omega) hindex
  rw [htarget] at h
  generalize (if level < 5 then start - pair.clz - 1#32 + BitVec.ofNat 32 (1 <<< level) else start - pair.clz - 1#32) = index
    at h hindex
  by_cases hzero : x &&& BitVec.twoPow 32 p = 0
  · rw [if_pos hzero] at h
    rw [and_twoPow_eq_zero hp32] at hzero
    rw [hzero, Bool.xor_false] at hdiff
    have hpoints := points_of_bit hs.zero hs.number_lt (show p - 1 < 32 by omega) hdiff (by rw [hbuddy']; exact hzero)
    have hless : (index - 1#32).toNat = nodeAt level number (p - 1) - 2 ^ level := by
      obtain ⟨hpred, hge⟩ : nodeAt level number (p - 1) - 2 ^ level = nodeAt level number p - 2 ^ level - 1 ∧
          1 ≤ nodeAt level number p - 2 ^ level := nodeAt_pred (by omega) hoff
      rw [hpred, ← hindex, BitVec.toNat_sub_of_le]
      · rfl
      · rw [BitVec.le_def, hindex]
        exact hge
    rw [hless, twoPow_shiftRight hp32 (by omega)] at h
    exact ⟨_, Option.some.inj h ▸ hpoints⟩
  · rw [if_neg hzero] at h
    rw [and_twoPow_eq_zero hp32, Bool.not_eq_false] at hzero
    have hoffBit : x.getLsbD (p - 1) = false := by
      rw [hzero] at hdiff
      simpa using hdiff
    have hpoints := points_of_bit hs.zero hs.number_lt hp32 hzero (by rw [hbuddy]; exact hoffBit)
    rw [hindex] at h
    exact ⟨_, Option.some.inj h ▸ hpoints⟩

/-- **Nothing is missed in a word**: without a find, no block of the word is on beside a buddy that is off. -/
theorem pickInWord_none {start : BitVec 32} (h : pickInWord blocks level number start = none) {n : ℕ}
    (hlow : 2 ^ level ≤ n) (hhigh : n < 2 ^ (level + 1)) (hword : n / 32 = number + 1 <<< level >>> 5)
    (hon : bitAt blocks n = true) : bitAt blocks (BuddyTree.buddy n) = true := by
  unfold pickInWord at h
  simp only at h
  set x := blocks (number + 1 <<< level >>> 5) &&& loadedCaseMask level with hx
  by_cases hne : ((x <<< 1) ^^^ x) &&& 0xAAAAAAAA = 0
  · have hsame : ∀ p < 32, p % 2 = 1 → x.getLsbD (p - 1) = x.getLsbD p := by
      intro p hp hodd
      have hbit := firstPair_getLsbD x hp
      rw [hne] at hbit
      simpa [hodd] using hbit.symm
    have hxon : x.getLsbD (place n) = true := by
      rw [hx, BitVec.getLsbD_and, mask_place hlow hhigh, Bool.and_true, ← hword]
      exact hon
    have hlt := place_lt n
    have hxbuddy : x.getLsbD (BuddyTree.buddy (place n)) = true := by
      unfold BuddyTree.buddy
      split_ifs with heven
      · have heq := hsame (place n + 1) (by omega) (by omega)
        rw [Nat.add_sub_cancel] at heq
        rw [← heq, hxon]
      · rw [hsame (place n) hlt (by omega), hxon]
    rw [hx, BitVec.getLsbD_and, Bool.and_eq_true, ← hword] at hxbuddy
    rw [bitAt_buddy]
    exact hxbuddy.1
  · rw [if_pos hne] at h
    split_ifs at h

/-- no block of the level is on beside a buddy that is off -/
def NoPair (blocks : ℕ → BitVec 32) (level : ℕ) : Prop :=
  ∀ n, 2 ^ level ≤ n → n < 2 ^ (level + 1) → bitAt blocks n = true → bitAt blocks (BuddyTree.buddy n) = true

theorem Start.pred {start : BitVec 32} (hs : Start blocks level (number + 1) start) :
    Start blocks level number (start - 32#32) := by
  have hnum := hs.number_lt
  have h5 : ¬ level < 5 := by
    intro h5
    have hpow : 2 ^ level ≤ 2 ^ 4 := Nat.pow_le_pow_right (by norm_num) (by omega)
    omega
  refine ⟨hs.zero, hs.level_lt, by omega, ?_⟩
  have hpow : 2 ^ level ≤ 2 ^ 31 := Nat.pow_le_pow_right (by norm_num) (by have := hs.level_lt; omega)
  rw [hs.start_eq, if_neg h5, if_neg h5]
  apply BitVec.eq_of_toNat_eq
  simp only [BitVec.toNat_sub, BitVec.toNat_ofNat]
  omega

theorem findInLevel_some {start : BitVec 32} (hs : Start blocks level number start)
    (h : findInLevel blocks level number start = some pick) : ∃ n, Points blocks level pick n := by
  induction number generalizing start with
  | zero => exact pickInWord_some hs h
  | succ number ih =>
    unfold findInLevel at h
    split at h
    · next found hfound =>
      rw [← Option.some.inj h]
      exact pickInWord_some hs hfound
    · exact ih hs.pred h

theorem findInLevel_none {start : BitVec 32} (h : findInLevel blocks level number start = none) {n : ℕ}
    (hlow : 2 ^ level ≤ n) (hhigh : n < 2 ^ (level + 1)) (hfirst : 1 <<< level >>> 5 ≤ n / 32)
    (hword : n / 32 ≤ number + 1 <<< level >>> 5) (hon : bitAt blocks n = true) : bitAt blocks (BuddyTree.buddy n) = true := by
  induction number generalizing start with
  | zero => exact pickInWord_none h hlow hhigh (by omega) hon
  | succ number ih =>
    unfold findInLevel at h
    split at h
    · cases h
    · next hnone =>
      rcases Nat.eq_or_lt_of_le hword with heq | hlt
      · exact pickInWord_none hnone hlow hhigh heq hon
      · exact ih h (by omega)

/-- the search of a whole level -/
def findLevel (blocks : ℕ → BitVec 32) (level : ℕ) : Option Pick :=
  findInLevel blocks level (initialNumber level) (BitVec.ofNat 32 (1 <<< level))

theorem start_level (hzero : bitAt blocks 0 = false) (hl : level < 32) :
    Start blocks level (initialNumber level) (BitVec.ofNat 32 (1 <<< level)) := by
  unfold initialNumber
  rw [Nat.one_shiftLeft, Nat.shiftRight_eq_div_pow]
  rcases Nat.lt_or_ge level 5 with h5 | h5
  · refine ⟨hzero, hl, ?_, by rw [if_pos h5]⟩
    rw [if_pos h5]
    positivity
  · have hpow := two_pow_later h5
    have hpos : 0 < 2 ^ (level - 5) := by positivity
    refine ⟨hzero, hl, ?_, ?_⟩
    · rw [if_neg (by omega)]
      omega
    · rw [if_neg (by omega), if_neg (by omega)]
      congr 1
      omega

theorem findLevel_some (hzero : bitAt blocks 0 = false) (hl : level < 32) (h : findLevel blocks level = some pick) :
    ∃ n, Points blocks level pick n := findInLevel_some (start_level hzero hl) h

theorem findLevel_none (h : findLevel blocks level = none) : NoPair blocks level := by
  intro n hlow hhigh hon
  rw [pow_succ] at hhigh
  apply findInLevel_none h hlow (by rw [pow_succ]; exact hhigh) _ _ hon
  · rw [Nat.one_shiftLeft, Nat.shiftRight_eq_div_pow]
    exact Nat.div_le_div_right hlow
  · unfold initialNumber
    rw [Nat.one_shiftLeft, Nat.shiftRight_eq_div_pow]
    rcases Nat.lt_or_ge level 5 with h5 | h5
    · have hpow : 2 ^ level ≤ 2 ^ 4 := Nat.pow_le_pow_right (by norm_num) (by omega)
      omega
    · have hpow := two_pow_later h5
      rw [if_neg (by omega)]
      omega

end Pick

/-! ## The loops as walks over the tree -/

section Walks

variable {blocks : ℕ → BitVec 32} {level index : ℕ}

theorem double_lt (hi : index < 2 ^ level) : index <<< 1 < 2 ^ (level + 1) := by
  rw [Nat.shiftLeft_eq, pow_succ]
  omega

theorem double_node (level index : ℕ) : 2 ^ (level + 1) + index <<< 1 = (2 ^ level + index) * 2 := by
  rw [Nat.shiftLeft_eq, pow_succ]
  ring

theorem half_lt (hi : index < 2 ^ (level + 1)) : index >>> 1 < 2 ^ level := by
  rw [pow_succ] at hi
  rw [Nat.shiftRight_eq_div_pow]
  omega

theorem half_node (level index : ℕ) : 2 ^ level + index >>> 1 = (2 ^ (level + 1) + index) / 2 := by
  rw [Nat.shiftRight_eq_div_pow, pow_succ]
  omega

/-- cutting a block in halves marks the way down to the block handed out -/
theorem descend_mark {bit : ℕ → Bool} {steps : ℕ} (hi : index < 2 ^ level)
    (hbit : bitAt blocks = Function.update bit (2 ^ level + index) false)
    (hon : ∀ j, 0 < j → j ≤ steps → bit ((2 ^ level + index) * 2 ^ j) = true) :
    bitAt (descend blocks (level + 1) index steps).1 = BuddyTree.mark bit (2 ^ level + index) steps ∧
      2 ^ (level + steps) + (descend blocks (level + 1) index steps).2 = (2 ^ level + index) * 2 ^ steps := by
  induction steps generalizing blocks bit level index with
  | zero => exact ⟨hbit, by simp [descend]⟩
  | succ steps ih =>
    have hpos : 0 < 2 ^ level := by positivity
    have hnode := double_node level index
    have hlt := double_lt hi
    have hmul : 2 * (2 ^ level + index) = (2 ^ level + index) * 2 := Nat.mul_comm ..
    have hbelow : bitAt blocks (2 ^ (level + 1) + index <<< 1) = true := by
      rw [hbit, hnode, Function.update_of_ne (by omega)]
      simpa using hon 1 (by omega) (by omega)
    have hon' : ∀ j, 0 < j → j ≤ steps → bitAt blocks ((2 ^ (level + 1) + index <<< 1) * 2 ^ j) = true := by
      intro j hj hle
      have hmore : (2 ^ level + index) * 2 * 2 ^ j = (2 ^ level + index) * 2 ^ (j + 1) := by rw [pow_succ', Nat.mul_assoc]
      have hlong : (2 ^ level + index) * 1 < (2 ^ level + index) * 2 ^ (j + 1) :=
        Nat.mul_lt_mul_of_pos_left (Nat.one_lt_two_pow (by omega)) (by omega)
      rw [hbit, hnode, hmore, Function.update_of_ne (by omega)]
      exact hon (j + 1) (by omega) (by omega)
    simp only [descend]
    rw [BuddyTree.mark, hmul, ← hnode, realIndex_eq hlt, highlightTargetBit_eq hlt]
    obtain ⟨hbits, hend⟩ := ih hlt (bitAt_off hbelow) hon'
    refine ⟨by rw [hbits, hbit], ?_⟩
    rw [← Nat.add_assoc, Nat.add_right_comm, hend, hnode, pow_succ', Nat.mul_assoc]

/-- what the search for a pointer makes of a node -/
def contextOf (n : ℕ) : ℕ × SearchContext :=
  (n - 2 ^ Nat.log 2 n, searchContext (Nat.log 2 n) (n - 2 ^ Nat.log 2 n))

theorem log_node (hi : index < 2 ^ level) : Nat.log 2 (2 ^ level + index) = level := by
  apply Nat.log_eq_of_pow_le_of_lt_pow (Nat.le_add_right _ _)
  rw [pow_succ]
  omega

theorem contextOf_node (hi : index < 2 ^ level) : contextOf (2 ^ level + index) = (index, searchContext level index) := by
  unfold contextOf
  rw [log_node hi, Nat.add_sub_cancel_left]

/-- the outcome of the search for a pointer, by that of the walk up the tree -/
def outcomeOf : Option ℕ → Except Errno (ℕ × SearchContext)
  | some n => .ok (contextOf n)
  | none => .error .einval

theorem target_off_iff (hi : index < 2 ^ level) :
    blocks (realIndex level index) &&& highlightTargetBit level index = 0 ↔ bitAt blocks (2 ^ level + index) = false := by
  rw [realIndex_eq hi, highlightTargetBit_eq hi, and_twoPow_eq_zero (place_lt _)]
  rfl

theorem buddy_off_iff (hi : index < 2 ^ level) :
    blocks (realIndex level index) &&& highlightBuddyBit level index = 0 ↔
      bitAt blocks (BuddyTree.buddy (2 ^ level + index)) = false := by
  rw [realIndex_eq hi, highlightBuddyBit_eq hi, and_twoPow_eq_zero (place_lt _), bitAt_buddy, place_buddy]

theorem one_lt_node (level index : ℕ) : ¬ 2 ^ (level + 1) + index ≤ 1 := by
  have hpos : 0 < 2 ^ level := by positivity
  rw [pow_succ]
  omega

/-- the search for a pointer is the walk up the tree -/
theorem search_seek (hi : index < 2 ^ level) :
    searchFrom blocks level index = outcomeOf (BuddyTree.seek (bitAt blocks) (2 ^ level + index)) := by
  induction level generalizing index with
  | zero =>
    have hseek : BuddyTree.seek (bitAt blocks) (2 ^ 0 + index) = some (2 ^ 0 + index) := by
      rw [BuddyTree.seek, if_pos]
      right
      rw [pow_zero] at hi ⊢
      omega
    have hindex : index = 0 := by simpa using hi
    rw [hseek, outcomeOf, contextOf_node hi, searchFrom, hindex]
  | succ level ih =>
    have hup := half_node level index
    rw [BuddyTree.seek]
    simp only [searchFrom, searchContext, target_off_iff hi, buddy_off_iff hi]
    by_cases hoff : bitAt blocks (2 ^ (level + 1) + index) = false
    · rw [if_pos hoff, if_pos (Or.inl hoff), outcomeOf, contextOf_node hi, searchContext]
    · rw [if_neg hoff, if_neg (not_or.2 ⟨hoff, one_lt_node level index⟩)]
      by_cases hbuddy : bitAt blocks (BuddyTree.buddy (2 ^ (level + 1) + index)) = false
      · rw [if_pos hbuddy, if_pos hbuddy, outcomeOf]
      · rw [if_neg hbuddy, if_neg hbuddy, ih (half_lt hi), hup]

/-- joining the free halves is the walk up the tree that turns the nodes on -/
theorem fusion_fuse (hi : index < 2 ^ level) :
    bitAt (fusionOfBlocks blocks level index (blocks (realIndex level index)) (highlightTargetBit level index)
      (highlightBuddyBit level index)) = BuddyTree.fuse (bitAt blocks) (2 ^ level + index) := by
  induction level generalizing blocks index with
  | zero =>
    rw [BuddyTree.fuse, if_pos, fusionOfBlocks]
    rw [pow_zero] at hi ⊢
    omega
  | succ level ih =>
    have hup := half_node level index
    have hhalf := half_lt hi
    rw [BuddyTree.fuse, if_neg (one_lt_node level index), fusionOfBlocks]
    simp only [target_off_iff hi, buddy_off_iff hi]
    split_ifs with hoff
    · rfl
    · have hset : bitAt (Function.update blocks (realIndex level (index >>> 1))
          (blocks (realIndex level (index >>> 1)) ||| highlightTargetBit level (index >>> 1))) =
          Function.update (bitAt blocks) ((2 ^ (level + 1) + index) / 2) true := by
        rw [realIndex_eq hhalf, highlightTargetBit_eq hhalf, bitAt_on, hup]
      rw [← hset, ← hup, ← ih hhalf, Function.update_self]

end Walks

end PimOfis.DpuRt.BuddyAlloc
