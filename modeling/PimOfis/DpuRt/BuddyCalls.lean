/-
The calls of the buddy allocator of the DPU's runtime, on the tree of blocks.

The words of the bit map show a set of held nodes (`Holds`); a call changes the set by one node and the words with it. The level
that a size gets is that of the smallest blocks with room for it, at the least 16 bytes.

Results:
- `nextPowerOf2_eq`: counting the leading zeros and the bits set rounds the logarithm up;
- `alloc_spec`: an allocation hands out a block that was free, and fails just when no block of its level is;
- `free_spec`: `buddy_free` gives back the held block over the address, at whatever byte of it, and nothing else.
-/
import Mathlib.Tactic
import PimOfis.Lib.Bits
import PimOfis.DpuRt.BuddyAlloc

namespace PimOfis.DpuRt.BuddyCalls

open Lib BuddyAlloc

/-! ## The level of a size -/

section Size

theorem cpopNatRec_bitCount (x : BitVec 32) (n : ℕ) : x.cpopNatRec n 0 = bitCount n x.toNat := by
  induction n with
  | zero => rfl
  | succ n ih =>
    rw [BitVec.cpopNatRec_succ, BitVec.cpopNatRec_eq, ih]
    unfold bitCount
    rw [Finset.range_add_one, Finset.filter_insert, ← BitVec.testBit_toNat]
    cases hbit : x.toNat.testBit n with
    | false => simp
    | true => simp [Finset.card_insert_of_notMem]

/-- one bit is set just in the powers of 2 -/
theorem cpop_eq_one_iff {x : BitVec 32} : x.cpop = 1#32 ↔ ∃ k < 32, x.toNat = 2 ^ k := by
  have hcount : x.cpop.toNat = bitCount 32 x.toNat := by
    have hle := BitVec.cpopNatRec_zero_le x 32
    rw [BitVec.cpop, BitVec.toNat_ofNat, cpopNatRec_bitCount] at *
    exact Nat.mod_eq_of_lt (by omega)
  have hone : x.cpop = 1#32 ↔ bitCount 32 x.toNat = 1 := by
    rw [← hcount]
    exact ⟨fun h => by rw [h]; rfl, fun h => BitVec.eq_of_toNat_eq h⟩
  rw [hone]
  unfold bitCount
  rw [Finset.card_eq_one]
  constructor
  · rintro ⟨k, hk⟩
    have hmem : ∀ i, i ∈ ((Finset.range 32).filter fun i => x.toNat.testBit i = true) ↔ i = k := by
      intro i
      rw [hk, Finset.mem_singleton]
    simp only [Finset.mem_filter, Finset.mem_range] at hmem
    have hk32 := ((hmem k).2 rfl).1
    refine ⟨k, hk32, Nat.eq_of_testBit_eq fun i => ?_⟩
    rw [Nat.testBit_two_pow]
    by_cases hi : i < 32
    · have hbit := hmem i
      simp only [hi, true_and] at hbit
      cases hx : x.toNat.testBit i with
      | true => exact (decide_eq_true (hbit.1 hx).symm).symm
      | false =>
        refine (decide_eq_false fun heq => ?_).symm
        rw [hbit.2 heq.symm] at hx
        cases hx
    · rw [Nat.testBit_lt_two_pow (lt_of_lt_of_le x.isLt (Nat.pow_le_pow_right (by norm_num) (by omega)))]
      exact (decide_eq_false (by omega)).symm
  · rintro ⟨k, hk, hx⟩
    refine ⟨k, ?_⟩
    ext i
    rw [hx]
    simp only [Finset.mem_filter, Finset.mem_range, Finset.mem_singleton, Nat.testBit_two_pow, decide_eq_true_eq]
    omega

/-- the power of 2 that a size is rounded up to -/
theorem nextPowerOf2_eq {x : BitVec 32} (hx : x ≠ 0) : nextPowerOf2 x = Nat.clog 2 x.toNat := by
  have hlow := BitVec.two_pow_sub_clz_le_toNat_of_ne_zero (x := x) (by norm_num) hx
  have hhigh := BitVec.toNat_lt_two_pow_sub_clz (x := x)
  have hclz : x.clz.toNat < 32 := BitVec.lt_def.1 (BitVec.clz_lt_iff_ne_zero.2 hx)
  have hsucc : 32 - x.clz.toNat = 31 - x.clz.toNat + 1 := by omega
  rw [hsucc] at hhigh
  unfold nextPowerOf2
  by_cases hone : x.cpop = 1#32
  · obtain ⟨k, -, hk⟩ := cpop_eq_one_iff.1 hone
    rw [hk] at hlow hhigh ⊢
    have hle : 31 - x.clz.toNat ≤ k := (Nat.pow_le_pow_iff_right (by norm_num)).1 hlow
    have hlt : k < 31 - x.clz.toNat + 1 := (Nat.pow_lt_pow_iff_right (by norm_num)).1 hhigh
    simp only [hone, ne_eq, not_true_eq_false, if_false, Nat.clog_pow 2 k (by norm_num)]
    omega
  · have hne : 2 ^ (31 - x.clz.toNat) ≠ x.toNat := fun h => hone (cpop_eq_one_iff.2 ⟨_, by omega, h.symm⟩)
    simp only [hone, ne_eq, not_false_eq_true, if_true]
    have hlt := (Nat.lt_clog_iff_pow_lt (by norm_num)).2 (lt_of_le_of_ne hlow hne)
    have hle := Nat.clog_le_of_le_pow hhigh.le
    omega

end Size

/-! ## Calls on the tree -/

section Calls

/-- the variables as `buddy_init` sets them, whatever is held -/
structure Sized (h : Buddy) : Prop where
  big : 8 ≤ h.maxPower
  small : h.maxPower < 32
  levels : h.numberOfLevels = h.maxPower - 3
  size : h.sizeOfHeap.toNat = 2 ^ h.maxPower
  fits : h.heapStart.toNat + 2 ^ h.maxPower < 2 ^ 32

/-- the nodes of the tree are those below `top` -/
def top (h : Buddy) : ℕ := 2 ^ h.numberOfLevels

/-- the words show the held nodes -/
structure Holds (h : Buddy) (held : Set ℕ) : Prop where
  sized : Sized h
  shows : BuddyTree.Shows (top h) (bitAt h.blocks) held
  apart : BuddyTree.Apart (top h) held

/-- the level of the blocks that a size gets -/
def levelFor (h : Buddy) (size : ℕ) : ℕ := min (h.numberOfLevels - 1) (h.maxPower - Nat.clog 2 size)

/-- the words behind the bit map are left as they are -/
def SameBehind (h : Buddy) (blocks : ℕ → BitVec 32) : Prop := ∀ i, 2 ^ (h.numberOfLevels - 5) ≤ i → blocks i = h.blocks i

variable {h : Buddy} {held : Set ℕ} {size : BitVec 32}

theorem Sized.withBlocks (hh : Sized h) (blocks : ℕ → BitVec 32) : Sized { h with blocks } :=
  ⟨hh.big, hh.small, hh.levels, hh.size, hh.fits⟩

theorem Sized.five_le (hh : Sized h) : 5 ≤ h.numberOfLevels := by rw [hh.levels]; have := hh.big; omega

theorem top_eq (hh : Sized h) : top h = 2 ^ (h.numberOfLevels - 5) * 32 := two_pow_later hh.five_le

theorem top_even (hh : Sized h) : top h % 2 = 0 := by rw [top_eq hh]; omega

theorem levelFor_lt (hh : Sized h) (size : ℕ) : levelFor h size < h.numberOfLevels := by
  have h5 := hh.five_le
  have hmin := Nat.min_le_left (h.numberOfLevels - 1) (h.maxPower - Nat.clog 2 size)
  unfold levelFor
  omega

theorem blocksLevelOf_eq (hh : Sized h) (hpos : size ≠ 0) (hle : size.toNat ≤ 2 ^ h.maxPower) :
    blocksLevelOf h size = levelFor h size.toNat := by
  have hclog := Nat.clog_le_of_le_pow hle
  have h5 := hh.five_le
  unfold blocksLevelOf levelFor
  simp only
  rw [nextPowerOf2_eq hpos]
  split_ifs
  · rw [Nat.min_eq_left (by omega)]
    omega
  · rw [Nat.min_eq_right (by omega)]
    omega

theorem word_ext {blocks blocks' : ℕ → BitVec 32} {i : ℕ} (hi : 0 < i)
    (hsame : ∀ n, 32 * i ≤ n → n < 32 * (i + 1) → bitAt blocks n = bitAt blocks' n) : blocks i = blocks' i := by
  apply BitVec.eq_of_getLsbD_eq
  intro p hp
  have hbit := hsame (32 * i + p) (by omega) (by omega)
  have hword : (32 * i + p) / 32 = i := by omega
  have hplace : place (32 * i + p) = p := by rw [place_of_le (by omega)]; omega
  rwa [bitAt, bitAt, hword, hplace] at hbit

theorem sameBehind_of_bits (hh : Sized h) {blocks : ℕ → BitVec 32} (hsame : ∀ n, top h ≤ n → bitAt blocks n = bitAt h.blocks n) :
    SameBehind h blocks := by
  intro i hi
  have hpos : 0 < 2 ^ (h.numberOfLevels - 5) := by positivity
  have htop := top_eq hh
  exact word_ext (by omega) fun n hn _ => hsame n (by omega)

/-- a node of a level, so many levels further down, is in the tree -/
theorem below_top {level n j : ℕ} (hhigh : n < 2 ^ (level + 1)) (hj : level + j < h.numberOfLevels) : n * 2 ^ j < top h := by
  calc n * 2 ^ j < 2 ^ (level + 1) * 2 ^ j := Nat.mul_lt_mul_of_pos_right hhigh (by positivity)
    _ = 2 ^ (level + 1 + j) := (pow_add 2 (level + 1) j).symm
    _ ≤ top h := Nat.pow_le_pow_right (by norm_num) (by omega)

theorem pos_of_points {blocks : ℕ → BitVec 32} {level n : ℕ} {pick : Pick} (hn : Points blocks level pick n) : 0 < n :=
  lt_of_lt_of_le (by positivity) hn.low

theorem free_of_points (hh : Holds h held) {level n : ℕ} {pick : Pick} (hl : level < h.numberOfLevels)
    (hn : Points h.blocks level pick n) : BuddyTree.Free held n := by
  have hlt : n < top h := by simpa using below_top (j := 0) hn.high (by omega)
  exact BuddyTree.free_of_pair hh.shows hh.apart (top_even hh.sized) (pos_of_points hn) hlt hn.on hn.buddyOff

/-- a pick is marked as taken, and so is the way down to the block handed out -/
theorem usePick_spec (hh : Holds h held) {level blocksLevel n : ℕ} {pick : Pick} (hle : level ≤ blocksLevel)
    (hlt : blocksLevel < h.numberOfLevels) (hn : Points h.blocks level pick n) :
    bitAt (usePick h.blocks blocksLevel level pick).1 = BuddyTree.mark (bitAt h.blocks) n (blocksLevel - level) ∧
      2 ^ blocksLevel + (usePick h.blocks blocksLevel level pick).2 = n * 2 ^ (blocksLevel - level) := by
  have hfree := free_of_points hh (by omega) hn
  have hpos := pos_of_points hn
  have hnode : 2 ^ level + pick.indexInLevel = n := by rw [hn.index]; have := hn.low; omega
  have hindex : pick.indexInLevel < 2 ^ level := by
    have hhigh := hn.high
    rw [pow_succ] at hhigh
    omega
  have hmark : bitAt (Function.update h.blocks pick.word (h.blocks pick.word - pick.highlightTargetBit)) =
      Function.update (bitAt h.blocks) (2 ^ level + pick.indexInLevel) false := by
    rw [hn.word, hn.bit, bitAt_off hn.on, hnode]
  have hon : ∀ j, 0 < j → j ≤ blocksLevel - level → bitAt h.blocks ((2 ^ level + pick.indexInLevel) * 2 ^ j) = true := by
    intro j _ hj
    rw [hnode]
    have hbelow : n * 2 ^ j < top h := below_top hn.high (by omega)
    have hcov : BuddyTree.Covers n (n * 2 ^ j) := ⟨j, Nat.mul_div_cancel _ (by positivity)⟩
    exact (hh.shows.on_iff (by positivity) hbelow).2 fun b hb => (hfree.under hcov b hb).1
  unfold usePick
  simp only
  split_ifs with hsame
  · subst hsame
    rw [Nat.sub_self, BuddyTree.mark, hmark, hnode]
    exact ⟨rfl, by simp⟩
  · obtain ⟨hbits, hend⟩ := descend_mark hindex hmark hon
    rw [hbits, hnode]
    rw [Nat.add_sub_cancel' hle] at hend
    exact ⟨rfl, by rw [hend, hnode]⟩

/-- what the loop over the levels has done: a free pair above a block of the level, and the way down to the block marked -/
structure Cut (h : Buddy) (blocksLevel : ℕ) (blocks : ℕ → BitVec 32) (index m k : ℕ) : Prop where
  pos : 0 < m
  on : bitAt h.blocks m = true
  buddyOff : bitAt h.blocks (BuddyTree.buddy m) = false
  bits : bitAt blocks = BuddyTree.mark (bitAt h.blocks) m k
  node : 2 ^ blocksLevel + index = m * 2 ^ k
  lt : m * 2 ^ k < 2 ^ (blocksLevel + 1)

theorem cut_of_points (hh : Holds h held) {level blocksLevel n : ℕ} {pick : Pick} (hle : level ≤ blocksLevel)
    (hlt : blocksLevel < h.numberOfLevels) (hn : Points h.blocks level pick n) :
    Cut h blocksLevel (usePick h.blocks blocksLevel level pick).1 (usePick h.blocks blocksLevel level pick).2 n
      (blocksLevel - level) := by
  obtain ⟨hbits, hnode⟩ := usePick_spec hh hle hlt hn
  refine ⟨pos_of_points hn, hn.on, hn.buddyOff, hbits, hnode, ?_⟩
  calc n * 2 ^ (blocksLevel - level) < 2 ^ (level + 1) * 2 ^ (blocksLevel - level) :=
        Nat.mul_lt_mul_of_pos_right hn.high (by positivity)
    _ = 2 ^ (blocksLevel + 1) := by rw [← pow_add]; congr 1; omega

theorem allocFrom_some (hh : Holds h held) {level blocksLevel index : ℕ} {blocks : ℕ → BitVec 32} (hle : level ≤ blocksLevel)
    (hlt : blocksLevel < h.numberOfLevels) (ha : allocFrom h.blocks blocksLevel level = some (blocks, index)) :
    ∃ m k, Cut h blocksLevel blocks index m k := by
  have hlevels : h.numberOfLevels < 32 := by rw [hh.sized.levels]; have := hh.sized.small; omega
  induction level with
  | zero =>
    unfold allocFrom at ha
    split at ha
    · next pick hpick =>
      obtain ⟨n, hn⟩ := findLevel_some hh.shows.zero (by norm_num) hpick
      have hcut := cut_of_points hh hle hlt hn
      rw [Option.some.inj ha] at hcut
      exact ⟨n, _, hcut⟩
    · cases ha
  | succ level ih =>
    unfold allocFrom at ha
    split at ha
    · next pick hpick =>
      obtain ⟨n, hn⟩ := findLevel_some hh.shows.zero (by omega) hpick
      have hcut := cut_of_points hh hle hlt hn
      rw [Option.some.inj ha] at hcut
      exact ⟨n, _, hcut⟩
    · exact ih (by omega) ha

theorem allocFrom_none {blocks : ℕ → BitVec 32} {level blocksLevel : ℕ} (ha : allocFrom blocks blocksLevel level = none) :
    ∀ l ≤ level, NoPair blocks l := by
  induction level with
  | zero =>
    unfold allocFrom at ha
    split at ha
    · cases ha
    · next hnone =>
      intro l hl
      rw [Nat.le_zero.1 hl]
      exact findLevel_none hnone
  | succ level ih =>
    unfold allocFrom at ha
    split at ha
    · cases ha
    · next hnone =>
      intro l hl
      rcases Nat.eq_or_lt_of_le hl with rfl | hlt
      · exact findLevel_none hnone
      · exact ih ha l (by omega)

/-- without a pair in the levels down to that of the block, no block of it is free -/
theorem not_free_of_noPair (hh : Holds h held) {level n : ℕ} (hl : level < h.numberOfLevels)
    (hnone : ∀ l ≤ level, NoPair h.blocks l) (hlow : 2 ^ level ≤ n) (hhigh : n < 2 ^ (level + 1)) : ¬ BuddyTree.Free held n := by
  intro hfree
  have hpos : 0 < n := lt_of_lt_of_le (by positivity) hlow
  have hlt : n < top h := by simpa using below_top (j := 0) hhigh (by omega)
  obtain ⟨k, hup, hon, hoff⟩ := BuddyTree.exists_pair hh.shows (top_even hh.sized) hpos hlt hfree
  have hlog := Nat.log_eq_of_pow_le_of_lt_pow hlow hhigh
  have hle : Nat.log 2 (n / 2 ^ k) ≤ level := by
    rw [← hlog]
    exact Nat.log_mono_right (Nat.div_le_self n _)
  have hbuddy := hnone _ hle (n / 2 ^ k) (Nat.pow_log_le_self 2 hup.ne') (Nat.lt_pow_succ_log_self (by norm_num) _) hon
  rw [hoff] at hbuddy
  cases hbuddy

/-- the address of the block of node `n` -/
def addressOf (h : Buddy) (n : ℕ) : BitVec 32 :=
  h.heapStart + BitVec.ofNat 32 ((n - 2 ^ Nat.log 2 n) <<< (h.maxPower - Nat.log 2 n))

/-- what `buddy_alloc` can do -/
inductive Allocated (h : Buddy) (held : Set ℕ) (size : BitVec 32) : Buddy × Except Errno (BitVec 32) → Prop where
  | invalid (hsize : size = 0 ∨ 2 ^ h.maxPower < size.toNat) : Allocated h held size (h, .error .einval)
  | full (hpos : size ≠ 0) (hle : size.toNat ≤ 2 ^ h.maxPower)
      (hnone : ∀ n, 2 ^ levelFor h size.toNat ≤ n → n < 2 ^ (levelFor h size.toNat + 1) → ¬ BuddyTree.Free held n) :
      Allocated h held size (h, .error .enomem)
  | taken (n : ℕ) (blocks : ℕ → BitVec 32) (hpos : size ≠ 0) (hle : size.toNat ≤ 2 ^ h.maxPower)
      (hlow : 2 ^ levelFor h size.toNat ≤ n) (hhigh : n < 2 ^ (levelFor h size.toNat + 1)) (hfree : BuddyTree.Free held n)
      (hholds : Holds { h with blocks } (insert n held)) (hbehind : SameBehind h blocks) :
      Allocated h held size ({ h with blocks }, .ok (addressOf h n))

/-- **What an allocation does**: the block it hands out was free, and it fails just when no block of its level is. -/
theorem alloc_spec (hh : Holds h held) (size : BitVec 32) : Allocated h held size (safeBuddyAlloc h size) := by
  unfold safeBuddyAlloc
  by_cases hsize : size = 0 ∨ h.sizeOfHeap < size
  · rw [if_pos hsize]
    refine .invalid (hsize.imp_right fun hlt => ?_)
    rw [← hh.sized.size]
    exact BitVec.lt_def.1 hlt
  rw [if_neg hsize]
  simp only [not_or, BitVec.not_lt, BitVec.le_def, hh.sized.size] at hsize
  obtain ⟨hpos, hle⟩ := hsize
  have hlevel := levelFor_lt hh.sized size.toNat
  simp only [blocksLevelOf_eq hh.sized hpos hle, Int.toNat_natCast]
  rw [if_neg (by omega)]
  split
  · next blocks index ha =>
    obtain ⟨m, k, hcut⟩ := allocFrom_some hh le_rfl hlevel ha
    have hlog : Nat.log 2 (m * 2 ^ k) = levelFor h size.toNat :=
      Nat.log_eq_of_pow_le_of_lt_pow (by rw [← hcut.node]; exact Nat.le_add_right _ _) hcut.lt
    have hlt : m * 2 ^ k < top h := by simpa using below_top (j := 0) hcut.lt (by omega)
    have hmlt : m < top h := lt_of_le_of_lt (Nat.le_mul_of_pos_right m (by positivity)) hlt
    have hfree : BuddyTree.Free held (m * 2 ^ k) :=
      (BuddyTree.free_of_pair hh.shows hh.apart (top_even hh.sized) hcut.pos hmlt hcut.on hcut.buddyOff).under
        ⟨k, Nat.mul_div_cancel _ (by positivity)⟩
    have haddress : h.heapStart + BitVec.ofNat 32 (index <<< (h.maxPower - levelFor h size.toNat)) = addressOf h (m * 2 ^ k) := by
      rw [addressOf, hlog, ← hcut.node, Nat.add_sub_cancel_left]
    rw [haddress]
    refine .taken _ _ hpos hle (by rw [← hcut.node]; exact Nat.le_add_right _ _) hcut.lt hfree ?_ ?_
    · refine ⟨hh.sized.withBlocks blocks, ?_, BuddyTree.take_apart hh.apart (Nat.mul_pos hcut.pos (by positivity)) hlt hfree⟩
      have hshows := BuddyTree.take_shows hh.shows (top_even hh.sized) hcut.pos hlt hcut.buddyOff
      rw [← hcut.bits] at hshows
      exact hshows
    · apply sameBehind_of_bits hh.sized
      intro n hn
      rw [hcut.bits, BuddyTree.mark_of_lt (by omega)]
  · next ha =>
    exact .full hpos hle fun n hlow hhigh => not_free_of_noPair hh hlevel (allocFrom_none ha) hlow hhigh

/-- an address in the heap that `buddy_free` looks at -/
structure Valid (h : Buddy) (pointer : BitVec 32) : Prop where
  aligned : pointer.toNat % 8 = 0
  low : h.heapStart.toNat ≤ pointer.toNat
  high : pointer.toNat < h.heapStart.toNat + 2 ^ h.maxPower

/-- the leaf of the tree over an address -/
def leafOf (h : Buddy) (pointer : BitVec 32) : ℕ := 2 ^ (h.numberOfLevels - 1) + (pointer - h.heapStart).toNat >>> 4

theorem valid_iff (hh : Sized h) (pointer : BitVec 32) :
    Valid h pointer ↔ ¬ (pointer &&& 7 ≠ 0 ∨ pointer < h.heapStart ∨ h.heapStart + h.sizeOfHeap - 1#32 < pointer) := by
  have hmask : pointer &&& 7 = 0 ↔ pointer.toNat % 8 = 0 := by
    have hand : (pointer &&& 7).toNat = pointer.toNat % 8 := Nat.and_two_pow_sub_one_eq_mod pointer.toNat 3
    rw [← hand]
    exact ⟨fun h0 => by rw [h0]; rfl, fun h0 => BitVec.eq_of_toNat_eq h0⟩
  have hpow : 0 < 2 ^ h.maxPower := by positivity
  have hfits := hh.fits
  have hlast : (h.heapStart + h.sizeOfHeap - 1#32).toNat = h.heapStart.toNat + 2 ^ h.maxPower - 1 := by
    simp only [BitVec.toNat_sub, BitVec.toNat_add, BitVec.toNat_ofNat, hh.size]
    omega
  simp only [not_or, not_not, hmask, BitVec.lt_def, hlast]
  exact ⟨fun hv => ⟨hv.aligned, by have := hv.low; omega, by have := hv.high; omega⟩,
    fun hv => ⟨hv.1, by omega, by omega⟩⟩

theorem offset_eq {pointer : BitVec 32} (hv : Valid h pointer) :
    (pointer - h.heapStart).toNat = pointer.toNat - h.heapStart.toNat := by
  have hlow := hv.low
  have hlt := pointer.isLt
  rw [BitVec.toNat_sub]
  omega

theorem leaf_index_lt (hh : Sized h) {pointer : BitVec 32} (hv : Valid h pointer) :
    (pointer - h.heapStart).toNat >>> 4 < 2 ^ (h.numberOfLevels - 1) := by
  have hbig := hh.big
  have hsplit : 2 ^ h.maxPower = 2 ^ (h.numberOfLevels - 1) * 16 := by
    calc 2 ^ h.maxPower = 2 ^ (h.numberOfLevels - 1 + 4) := by congr 1; rw [hh.levels]; omega
      _ = 2 ^ (h.numberOfLevels - 1) * 16 := by rw [pow_add]; rfl
  have hlow := hv.low
  have hhigh := hv.high
  rw [offset_eq hv, Nat.shiftRight_eq_div_pow]
  omega

/-- what `buddy_free` can do -/
inductive Freed (h : Buddy) (held : Set ℕ) (pointer : BitVec 32) : Buddy × Except Errno Unit → Prop where
  | invalid (hnone : Valid h pointer → ∀ n ∈ held, ¬ BuddyTree.Covers n (leafOf h pointer)) :
      Freed h held pointer (h, .error .einval)
  | empty (hvalid : Valid h pointer) (hempty : held = ∅) (blocks : ℕ → BitVec 32) (hholds : Holds { h with blocks } ∅)
      (hbehind : SameBehind h blocks) : Freed h held pointer ({ h with blocks }, .ok ())
  | freed (n : ℕ) (blocks : ℕ → BitVec 32) (hvalid : Valid h pointer) (hn : n ∈ held)
      (hcov : BuddyTree.Covers n (leafOf h pointer)) (hholds : Holds { h with blocks } (held \ {n}))
      (hbehind : SameBehind h blocks) : Freed h held pointer ({ h with blocks }, .ok ())

/-- the words after the block of node `n` has been given back -/
def giveBack (h : Buddy) (n : ℕ) : ℕ → BitVec 32 :=
  let c := (contextOf n).2
  let blocks := Function.update h.blocks c.realIndex (h.blocks c.realIndex ||| c.highlightTargetBit)
  fusionOfBlocks blocks c.targetLevel (contextOf n).1 (blocks c.realIndex) c.highlightTargetBit c.highlightBuddyBit

theorem giveBack_bits (h : Buddy) {n : ℕ} (hpos : 0 < n) :
    bitAt (giveBack h n) = BuddyTree.fuse (Function.update (bitAt h.blocks) n true) n := by
  have hlow : 2 ^ Nat.log 2 n ≤ n := Nat.pow_log_le_self 2 hpos.ne'
  have hhigh : n < 2 ^ (Nat.log 2 n + 1) := Nat.lt_pow_succ_log_self (by norm_num) n
  have hindex : n - 2 ^ Nat.log 2 n < 2 ^ Nat.log 2 n := by rw [pow_succ] at hhigh; omega
  have hnode : 2 ^ Nat.log 2 n + (n - 2 ^ Nat.log 2 n) = n := Nat.add_sub_cancel' hlow
  unfold giveBack
  simp only [contextOf, searchContext]
  rw [fusion_fuse hindex, realIndex_eq hindex, highlightTargetBit_eq hindex, hnode, bitAt_on]

theorem giveBack_behind (hh : Sized h) {n : ℕ} (hpos : 0 < n) (hlt : n < top h) : SameBehind h (giveBack h n) := by
  apply sameBehind_of_bits hh
  intro m hm
  rw [giveBack_bits h hpos, BuddyTree.fuse_of_lt (by omega), Function.update_of_ne (by omega)]

/-- **What `buddy_free` does**: the block over the address is given back; without one the call fails, unless nothing is held. -/
theorem free_spec (hh : Holds h held) (pointer : BitVec 32) : Freed h held pointer (safeBuddyFree h pointer) := by
  unfold safeBuddyFree buddySearchForPointer
  by_cases hv : Valid h pointer
  · rw [if_neg ((valid_iff hh.sized pointer).1 hv), search_seek (leaf_index_lt hh.sized hv)]
    have hL := hh.sized.five_le
    have htop : top h = 2 * 2 ^ (h.numberOfLevels - 1) := by
      rw [top, ← pow_succ']
      congr 1
      omega
    have hi := leaf_index_lt hh.sized hv
    have hseek := BuddyTree.seek_spec (p := leafOf h pointer) hh.shows hh.apart (top_even hh.sized)
      (by unfold leafOf; omega) (by unfold leafOf; omega)
    generalize hres : BuddyTree.seek (bitAt h.blocks) (2 ^ (h.numberOfLevels - 1) + (pointer - h.heapStart).toNat >>> 4) = res
    rw [leafOf, hres] at hseek
    cases hseek with
    | block n hn hcov =>
      change Freed h held pointer ({ h with blocks := giveBack h n }, .ok ())
      have hpos := hh.apart.pos n hn
      refine .freed n _ hv hn hcov ⟨hh.sized.withBlocks _, ?_, hh.apart.mono Set.sdiff_subset⟩
        (giveBack_behind hh.sized hpos (hh.apart.lt n hn))
      have hshows := BuddyTree.fuse_shows hh.shows hh.apart (top_even hh.sized) hn
      rw [← giveBack_bits h hpos] at hshows
      exact hshows
    | empty hempty =>
      change Freed h held pointer ({ h with blocks := giveBack h 1 }, .ok ())
      have hone : 1 < top h := by
        have hpos : 0 < 2 ^ (h.numberOfLevels - 1) := by positivity
        omega
      -- the root is on already
      have hon : bitAt h.blocks 1 = true := (hh.shows.on_iff one_pos hone).2 (by simp [hempty])
      have hbits : bitAt (giveBack h 1) = bitAt h.blocks := by
        rw [giveBack_bits h one_pos, BuddyTree.fuse, if_pos le_rfl, ← hon, Function.update_eq_self]
      have hshows := hh.shows
      have hapart := hh.apart
      rw [← hbits, hempty] at hshows
      rw [hempty] at hapart
      exact .empty hv hempty _ ⟨hh.sized.withBlocks _, hshows, hapart⟩ (giveBack_behind hh.sized one_pos hone)
    | nothing hnone => exact .invalid fun _ => hnone
  · rw [if_pos (by_contra fun hc => hv ((valid_iff hh.sized pointer).2 hc))]
    exact .invalid fun hv' => absurd hv' hv

end Calls

end PimOfis.DpuRt.BuddyCalls
