/-
The buddy allocator of the DPU's runtime over whole runs.

A run is any sequence of `buddy_alloc`, `buddy_free` and `buddy_reset` by any of the tasklets, each call under the lock. Beside
the allocator's variables the state has the blocks that were handed out and not given back since, as ranges of bytes; the code
has no such list, and no step reads it. `Allowed` is what an allocator may answer.

Results, for a heap of a power of two of at least 256 bytes:
- `calls_allowed`: in every run the held blocks lie apart in the heap, and each call answers as an allocator must: a block that
  meets none of them, or no memory just when there is no such block; the heap's own words are never written;
- `heap_of_held`: the bit map is a function of the blocks held, so nothing is left of earlier ones, and an allocator with
  nothing held is as `buddy_init` left it;
- `given_back_iff`: the address of a held block gives it back, except in a heap of 256 bytes, where none does.

Premises: `mem_alloc` as in `alloc.c`, and a size of a power of two, as the source asks for.
-/
import Mathlib.Tactic
import PimOfis.Lib.Alloc
import PimOfis.DpuRt.BuddyCalls

namespace PimOfis.DpuRt.BuddyHeap

open Lib BuddyAlloc BuddyCalls

/-! ## Blocks in bytes -/

/-- `p` is a byte of the range -/
def Has (r : Range) (p : ℕ) : Prop := r.start ≤ p ∧ p < r.start + r.len

instance (r : Range) (p : ℕ) : Decidable (Has r p) := inferInstanceAs (Decidable (_ ∧ _))

def heapOf (h : Buddy) : Range := ⟨h.heapStart.toNat, h.sizeOfHeap.toNat⟩

/-- the bytes of the block of node `n` -/
def blockOf (h : Buddy) (n : ℕ) : Range :=
  ⟨h.heapStart.toNat + (n - 2 ^ Nat.log 2 n) * 2 ^ (h.maxPower - Nat.log 2 n), 2 ^ (h.maxPower - Nat.log 2 n)⟩

section Bytes

variable {h : Buddy} {held : Set ℕ} {n a b : ℕ}

theorem not_apart_of_has {r s : Range} {p : ℕ} (hr : Has r p) (hs : Has s p) : ¬ r.Apart s := by
  obtain ⟨hr1, hr2⟩ := hr
  obtain ⟨hs1, hs2⟩ := hs
  rintro (hle | hle)
  · omega
  · omega

theorem exists_has_of_not_apart {r s : Range} (hr : 0 < r.len) (hs : 0 < s.len) (h : ¬ r.Apart s) :
    ∃ p, Has r p ∧ Has s p := by
  simp only [Range.Apart, not_or, not_le] at h
  refine ⟨max r.start s.start, ⟨le_max_left _ _, ?_⟩, ⟨le_max_right _ _, ?_⟩⟩
  · exact max_lt (by omega) h.1
  · exact max_lt h.2 (by omega)

theorem log_lt (hpos : 0 < n) (hlt : n < top h) : Nat.log 2 n < h.numberOfLevels :=
  Nat.log_lt_of_lt_pow hpos.ne' hlt

/-- the bytes of a block are those that its node is above, the bytes taken as one more level of the tree -/
theorem covers_byte_iff {level max o : ℕ} (hlow : 2 ^ level ≤ n) (hhigh : n < 2 ^ (level + 1)) (hle : level ≤ max)
    (ho : o < 2 ^ max) :
    BuddyTree.Covers n (2 ^ max + o) ↔
      (n - 2 ^ level) * 2 ^ (max - level) ≤ o ∧ o < (n - 2 ^ level) * 2 ^ (max - level) + 2 ^ (max - level) := by
  have hw : 0 < 2 ^ (max - level) := by positivity
  have hup : (2 ^ max + o) / 2 ^ (max - level) = 2 ^ level + o / 2 ^ (max - level) := by
    have hsplit : 2 ^ max = 2 ^ level * 2 ^ (max - level) := by rw [← pow_add, Nat.add_sub_cancel' hle]
    rw [hsplit, Nat.mul_comm, Nat.mul_add_div hw]
  have hdiv : (n - 2 ^ level) * 2 ^ (max - level) ≤ o ∧ o < (n - 2 ^ level) * 2 ^ (max - level) + 2 ^ (max - level) ↔
      o / 2 ^ (max - level) = n - 2 ^ level := by
    rw [Nat.div_eq_iff hw]
    omega
  rw [hdiv]
  constructor
  · rintro ⟨k, hk⟩
    have hlogByte : Nat.log 2 (2 ^ max + o) = max := log_node ho
    have hlog : Nat.log 2 n = level := Nat.log_eq_of_pow_le_of_lt_pow hlow hhigh
    have hsub := Nat.log_div_base_pow 2 (2 ^ max + o) k
    have hkle : k ≤ max := by
      by_contra hc
      have hpow : 2 ^ (max + 1) ≤ 2 ^ k := Nat.pow_le_pow_right (by norm_num) (by omega)
      rw [pow_succ] at hpow
      rw [Nat.div_eq_of_lt (by omega)] at hk
      have hpos : 0 < 2 ^ level := by positivity
      omega
    rw [hk, hlog, hlogByte] at hsub
    have hkeq : k = max - level := by omega
    rw [hkeq, hup] at hk
    omega
  · intro ho'
    exact ⟨max - level, by rw [hup, ho', Nat.add_sub_cancel' hlow]⟩

theorem has_iff (hh : Sized h) (hpos : 0 < n) (hlt : n < top h) {o : ℕ} (ho : o < 2 ^ h.maxPower) :
    Has (blockOf h n) (h.heapStart.toNat + o) ↔ BuddyTree.Covers n (2 ^ h.maxPower + o) := by
  have hlog := log_lt hpos hlt
  have hlevels := hh.levels
  rw [covers_byte_iff (Nat.pow_log_le_self 2 hpos.ne') (Nat.lt_pow_succ_log_self (by norm_num) n) (by omega) ho]
  unfold Has blockOf
  simp only
  omega

/-- a block is as the address of a byte of it finds it -/
theorem has_leaf (hh : Sized h) (hpos : 0 < n) (hlt : n < top h) {pointer : BitVec 32} (hv : Valid h pointer) :
    BuddyTree.Covers n (leafOf h pointer) ↔ Has (blockOf h n) pointer.toNat := by
  have hlow := hv.low
  have hhigh := hv.high
  have hlevels := hh.levels
  have hbig := hh.big
  have hleaf : leafOf h pointer = (2 ^ h.maxPower + (pointer.toNat - h.heapStart.toNat)) / 2 ^ 4 := by
    have hsplit : 2 ^ h.maxPower = 2 ^ 4 * 2 ^ (h.numberOfLevels - 1) := by rw [← pow_add]; congr 1; omega
    rw [leafOf, offset_eq hv, Nat.shiftRight_eq_div_pow, hsplit, Nat.mul_add_div (by norm_num)]
  have hbyte := has_iff hh hpos hlt (o := pointer.toNat - h.heapStart.toNat) (by omega)
  rw [Nat.add_sub_cancel' hlow] at hbyte
  rw [hbyte, hleaf]
  constructor
  · intro hcov
    exact hcov.trans ⟨4, rfl⟩
  · rintro ⟨k, hk⟩
    -- the node lies no lower than the leaves
    have hlogByte : Nat.log 2 (2 ^ h.maxPower + (pointer.toNat - h.heapStart.toNat)) = h.maxPower := log_node (by omega)
    have hsub := Nat.log_div_base_pow 2 (2 ^ h.maxPower + (pointer.toNat - h.heapStart.toNat)) k
    have hlog := log_lt hpos hlt
    rw [hk, hlogByte] at hsub
    refine ⟨k - 4, ?_⟩
    rw [Nat.div_div_eq_div_mul, ← pow_add, Nat.add_sub_cancel' (by omega), hk]

theorem block_inside (hh : Sized h) (hpos : 0 < n) (hlt : n < top h) :
    (heapOf h).start ≤ (blockOf h n).start ∧
      (blockOf h n).start + (blockOf h n).len ≤ (heapOf h).start + (heapOf h).len := by
  have hlog := log_lt hpos hlt
  have hlevels := hh.levels
  have hhigh : n < 2 ^ (Nat.log 2 n + 1) := Nat.lt_pow_succ_log_self (by norm_num) n
  have hsplit : 2 ^ h.maxPower = 2 ^ Nat.log 2 n * 2 ^ (h.maxPower - Nat.log 2 n) := by
    rw [← pow_add, Nat.add_sub_cancel' (by omega)]
  have hmul : (n - 2 ^ Nat.log 2 n + 1) * 2 ^ (h.maxPower - Nat.log 2 n) ≤ 2 ^ Nat.log 2 n * 2 ^ (h.maxPower - Nat.log 2 n) := by
    apply Nat.mul_le_mul_right
    rw [pow_succ] at hhigh
    omega
  rw [Nat.add_mul, one_mul] at hmul
  unfold blockOf heapOf
  simp only [hh.size]
  omega

/-- **Blocks meet just when one of their nodes is above the other.** -/
theorem apart_iff (hh : Sized h) (ha : 0 < a) (hat : a < top h) (hb : 0 < b) (hbt : b < top h) :
    (blockOf h a).Apart (blockOf h b) ↔ ¬ BuddyTree.Covers a b ∧ ¬ BuddyTree.Covers b a := by
  have hlen : ∀ n, 0 < (blockOf h n).len := fun n => by unfold blockOf; positivity
  have hbyte : ∀ n, 0 < n → n < top h → ∀ p, Has (blockOf h n) p →
      ∃ o < 2 ^ h.maxPower, p = h.heapStart.toNat + o ∧ BuddyTree.Covers n (2 ^ h.maxPower + o) := by
    intro n hn hnt p hp
    obtain ⟨hlow, hhigh⟩ := block_inside hh hn hnt
    have hsize := hh.size
    unfold heapOf at hlow hhigh
    simp only at hlow hhigh
    have ho : p - h.heapStart.toNat < 2 ^ h.maxPower := by have := hp.1; have := hp.2; omega
    have hp' : h.heapStart.toNat + (p - h.heapStart.toNat) = p := by have := hp.1; omega
    exact ⟨p - h.heapStart.toNat, ho, hp'.symm, (has_iff hh hn hnt ho).1 (hp'.symm ▸ hp)⟩
  have hmeet : ∀ x y, 0 < x → x < top h → 0 < y → y < top h → BuddyTree.Covers x y → ¬ (blockOf h x).Apart (blockOf h y) := by
    intro x y hx hxt hy hyt hcov
    have hself : Has (blockOf h y) (blockOf h y).start := ⟨le_rfl, Nat.lt_add_of_pos_right (hlen y)⟩
    obtain ⟨o, ho, hstart, hyo⟩ := hbyte y hy hyt _ hself
    refine not_apart_of_has ?_ hself
    rw [hstart]
    exact (has_iff hh hx hxt ho).2 (hcov.trans hyo)
  constructor
  · intro hapart
    exact ⟨fun hcov => hmeet a b ha hat hb hbt hcov hapart, fun hcov => hmeet b a hb hbt ha hat hcov hapart.symm⟩
  · rintro ⟨hab, hba⟩
    by_contra hc
    obtain ⟨p, hpa, hpb⟩ := exists_has_of_not_apart (hlen a) (hlen b) hc
    obtain ⟨o, ho, hp, hao⟩ := hbyte a ha hat p hpa
    have hbo : BuddyTree.Covers b (2 ^ h.maxPower + o) := (has_iff hh hb hbt ho).1 (hp ▸ hpb)
    rcases hao.total hbo with hcov | hcov
    · exact hab hcov
    · exact hba hcov

end Bytes

/-! ## Runs -/

inductive Op where
  | alloc (size : BitVec 32)
  | free (pointer : BitVec 32)
  | reset

/-- what a call returns -/
inductive Result where
  | pointer (p : BitVec 32)
  | done
  | error (e : Errno)

/-- the allocator and the blocks handed out and not given back since -/
structure St where
  heap : Buddy
  held : List Range

/-- the bytes that a size gets -/
def blockSize (size : ℕ) : ℕ := max 16 (2 ^ Nat.clog 2 size)

/-- the books after an allocation -/
def afterAlloc (held : List Range) (size : BitVec 32) : Buddy × Except Errno (BitVec 32) → St × Result
  | (heap, .ok p) => (⟨heap, ⟨p.toNat, blockSize size.toNat⟩ :: held⟩, .pointer p)
  | (heap, .error e) => (⟨heap, held⟩, .error e)

/-- the books after a block has been given back -/
def afterFree (held : List Range) (pointer : BitVec 32) : Buddy × Except Errno Unit → St × Result
  | (heap, .ok ()) => (⟨heap, held.filter fun r => ¬ Has r pointer.toNat⟩, .done)
  | (heap, .error e) => (⟨heap, held⟩, .error e)

def step (s : St) : Op → St × Result
  | .alloc size => afterAlloc s.held size (safeBuddyAlloc s.heap size)
  | .free pointer => afterFree s.held pointer (safeBuddyFree s.heap pointer)
  | .reset => (⟨buddyReset s.heap, []⟩, .done)

def run (s : St) (ops : List Op) : St := ops.foldl (fun s op => (step s op).1) s

/-- the words show a tree whose blocks are those held -/
def Inv (s : St) : Prop :=
  ∃ nodes : List ℕ, nodes.Nodup ∧ s.held = nodes.map (blockOf s.heap) ∧ Holds s.heap { n | n ∈ nodes }

/-- the variables but for the words are those of `h` -/
structure SameHeap (h h' : Buddy) : Prop where
  heapStart : h'.heapStart = h.heapStart
  sizeOfHeap : h'.sizeOfHeap = h.sizeOfHeap
  maxPower : h'.maxPower = h.maxPower
  numberOfLevels : h'.numberOfLevels = h.numberOfLevels
  behind : SameBehind h h'.blocks

/-- a block for `size` that meets no held one: in the heap, and at a multiple of its length from the start of the heap -/
structure Fits (heap : Range) (held : List Range) (size : ℕ) (r : Range) : Prop where
  len : r.len = blockSize size
  low : heap.start ≤ r.start
  high : r.start + r.len ≤ heap.start + heap.len
  aligned : r.len ∣ r.start - heap.start
  apart : ∀ x ∈ held, r.Apart x

/-- the answers of an allocator of blocks: what a call returns and which blocks are held after it -/
inductive Allowed (heap : Range) (held : List Range) : Op → Result → List Range → Prop where
  | served (size p : BitVec 32) (hpos : 0 < size.toNat) (hle : size.toNat ≤ heap.len)
      (hfits : Fits heap held size.toNat ⟨p.toNat, blockSize size.toNat⟩) :
      Allowed heap held (.alloc size) (.pointer p) (⟨p.toNat, blockSize size.toNat⟩ :: held)
  | full (size : BitVec 32) (hpos : 0 < size.toNat) (hle : size.toNat ≤ heap.len) (hnone : ∀ r, ¬ Fits heap held size.toNat r) :
      Allowed heap held (.alloc size) (.error .enomem) held
  | badSize (size : BitVec 32) (hsize : size.toNat = 0 ∨ heap.len < size.toNat) :
      Allowed heap held (.alloc size) (.error .einval) held
  | given (pointer : BitVec 32) (r : Range) (haligned : pointer.toNat % 8 = 0) (hr : r ∈ held) (hhas : Has r pointer.toNat) :
      Allowed heap held (.free pointer) .done (held.filter fun r => ¬ Has r pointer.toNat)
  | nothing (pointer : BitVec 32) (haligned : pointer.toNat % 8 = 0) (hin : Has heap pointer.toNat) (hheld : held = []) :
      Allowed heap held (.free pointer) .done held
  | badPointer (pointer : BitVec 32) (hbad : pointer.toNat % 8 = 0 → ∀ r ∈ held, ¬ Has r pointer.toNat) :
      Allowed heap held (.free pointer) (.error .einval) held
  | reset : Allowed heap held .reset .done []

section Runs

variable {s : St} {h : Buddy} {nodes : List ℕ}

theorem SameHeap.refl (h : Buddy) : SameHeap h h := ⟨rfl, rfl, rfl, rfl, fun _ _ => rfl⟩

theorem SameHeap.trans {h h' h'' : Buddy} (h1 : SameHeap h h') (h2 : SameHeap h' h'') : SameHeap h h'' := by
  refine ⟨h2.1.trans h1.1, h2.2.trans h1.2, h2.3.trans h1.3, h2.4.trans h1.4, fun i hi => ?_⟩
  rw [h2.behind i (by rw [h1.numberOfLevels]; exact hi), h1.behind i hi]

theorem SameHeap.withBlocks {blocks : ℕ → BitVec 32} (hb : SameBehind h blocks) : SameHeap h { h with blocks } :=
  ⟨rfl, rfl, rfl, rfl, hb⟩

theorem SameHeap.heapOf {h h' : Buddy} (hs : SameHeap h h') : heapOf h' = heapOf h := by
  unfold BuddyHeap.heapOf
  rw [hs.heapStart, hs.sizeOfHeap]

theorem blockSize_eq (hh : Sized h) {size : ℕ} (hle : size ≤ 2 ^ h.maxPower) :
    blockSize size = 2 ^ (h.maxPower - levelFor h size) := by
  have hclog := Nat.clog_le_of_le_pow hle
  have hlevels := hh.levels
  have hbig := hh.big
  have hexp : h.maxPower - levelFor h size = max 4 (Nat.clog 2 size) := by
    unfold levelFor
    omega
  have hmono : Monotone fun k : ℕ => 2 ^ k := (pow_right_strictMono₀ (by norm_num : 1 < 2)).monotone
  calc blockSize size = max (2 ^ 4) (2 ^ Nat.clog 2 size) := rfl
    _ = 2 ^ max 4 (Nat.clog 2 size) := (hmono.map_max).symm
    _ = 2 ^ (h.maxPower - levelFor h size) := by rw [hexp]

/-- a node of a level as a block -/
theorem blockOf_level {level n : ℕ} (hlow : 2 ^ level ≤ n) (hhigh : n < 2 ^ (level + 1)) :
    blockOf h n = ⟨h.heapStart.toNat + (n - 2 ^ level) * 2 ^ (h.maxPower - level), 2 ^ (h.maxPower - level)⟩ := by
  rw [blockOf, Nat.log_eq_of_pow_le_of_lt_pow hlow hhigh]

/-- the fitting blocks are the free nodes of the level -/
theorem fits_of_free (hh : Sized h) (hin : ∀ x ∈ nodes, 0 < x ∧ x < top h) {size n : ℕ} (hle : size ≤ 2 ^ h.maxPower)
    (hlow : 2 ^ levelFor h size ≤ n) (hhigh : n < 2 ^ (levelFor h size + 1)) (hfree : BuddyTree.Free { x | x ∈ nodes } n) :
    Fits (heapOf h) (nodes.map (blockOf h)) size (blockOf h n) := by
  have hpos : 0 < n := lt_of_lt_of_le (by positivity) hlow
  have hlt : n < top h := by simpa using below_top (j := 0) hhigh (levelFor_lt hh size)
  obtain ⟨hstart, hend⟩ := block_inside hh hpos hlt
  refine ⟨?_, hstart, hend, ?_, ?_⟩
  · rw [blockOf_level hlow hhigh, blockSize_eq hh hle]
  · unfold blockOf heapOf
    simp only
    rw [Nat.add_sub_cancel_left]
    exact Nat.dvd_mul_left _ _
  · intro x hx
    obtain ⟨y, hy, rfl⟩ := List.mem_map.1 hx
    obtain ⟨hypos, hylt⟩ := hin y hy
    exact (apart_iff hh hpos hlt hypos hylt).2 (hfree y hy)

theorem not_fits (hh : Sized h) (hin : ∀ x ∈ nodes, 0 < x ∧ x < top h) {size : ℕ} (hle : size ≤ 2 ^ h.maxPower)
    (hnone : ∀ n, 2 ^ levelFor h size ≤ n → n < 2 ^ (levelFor h size + 1) → ¬ BuddyTree.Free { x | x ∈ nodes } n) (r : Range) :
    ¬ Fits (heapOf h) (nodes.map (blockOf h)) size r := by
  intro hfits
  have hlen := hfits.len
  have hlow := hfits.low
  have hhigh := hfits.high
  obtain ⟨j, hj⟩ := hfits.aligned
  have hlevel := levelFor_lt hh size
  have hlevels := hh.levels
  rw [blockSize_eq hh hle] at hlen
  have hw : 0 < 2 ^ (h.maxPower - levelFor h size) := by positivity
  have hsplit : 2 ^ h.maxPower = 2 ^ levelFor h size * 2 ^ (h.maxPower - levelFor h size) := by
    rw [← pow_add, Nat.add_sub_cancel' (by omega)]
  rw [hlen, Nat.mul_comm] at hj
  unfold heapOf at hlow hhigh hj
  simp only [hh.size, hlen] at hlow hhigh hj
  have hjlt : j < 2 ^ levelFor h size := by
    have hmul : (j + 1) * 2 ^ (h.maxPower - levelFor h size) ≤ 2 ^ levelFor h size * 2 ^ (h.maxPower - levelFor h size) := by
      rw [Nat.add_mul, one_mul]
      omega
    exact Nat.le_of_mul_le_mul_right hmul hw
  have hnlow : 2 ^ levelFor h size ≤ 2 ^ levelFor h size + j := Nat.le_add_right _ _
  have hnhigh : 2 ^ levelFor h size + j < 2 ^ (levelFor h size + 1) := by rw [pow_succ]; omega
  have hblock : blockOf h (2 ^ levelFor h size + j) = r := by
    rw [blockOf_level hnlow hnhigh, Nat.add_sub_cancel_left, ← hj, ← hlen, Nat.add_sub_cancel' hlow]
  have hpos : 0 < 2 ^ levelFor h size + j := by positivity
  have hlt : 2 ^ levelFor h size + j < top h := by simpa using below_top (j := 0) hnhigh (by omega)
  refine hnone _ hnlow hnhigh fun y hy => ?_
  obtain ⟨hypos, hylt⟩ := hin y hy
  rw [← apart_iff hh hpos hlt hypos hylt, hblock]
  exact hfits.apart _ (List.mem_map_of_mem hy)

/-! ## The bit map of an empty heap -/

theorem blocksInBuddyBlocks_eq (levels : ℕ) : blocksInBuddyBlocks levels = 4 * 2 ^ (levels - 5) := by
  unfold blocksInBuddyBlocks
  rw [Nat.shiftLeft_eq, Nat.shiftLeft_eq, one_mul, Nat.mul_comm]

theorem clearBlocks_behind (h : Buddy) : SameBehind h (clearBlocks h.blocks h.numberOfLevels) := by
  intro i hi
  have hpos : 0 < 2 ^ (h.numberOfLevels - 5) := by positivity
  unfold clearBlocks
  rw [blocksInBuddyBlocks_eq, if_neg (by omega), if_neg (by omega)]

theorem clearBlocks_bit (hh : Sized h) (blocks : ℕ → BitVec 32) {n : ℕ} (hlt : n < top h) :
    bitAt (clearBlocks blocks h.numberOfLevels) n = decide (n ≠ 0) := by
  have hones : ∀ p < 32, (0xffffffff : BitVec 32).getLsbD p = true := by decide
  have hfirst : ∀ n < 32, (0x7fffffff : BitVec 32).getLsbD (place n) = decide (n ≠ 0) := by decide
  have htop := top_eq hh
  unfold bitAt clearBlocks
  rw [blocksInBuddyBlocks_eq]
  rcases Nat.lt_or_ge n 32 with hsmall | hbig
  · rw [if_pos (by omega)]
    exact hfirst n hsmall
  · rw [if_neg (by omega), if_pos (by omega), hones _ (place_lt n)]
    exact (decide_eq_true (by omega)).symm

theorem holds_clear (hh : Sized h) (blocks : ℕ → BitVec 32) : Holds { h with blocks := clearBlocks blocks h.numberOfLevels } ∅ := by
  refine ⟨hh.withBlocks _, ?_, ⟨by simp, by simp, by simp⟩⟩
  apply BuddyTree.shows_empty
  · rw [clearBlocks_bit hh blocks (by unfold top; positivity)]
    rfl
  · intro n hpos hlt
    rw [clearBlocks_bit hh blocks hlt]
    exact decide_eq_true (by omega)

/-! ## Steps -/

/-- what a step is to show: the invariant, the memory behind the bit map, an answer of an allocator -/
structure StepOk (h : Buddy) (held : List Range) (op : Op) (out : St × Result) : Prop where
  inv : Inv out.1
  same : SameHeap h out.1.heap
  allowed : Allowed (heapOf h) held op out.2 out.1.held

theorem addressOf_toNat (hh : Sized h) {n : ℕ} (hpos : 0 < n) (hlt : n < top h) :
    (addressOf h n).toNat = (blockOf h n).start := by
  obtain ⟨-, hend⟩ := block_inside hh hpos hlt
  have hfits := hh.fits
  have hsize := hh.size
  have hlen : 0 < (blockOf h n).len := by unfold blockOf; positivity
  unfold heapOf at hend
  simp only [hsize] at hend
  have hstart : (blockOf h n).start = h.heapStart.toNat + (n - 2 ^ Nat.log 2 n) * 2 ^ (h.maxPower - Nat.log 2 n) := rfl
  rw [hstart] at hend ⊢
  unfold addressOf
  rw [Nat.shiftLeft_eq, BitVec.toNat_add, BitVec.toNat_ofNat, Nat.mod_eq_of_lt (a := _ * _) (by omega), Nat.mod_eq_of_lt (by omega)]

theorem alloc_ok (hnodup : nodes.Nodup) (hh : Holds h { n | n ∈ nodes }) (size : BitVec 32) :
    StepOk h (nodes.map (blockOf h)) (.alloc size) (afterAlloc (nodes.map (blockOf h)) size (safeBuddyAlloc h size)) := by
  have hin : ∀ x ∈ nodes, 0 < x ∧ x < top h := fun x hx => ⟨hh.apart.pos x hx, hh.apart.lt x hx⟩
  have hsize : (heapOf h).len = 2 ^ h.maxPower := hh.sized.size
  have hkeep : Inv ⟨h, nodes.map (blockOf h)⟩ := ⟨nodes, hnodup, rfl, hh⟩
  have hspec := alloc_spec hh size
  generalize safeBuddyAlloc h size = out at hspec
  cases hspec with
  | invalid hbad =>
    refine ⟨hkeep, SameHeap.refl h, .badSize size ?_⟩
    rw [hsize]
    exact hbad.imp_left fun h0 => by rw [h0]; rfl
  | full hpos hle hnone =>
    refine ⟨hkeep, SameHeap.refl h, .full size ?_ (by rw [hsize]; exact hle) (not_fits hh.sized hin hle hnone)⟩
    exact Nat.pos_of_ne_zero fun h0 => hpos (BitVec.eq_of_toNat_eq h0)
  | taken n blocks hpos hle hlow hhigh hfree hholds hbehind =>
    have hnpos : 0 < n := lt_of_lt_of_le (by positivity) hlow
    have hlt : n < top h := by simpa using below_top (j := 0) hhigh (levelFor_lt hh.sized size.toNat)
    have hfits := fits_of_free hh.sized hin hle hlow hhigh hfree
    have hblock : (⟨(addressOf h n).toNat, blockSize size.toNat⟩ : Range) = blockOf h n := by
      rw [addressOf_toNat hh.sized hnpos hlt, ← hfits.len]
    refine ⟨⟨n :: nodes, ?_, ?_, ?_⟩, SameHeap.withBlocks hbehind, .served size _ ?_ (by rw [hsize]; exact hle) ?_⟩
    · exact List.nodup_cons.2 ⟨fun hmem => (hfree n hmem).1 (BuddyTree.Covers.refl n), hnodup⟩
    · simp only [afterAlloc, hblock]
      rfl
    · have hset : { x | x ∈ n :: nodes } = insert n { x | x ∈ nodes } := by
        ext x
        simp
      rw [hset]
      exact hholds
    · exact Nat.pos_of_ne_zero fun h0 => hpos (BitVec.eq_of_toNat_eq h0)
    · rw [hblock]
      exact hfits

theorem free_ok (hnodup : nodes.Nodup) (hh : Holds h { n | n ∈ nodes }) (pointer : BitVec 32) :
    StepOk h (nodes.map (blockOf h)) (.free pointer) (afterFree (nodes.map (blockOf h)) pointer (safeBuddyFree h pointer)) := by
  have hin : ∀ x ∈ nodes, 0 < x ∧ x < top h := fun x hx => ⟨hh.apart.pos x hx, hh.apart.lt x hx⟩
  have hspec := free_spec hh pointer
  generalize safeBuddyFree h pointer = out at hspec
  cases hspec with
  | invalid hnone =>
    refine ⟨⟨nodes, hnodup, rfl, hh⟩, SameHeap.refl h, .badPointer pointer fun haligned r hr hhas => ?_⟩
    obtain ⟨n, hn, rfl⟩ := List.mem_map.1 hr
    obtain ⟨hpos, hlt⟩ := hin n hn
    obtain ⟨hlow, hhigh⟩ := block_inside hh.sized hpos hlt
    have hsize : (heapOf h).len = 2 ^ h.maxPower := hh.sized.size
    have hv : Valid h pointer := ⟨haligned, hlow.trans hhas.1, lt_of_lt_of_le hhas.2 (by rw [← hsize]; exact hhigh)⟩
    exact hnone hv n hn ((has_leaf hh.sized hpos hlt hv).2 hhas)
  | empty hvalid hempty blocks hholds hbehind =>
    have hnil : nodes = [] := List.eq_nil_iff_forall_not_mem.2 fun x hx => (Set.eq_empty_iff_forall_notMem.1 hempty) x hx
    subst hnil
    refine ⟨⟨[], List.nodup_nil, rfl, ?_⟩, SameHeap.withBlocks hbehind, .nothing pointer hvalid.aligned ?_ rfl⟩
    · simpa [afterFree] using hholds
    · refine ⟨hvalid.low, ?_⟩
      have hhigh := hvalid.high
      rwa [← hh.sized.size] at hhigh
  | freed n blocks hvalid hn hcov hholds hbehind =>
    obtain ⟨hpos, hlt⟩ := hin n hn
    have hhas := (has_leaf hh.sized hpos hlt hvalid).1 hcov
    -- no other held node is over the address
    have hothers : ∀ x ∈ nodes, Has (blockOf h x) pointer.toNat ↔ x = n := by
      intro x hx
      obtain ⟨hxpos, hxlt⟩ := hin x hx
      constructor
      · intro hhasx
        have hcovx := (has_leaf hh.sized hxpos hxlt hvalid).2 hhasx
        rcases hcovx.total hcov with hc | hc
        · exact hh.apart.apart x hx n hn hc
        · exact (hh.apart.apart n hn x hx hc).symm
      · rintro rfl
        exact hhas
    refine ⟨⟨nodes.filter (fun x => x ≠ n), hnodup.filter _, ?_, ?_⟩, SameHeap.withBlocks hbehind,
      .given pointer (blockOf h n) hvalid.aligned (List.mem_map_of_mem hn) hhas⟩
    · change (nodes.map (blockOf h)).filter _ = (nodes.filter _).map (blockOf h)
      rw [List.filter_map]
      congr 1
      apply List.filter_congr
      intro x hx
      simp [hothers x hx]
    · have hset : { x | x ∈ nodes.filter (fun x => x ≠ n) } = { x | x ∈ nodes } \ {n} := by
        ext x
        simp
      rw [hset]
      exact hholds

/-- **One call**: it keeps the invariant, leaves the memory behind the bit map alone and is an answer of an allocator. -/
theorem step_ok (hs : Inv s) (op : Op) : StepOk s.heap s.held op (step s op) := by
  obtain ⟨nodes, hnodup, hheld, hh⟩ := hs
  rw [hheld]
  cases op with
  | alloc size =>
    rw [step, hheld]
    exact alloc_ok hnodup hh size
  | free pointer =>
    rw [step, hheld]
    exact free_ok hnodup hh pointer
  | reset =>
    refine ⟨⟨[], List.nodup_nil, rfl, ?_⟩, SameHeap.withBlocks (clearBlocks_behind s.heap), .reset⟩
    have hclear := holds_clear hh.sized s.heap.blocks
    simpa [step, buddyReset] using hclear

theorem run_ok (hs : Inv s) (ops : List Op) : Inv (run s ops) ∧ SameHeap s.heap (run s ops).heap := by
  induction ops using List.reverseRecOn with
  | nil => exact ⟨hs, SameHeap.refl s.heap⟩
  | append_singleton ops op ih =>
    have hstep := step_ok ih.1 op
    rw [run, List.foldl_append]
    exact ⟨hstep.inv, ih.2.trans hstep.same⟩

theorem Inv.apart (hs : Inv s) : s.held.Pairwise Range.Apart := by
  obtain ⟨nodes, hnodup, hheld, hh⟩ := hs
  rw [hheld, List.pairwise_map]
  refine hnodup.imp_of_mem fun {a b} ha hb hne => ?_
  rw [apart_iff hh.sized (hh.apart.pos a ha) (hh.apart.lt a ha) (hh.apart.pos b hb) (hh.apart.lt b hb)]
  exact ⟨fun hc => hne (hh.apart.apart a ha b hb hc), fun hc => hne (hh.apart.apart b hb a ha hc).symm⟩

/-- what is held is the block of a node -/
theorem Inv.block (hs : Inv s) {r : Range} (hr : r ∈ s.held) :
    Sized s.heap ∧ ∃ n, 0 < n ∧ n < top s.heap ∧ blockOf s.heap n = r := by
  obtain ⟨nodes, hnodup, hheld, hh⟩ := hs
  rw [hheld] at hr
  obtain ⟨n, hn, rfl⟩ := List.mem_map.1 hr
  exact ⟨hh.sized, n, hh.apart.pos n hn, hh.apart.lt n hn, rfl⟩

theorem Inv.inside (hs : Inv s) {r : Range} (hr : r ∈ s.held) :
    (heapOf s.heap).start ≤ r.start ∧ r.start + r.len ≤ (heapOf s.heap).start + (heapOf s.heap).len := by
  obtain ⟨hsized, n, hpos, hlt, rfl⟩ := hs.block hr
  exact block_inside hsized hpos hlt

end Runs

/-! ## From `buddy_init` on -/

section Init

variable {memory : BitVec 32 → ℕ → BitVec 32} {heapPointer heapEnd size : BitVec 32} {h : Buddy} {m : ℕ}

/-- what `buddy_init` has done with a size of `2 ^ m` bytes: the bit map at `pointer`, the heap behind it -/
structure Fresh (h : Buddy) (m : ℕ) (pointer : BitVec 32) : Prop where
  aligned : pointer.toNat % 8 = 0
  maxPower : h.maxPower = m
  start : h.heapStart.toNat = pointer.toNat + 4 * 2 ^ (m - 8)
  holds : Holds h ∅

theorem memAlloc_some {heapPointer heapEnd size pointer next : BitVec 32} (hsize : size ≠ 0)
    (h : memAlloc heapPointer heapEnd size = some (pointer, next)) :
    pointer.toNat % 8 = 0 ∧ pointer.toNat + size.toNat < 2 ^ 32 := by
  unfold memAlloc at h
  rw [if_neg hsize] at h
  simp only at h
  split_ifs at h with hfit
  obtain ⟨rfl, -⟩ := Prod.mk.inj (Option.some.inj h)
  refine ⟨?_, hfit.1⟩
  have hlow : ((heapPointer + 7) &&& ~~~7#32) &&& 7#32 = 0#32 := by
    rw [BitVec.and_assoc]
    have hmask : ~~~7#32 &&& 7#32 = 0#32 := by decide
    rw [hmask, BitVec.and_zero]
  have hand : (((heapPointer + 7) &&& ~~~7#32) &&& 7#32).toNat = ((heapPointer + 7) &&& ~~~7#32).toNat % 8 :=
    Nat.and_two_pow_sub_one_eq_mod _ 3
  rw [← hand, hlow]
  rfl

theorem init_fresh (hinit : buddyInit memory heapPointer heapEnd size = some h) (hpow : size.toNat = 2 ^ m) (hm : 8 ≤ m) :
    ∃ pointer, Fresh h m pointer := by
  have hm32 : m < 32 := by
    have hlt := size.isLt
    rw [hpow] at hlt
    exact (Nat.pow_lt_pow_iff_right (by norm_num)).1 hlt
  have hne : size ≠ 0 := by
    rintro rfl
    have hpos : 0 < 2 ^ m := by positivity
    rw [← hpow] at hpos
    exact absurd hpos (by decide)
  have hmax : 31 - size.clz.toNat = m := by
    have hlow := BitVec.two_pow_sub_clz_le_toNat_of_ne_zero (x := size) (by norm_num) hne
    have hhigh := BitVec.toNat_lt_two_pow_sub_clz (x := size)
    rw [hpow] at hlow hhigh
    have hle : 31 - size.clz.toNat ≤ m := (Nat.pow_le_pow_iff_right (by norm_num)).1 hlow
    have hlt : m < 32 - size.clz.toNat := (Nat.pow_lt_pow_iff_right (by norm_num)).1 hhigh
    omega
  have hinBlocks : blocksInBuddyBlocks (m - 3) = 4 * 2 ^ (m - 8) := by
    rw [blocksInBuddyBlocks_eq]
    congr 2
  have hsplit : 2 ^ m = 256 * 2 ^ (m - 8) := by
    calc 2 ^ m = 2 ^ (8 + (m - 8)) := by rw [Nat.add_sub_cancel' hm]
      _ = 256 * 2 ^ (m - 8) := by rw [pow_add]; rfl
  have hsmall : 2 ^ (m - 8) ≤ 2 ^ 23 := Nat.pow_le_pow_right (by norm_num) (by omega)
  have hpos : 0 < 2 ^ (m - 8) := by positivity
  have hasked : (size + BitVec.ofNat 32 (4 * 2 ^ (m - 8))).toNat = 2 ^ m + 4 * 2 ^ (m - 8) := by
    rw [BitVec.toNat_add, BitVec.toNat_ofNat, hpow]
    omega
  unfold buddyInit at hinit
  simp only [hmax, hinBlocks] at hinit
  split at hinit
  · cases hinit
  · next pointer next halloc =>
    have hzero : size + BitVec.ofNat 32 (4 * 2 ^ (m - 8)) ≠ 0 := by
      intro h0
      rw [h0] at hasked
      have hzeroNat : (0 : BitVec 32).toNat = 0 := rfl
      omega
    obtain ⟨haligned, hfit⟩ := memAlloc_some hzero halloc
    rw [hasked] at hfit
    have hstart : (pointer + BitVec.ofNat 32 (4 * ((4 * 2 ^ (m - 8)) >>> 2))).toNat = pointer.toNat + 4 * 2 ^ (m - 8) := by
      rw [BitVec.toNat_add, BitVec.toNat_ofNat, Nat.shiftRight_eq_div_pow]
      omega
    obtain rfl := Option.some.inj hinit
    refine ⟨pointer, haligned, rfl, hstart, ?_⟩
    have hsized : Sized ⟨memory pointer, pointer + BitVec.ofNat 32 (4 * ((4 * 2 ^ (m - 8)) >>> 2)), size, m, m - 3⟩ :=
      ⟨hm, hm32, rfl, hpow, by simp only [hstart]; omega⟩
    exact holds_clear hsized (memory pointer)

theorem Fresh.inv {pointer : BitVec 32} (hf : Fresh h m pointer) : Inv ⟨h, []⟩ := by
  refine ⟨[], List.nodup_nil, rfl, ?_⟩
  simpa using hf.holds

/-- **Every call answers as an allocator must**, in every run: the blocks held lie in the heap and do not meet; a call hands
out a block for its size that meets none of them, at a multiple of its length, and has no memory just when there is none; the
memory behind the bit map, the heap itself, is left alone. -/
theorem calls_allowed (hinit : buddyInit memory heapPointer heapEnd size = some h) (hpow : size.toNat = 2 ^ m) (hm : 8 ≤ m)
    (ops : List Op) (op : Op) :
    let s := run ⟨h, []⟩ ops
    s.held.Pairwise Range.Apart ∧
      (∀ r ∈ s.held, (heapOf h).start ≤ r.start ∧ r.start + r.len ≤ (heapOf h).start + (heapOf h).len) ∧
      Allowed (heapOf h) s.held op (step s op).2 (step s op).1.held ∧ SameBehind h (step s op).1.heap.blocks := by
  obtain ⟨pointer, hf⟩ := init_fresh hinit hpow hm
  obtain ⟨hinv, hsame⟩ := run_ok hf.inv ops
  have hstep := step_ok hinv op
  have hall := hstep.allowed
  have hheap := hsame.heapOf
  refine ⟨hinv.apart, fun r hr => ?_, ?_, (hsame.trans hstep.same).behind⟩
  · rw [← hheap]
    exact hinv.inside hr
  · rw [hheap] at hall
    exact hall

theorem calls_allowed_twoKiB : ∃ h, buddyInit (fun _ _ => 0) 4099 65536 2048 = some h ∧
    let s := run ⟨h, []⟩ [.alloc 100, .alloc 16, .free 4160, .reset, .alloc 2048]
    s.held.Pairwise Range.Apart ∧
      (∀ r ∈ s.held, (heapOf h).start ≤ r.start ∧ r.start + r.len ≤ (heapOf h).start + (heapOf h).len) ∧
      Allowed (heapOf h) s.held (.alloc 1) (step s (.alloc 1)).2 (step s (.alloc 1)).1.held ∧
      SameBehind h (step s (.alloc 1)).1.heap.blocks := by
  have hsome : (buddyInit (fun _ _ => 0) 4099 65536 2048).isSome = true := by decide
  obtain ⟨h, hinit⟩ := Option.isSome_iff_exists.1 hsome
  have hpow : (2048 : BitVec 32).toNat = 2 ^ 11 := rfl
  exact ⟨h, hinit, calls_allowed hinit hpow (by norm_num) _ _⟩

/-! ## The bit map is determined by what is held -/

theorem blockOf_inj (hh : Sized h) {a b : ℕ} (ha : 0 < a) (hat : a < top h) (hb : 0 < b) (hbt : b < top h)
    (heq : blockOf h a = blockOf h b) : a = b := by
  have hlen : (blockOf h a).len = (blockOf h b).len := by rw [heq]
  have hstart : (blockOf h a).start = (blockOf h b).start := by rw [heq]
  have hlevels := hh.levels
  have hloga := log_lt ha hat
  have hlogb := log_lt hb hbt
  have hpowa := Nat.pow_log_le_self 2 ha.ne'
  have hpowb := Nat.pow_log_le_self 2 hb.ne'
  unfold blockOf at hlen hstart
  simp only at hlen hstart
  have hexp := Nat.pow_right_injective (le_refl 2) hlen
  have hlog : Nat.log 2 a = Nat.log 2 b := by omega
  rw [hlog] at hstart hpowa
  have hmul := Nat.eq_of_mul_eq_mul_right (by positivity) (Nat.add_left_cancel hstart)
  omega

theorem word_zero_ext {blocks blocks' : ℕ → BitVec 32} (hsame : ∀ n < 32, bitAt blocks n = bitAt blocks' n) :
    blocks 0 = blocks' 0 := by
  apply BitVec.eq_of_getLsbD_eq
  intro p hp
  have hall : ∀ p < 32, ∃ n < 32, place n = p := by decide
  obtain ⟨n, hn, hplace⟩ := hall p hp
  have hbit := hsame n hn
  rwa [bitAt, bitAt, Nat.div_eq_of_lt hn, hplace] at hbit

/-- two states of one heap in which the same nodes are held -/
theorem heap_eq_of_holds {h h1 h2 : Buddy} {held : Set ℕ} (h1same : SameHeap h h1) (h2same : SameHeap h h2) (h1holds : Holds h1 held)
    (h2holds : Holds h2 held) : h1 = h2 := by
  have htop : top h2 = top h1 := by unfold top; rw [h1same.numberOfLevels, h2same.numberOfLevels]
  have hshows := h2holds.shows
  rw [htop] at hshows
  have hbits : ∀ n < top h1, bitAt h1.blocks n = bitAt h2.blocks n := fun n hn => h1holds.shows.unique hshows hn
  have htopEq := top_eq h1holds.sized
  have hblocks : h1.blocks = h2.blocks := by
    funext i
    rcases Nat.lt_or_ge i (2 ^ (h1.numberOfLevels - 5)) with hlt | hge
    · rcases Nat.eq_zero_or_pos i with rfl | hpos
      · exact word_zero_ext fun n hn => hbits n (by omega)
      · exact word_ext hpos fun n _ hn => hbits n (by omega)
    · rw [h1same.numberOfLevels] at hge
      rw [h1same.behind i hge, h2same.behind i hge]
  obtain ⟨blocks1, start1, size1, power1, levels1⟩ := h1
  obtain ⟨blocks2, start2, size2, power2, levels2⟩ := h2
  obtain ⟨hs1, hs2, hs3, hs4, -⟩ := h1same
  obtain ⟨ht1, ht2, ht3, ht4, -⟩ := h2same
  subst hs1 hs2 hs3 hs4 ht1 ht2 ht3 ht4 hblocks
  rfl

/-- over one heap, a list of blocks is part of another only if the nodes are -/
theorem node_of_block {h h' : Buddy} {nodes nodes' : List ℕ} (hh : Holds h { n | n ∈ nodes }) (hh' : Holds h' { n | n ∈ nodes' })
    (hblock : ∀ n, blockOf h n = blockOf h' n) (htop : top h' = top h)
    (hsub : ∀ r, r ∈ nodes.map (blockOf h) → r ∈ nodes'.map (blockOf h')) {n : ℕ} (hn : n ∈ nodes) : n ∈ nodes' := by
  obtain ⟨x, hx, hxn⟩ := List.mem_map.1 (hsub _ (List.mem_map_of_mem hn))
  rw [← hblock x] at hxn
  have hxlt := hh'.apart.lt x hx
  rw [htop] at hxlt
  have heq := blockOf_inj hh.sized (hh'.apart.pos x hx) hxlt (hh.apart.pos n hn) (hh.apart.lt n hn) hxn
  rwa [← heq]

/-- **The state is a function of the blocks held**: two runs after which the same blocks are held have left the same memory,
whatever they did before; so when all is given back, the state is that of `buddy_init`. -/
theorem heap_of_held (hinit : buddyInit memory heapPointer heapEnd size = some h) (hpow : size.toNat = 2 ^ m) (hm : 8 ≤ m)
    (ops ops' : List Op) (hheld : ∀ r, r ∈ (run ⟨h, []⟩ ops).held ↔ r ∈ (run ⟨h, []⟩ ops').held) :
    (run ⟨h, []⟩ ops).heap = (run ⟨h, []⟩ ops').heap := by
  obtain ⟨pointer, hf⟩ := init_fresh hinit hpow hm
  obtain ⟨⟨nodes, -, hnodes, hh⟩, hsame⟩ := run_ok hf.inv ops
  obtain ⟨⟨nodes', -, hnodes', hh'⟩, hsame'⟩ := run_ok hf.inv ops'
  have hblock : ∀ n, blockOf (run ⟨h, []⟩ ops).heap n = blockOf (run ⟨h, []⟩ ops').heap n := by
    intro n
    unfold blockOf
    rw [hsame.heapStart, hsame'.heapStart, hsame.maxPower, hsame'.maxPower]
  have htop : top (run ⟨h, []⟩ ops').heap = top (run ⟨h, []⟩ ops).heap := by
    unfold top
    rw [hsame.numberOfLevels, hsame'.numberOfLevels]
  simp only [hnodes, hnodes'] at hheld
  have hmem : ∀ n, n ∈ nodes ↔ n ∈ nodes' := fun n =>
    ⟨node_of_block hh hh' hblock htop fun r => (hheld r).1,
      node_of_block hh' hh (fun x => (hblock x).symm) htop.symm fun r => (hheld r).2⟩
  have hset : { n | n ∈ nodes' } = { n | n ∈ nodes } := Set.ext fun n => (hmem n).symm
  rw [hset] at hh'
  exact heap_eq_of_holds hsame hsame' hh hh'

theorem heap_of_held_twoKiB : ∃ h, buddyInit (fun _ _ => 0) 4099 65536 2048 = some h ∧
    (run ⟨h, []⟩ [.alloc 100, .alloc 16, .reset]).heap = (run ⟨h, []⟩ []).heap := by
  have hsome : (buddyInit (fun _ _ => 0) 4099 65536 2048).isSome = true := by decide
  obtain ⟨h, hinit⟩ := Option.isSome_iff_exists.1 hsome
  have hpow : (2048 : BitVec 32).toNat = 2 ^ 11 := rfl
  exact ⟨h, hinit, heap_of_held hinit hpow (by norm_num) _ _ fun r => Iff.rfl⟩

/-! ## Giving back what was handed out -/

theorem start_mod (hh : Sized h) {n : ℕ} (hpos : 0 < n) (hlt : n < top h) :
    (blockOf h n).start % 8 = h.heapStart.toNat % 8 := by
  have hlog := log_lt hpos hlt
  have hlevels := hh.levels
  have hwide : 2 ^ (h.maxPower - Nat.log 2 n) = 2 ^ (h.maxPower - Nat.log 2 n - 3) * 8 := by
    calc 2 ^ (h.maxPower - Nat.log 2 n) = 2 ^ (h.maxPower - Nat.log 2 n - 3 + 3) := by congr 1; omega
      _ = 2 ^ (h.maxPower - Nat.log 2 n - 3) * 8 := by rw [pow_add]; rfl
  unfold blockOf
  simp only
  rw [hwide, ← Nat.mul_assoc, Nat.add_mul_mod_self_right]

/-- **A block can be given back by its address just when the heap has at least 512 bytes.** With 256 the bit map is a single
word, the heap begins in the middle of 8 bytes, and every address handed out is refused as not aligned. -/
theorem given_back_iff (hinit : buddyInit memory heapPointer heapEnd size = some h) (hpow : size.toNat = 2 ^ m) (hm : 8 ≤ m)
    (ops : List Op) (r : Range) (hr : r ∈ (run ⟨h, []⟩ ops).held) :
    (step (run ⟨h, []⟩ ops) (.free (BitVec.ofNat 32 r.start))).2 = .done ↔ 9 ≤ m := by
  obtain ⟨pointer, hf⟩ := init_fresh hinit hpow hm
  obtain ⟨hinv, hsame⟩ := run_ok hf.inv ops
  have hstep := (step_ok hinv (.free (BitVec.ofNat 32 r.start))).allowed
  have hinside := hinv.inside hr
  obtain ⟨hsized, n, hpos, hlt, hblock⟩ := hinv.block hr
  have hlen : 0 < r.len := by
    rw [← hblock]
    unfold blockOf
    positivity
  have hfits := hf.holds.sized.fits
  have hmod : r.start % 8 = 4 * 2 ^ (m - 8) % 8 := by
    rw [← hblock, start_mod hsized hpos hlt, hsame.heapStart, hf.start, Nat.add_mod, hf.aligned, Nat.zero_add, Nat.mod_mod]
  have haddress : (BitVec.ofNat 32 r.start).toNat = r.start := by
    rw [hsame.heapOf] at hinside
    unfold heapOf at hinside
    rw [hf.holds.sized.size] at hinside
    simp only at hinside
    rw [BitVec.toNat_ofNat]
    exact Nat.mod_eq_of_lt (by omega)
  have hhas : Has r (BitVec.ofNat 32 r.start).toNat := by
    rw [haddress]
    exact ⟨le_rfl, Nat.lt_add_of_pos_right hlen⟩
  have height : 9 ≤ m ↔ (BitVec.ofNat 32 r.start).toNat % 8 = 0 := by
    rw [haddress, hmod]
    rcases Nat.eq_or_lt_of_le hm with rfl | hlt
    · simp
    · have hsplit : 4 * 2 ^ (m - 8) = 8 * 2 ^ (m - 9) := by
        calc 4 * 2 ^ (m - 8) = 4 * 2 ^ (m - 9 + 1) := by congr 2; omega
          _ = 8 * 2 ^ (m - 9) := by rw [pow_succ]; ring
      rw [hsplit, Nat.mul_mod_right]
      exact ⟨fun _ => rfl, fun _ => hlt⟩
  rw [height]
  generalize step (run ⟨h, []⟩ ops) (.free (BitVec.ofNat 32 r.start)) = out at hstep
  obtain ⟨⟨heap, held⟩, result⟩ := out
  simp only at hstep ⊢
  cases hstep with
  | given _ _ haligned => exact ⟨fun _ => haligned, fun _ => rfl⟩
  | nothing _ haligned => exact ⟨fun _ => haligned, fun _ => rfl⟩
  | badPointer _ hbad =>
    refine ⟨fun hdone => ?_, fun haligned => absurd hhas (hbad haligned r hr)⟩
    cases hdone

theorem given_back_iff_twoKiB : ∃ h, buddyInit (fun _ _ => 0) 4099 65536 2048 = some h ∧
    ⟨4136, 128⟩ ∈ (run ⟨h, []⟩ [.alloc 100]).held ∧
      ((step (run ⟨h, []⟩ [.alloc 100]) (.free (BitVec.ofNat 32 (Range.mk 4136 128).start))).2 = .done ↔ 9 ≤ 11) := by
  have hsome : (buddyInit (fun _ _ => 0) 4099 65536 2048).isSome = true := by decide
  have hall : ((buddyInit (fun _ _ => 0) 4099 65536 2048).map fun h =>
      decide (⟨4136, 128⟩ ∈ (run ⟨h, []⟩ [.alloc 100]).held)) = some true := by decide +kernel
  obtain ⟨h, hinit⟩ := Option.isSome_iff_exists.1 hsome
  have hheld : ⟨4136, 128⟩ ∈ (run ⟨h, []⟩ [.alloc 100]).held := by
    rw [hinit] at hall
    simpa using hall
  have hpow : (2048 : BitVec 32).toNat = 2 ^ 11 := rfl
  exact ⟨h, hinit, hheld, given_back_iff hinit hpow (by norm_num) [.alloc 100] _ hheld⟩

end Init

end PimOfis.DpuRt.BuddyHeap
