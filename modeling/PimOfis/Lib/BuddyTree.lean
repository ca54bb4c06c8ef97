/-
Buddies: a binary tree of blocks, one bit a node, and the walks of a buddy allocator over the bits.

The nodes are numbered from the root: 1 is the root, the halves of `n` are `2 * n` and `2 * n + 1`, so that `n / 2` is the
node above `n`; 0 stands above the root. A set of nodes, the held ones, no one of them under another, is written down as
bits: the bit of a node is off when a held node is at it or under it (`Shows`).

Results:
- `free_of_pair`: a node that is on beside one that is off is free: no held node is above, at or under it;
- `exists_pair`: above every free node there is such a pair, so a search for one finds every free block;
- `take_shows`: turning off the nodes on the way down from a free node of a pair adds just the last of them;
- `seek_spec`: the walk up from a leaf ends at the held node over it, if there is one;
- `fuse_shows`: turning a held node on and then going up, as long as both buddies are on, takes away just that node.
-/
import Mathlib.Tactic

namespace PimOfis.Lib.BuddyTree

/-- `b` is `a` or lies under it -/
def Covers (a b : ℕ) : Prop := ∃ k, b / 2 ^ k = a

/-- the other half of the node above -/
def buddy (n : ℕ) : ℕ := if n % 2 = 0 then n + 1 else n - 1

/-- no held node is above, at or under `n` -/
def Free (held : Set ℕ) (n : ℕ) : Prop := ∀ b ∈ held, ¬ Covers n b ∧ ¬ Covers b n

/-- the held nodes: below `top`, none of them 0, none under another -/
structure Apart (top : ℕ) (held : Set ℕ) : Prop where
  pos : ∀ b ∈ held, 0 < b
  lt : ∀ b ∈ held, b < top
  apart : ∀ a ∈ held, ∀ b ∈ held, Covers a b → a = b

/-- the bits write down the held nodes; the bit of 0 is off -/
structure Shows (top : ℕ) (bit : ℕ → Bool) (held : Set ℕ) : Prop where
  zero : bit 0 = false
  off_iff : ∀ n, 0 < n → n < top → (bit n = false ↔ ∃ b ∈ held, Covers n b)

/-! ## Above and under -/

section Covers

variable {a b c n : ℕ}

theorem Covers.refl (a : ℕ) : Covers a a := ⟨0, by simp⟩

theorem Covers.trans (hab : Covers a b) (hbc : Covers b c) : Covers a c := by
  obtain ⟨j, rfl⟩ := hab
  obtain ⟨k, rfl⟩ := hbc
  exact ⟨k + j, by rw [Nat.div_div_eq_div_mul, pow_add]⟩

theorem Covers.le (h : Covers a b) : a ≤ b := by
  obtain ⟨k, rfl⟩ := h
  exact Nat.div_le_self b _

theorem covers_half (n : ℕ) : Covers (n / 2) n := ⟨1, by simp⟩

/-- what is above `b` is `b` or above the half of it -/
theorem Covers.eq_or_half (h : Covers a b) : a = b ∨ Covers a (b / 2) := by
  obtain ⟨k, rfl⟩ := h
  cases k with
  | zero => left; simp
  | succ k => right; exact ⟨k, by rw [Nat.div_div_eq_div_mul, pow_succ']⟩

/-- of two nodes above the same node one is above the other -/
theorem Covers.total (ha : Covers a c) (hb : Covers b c) : Covers a b ∨ Covers b a := by
  obtain ⟨j, rfl⟩ := ha
  obtain ⟨k, rfl⟩ := hb
  rcases Nat.le_total j k with hjk | hkj
  · right
    refine ⟨k - j, ?_⟩
    rw [Nat.div_div_eq_div_mul, ← pow_add, Nat.add_sub_cancel' hjk]
  · left
    refine ⟨j - k, ?_⟩
    rw [Nat.div_div_eq_div_mul, ← pow_add, Nat.add_sub_cancel' hkj]

/-- what is under a node is the node or under one of its halves -/
theorem Covers.eq_or_child (h : Covers a b) : b = a ∨ Covers (2 * a) b ∨ Covers (2 * a + 1) b := by
  obtain ⟨k, rfl⟩ := h
  cases k with
  | zero => left; simp
  | succ k =>
    right
    have hhalf : b / 2 ^ (k + 1) = b / 2 ^ k / 2 := by rw [Nat.div_div_eq_div_mul, pow_succ]
    rcases Nat.mod_two_eq_zero_or_one (b / 2 ^ k) with hmod | hmod
    · left; exact ⟨k, by omega⟩
    · right; exact ⟨k, by omega⟩

theorem not_covers_half (hn : 0 < n) : ¬ Covers n (n / 2) := by
  intro h
  have := h.le
  omega

theorem buddy_half (hn : 0 < n) : buddy n / 2 = n / 2 := by unfold buddy; split_ifs <;> omega

theorem buddy_one : buddy 1 = 0 := rfl

theorem buddy_pos (hn : 1 < n) : 0 < buddy n := by unfold buddy; split_ifs <;> omega

theorem buddy_lt {top : ℕ} (heven : top % 2 = 0) (hn : n < top) : buddy n < top := by
  unfold buddy
  split_ifs
  · omega
  · omega

theorem half_lt_buddy (hn : 1 < n) : n / 2 < buddy n := by unfold buddy; split_ifs <;> omega

theorem covers_half_buddy (hn : 0 < n) : Covers (n / 2) (buddy n) := buddy_half hn ▸ covers_half (buddy n)

/-- under a node are the node and what is under `n` or the buddy of `n`, the halves of it -/
theorem Covers.eq_or_pair (hn : 0 < n) (h : Covers (n / 2) b) : b = n / 2 ∨ Covers n b ∨ Covers (buddy n) b := by
  rcases h.eq_or_child with hself | hleft | hright
  · exact Or.inl hself
  · rcases Nat.mod_two_eq_zero_or_one n with hmod | hmod
    · right; left
      rwa [Nat.mul_div_cancel' (Nat.dvd_of_mod_eq_zero hmod)] at hleft
    · right; right
      have hbuddy : buddy n = 2 * (n / 2) := by unfold buddy; split_ifs <;> omega
      rwa [hbuddy]
  · rcases Nat.mod_two_eq_zero_or_one n with hmod | hmod
    · right; right
      have hbuddy : buddy n = 2 * (n / 2) + 1 := by unfold buddy; split_ifs; omega
      rwa [hbuddy]
    · right; left
      have hself : 2 * (n / 2) + 1 = n := by omega
      rwa [hself] at hright

theorem Free.under {held : Set ℕ} (hfree : Free held a) (hab : Covers a b) : Free held b := by
  intro x hx
  refine ⟨fun hbx => (hfree x hx).1 (hab.trans hbx), fun hxb => ?_⟩
  rcases hab.total hxb with hax | hxa
  · exact (hfree x hx).1 hax
  · exact (hfree x hx).2 hxa

end Covers

/-! ## A free block -/

section Search

variable {top n : ℕ} {bit : ℕ → Bool} {held : Set ℕ}

theorem Shows.on_iff (hs : Shows top bit held) (hpos : 0 < n) (hlt : n < top) :
    bit n = true ↔ ∀ b ∈ held, ¬ Covers n b := by
  have hoff := hs.off_iff n hpos hlt
  cases hbit : bit n
  · simp only [hbit, true_iff] at hoff
    simp only [Bool.false_eq_true, false_iff, not_forall, not_not]
    obtain ⟨b, hb, hcov⟩ := hoff
    exact ⟨b, hb, hcov⟩
  · simp only [hbit, Bool.true_eq_false, false_iff, not_exists, not_and] at hoff
    simpa using hoff

/-- the bits are determined by the held nodes -/
theorem Shows.unique {bit' : ℕ → Bool} (hs : Shows top bit held) (hs' : Shows top bit' held) (hlt : n < top) :
    bit n = bit' n := by
  rcases Nat.eq_zero_or_pos n with rfl | hpos
  · rw [hs.zero, hs'.zero]
  · have hoff := (hs.off_iff n hpos hlt).trans (hs'.off_iff n hpos hlt).symm
    cases hbit : bit n with
    | false => exact (hoff.1 hbit).symm
    | true =>
      cases hbit' : bit' n with
      | false => rw [hoff.2 hbit'] at hbit; cases hbit
      | true => rfl

/-- **A node that is on beside a buddy that is off is free.** -/
theorem free_of_pair (hs : Shows top bit held) (ha : Apart top held) (heven : top % 2 = 0) (hpos : 0 < n) (hlt : n < top)
    (hon : bit n = true) (hoff : bit (buddy n) = false) : Free held n := by
  intro b hb
  have hnot := (hs.on_iff hpos hlt).1 hon b hb
  refine ⟨hnot, fun hbn => ?_⟩
  rcases hbn.eq_or_half with rfl | hhalf
  · exact hnot (Covers.refl b)
  rcases Nat.lt_or_ge 1 n with h1 | h1
  · -- the buddy is off: a held node is under it, and `b` is above both
    obtain ⟨c, hc, hbc⟩ := (hs.off_iff _ (buddy_pos h1) (buddy_lt heven hlt)).1 hoff
    have hsame := ha.apart b hb c hc (hhalf.trans ((covers_half_buddy hpos).trans hbc))
    have hle := hbc.le
    have hhalfLe := hhalf.le
    have hlow := half_lt_buddy h1
    omega
  · have hle := hhalf.le
    have hbpos := ha.pos b hb
    omega

/-- **Above a free node there is a pair**: a node that is on, with a buddy that is off. -/
theorem exists_pair (hs : Shows top bit held) (heven : top % 2 = 0) (hpos : 0 < n) (hlt : n < top) (hfree : Free held n) :
    ∃ k, 0 < n / 2 ^ k ∧ bit (n / 2 ^ k) = true ∧ bit (buddy (n / 2 ^ k)) = false := by
  induction n using Nat.strong_induction_on with
  | _ n ih =>
    have hon : bit n = true := (hs.on_iff hpos hlt).2 fun b hb => (hfree b hb).1
    cases hbuddy : bit (buddy n) with
    | false => exact ⟨0, by simpa using hpos, by simpa using hon, by simpa using hbuddy⟩
    | true =>
      have h1 : 1 < n := by
        rcases Nat.lt_or_ge 1 n with h1 | h1
        · exact h1
        · have : n = 1 := by omega
          rw [this, buddy_one, hs.zero] at hbuddy
          cases hbuddy
      have hbuddyOn := (hs.on_iff (buddy_pos h1) (buddy_lt heven hlt)).1 hbuddy
      have hup : Free held (n / 2) := by
        intro b hb
        refine ⟨fun hcov => ?_, fun hcov => (hfree b hb).2 (hcov.trans (covers_half n))⟩
        rcases hcov.eq_or_pair hpos with rfl | hnb | hbb
        · exact (hfree _ hb).2 (covers_half n)
        · exact (hfree b hb).1 hnb
        · exact hbuddyOn b hb hbb
      obtain ⟨k, hk⟩ := ih (n / 2) (by omega) (by omega) (by omega) hup
      refine ⟨k + 1, ?_⟩
      rwa [pow_succ', ← Nat.div_div_eq_div_mul]

end Search

/-! ## Taking a block -/

section Take

variable {top m k : ℕ} {bit : ℕ → Bool} {held : Set ℕ}

/-- the nodes on the way down from `m` to its first descendant `k` levels below are turned off -/
def mark (bit : ℕ → Bool) (m : ℕ) : ℕ → ℕ → Bool
  | 0 => Function.update bit m false
  | k + 1 => mark (Function.update bit m false) (2 * m) k

theorem mark_apply (bit : ℕ → Bool) (m k n : ℕ) : mark bit m k n = false ↔ bit n = false ∨ ∃ j ≤ k, n = m * 2 ^ j := by
  induction k generalizing bit m with
  | zero =>
    rw [mark, Function.update_apply]
    split_ifs with h
    · simp [h]
    · simp [h]
  | succ k ih =>
    rw [mark, ih, Function.update_apply]
    constructor
    · rintro (h | ⟨j, hj, rfl⟩)
      · split_ifs at h with hnm
        · exact Or.inr ⟨0, by omega, by simp [hnm]⟩
        · exact Or.inl h
      · exact Or.inr ⟨j + 1, by omega, by ring⟩
    · rintro (h | ⟨j, hj, rfl⟩)
      · left
        split_ifs
        · rfl
        · exact h
      · cases j with
        | zero => left; simp
        | succ j => right; exact ⟨j, by omega, by ring⟩

/-- what lies past the last node of the way is as it was -/
theorem mark_of_lt {n : ℕ} (hlt : m * 2 ^ k < n) : mark bit m k n = bit n := by
  have hway : ¬ ∃ j ≤ k, n = m * 2 ^ j := by
    rintro ⟨j, hj, rfl⟩
    have hle : m * 2 ^ j ≤ m * 2 ^ k := Nat.mul_le_mul_left m (Nat.pow_le_pow_right (by norm_num) hj)
    omega
  have happly := mark_apply bit m k n
  simp only [hway, or_false] at happly
  cases hmark : mark bit m k n with
  | false => exact (happly.1 hmark).symm
  | true =>
    cases hbit : bit n with
    | false => rw [happly.2 hbit] at hmark; cases hmark
    | true => rfl

/-- above the first descendant of `m` are the nodes on the way to it, and those above `m` -/
theorem covers_first_iff {n : ℕ} : Covers n (m * 2 ^ k) ↔ (∃ j ≤ k, n = m * 2 ^ j) ∨ Covers n (m / 2) := by
  constructor
  · rintro ⟨i, rfl⟩
    rcases Nat.le_or_ge i k with hle | hge
    · left
      refine ⟨k - i, Nat.sub_le k i, ?_⟩
      rw [← Nat.sub_add_cancel hle, pow_add, ← mul_assoc, Nat.mul_div_cancel _ (by positivity), Nat.sub_add_cancel hle]
    · have hup : m * 2 ^ k / 2 ^ i = m / 2 ^ (i - k) := by
        rw [← Nat.sub_add_cancel hge, pow_add, Nat.mul_div_mul_right _ _ (by positivity), Nat.sub_add_cancel hge]
      rw [hup]
      rcases Nat.eq_zero_or_pos (i - k) with hz | hpos
      · left; exact ⟨0, by omega, by simp [hz]⟩
      · right
        refine ⟨i - k - 1, ?_⟩
        rw [Nat.div_div_eq_div_mul, ← pow_succ', Nat.sub_add_cancel hpos]
  · rintro (⟨j, hj, rfl⟩ | hcov)
    · refine ⟨k - j, ?_⟩
      rw [← Nat.add_sub_cancel' hj, pow_add, ← mul_assoc, Nat.add_sub_cancel_left, Nat.mul_div_cancel _ (by positivity)]
    · refine hcov.trans ((covers_half m).trans ⟨k, ?_⟩)
      exact Nat.mul_div_cancel _ (by positivity)

/-- **Turning off the way down from a node of a pair adds its last node.** -/
theorem take_shows (hs : Shows top bit held) (heven : top % 2 = 0) (hpos : 0 < m) (hlt : m * 2 ^ k < top)
    (hoff : bit (buddy m) = false) : Shows top (mark bit m k) (insert (m * 2 ^ k) held) := by
  have hmtop : m < top := lt_of_le_of_lt (Nat.le_mul_of_pos_right m (by positivity)) hlt
  refine ⟨(mark_apply bit m k 0).2 (Or.inl hs.zero), fun n hn hntop => ?_⟩
  rw [mark_apply, hs.off_iff n hn hntop]
  constructor
  · rintro (⟨b, hb, hcov⟩ | hway)
    · exact ⟨b, Set.mem_insert_of_mem _ hb, hcov⟩
    · exact ⟨_, Set.mem_insert _ _, covers_first_iff.2 (Or.inl hway)⟩
  · rintro ⟨b, hb, hcov⟩
    rcases Set.mem_insert_iff.1 hb with rfl | hb
    · rcases covers_first_iff.1 hcov with hway | habove
      · exact Or.inr hway
      · -- what is above `m` is above its buddy too, and there a held node is under it
        have h1 : 1 < m := by have := habove.le; omega
        obtain ⟨c, hc, hbc⟩ := (hs.off_iff _ (buddy_pos h1) (buddy_lt heven hmtop)).1 hoff
        exact Or.inl ⟨c, hc, habove.trans ((covers_half_buddy hpos).trans hbc)⟩
    · exact Or.inl ⟨b, hb, hcov⟩

theorem take_apart {x : ℕ} (ha : Apart top held) (hpos : 0 < x) (hlt : x < top) (hfree : Free held x) :
    Apart top (insert x held) := by
  refine ⟨?_, ?_, ?_⟩
  · rintro b (rfl | hb)
    · exact hpos
    · exact ha.pos b hb
  · rintro b (rfl | hb)
    · exact hlt
    · exact ha.lt b hb
  · rintro a (rfl | hmem) b (rfl | hb) hcov
    · rfl
    · exact absurd hcov (hfree b hb).1
    · exact absurd hcov (hfree a hmem).2
    · exact ha.apart a hmem b hb hcov

end Take

/-! ## Giving a block back -/

section Release

variable {top n p x : ℕ} {bit : ℕ → Bool} {held : Set ℕ}

/-- the walk up: to the first node that is off, or the root; it breaks off at a node that is on beside one that is off -/
def seek (bit : ℕ → Bool) (n : ℕ) : Option ℕ :=
  if bit n = false ∨ n ≤ 1 then some n
  else if bit (buddy n) = false then none
  else seek bit (n / 2)
termination_by n

/-- what the walk up has found: the held node over the start; the root, when nothing is held; or that nothing held is over it -/
inductive Found (held : Set ℕ) (p : ℕ) : Option ℕ → Prop where
  | block (x : ℕ) (hx : x ∈ held) (hcov : Covers x p) : Found held p (some x)
  | empty (hempty : held = ∅) : Found held p (some 1)
  | nothing (hnone : ∀ x ∈ held, ¬ Covers x p) : Found held p none

theorem seek_from (hs : Shows top bit held) (ha : Apart top held) (heven : top % 2 = 0) (hpos : 0 < n) (hlt : n < top)
    (hover : Covers n p) (hunder : ∀ b ∈ held, Covers n b → b = n) : Found held p (seek bit n) := by
  induction n using Nat.strong_induction_on with
  | _ n ih =>
    rw [seek]
    cases hbit : bit n with
    | false =>
      obtain ⟨b, hb, hcov⟩ := (hs.off_iff n hpos hlt).1 hbit
      rw [if_pos (Or.inl rfl)]
      exact .block n (hunder b hb hcov ▸ hb) hover
    | true =>
      have hon := (hs.on_iff hpos hlt).1 hbit
      rcases Nat.lt_or_ge 1 n with h1 | h1
      · rw [if_neg (by simp [h1])]
        cases hbuddy : bit (buddy n) with
        | false =>
          rw [if_pos rfl]
          have hfree := free_of_pair hs ha heven hpos hlt hbit hbuddy
          exact .nothing fun b hb hbp => (hfree.under hover b hb).2 hbp
        | true =>
          rw [if_neg (by simp)]
          have hbuddyOn := (hs.on_iff (buddy_pos h1) (buddy_lt heven hlt)).1 hbuddy
          apply ih (n / 2) (by omega) (by omega) (by omega) ((covers_half n).trans hover)
          intro b hb hcov
          rcases hcov.eq_or_pair hpos with hself | hnb | hbb
          · exact hself
          · exact absurd hnb (hon b hb)
          · exact absurd hbb (hbuddyOn b hb)
      · have hone : n = 1 := by omega
        subst hone
        rw [if_pos (Or.inr le_rfl)]
        refine .empty (Set.eq_empty_iff_forall_notMem.2 fun b hb => hon b hb ⟨Nat.log 2 b, ?_⟩)
        have hb0 : b ≠ 0 := (ha.pos b hb).ne'
        exact Nat.div_eq_of_lt_le (by simpa using Nat.pow_log_le_self 2 hb0)
          (by simpa [pow_succ'] using Nat.lt_pow_succ_log_self (by norm_num) b)

/-- **The walk up from a leaf finds the held node over it.** -/
theorem seek_spec (hs : Shows top bit held) (ha : Apart top held) (heven : top % 2 = 0) (hleaf : top ≤ 2 * p) (hlt : p < top) :
    Found held p (seek bit p) := by
  apply seek_from hs ha heven (by omega) hlt (Covers.refl p)
  intro b hb hcov
  -- what is under a leaf is the leaf
  have hblt := ha.lt b hb
  rcases hcov.eq_or_child with hself | hleft | hright
  · exact hself
  · have := hleft.le; omega
  · have := hright.le; omega

/-- as long as both buddies are on, the node above is turned on -/
def fuse (bit : ℕ → Bool) (n : ℕ) : ℕ → Bool :=
  if n ≤ 1 then bit
  else if bit n = false ∨ bit (buddy n) = false then bit
  else fuse (Function.update bit (n / 2) true) (n / 2)
termination_by n

/-- what lies past the start is as it was -/
theorem fuse_of_lt {m : ℕ} (hlt : n < m) : fuse bit n m = bit m := by
  induction n using Nat.strong_induction_on generalizing bit with
  | _ n ih =>
    rw [fuse]
    split_ifs with hroot hoff
    · rfl
    · rfl
    · rw [ih (n / 2) (by omega) (by omega), Function.update_of_ne (by omega)]

/-- the bits are right for the nodes left, but for those above `n`, which are still off -/
structure Rest (top : ℕ) (bit : ℕ → Bool) (held : Set ℕ) (n : ℕ) : Prop where
  zero : bit 0 = false
  above : ∀ m, 0 < m → Covers m (n / 2) → bit m = false
  off_iff : ∀ m, 0 < m → m < top → ¬ Covers m (n / 2) → (bit m = false ↔ ∃ b ∈ held, Covers m b)

theorem Rest.shows (h : Rest top bit held n) (habove : ∀ m, 0 < m → Covers m (n / 2) → ∃ b ∈ held, Covers m b) :
    Shows top bit held := by
  refine ⟨h.zero, fun m hm hmlt => ?_⟩
  by_cases hcov : Covers m (n / 2)
  · simp only [h.above m hm hcov, habove m hm hcov]
  · exact h.off_iff m hm hmlt hcov

theorem Rest.up (h : Rest top bit held n) (h1 : 1 < n) (hlt : n < top) (heven : top % 2 = 0) (hhalf : n / 2 ∉ held)
    (hon : bit n = true) (hbuddy : bit (buddy n) = true) : Rest top (Function.update bit (n / 2) true) held (n / 2) := by
  have hpos : 0 < n := by omega
  have hnone : ∀ b ∈ held, ¬ Covers (n / 2) b := by
    intro b hb hcov
    rcases hcov.eq_or_pair hpos with rfl | hnb | hbb
    · exact hhalf hb
    · have hoff := (h.off_iff n hpos hlt (not_covers_half hpos)).2 ⟨b, hb, hnb⟩
      rw [hon] at hoff
      cases hoff
    · have hbn : ¬ Covers (buddy n) (n / 2) := fun hc => by
        have := hc.le
        have := half_lt_buddy h1
        omega
      have hoff := (h.off_iff _ (buddy_pos h1) (buddy_lt heven hlt) hbn).2 ⟨b, hb, hbb⟩
      rw [hbuddy] at hoff
      cases hoff
  refine ⟨?_, fun m hm hcov => ?_, fun m hm hmlt hcov => ?_⟩
  · rw [Function.update_of_ne (by omega), h.zero]
  · have hne : m ≠ n / 2 := by
      rintro rfl
      exact not_covers_half hm hcov
    rw [Function.update_of_ne hne]
    exact h.above m hm (hcov.trans (covers_half _))
  · rcases eq_or_ne m (n / 2) with rfl | hne
    · simp only [Function.update_self, Bool.true_eq_false, false_iff, not_exists, not_and]
      exact hnone
    · rw [Function.update_of_ne hne]
      refine h.off_iff m hm hmlt fun hc => ?_
      rcases hc.eq_or_half with heq | habove
      · exact hne heq
      · exact hcov habove

/-- going up from `n` puts the bits above it right -/
theorem fuse_from (h : Rest top bit held n) (heven : top % 2 = 0) (hpos : 0 < n) (hlt : n < top)
    (habove : ∀ m, Covers m (n / 2) → m ∉ held ∨ m = 0) : Shows top (fuse bit n) held := by
  induction n using Nat.strong_induction_on generalizing bit with
  | _ n ih =>
    rw [fuse]
    rcases Nat.lt_or_ge 1 n with h1 | h1
    · rw [if_neg (by omega)]
      have hbn : ¬ Covers (buddy n) (n / 2) := fun hc => by
        have := hc.le
        have := half_lt_buddy h1
        omega
      split_ifs with hoff
      · -- a held node is under one of the buddies, and so under all that is above them
        apply h.shows
        intro m hm hcov
        rcases hoff with hself | hbuddy
        · obtain ⟨b, hb, hnb⟩ := (h.off_iff n hpos hlt (not_covers_half hpos)).1 hself
          exact ⟨b, hb, hcov.trans ((covers_half n).trans hnb)⟩
        · obtain ⟨b, hb, hbb⟩ := (h.off_iff _ (buddy_pos h1) (buddy_lt heven hlt) hbn).1 hbuddy
          exact ⟨b, hb, hcov.trans ((covers_half_buddy hpos).trans hbb)⟩
      · simp only [not_or, Bool.not_eq_false] at hoff
        have hhalf : n / 2 ∉ held := by
          rcases habove (n / 2) (Covers.refl _) with hmem | hzero
          · exact hmem
          · omega
        apply ih (n / 2) (by omega) (h.up h1 hlt heven hhalf hoff.1 hoff.2) (by omega) (by omega)
        intro m hcov
        exact habove m (hcov.trans (covers_half _))
    · rw [if_pos h1]
      apply h.shows
      intro m hm hcov
      have := hcov.le
      omega

/-- **Turning a held node on and going up from it takes it away.** -/
theorem fuse_shows (hs : Shows top bit held) (ha : Apart top held) (heven : top % 2 = 0) (hx : x ∈ held) :
    Shows top (fuse (Function.update bit x true) x) (held \ {x}) := by
  have hpos := ha.pos x hx
  have hlt := ha.lt x hx
  have hrest : Rest top (Function.update bit x true) (held \ {x}) x := by
    refine ⟨?_, fun m hm hcov => ?_, fun m hm hmlt hcov => ?_⟩
    · rw [Function.update_of_ne (by omega), hs.zero]
    · have hne : m ≠ x := by
        rintro rfl
        exact not_covers_half hm hcov
      rw [Function.update_of_ne hne]
      have hmlt : m < top := by have := hcov.le; omega
      exact (hs.off_iff m hm hmlt).2 ⟨x, hx, hcov.trans (covers_half x)⟩
    · rcases eq_or_ne m x with rfl | hne
      · simp only [Function.update_self, Bool.true_eq_false, Set.mem_sdiff, Set.mem_singleton_iff, false_iff, not_exists,
          not_and]
        rintro b ⟨hb, hbx⟩ hxb
        exact hbx (ha.apart m hx b hb hxb).symm
      · rw [Function.update_of_ne hne, hs.off_iff m hm hmlt]
        constructor
        · rintro ⟨b, hb, hmb⟩
          refine ⟨b, ⟨hb, ?_⟩, hmb⟩
          rintro rfl
          rcases hmb.eq_or_half with heq | habove
          · exact hne heq
          · exact hcov habove
        · rintro ⟨b, hb, hmb⟩
          exact ⟨b, hb.1, hmb⟩
  apply fuse_from hrest heven hpos hlt
  intro m hcov
  left
  rintro ⟨hm, hmx⟩
  exact hmx (ha.apart m hm x hx (hcov.trans (covers_half x)))

theorem Apart.mono {held' : Set ℕ} (ha : Apart top held) (hsub : held' ⊆ held) : Apart top held' :=
  ⟨fun b hb => ha.pos b (hsub hb), fun b hb => ha.lt b (hsub hb), fun a hmem b hb => ha.apart a (hsub hmem) b (hsub hb)⟩

end Release

/-- the bits of a tree in which nothing is held -/
theorem shows_empty (top : ℕ) {bit : ℕ → Bool} (hzero : bit 0 = false) (hon : ∀ n, 0 < n → n < top → bit n = true) :
    Shows top bit ∅ := by
  refine ⟨hzero, fun n hn hlt => ?_⟩
  simp [hon n hn hlt]

end PimOfis.Lib.BuddyTree
