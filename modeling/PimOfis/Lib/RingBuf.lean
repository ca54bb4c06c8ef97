/-
A ring of `2 ^ k` slots with 64-bit counters: `rd` elements have been taken out so far and `wr` put in, and element number
`p` lies in slot `p % 2 ^ k`. The counters may wrap.

- `full_iff`: the ring is full just when the counters differ and their slots do not;
- `contents_push`, `contents_drain`: putting in is adding at the end, taking out is dropping from the front;
- `slot_push`: putting in touches no element that is still in the ring.
-/
import Mathlib.Tactic

namespace PimOfis.Lib

structure RingBuf (α : Type) where
  rd : UInt64
  wr : UInt64
  slot : ℕ → α

namespace RingBuf

variable {α : Type}

/-- the slot of element number `p` -/
def place (k : ℕ) (p : UInt64) : ℕ := p.toNat % 2 ^ k

/-- how many elements are in the ring -/
def count (r : RingBuf α) : ℕ := (r.wr - r.rd).toNat

/-- the ring holds no more than it has slots for -/
def Ok (k : ℕ) (r : RingBuf α) : Prop := r.count ≤ 2 ^ k

/-- the elements, the oldest first -/
def contents (k : ℕ) (r : RingBuf α) : List α := (List.range r.count).map fun m => r.slot (place k (r.rd + UInt64.ofNat m))

def store (j : ℕ) (x : α) (r : RingBuf α) : RingBuf α := { r with slot := Function.update r.slot j x }

def setWr (p : UInt64) (r : RingBuf α) : RingBuf α := { r with wr := p }

def setRd (p : UInt64) (r : RingBuf α) : RingBuf α := { r with rd := p }

/-- put `x` in -/
def push (k : ℕ) (x : α) (r : RingBuf α) : RingBuf α := setWr (r.wr + 1) (store (place k r.wr) x r)

/-- take `n` elements out, or all there are -/
def drain (n : ℕ) (r : RingBuf α) : RingBuf α := { r with rd := r.rd + UInt64.ofNat (min n r.count) }

@[simp] theorem drain_wr (n : ℕ) (r : RingBuf α) : (r.drain n).wr = r.wr := rfl
@[simp] theorem drain_slot (n : ℕ) (r : RingBuf α) : (r.drain n).slot = r.slot := rfl
@[simp] theorem push_wr (k : ℕ) (x : α) (r : RingBuf α) : (push k x r).wr = r.wr + 1 := rfl
@[simp] theorem push_rd (k : ℕ) (x : α) (r : RingBuf α) : (push k x r).rd = r.rd := rfl
@[simp] theorem push_slot_self (k : ℕ) (x : α) (r : RingBuf α) : (push k x r).slot (place k r.wr) = x := Function.update_self ..

@[simp] theorem length_contents (k : ℕ) (r : RingBuf α) : (r.contents k).length = r.count := by simp [contents]

theorem getElem_contents (k : ℕ) (r : RingBuf α) {i : ℕ} (hi : i < (r.contents k).length) :
    (r.contents k)[i] = r.slot (place k (r.rd + UInt64.ofNat i)) := by simp [contents]

/-! ## Counters -/

section Counters

variable {k : ℕ} {r : RingBuf α}

theorem count_lt (r : RingBuf α) : r.count < 2 ^ 64 := UInt64.toNat_lt _

theorem wr_eq (r : RingBuf α) : r.wr = r.rd + UInt64.ofNat r.count := by
  unfold count
  rw [UInt64.ofNat_toNat]
  grind

theorem place_add (hk : k ≤ 64) (p : UInt64) (m : ℕ) : place k (p + UInt64.ofNat m) = (p.toNat + m) % 2 ^ k := by
  have hdvd : 2 ^ k ∣ 2 ^ 64 := pow_dvd_pow 2 hk
  unfold place
  rw [UInt64.toNat_add, UInt64.toNat_ofNat', Nat.mod_mod_of_dvd _ hdvd, Nat.add_mod, Nat.mod_mod_of_dvd _ hdvd, ← Nat.add_mod]

/-- less than a round apart, the slots differ -/
theorem place_ne (hk : k ≤ 64) (p : UInt64) {m n : ℕ} (hlt : m < n) (hn : n < m + 2 ^ k) :
    place k (p + UInt64.ofNat m) ≠ place k (p + UInt64.ofNat n) := by
  rw [place_add hk, place_add hk]
  intro heq
  have hmod : (p.toNat + m) ≡ (p.toNat + n) [MOD 2 ^ k] := heq
  have hsub := (Nat.modEq_iff_dvd' (by omega)).mp hmod
  have hle := Nat.le_of_dvd (by omega) hsub
  omega

/-- **Full**: the slots of the counters are one, the counters are not. -/
theorem full_iff (hk : k < 64) (hr : r.Ok k) : place k r.rd = place k r.wr ∧ r.rd ≠ r.wr ↔ r.count = 2 ^ k := by
  have hpow : 2 ^ k < 2 ^ 64 := Nat.pow_lt_pow_right (by norm_num) hk
  have hzero : place k r.rd = place k (r.rd + UInt64.ofNat 0) := by
    change _ = place k (r.rd + 0)
    rw [UInt64.add_zero]
  constructor
  · rintro ⟨hplace, hne⟩
    by_contra hnot
    have hpos : 0 < r.count := by
      by_contra hcount
      apply hne
      rw [wr_eq r, Nat.eq_zero_of_not_pos hcount]
      exact (UInt64.add_zero _).symm
    apply place_ne hk.le r.rd hpos
    · have hle : r.count ≤ 2 ^ k := hr
      omega
    · rw [← hzero, ← wr_eq r]
      exact hplace
  · intro hcount
    constructor
    · rw [wr_eq r, place_add hk.le, hcount, Nat.add_mod_right]
      rfl
    · intro heq
      unfold count at hcount
      rw [heq, UInt64.sub_self] at hcount
      have hpos : 0 < 2 ^ k := Nat.two_pow_pos k
      rw [← hcount] at hpos
      exact absurd hpos (by decide)

end Counters

/-! ## Putting in -/

section Push

variable {k : ℕ} {r : RingBuf α}

theorem count_push (hk : k < 64) (hroom : r.count < 2 ^ k) (x : α) : (push k x r).count = r.count + 1 := by
  have hpow : 2 ^ k < 2 ^ 64 := Nat.pow_lt_pow_right (by norm_num) hk
  change (r.wr + 1 - r.rd).toNat = _
  have hsub : r.wr + 1 - r.rd = (r.wr - r.rd) + 1 := by grind
  rw [hsub, UInt64.toNat_add]
  change (r.count + 1) % 2 ^ 64 = _
  exact Nat.mod_eq_of_lt (by omega)

theorem push_ok (hk : k < 64) (hroom : r.count < 2 ^ k) (x : α) : (push k x r).Ok k := by
  unfold Ok
  rw [count_push hk hroom]
  exact hroom

/-- the elements in the ring stay where they are -/
theorem slot_push (hk : k < 64) (hroom : r.count < 2 ^ k) (x : α) {m : ℕ} (hm : m < r.count) :
    (push k x r).slot (place k (r.rd + UInt64.ofNat m)) = r.slot (place k (r.rd + UInt64.ofNat m)) := by
  apply Function.update_of_ne
  rw [wr_eq r]
  exact place_ne hk.le r.rd hm (by omega)

/-- writing the slot alone changes nothing -/
theorem contents_store (hk : k < 64) (hroom : r.count < 2 ^ k) (x : α) :
    (r.store (place k r.wr) x).contents k = r.contents k := by
  apply List.map_congr_left
  intro m hm
  exact slot_push hk hroom x (List.mem_range.mp hm)

theorem contents_push (hk : k < 64) (hroom : r.count < 2 ^ k) (x : α) : (push k x r).contents k = r.contents k ++ [x] := by
  unfold contents
  rw [count_push hk hroom, List.range_succ, List.map_append]
  congr 1
  · exact contents_store hk hroom x
  · rw [List.map_singleton, push_rd, ← wr_eq r, push_slot_self]

end Push

/-! ## Taking out -/

section Drain

variable {k : ℕ} {r : RingBuf α}

theorem count_drain (n : ℕ) (r : RingBuf α) : (r.drain n).count = r.count - min n r.count := by
  have hmin : (UInt64.ofNat (min n r.count)).toNat = min n r.count :=
    UInt64.toNat_ofNat_of_lt' ((Nat.min_le_right _ _).trans_lt r.count_lt)
  have hle : UInt64.ofNat (min n r.count) ≤ r.wr - r.rd := by
    rw [UInt64.le_iff_toNat_le, hmin]
    exact Nat.min_le_right _ _
  have hsub : r.wr - (r.rd + UInt64.ofNat (min n r.count)) = (r.wr - r.rd) - UInt64.ofNat (min n r.count) := by grind
  change (r.wr - (r.rd + UInt64.ofNat (min n r.count))).toNat = _
  rw [hsub, UInt64.toNat_sub_of_le _ _ hle, hmin]
  rfl

theorem drain_drain (a b : ℕ) (r : RingBuf α) : (r.drain a).drain b = r.drain (a + b) := by
  have hsum : min a r.count + min b (r.drain a).count = min (a + b) r.count := by
    rw [count_drain]
    omega
  unfold drain at hsum ⊢
  dsimp only at hsum ⊢
  rw [UInt64.add_assoc, ← UInt64.ofNat_add, hsum]

@[simp] theorem drain_zero (r : RingBuf α) : r.drain 0 = r := by
  unfold drain
  rw [Nat.zero_min]
  change { r with rd := r.rd + 0 } = r
  rw [UInt64.add_zero]

theorem drain_ok (hr : r.Ok k) (n : ℕ) : (r.drain n).Ok k := by
  unfold Ok
  rw [count_drain]
  exact (Nat.sub_le _ _).trans hr

theorem contents_drain (n : ℕ) (r : RingBuf α) : (r.drain n).contents k = (r.contents k).drop n := by
  apply List.ext_getElem
  · rw [length_contents, List.length_drop, length_contents, count_drain]
    omega
  · intro i hi _
    rw [length_contents, count_drain] at hi
    have hn : min n r.count = n := by omega
    rw [List.getElem_drop, getElem_contents, getElem_contents]
    change r.slot (place k (r.rd + UInt64.ofNat (min n r.count) + UInt64.ofNat i)) = _
    rw [hn, UInt64.add_assoc, ← UInt64.ofNat_add]

/-- an element put in after `m` are taken out could as well have been put in before -/
theorem drop_append_last (l : List α) (x : α) (m : ℕ) : (l ++ [x]).drop (min m l.length) = l.drop m ++ [x] := by
  rw [List.drop_append_of_le_length (Nat.min_le_right _ _)]
  congr 1
  rcases Nat.le_total m l.length with hle | hle
  · rw [Nat.min_eq_left hle]
  · rw [Nat.min_eq_right hle, List.drop_length, List.drop_of_length_le hle]

end Drain

end RingBuf

end PimOfis.Lib
