/-
Cutting a range into consecutive pieces: cut points `cut 0 ≤ cut 1 ≤ .. ≤ cut k`, piece `i` from `cut i` up to, but not
with, `cut (i + 1)`.

- `Cuts.existsUnique`: every place of the range is in exactly one piece;
- `Cuts.piece_unique`: pieces that share a place are the same;
- `Cuts.sum_pieces`: what the pieces count adds up to what the whole range counts.
-/
import Mathlib.Tactic

namespace PimOfis.Lib

section Order

variable {α : Type} [LinearOrder α]

/-- `k` consecutive pieces from `lo` to `hi` -/
structure Cuts (cut : ℕ → α) (k : ℕ) (lo hi : α) : Prop where
  first : cut 0 = lo
  last : cut k = hi
  mono : ∀ i < k, cut i ≤ cut (i + 1)

namespace Cuts

variable {cut : ℕ → α} {k : ℕ} {lo hi : α}

theorem congr {cut' : ℕ → α} (h : Cuts cut k lo hi) (heq : ∀ i ≤ k, cut' i = cut i) : Cuts cut' k lo hi where
  first := (heq 0 (Nat.zero_le k)).trans h.first
  last := (heq k le_rfl).trans h.last
  mono i hi := by
    rw [heq i hi.le, heq (i + 1) hi]
    exact h.mono i hi

theorem le (h : Cuts cut k lo hi) {i j : ℕ} (hij : i ≤ j) (hj : j ≤ k) : cut i ≤ cut j := by
  induction j, hij using Nat.le_induction with
  | base => exact le_refl _
  | succ j _ ih => exact (ih (by omega)).trans (h.mono j (by omega))

theorem lo_le (h : Cuts cut k lo hi) {i : ℕ} (hi' : i ≤ k) : lo ≤ cut i := by
  rw [← h.first]
  exact h.le (Nat.zero_le i) hi'

theorem le_hi (h : Cuts cut k lo hi) {i : ℕ} (hi' : i ≤ k) : cut i ≤ hi := by
  rw [← h.last]
  exact h.le hi' le_rfl

/-- a place behind the start of piece `j` is not in an earlier piece -/
theorem lt_of_mem (h : Cuts cut k lo hi) {i j : ℕ} (hij : i < j) (hj : j ≤ k) {r : α} (hr : r < cut (i + 1)) : r < cut j :=
  hr.trans_le (h.le hij hj)

theorem piece_unique (h : Cuts cut k lo hi) {i j : ℕ} (hi' : i < k) (hj : j < k) {r : α}
    (hri : cut i ≤ r ∧ r < cut (i + 1)) (hrj : cut j ≤ r ∧ r < cut (j + 1)) : i = j := by
  rcases lt_trichotomy i j with hlt | heq | hlt
  · exact absurd (h.lt_of_mem hlt hj.le hri.2) (not_lt.mpr hrj.1)
  · exact heq
  · exact absurd (h.lt_of_mem hlt hi'.le hrj.2) (not_lt.mpr hri.1)

theorem exists_piece {cut : ℕ → α} {k : ℕ} {r : α} (hlo : cut 0 ≤ r) (hhi : r < cut k) :
    ∃ i < k, cut i ≤ r ∧ r < cut (i + 1) := by
  induction k with
  | zero => exact absurd hhi (not_lt.mpr hlo)
  | succ k ih =>
    rcases lt_or_ge r (cut k) with hlt | hge
    · obtain ⟨i, hi, hr⟩ := ih hlt
      exact ⟨i, by omega, hr⟩
    · exact ⟨k, Nat.lt_succ_self k, hge, hhi⟩

/-- **Every place is in exactly one piece.** -/
theorem existsUnique (h : Cuts cut k lo hi) {r : α} (hlo : lo ≤ r) (hhi : r < hi) :
    ∃! i, i < k ∧ cut i ≤ r ∧ r < cut (i + 1) := by
  obtain ⟨i, hi', hr⟩ := exists_piece (h.first ▸ hlo) (h.last ▸ hhi)
  refine ⟨i, ⟨hi', hr⟩, ?_⟩
  rintro j ⟨hj, hrj⟩
  exact h.piece_unique hj hi' hrj hr

/-- what a monotone count gives the pieces adds up to what it gives the whole -/
theorem sum_pieces (h : Cuts cut k lo hi) {f : α → ℕ} (hf : ∀ i < k, f (cut i) ≤ f (cut (i + 1))) :
    ∑ i ∈ Finset.range k, (f (cut (i + 1)) - f (cut i)) = f hi - f lo := by
  have key : ∀ m ≤ k, f (cut 0) ≤ f (cut m) ∧
      ∑ i ∈ Finset.range m, (f (cut (i + 1)) - f (cut i)) = f (cut m) - f (cut 0) := by
    intro m hm
    induction m with
    | zero => simp
    | succ m ih =>
      obtain ⟨hle, hsum⟩ := ih (by omega)
      have hstep := hf m (by omega)
      refine ⟨hle.trans hstep, ?_⟩
      rw [Finset.sum_range_succ, hsum]
      omega
  rw [(key k le_rfl).2, h.first, h.last]

/-- the places of the pieces are those of the range, in the same order -/
theorem flatMap_range' {cut : ℕ → ℕ} {lo hi : ℕ} (h : Cuts cut k lo hi) :
    (List.range k).flatMap (fun i => List.range' (cut i) (cut (i + 1) - cut i)) = List.range' lo (hi - lo) := by
  have key : ∀ m ≤ k,
      (List.range m).flatMap (fun i => List.range' (cut i) (cut (i + 1) - cut i)) = List.range' lo (cut m - lo) := by
    intro m hm
    induction m with
    | zero => rw [h.first, Nat.sub_self]; rfl
    | succ m ih =>
      have hlo := h.lo_le (Nat.le_of_succ_le hm)
      have hmono := h.mono m hm
      have hlen : cut (m + 1) - lo = (cut m - lo) + (cut (m + 1) - cut m) := by omega
      rw [List.range_succ, List.flatMap_append, ih (Nat.le_of_succ_le hm), List.flatMap_singleton, hlen, ← List.range'_append_1,
        Nat.add_sub_cancel' hlo]
  rw [key k le_rfl, h.last]

end Cuts

end Order

end PimOfis.Lib
