/-
Positions in a finite set of indexes: the members of `F` counted in increasing order, as a loop over all indexes meets
them.

- `position_lt`, `position_inj`, `position_surj`: the members of `F` are counted `0, ..., |F| - 1`, each once;
- `position_univ`: in the full set an index is its own position.
-/
import Mathlib.Tactic
import PimOfis.Lib.Index

namespace PimOfis.Lib

variable {n : ℕ}

/-- the number of members of `F` in front of `i` -/
def position (F : Finset (Fin n)) (i : Fin n) : ℕ := (F.filter (· < i)).card

theorem position_lt {F : Finset (Fin n)} {i : Fin n} (hi : i ∈ F) : position F i < F.card := by
  apply Finset.card_lt_card
  refine Finset.filter_ssubset.mpr ⟨i, hi, ?_⟩
  exact lt_irrefl i

theorem position_strictMono {F : Finset (Fin n)} {i j : Fin n} (hi : i ∈ F) (hij : i < j) :
    position F i < position F j := by
  apply Finset.card_lt_card
  refine Finset.ssubset_iff_of_subset (fun k hk => ?_) |>.mpr ⟨i, ?_, ?_⟩
  · obtain ⟨hk1, hk2⟩ := Finset.mem_filter.mp hk
    exact Finset.mem_filter.mpr ⟨hk1, hk2.trans hij⟩
  · exact Finset.mem_filter.mpr ⟨hi, hij⟩
  · intro hmem
    exact lt_irrefl i (Finset.mem_filter.mp hmem).2

theorem position_inj {F : Finset (Fin n)} {i j : Fin n} (hi : i ∈ F) (hj : j ∈ F)
    (h : position F i = position F j) : i = j := by
  rcases lt_trichotomy i j with hlt | heq | hlt
  · exact absurd h (position_strictMono hi hlt).ne
  · exact heq
  · exact absurd h (position_strictMono hj hlt).ne'

theorem position_surj {F : Finset (Fin n)} {q : ℕ} (hq : q < F.card) : ∃ i ∈ F, position F i = q := by
  have himg : F.image (position F) = Finset.range F.card := by
    apply Finset.eq_of_subset_of_card_le
    · intro p hp
      obtain ⟨i, hi, rfl⟩ := Finset.mem_image.mp hp
      exact Finset.mem_range.mpr (position_lt hi)
    · rw [Finset.card_range, Finset.card_image_of_injOn]
      exact fun i hi j hj h => position_inj hi hj h
  have hmem : q ∈ F.image (position F) := by
    rw [himg]
    exact Finset.mem_range.mpr hq
  exact Finset.mem_image.mp hmem

theorem position_univ (i : Fin n) : position Finset.univ i = i.val := by
  have : (Finset.univ.filter fun j : Fin n => j < i) = Finset.Iio i := by
    ext j
    simp
  rw [position, this, Fin.card_Iio]

end PimOfis.Lib
