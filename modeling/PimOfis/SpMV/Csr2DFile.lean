/-
The file of a matrix in parts (`save_dcsr_matrix`, `load_dcsr_matrix` of `types.h`): what it holds once `COO_to_CSR_2D` has
made it, and the sizes the host programs compute from it.

Results:
- `file_of_csr2d`: the numbers that `COO_to_CSR_2D` writes are those of a file;
- `start_le_nnz`: the entries in front of a part;
- `slotRows_of_lt`, `slotRows_of_wrap`: the length of a part's slot in the row pointers and in the output.
-/
import Mathlib.Tactic
import PimOfis.SpMV.Csr2D

namespace PimOfis.SpMV

open Lib

variable {α : Type}

/-- a matrix file: the parts and their sizes, and how many entries each has -/
structure Csr2DFile (α : Type) extends Csr2DFormat α where
  horiz_pos : 1 ≤ nrHoriz.toNat
  vert_pos : 1 ≤ nrVert.toNat
  part_eq : nrPart.toNat = nrHoriz.toNat * nrVert.toNat
  height_eq : height = divUp nrRows nrHoriz
  width_eq : width = divUp nrCols nrVert
  nnz_eq : toCsr2DFormat.start nrPart.toNat = nnz.toNat

/-- a `uint32_t` made even -/
def evenUp (x : ℕ) : ℕ := if x % 2 ≠ 0 then (x + 1) % 2 ^ 32 else x

namespace Csr2DFile

variable (f : Csr2DFile α)

/-- `max_nr_rows`: the row pointers of a part, made even; all parts have the same height -/
def slotRows : ℕ := evenUp ((f.height.toNat + 1) % 2 ^ 32)

/-- `width_pad` -/
def widthPad : ℕ := evenUp f.width.toNat

theorem slotRows_of_lt (h : f.height.toNat + 2 < 2 ^ 32) :
    f.height.toNat < f.slotRows ∧ f.slotRows ≤ f.height.toNat + 2 := by
  have hrows : (f.height.toNat + 1) % 2 ^ 32 = f.height.toNat + 1 := Nat.mod_eq_of_lt (by omega)
  unfold slotRows evenUp
  rw [hrows]
  split_ifs
  · have hnext : (f.height.toNat + 1 + 1) % 2 ^ 32 = f.height.toNat + 1 + 1 := Nat.mod_eq_of_lt (by omega)
    omega
  · omega

theorem slotRows_of_wrap (h : ¬ f.height.toNat + 2 < 2 ^ 32) : f.slotRows = 0 := by
  have hlt := f.height.toNat_lt
  have hheight : f.height.toNat = 2 ^ 32 - 1 ∨ f.height.toNat = 2 ^ 32 - 2 := by omega
  unfold slotRows
  rcases hheight with heq | heq <;> rw [heq] <;> decide

theorem start_succ (p : ℕ) : f.start (p + 1) = f.start p + f.nnzOf p := Finset.sum_range_succ _ _

theorem start_mono {p q : ℕ} (h : p ≤ q) : f.start p ≤ f.start q :=
  Finset.sum_le_sum_of_subset (Finset.range_mono h)

theorem start_le_nnz {p : ℕ} (hp : p ≤ f.nrPart.toNat) : f.start p ≤ f.nnz.toNat := f.nnz_eq ▸ f.start_mono hp

theorem start_lt {p : ℕ} (hp : p ≤ f.nrPart.toNat) : f.start p < 2 ^ 32 := (f.start_le_nnz hp).trans_lt f.nnz.toNat_lt

theorem nrPart_pos : 0 < f.nrPart.toNat := f.part_eq ▸ Nat.mul_pos f.horiz_pos f.vert_pos

end Csr2DFile

/-- **What `COO_to_CSR_2D` makes is a matrix file**, where the parts have as many entries as the matrix. -/
theorem file_of_csr2d [Zero α] {k : Copy} {v : ValDt} {m : CooFormat α} {g : Grid} {c : Csr2DFormat α} {scale : UInt32}
    (h : cooToCsr2D v k m g.nrHoriz g.nrVert = some (c, scale)) (hnnz : c.start c.nrPart.toNat = m.nnz.toNat) :
    ∃ f : Csr2DFile α, f.toCsr2DFormat = c := by
  have hwith : ∃ w, cooToCsr2DWith w m g.nrHoriz g.nrVert = some (c, scale) := by
    cases k with
    | ofis => exact ⟨_, h⟩
    | es => exact ⟨_, h⟩
  obtain ⟨w, hw⟩ := hwith
  unfold cooToCsr2DWith at hw
  simp only [Option.bind_eq_bind, Option.bind_eq_some_iff, Option.pure_def, Option.some.injEq, Prod.mk.injEq] at hw
  obtain ⟨counted, -, rowPtr, -, nnzIdx, -, max, -, filled, -, rfl, -⟩ := hw
  exact ⟨⟨_, g.horiz_pos, g.vert_pos, g.nrPart_toNat, rfl, rfl, hnnz⟩, rfl⟩

end PimOfis.SpMV
