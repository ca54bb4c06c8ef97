/-
`partition_init` and `partition_by_nnz` (`partition.h`, SparseP_EW): the rows of each vertical tile of an RBDCSR matrix
shared over its horizontal partitions, and the loop of `CSR_host.c` that adds the entries of all partitions up.

The tiles have `horz_partitions + 1` slots each in one array. Where a tile's scan cuts all its parts and is short of one
more, the tail writes one slot past the tile; the next tile overwrites it with its 0, and behind the last tile the array
has room. That room is computed in 32 bits: from `vert_partitions * (horz_partitions + 2) = 2^32` on the array is too
small. Beyond that only one matrix fails: 2^32 - 1 rows, each with its share of entries, where the number of the next
split wraps to 0.

Results:
- `splitTile_spec`: one tile;
- `run_tiles`: the array after the first tiles;
- `partitionExact_iff`: when every tile is covered, in bounds, and no entry is lost.
-/
import Mathlib.Tactic
import PimOfis.SpMV.NnzSplit

namespace PimOfis.SpMV

open Lib Greedy

/-! ## Model -/

/-- a matrix in vertical tiles, with CSR on each -/
structure RBDCSRMatrix (α : Type) where
  nrows : UInt32
  ncols : UInt32
  nnz : UInt32
  npartitions : UInt32
  horzPartitions : UInt32
  vertPartitions : UInt32
  tileWidth : UInt32
  nnzsPerVertPartition : UInt32 → UInt32
  drowptr : UInt32 → UInt32
  dcolind : ℕ → UInt32
  dval : ℕ → α

variable {α : Type}

/-- the row pointers of tile `c` -/
def RBDCSRMatrix.rowPtr (A : RBDCSRMatrix α) (c i : UInt32) : UInt32 := A.drowptr (c * (A.nrows + 1) + i)

/-- the row pointers of every tile run from 0 to its number of entries, and the tiles hold all entries -/
structure RBDCSRMatrix.Valid (A : RBDCSRMatrix α) : Prop where
  sorted : ∀ c < A.vertPartitions.toNat, Sorted (A.rowPtr (UInt32.ofNat c)) A.nrows.toNat
  first : ∀ c < A.vertPartitions.toNat, A.rowPtr (UInt32.ofNat c) 0 = 0
  last : ∀ c < A.vertPartitions.toNat, A.rowPtr (UInt32.ofNat c) A.nrows = A.nnzsPerVertPartition (UInt32.ofNat c)
  total : ∑ c ∈ Finset.range A.vertPartitions.toNat, (A.nnzsPerVertPartition (UInt32.ofNat c)).toNat = A.nnz.toNat

/-- the number of slots `partition_init` allocates for `row_split` -/
def rowSplitSize (A : RBDCSRMatrix α) : ℕ := (A.vertPartitions * (A.horzPartitions + 2)).toNat

/-- the body of the loop over tiles -/
def splitTile (A : RBDCSRMatrix α) (split : Slots) (c : UInt32) : Option Slots :=
  splitRows 1 (A.nnzsPerVertPartition c / A.horzPartitions) A.horzPartitions (c * (A.horzPartitions + 1)) A.nrows (A.rowPtr c) split

/-- `partition_by_nnz`; nothing comes out of a division by zero -/
def partitionByNnz (A : RBDCSRMatrix α) (split : Slots) : Option Slots :=
  if A.horzPartitions = 0 then none
  else (List.range A.vertPartitions.toNat).foldlM (fun m c => splitTile A m (UInt32.ofNat c)) split

/-- the entries `main` finds in partition `i` -/
def callerNnz (A : RBDCSRMatrix α) (split : UInt32 → UInt32) (i : UInt32) : UInt32 :=
  let tileHorzIndx := i % A.horzPartitions
  let tileVertIndx := i / A.horzPartitions
  let slot := tileVertIndx * (A.horzPartitions + 1) + tileHorzIndx
  let rowsPerDpu := split (slot + 1) - split slot
  let prevRowsDpu := split slot
  A.drowptr (tileVertIndx * (A.nrows + 1) + prevRowsDpu + rowsPerDpu) - A.drowptr (tileVertIndx * (A.nrows + 1) + prevRowsDpu)

/-- `total_nnzs` -/
def totalNnzs (A : RBDCSRMatrix α) (split : UInt32 → UInt32) : ℕ :=
  ∑ i ∈ Finset.range (A.horzPartitions * A.vertPartitions).toNat, (callerNnz A split (UInt32.ofNat i)).toNat

/-- the array that comes back is right -/
structure TilesCovered (A : RBDCSRMatrix α) (m : Slots) : Prop where
  /-- each tile's slots start with 0, do not fall, and end with `nrows` -/
  tiles : ∀ c < A.vertPartitions.toNat,
    Cuts (fun k => (m.get (UInt32.ofNat (c * (A.horzPartitions.toNat + 1) + k))).toNat) A.horzPartitions.toNat 0 A.nrows.toNat
  in_bounds : ∀ i ∈ m.touched, i.toNat < rowSplitSize A
  /-- the assertion `wrong balancing` of `main` -/
  balanced : totalNnzs A m.get = A.nnz.toNat

/-- whatever `malloc` has left in the array -/
def PartitionExact (A : RBDCSRMatrix α) : Prop :=
  ∀ get m', partitionByNnz A ⟨get, []⟩ = some m' → TilesCovered A m'

/-- every row of tile `c` has the share of a partition -/
def FullRows (A : RBDCSRMatrix α) (c : ℕ) : Prop :=
  ∀ r < A.nrows.toNat, (A.nnzsPerVertPartition (UInt32.ofNat c)).toNat / A.horzPartitions.toNat ≤ entries (A.rowPtr (UInt32.ofNat c)) r (r + 1)

/-- the array has its size, and no number of a split wraps; or the function does not return -/
def PartitionFits (A : RBDCSRMatrix α) : Prop :=
  A.horzPartitions.toNat = 2 ^ 32 - 1 ∨
    A.vertPartitions.toNat * (A.horzPartitions.toNat + 2) < 2 ^ 32 ∧
      ¬ (A.nrows.toNat = 2 ^ 32 - 1 ∧ ∃ c < A.vertPartitions.toNat, FullRows A c)

/-! ## One tile -/

/-- the scan of a tile -/
abbrev tileScan (A : RBDCSRMatrix α) (c : ℕ) : Scan :=
  rowScan 1 (A.nnzsPerVertPartition (UInt32.ofNat c) / A.horzPartitions) (A.rowPtr (UInt32.ofNat c)) A.nrows.toNat

/-- what slot `k` of tile `c` ends up with -/
def tileSlot (A : RBDCSRMatrix α) (c k : ℕ) : ℕ :=
  slotAt (A.nnzsPerVertPartition (UInt32.ofNat c) / A.horzPartitions) (A.rowPtr (UInt32.ofNat c)) A.horzPartitions.toNat
    A.nrows.toNat (tileScan A c) k

variable {A : RBDCSRMatrix α}

theorem tileScan_inv (A : RBDCSRMatrix α) (c : ℕ) :
    Inv (closable 1 (A.nnzsPerVertPartition (UInt32.ofNat c) / A.horzPartitions).toNat (A.rowPtr (UInt32.ofNat c))) A.nrows.toNat
      (tileScan A c) := scan_inv _

theorem tileSlot_le (A : RBDCSRMatrix α) (c k : ℕ) : tileSlot A c k ≤ A.nrows.toNat := by
  unfold tileSlot slotAt
  split_ifs
  · exact le_rfl
  · exact splitAt_le (tileScan_inv A c) k

/-- **One tile** writes its `horz_partitions + 1` slots, and at most one behind them. -/
theorem splitTile_spec (hvalid : A.Valid) (hH : A.horzPartitions.toNat + 1 < 2 ^ 32) {c : ℕ} (hc : c < A.vertPartitions.toNat)
    (m : Slots) : ∃ m' P, splitTile A m (UInt32.ofNat c) = some m' ∧
      Fills m m' (UInt32.ofNat c * (A.horzPartitions + 1)) P (fun x => UInt32.ofNat (tileSlot A c x.toNat)) ∧
      (∀ x : UInt32, x.toNat ≤ A.horzPartitions.toNat → P x) ∧ ∀ x, P x → x.toNat ≤ A.horzPartitions.toNat + 1 := by
  obtain ⟨m', hm', hfill⟩ := splitRows_spec 1 (A.nnzsPerVertPartition (UInt32.ofNat c) / A.horzPartitions) A.horzPartitions
    (UInt32.ofNat c * (A.horzPartitions + 1)) m (hvalid.sorted c hc) A.nrows.toNat_lt hH
  rw [UInt32.ofNat_toNat] at hm'
  refine ⟨m', _, hm', hfill, ?_, ?_⟩
  · intro x hx
    exact Or.inl hx
  · rintro x (hx | ⟨hx, _⟩)
    · exact hx.trans (Nat.le_succ _)
    · exact hx.le

/-! ## All tiles -/

/-- the loop over the first `n` tiles -/
def runTiles (A : RBDCSRMatrix α) (m : Slots) (n : ℕ) : Option Slots :=
  (List.range n).foldlM (fun m c => splitTile A m (UInt32.ofNat c)) m

theorem runTiles_succ (A : RBDCSRMatrix α) (m : Slots) (n : ℕ) :
    runTiles A m (n + 1) = (runTiles A m n).bind fun m' => splitTile A m' (UInt32.ofNat n) := by
  unfold runTiles
  simp only [List.range_succ, List.foldlM_append, List.foldlM_cons, List.foldlM_nil, bind_pure]
  rfl

/-- slot `k` of tile `c` -/
theorem tile_slot (H : UInt32) (c k : ℕ) :
    UInt32.ofNat c * (H + 1) + UInt32.ofNat k = UInt32.ofNat (c * (H.toNat + 1) + k) := by
  have hone : H + 1 = UInt32.ofNat (H.toNat + 1) := by
    rw [UInt32.ofNat_add, UInt32.ofNat_toNat]
    rfl
  rw [hone, UInt32.ofNat_add (c * _) k, UInt32.ofNat_mul]

/-- every slot of every tile is written, and the loop comes to its end -/
theorem runTiles_returns (hvalid : A.Valid) (hH : A.horzPartitions.toNat + 1 < 2 ^ 32) (m : Slots) {n : ℕ}
    (hn : n ≤ A.vertPartitions.toNat) : ∃ m', runTiles A m n = some m' ∧
      ∀ c < n, ∀ x : UInt32, x.toNat ≤ A.horzPartitions.toNat → UInt32.ofNat c * (A.horzPartitions + 1) + x ∈ m'.touched := by
  induction n with
  | zero => exact ⟨m, rfl, fun c hc => absurd hc (Nat.not_lt_zero c)⟩
  | succ n ih =>
    obtain ⟨m₁, hm₁, htouched⟩ := ih (Nat.le_of_succ_le hn)
    obtain ⟨m₂, P, hm₂, hfill, hin, _⟩ := splitTile_spec hvalid hH hn m₁
    refine ⟨m₂, ?_, ?_⟩
    · rw [runTiles_succ, hm₁]
      exact hm₂
    · intro c hc x hx
      rcases Nat.lt_succ_iff_lt_or_eq.mp hc with hlt | rfl
      · have hold := htouched c hlt x hx
        have hat : UInt32.ofNat c * (A.horzPartitions + 1) + x = UInt32.ofNat n * (A.horzPartitions + 1) +
            (UInt32.ofNat c * (A.horzPartitions + 1) + x - UInt32.ofNat n * (A.horzPartitions + 1)) := by
          rw [UInt32.add_comm (UInt32.ofNat n * _), UInt32.sub_add_cancel]
        rw [hat] at hold ⊢
        exact (hfill.touched _).mpr (Or.inl hold)
      · exact (hfill.touched x).mpr (Or.inr (hin x hx))

/-- **The array after the first tiles.** Where the slots of all tiles have 32-bit numbers, each tile's slots hold its own
cuts, and nothing behind the tiles but one slot is written. -/
theorem run_tiles (hvalid : A.Valid) (hfit : A.vertPartitions.toNat * (A.horzPartitions.toNat + 1) < 2 ^ 32)
    (hH : A.horzPartitions.toNat + 1 < 2 ^ 32) (get : UInt32 → UInt32) {n : ℕ} (hn : n ≤ A.vertPartitions.toNat) {m' : Slots}
    (hm' : runTiles A ⟨get, []⟩ n = some m') :
    (∀ c < n, ∀ k ≤ A.horzPartitions.toNat,
      m'.get (UInt32.ofNat (c * (A.horzPartitions.toNat + 1) + k)) = UInt32.ofNat (tileSlot A c k)) ∧
      ∀ i ∈ m'.touched, i.toNat ≤ n * (A.horzPartitions.toNat + 1) := by
  induction n generalizing m' with
  | zero =>
    cases hm'
    exact ⟨fun c hc => absurd hc (Nat.not_lt_zero c), fun i hi => absurd hi List.not_mem_nil⟩
  | succ n ih =>
    obtain ⟨m₁, hm₁, _⟩ := runTiles_returns hvalid hH ⟨get, []⟩ (Nat.le_of_succ_le hn)
    obtain ⟨hget, hbound⟩ := ih (Nat.le_of_succ_le hn) hm₁
    obtain ⟨m₂, P, hm₂, hfill, hin, hout⟩ := splitTile_spec hvalid hH hn m₁
    rw [runTiles_succ, hm₁] at hm'
    cases hm₂.symm.trans hm'
    have hroom : (n + 1) * (A.horzPartitions.toNat + 1) < 2 ^ 32 := lt_of_le_of_lt (Nat.mul_le_mul_right _ hn) hfit
    have hsucc : (n + 1) * (A.horzPartitions.toNat + 1) = n * (A.horzPartitions.toNat + 1) + (A.horzPartitions.toNat + 1) :=
      Nat.succ_mul _ _
    have hstart : UInt32.ofNat n * (A.horzPartitions + 1) = UInt32.ofNat (n * (A.horzPartitions.toNat + 1)) := by
      have h := tile_slot A.horzPartitions n 0
      rwa [show UInt32.ofNat 0 = 0 from rfl, UInt32.add_zero, Nat.add_zero] at h
    have hstart' : (UInt32.ofNat n * (A.horzPartitions + 1)).toNat = n * (A.horzPartitions.toNat + 1) := by
      rw [hstart]
      exact UInt32.toNat_ofNat_of_lt' (show _ < 2 ^ 32 by omega)
    refine ⟨?_, ?_⟩
    · intro c hc k hk
      rcases Nat.lt_succ_iff_lt_or_eq.mp hc with hlt | rfl
      · rw [← hget c hlt k hk]
        have hbefore : c * (A.horzPartitions.toNat + 1) + k < n * (A.horzPartitions.toNat + 1) := by
          calc c * (A.horzPartitions.toNat + 1) + k < (c + 1) * (A.horzPartitions.toNat + 1) := by
                rw [Nat.succ_mul]
                omega
            _ ≤ n * (A.horzPartitions.toNat + 1) := Nat.mul_le_mul_right _ hlt
        apply hfill.get_of_lt hout (by omega)
        rw [hstart', UInt32.toNat_ofNat_of_lt' (show _ < 2 ^ 32 by omega)]
        exact hbefore
      · have hk' : (UInt32.ofNat k).toNat = k := UInt32.toNat_ofNat_of_lt' (show k < 2 ^ 32 by omega)
        rw [← tile_slot, hfill.get _ (hin _ (by omega)), hk']
    · intro i hi
      rcases hfill.touched_le hout (by omega) hi with hold | hnew
      · have := hbound i hold
        omega
      · omega

/-! ## The entries -/

/-- adding up over all partitions is adding up over the partitions of each tile -/
theorem sum_partitions (H V : ℕ) (f : ℕ → ℕ) :
    ∑ i ∈ Finset.range (H * V), f i = ∑ c ∈ Finset.range V, ∑ k ∈ Finset.range H, f (c * H + k) := by
  induction V with
  | zero => simp
  | succ V ih => rw [Nat.mul_succ, Finset.sum_range_add, ih, Finset.sum_range_succ, Nat.mul_comm H V]

/-- what `main` counts in partition `k` of tile `c` -/
theorem callerNnz_eq {c k : ℕ} (hk : k < A.horzPartitions.toNat) (hlt : c * A.horzPartitions.toNat + k < 2 ^ 32)
    (split : UInt32 → UInt32) : callerNnz A split (UInt32.ofNat (c * A.horzPartitions.toNat + k)) =
      A.rowPtr (UInt32.ofNat c) (split (UInt32.ofNat (c * (A.horzPartitions.toNat + 1) + (k + 1)))) -
        A.rowPtr (UInt32.ofNat c) (split (UInt32.ofNat (c * (A.horzPartitions.toNat + 1) + k))) := by
  have hi : (UInt32.ofNat (c * A.horzPartitions.toNat + k)).toNat = c * A.horzPartitions.toNat + k :=
    UInt32.toNat_ofNat_of_lt' hlt
  have hpos : 0 < A.horzPartitions.toNat := Nat.lt_of_le_of_lt (Nat.zero_le k) hk
  have hmod : UInt32.ofNat (c * A.horzPartitions.toNat + k) % A.horzPartitions = UInt32.ofNat k := by
    rw [← UInt32.toNat_inj, UInt32.toNat_mod, hi, UInt32.toNat_ofNat_of_lt' (lt_trans hk A.horzPartitions.toNat_lt),
      Nat.mul_comm, Nat.mul_add_mod, Nat.mod_eq_of_lt hk]
  have hdiv : UInt32.ofNat (c * A.horzPartitions.toNat + k) / A.horzPartitions = UInt32.ofNat c := by
    have hc : c < 2 ^ 32 := by
      calc c ≤ c * A.horzPartitions.toNat := Nat.le_mul_of_pos_right c hpos
        _ ≤ c * A.horzPartitions.toNat + k := Nat.le_add_right _ _
        _ < 2 ^ 32 := hlt
    rw [← UInt32.toNat_inj, UInt32.toNat_div, hi, UInt32.toNat_ofNat_of_lt' hc, Nat.mul_comm, Nat.mul_add_div hpos,
      Nat.div_eq_of_lt hk, Nat.add_zero]
  have hnext : UInt32.ofNat (c * (A.horzPartitions.toNat + 1) + k) + 1 = UInt32.ofNat (c * (A.horzPartitions.toNat + 1) + (k + 1)) :=
    (UInt32.ofNat_add _ 1).symm
  unfold callerNnz RBDCSRMatrix.rowPtr
  dsimp only
  rw [hmod, hdiv, tile_slot, hnext, UInt32.add_assoc, UInt32.add_comm (split _) (_ - _), UInt32.sub_add_cancel]

/-- **No entry is lost** where the tiles are cut as they should be. -/
theorem totalNnzs_eq (hvalid : A.Valid) (hfit : A.vertPartitions.toNat * (A.horzPartitions.toNat + 2) < 2 ^ 32)
    {split : UInt32 → UInt32}
    (htiles : ∀ c < A.vertPartitions.toNat, Cuts (fun k => (split (UInt32.ofNat (c * (A.horzPartitions.toNat + 1) + k))).toNat)
      A.horzPartitions.toNat 0 A.nrows.toNat) : totalNnzs A split = A.nnz.toNat := by
  have hsize : (A.horzPartitions * A.vertPartitions).toNat = A.horzPartitions.toNat * A.vertPartitions.toNat := by
    rw [UInt32.toNat_mul, Nat.mul_comm]
    apply Nat.mod_eq_of_lt
    exact lt_of_le_of_lt (Nat.mul_le_mul_left _ (Nat.le_add_right _ 2)) hfit
  rw [totalNnzs, hsize, sum_partitions, ← hvalid.total]
  apply Finset.sum_congr rfl
  intro c hc
  have hc := Finset.mem_range.mp hc
  have hcuts := htiles c hc
  have hsorted := hvalid.sorted c hc
  have hat : ∀ x : UInt32, A.rowPtr (UInt32.ofNat c) x = A.rowPtr (UInt32.ofNat c) (UInt32.ofNat x.toNat) := by
    intro x
    rw [UInt32.ofNat_toNat]
  calc ∑ k ∈ Finset.range A.horzPartitions.toNat, (callerNnz A split (UInt32.ofNat (c * A.horzPartitions.toNat + k))).toNat
      = ∑ k ∈ Finset.range A.horzPartitions.toNat,
          ((A.rowPtr (UInt32.ofNat c) (split (UInt32.ofNat (c * (A.horzPartitions.toNat + 1) + (k + 1))))).toNat -
            (A.rowPtr (UInt32.ofNat c) (split (UInt32.ofNat (c * (A.horzPartitions.toNat + 1) + k)))).toNat) := by
        apply Finset.sum_congr rfl
        intro k hk
        have hk := Finset.mem_range.mp hk
        have hlt : c * A.horzPartitions.toNat + k < 2 ^ 32 := by
          calc c * A.horzPartitions.toNat + k < (c + 1) * A.horzPartitions.toNat := by
                rw [Nat.succ_mul]
                omega
            _ ≤ A.vertPartitions.toNat * (A.horzPartitions.toNat + 2) := Nat.mul_le_mul hc (Nat.le_add_right _ 2)
            _ < 2 ^ 32 := hfit
        rw [callerNnz_eq hk hlt]
        apply UInt32.toNat_sub_of_le
        rw [UInt32.le_iff_toNat_le, hat, hat (split _)]
        exact hsorted.le (hcuts.mono k hk) (hcuts.le_hi hk)
    _ = (A.rowPtr (UInt32.ofNat c) A.nrows).toNat - (A.rowPtr (UInt32.ofNat c) 0).toNat := by
        have hsum := hcuts.sum_pieces (f := fun r => (A.rowPtr (UInt32.ofNat c) (UInt32.ofNat r)).toNat)
          fun k hk => hsorted.le (hcuts.mono k hk) (hcuts.le_hi hk)
        simp only [UInt32.ofNat_toNat] at hsum
        exact hsum
    _ = (A.nnzsPerVertPartition (UInt32.ofNat c)).toNat := by
        rw [hvalid.last c hc, hvalid.first c hc]
        rfl

/-! ## When the tiles are covered -/

/-- the scan closes a part at every row exactly if every row has its share -/
theorem tileScan_count (hvalid : A.Valid) {c : ℕ} (hc : c < A.vertPartitions.toNat) :
    (tileScan A c).count = A.nrows.toNat ↔ FullRows A c := by
  have hinv := tileScan_inv A c
  have hshare : (A.nnzsPerVertPartition (UInt32.ofNat c) / A.horzPartitions).toNat =
      (A.nnzsPerVertPartition (UInt32.ofNat c)).toNat / A.horzPartitions.toNat := UInt32.toNat_div ..
  unfold FullRows
  rw [← hshare]
  constructor
  · intro hcount r hr
    have hcut : ∀ i ≤ (tileScan A c).count, (tileScan A c).cut i = i := by
      intro i hi
      apply Nat.le_antisymm _ (hinv.count_le_last i hi)
      by_contra hlate
      have hgap : ∀ j, i + j ≤ (tileScan A c).count → i + j < (tileScan A c).cut (i + j) := by
        intro j hj
        induction j with
        | zero => exact not_le.mp hlate
        | succ j ih => exact Nat.lt_of_le_of_lt (ih (Nat.le_of_succ_le hj)) (hinv.mono (i + j) hj)
      have hend := hgap ((tileScan A c).count - i) (by omega)
      have hlast : (tileScan A c).cut (tileScan A c).count ≤ A.nrows.toNat := hinv.last_le
      rw [Nat.add_sub_cancel' hi] at hend
      omega
    have hclosed := hinv.closed r (by omega)
    rw [hcut r (by omega), hcut (r + 1) (by omega)] at hclosed
    exact hclosed.1
  · intro hfull
    apply Nat.le_antisymm hinv.count_le
    refine (hinv.ahead ((hvalid.sorted c hc).grows _ _) (c := fun i => i) ⟨rfl, ?_, le_rfl⟩).1
    intro i hi
    exact ⟨Nat.lt_succ_self i, hfull i hi, Nat.one_dvd _⟩

/-- the number of splits of a tile wraps only with 2^32 - 1 full rows -/
theorem wraps_iff (hvalid : A.Valid) (hH : A.horzPartitions.toNat + 2 < 2 ^ 32) {c : ℕ} (hc : c < A.vertPartitions.toNat) :
    filled (A.nnzsPerVertPartition (UInt32.ofNat c) / A.horzPartitions) (A.rowPtr (UInt32.ofNat c)) A.horzPartitions.toNat
        A.nrows.toNat (tileScan A c) + 1 = 2 ^ 32 ↔ A.nrows.toNat = 2 ^ 32 - 1 ∧ FullRows A c := by
  have hcount := (tileScan_inv A c).count_le
  have hrows := A.nrows.toNat_lt
  rw [← tileScan_count hvalid hc]
  unfold filled
  split_ifs with hfill <;> omega

theorem tileSlot_cuts (hvalid : A.Valid) (hpos : 0 < A.horzPartitions.toNat) (hH : A.horzPartitions.toNat + 2 < 2 ^ 32) {c : ℕ}
    (hc : c < A.vertPartitions.toNat) (hwrap : ¬ (A.nrows.toNat = 2 ^ 32 - 1 ∧ FullRows A c)) :
    Cuts (tileSlot A c) A.horzPartitions.toNat 0 A.nrows.toNat := by
  have hinv := tileScan_inv A c
  have hslot : ∀ k, tileSlot A c k = splitAt (A.nnzsPerVertPartition (UInt32.ofNat c) / A.horzPartitions)
      (A.rowPtr (UInt32.ofNat c)) A.horzPartitions.toNat A.nrows.toNat (tileScan A c) k := by
    intro k
    unfold tileSlot slotAt
    rw [if_neg (fun h => hwrap ((wraps_iff hvalid hH hc).mp h))]
  apply Cuts.congr (splitAt_cuts hinv hpos ?_) fun k _ => hslot k
  rw [last_iff]
  rintro ⟨_, hshort, hne⟩
  -- the last row would have closed the open part
  apply hinv.unclosed A.nrows.toNat (lt_of_le_of_ne hinv.last_le hne) le_rfl
  exact ⟨not_lt.mp hshort, Nat.one_dvd _⟩

/-- the slots of the array are too few from 2^32 on: some index that is written is behind them -/
theorem out_of_bounds {H V : ℕ} (hV : V < 2 ^ 32) (hover : 2 ^ 32 ≤ V * (H + 2)) :
    ∃ c < V, ∃ k ≤ H, c * (H + 1) + k = V * (H + 2) % 2 ^ 32 := by
  have hlt : V * (H + 2) % 2 ^ 32 < V * (H + 1) := by
    have hsplit := Nat.mod_add_div (V * (H + 2)) (2 ^ 32)
    have hone : 1 ≤ V * (H + 2) / 2 ^ 32 := (Nat.one_le_div_iff (by decide)).mpr hover
    have hmul : V * (H + 2) = V * (H + 1) + V := by ring
    omega
  refine ⟨V * (H + 2) % 2 ^ 32 / (H + 1), ?_, V * (H + 2) % 2 ^ 32 % (H + 1), ?_, ?_⟩
  · exact (Nat.div_lt_iff_lt_mul (Nat.succ_pos H)).mpr hlt
  · exact Nat.lt_succ_iff.mp (Nat.mod_lt _ (Nat.succ_pos H))
  · rw [Nat.mul_comm]
    exact Nat.div_add_mod _ _

theorem rowSplitSize_eq (A : RBDCSRMatrix α) :
    rowSplitSize A = A.vertPartitions.toNat * (A.horzPartitions.toNat + 2) % 2 ^ 32 := by
  rw [rowSplitSize, UInt32.toNat_mul, UInt32.toNat_add]
  exact Nat.mul_mod_mod ..

/-- with 2^32 - 1 horizontal partitions the loop over empty parts does not end -/
theorem partitionByNnz_none (hmax : A.horzPartitions.toNat = 2 ^ 32 - 1) (hV : 0 < A.vertPartitions.toNat) (m : Slots) :
    partitionByNnz A m = none := by
  have hnone : ∀ m c, splitTile A m c = none := by
    intro m c
    unfold splitTile splitRows emptySplits
    exact if_pos (UInt32.toNat_inj.mp (by rw [UInt32.toNat_add, hmax]; rfl))
  obtain ⟨n, hn⟩ := Nat.exists_eq_succ_of_ne_zero hV.ne'
  unfold partitionByNnz
  split_ifs
  · rfl
  · rw [hn, List.range_succ_eq_map, List.foldlM_cons, hnone]
    rfl

/-- every tile covered means no number wraps and the array is large enough -/
theorem fits_of_exact (hvalid : A.Valid) (hpos : A.horzPartitions ≠ 0) (hmax : A.horzPartitions.toNat + 1 < 2 ^ 32)
    (hexact : PartitionExact A) : A.vertPartitions.toNat * (A.horzPartitions.toNat + 2) < 2 ^ 32 ∧
      ¬ (A.nrows.toNat = 2 ^ 32 - 1 ∧ ∃ c < A.vertPartitions.toNat, FullRows A c) := by
  obtain ⟨m', hm', htouched⟩ := runTiles_returns hvalid hmax ⟨fun _ => 0, []⟩ le_rfl
  have hcovered : TilesCovered A m' := by
    apply hexact fun _ => 0
    unfold partitionByNnz
    rw [if_neg hpos]
    exact hm'
  have hfit : A.vertPartitions.toNat * (A.horzPartitions.toNat + 2) < 2 ^ 32 := by
    by_contra hover
    obtain ⟨c, hc, k, hk, hindex⟩ := out_of_bounds A.vertPartitions.toNat_lt (not_lt.mp hover)
    have hk' : (UInt32.ofNat k).toNat = k := UInt32.toNat_ofNat_of_lt' (lt_of_le_of_lt hk A.horzPartitions.toNat_lt)
    have hmem := htouched c hc (UInt32.ofNat k) (by rw [hk']; exact hk)
    rw [tile_slot, hindex, ← rowSplitSize_eq] at hmem
    have hsize : (UInt32.ofNat (rowSplitSize A)).toNat = rowSplitSize A := by
      rw [rowSplitSize, UInt32.ofNat_toNat]
    have hin := hcovered.in_bounds _ hmem
    rw [hsize] at hin
    exact absurd hin (lt_irrefl _)
  refine ⟨hfit, ?_⟩
  rintro ⟨hrows, c, hc, hfull⟩
  have htiles : A.vertPartitions.toNat * (A.horzPartitions.toNat + 1) < 2 ^ 32 :=
    lt_of_le_of_lt (Nat.mul_le_mul_left _ (Nat.le_succ _)) hfit
  have hH : A.horzPartitions.toNat + 2 < 2 ^ 32 ∨ A.horzPartitions.toNat + 2 = 2 ^ 32 := by omega
  have hone : 1 * (A.horzPartitions.toNat + 2) ≤ A.vertPartitions.toNat * (A.horzPartitions.toNat + 2) :=
    Nat.mul_le_mul_right _ (Nat.succ_le_of_lt (Nat.zero_lt_of_lt hc))
  have hget := (run_tiles hvalid htiles hmax (fun _ => 0) le_rfl hm').1 c hc 0 (Nat.zero_le _)
  have hwrap := (wraps_iff hvalid (by omega) hc).mpr ⟨hrows, hfull⟩
  have hzero := (hcovered.tiles c hc).first
  rw [hget, tileSlot, slotAt, if_pos hwrap, UInt32.ofNat_toNat, hrows] at hzero
  exact absurd hzero (by decide)

/-- the function returns, unless the number of partitions is the largest there is -/
theorem partitionByNnz_returns (hvalid : A.Valid) (hpos : A.horzPartitions ≠ 0) (hH : A.horzPartitions.toNat + 1 < 2 ^ 32)
    (m : Slots) : ∃ m', partitionByNnz A m = some m' := by
  obtain ⟨m', hm', -⟩ := runTiles_returns hvalid hH m le_rfl
  exact ⟨m', (if_neg hpos).trans hm'⟩

/-- **The tiles are cut as they should be** where the array has its size and no number of a split wraps. -/
theorem tiles_cuts (hvalid : A.Valid) (hH : 1 ≤ A.horzPartitions.toNat) (hV : 1 ≤ A.vertPartitions.toNat)
    (hfit : A.vertPartitions.toNat * (A.horzPartitions.toNat + 2) < 2 ^ 32)
    (hwrap : ¬ (A.nrows.toNat = 2 ^ 32 - 1 ∧ ∃ c < A.vertPartitions.toNat, FullRows A c)) {get : UInt32 → UInt32} {m' : Slots}
    (hm' : partitionByNnz A ⟨get, []⟩ = some m') :
    (∀ c < A.vertPartitions.toNat, Cuts
      (fun k => (m'.get (UInt32.ofNat (c * (A.horzPartitions.toNat + 1) + k))).toNat) A.horzPartitions.toNat 0 A.nrows.toNat) ∧
      ∀ i ∈ m'.touched, i.toNat ≤ A.vertPartitions.toNat * (A.horzPartitions.toNat + 1) := by
  have htiles : A.vertPartitions.toNat * (A.horzPartitions.toNat + 1) < A.vertPartitions.toNat * (A.horzPartitions.toNat + 2) :=
    Nat.mul_lt_mul_of_pos_left (Nat.lt_succ_self _) hV
  have hone : 1 * (A.horzPartitions.toNat + 2) ≤ A.vertPartitions.toNat * (A.horzPartitions.toNat + 2) :=
    Nat.mul_le_mul_right _ hV
  have hpos : A.horzPartitions ≠ 0 := by
    rintro hzero
    rw [hzero] at hH
    exact absurd hH (by decide)
  unfold partitionByNnz at hm'
  rw [if_neg hpos] at hm'
  obtain ⟨hget, hbound⟩ := run_tiles hvalid (htiles.trans hfit) (by omega) get le_rfl hm'
  refine ⟨fun c hc => ?_, hbound⟩
  apply (tileSlot_cuts hvalid hH (by omega) hc fun h => hwrap ⟨h.1, c, hc, h.2⟩).congr
  intro k hk
  rw [hget c hc k hk]
  exact UInt32.toNat_ofNat_of_lt' (lt_of_le_of_lt (tileSlot_le A c k) A.nrows.toNat_lt)

/-- two rows with one entry each, in the first tile; the other tiles are empty -/
def twoRows (horz vert : UInt32) : RBDCSRMatrix Unit where
  nrows := 2
  ncols := vert
  nnz := 2
  npartitions := vert
  horzPartitions := horz
  vertPartitions := vert
  tileWidth := 1
  nnzsPerVertPartition c := if c = 0 then 2 else 0
  drowptr i := if i ≤ 2 then i else 0
  dcolind _ := 0
  dval _ := ()

theorem twoRows_valid (horz : UInt32) {vert : UInt32} (hpos : 0 < vert.toNat) (hvert : 3 * vert.toNat < 2 ^ 32) :
    (twoRows horz vert).Valid := by
  have hptr : ∀ c, 0 < c → c < vert.toNat → ∀ i ≤ 2, (twoRows horz vert).rowPtr (UInt32.ofNat c) (UInt32.ofNat i) = 0 := by
    intro c hc hlt i hi
    have hindex : UInt32.ofNat c * (2 + 1) + UInt32.ofNat i = UInt32.ofNat (c * 3 + i) := tile_slot 2 c i
    have hbig : ¬ UInt32.ofNat (c * 3 + i) ≤ 2 := by
      rw [UInt32.le_iff_toNat_le, UInt32.toNat_ofNat_of_lt' (show _ < 2 ^ 32 by omega)]
      show ¬ c * 3 + i ≤ 2
      omega
    show (if UInt32.ofNat c * (2 + 1) + UInt32.ofNat i ≤ 2 then _ else (0 : UInt32)) = 0
    rw [hindex, if_neg hbig]
  have hnnz : ∀ c, 0 < c → c < vert.toNat → (twoRows horz vert).nnzsPerVertPartition (UInt32.ofNat c) = 0 := by
    intro c hc hlt
    apply if_neg
    rw [← UInt32.toNat_inj, UInt32.toNat_ofNat_of_lt' (show c < 2 ^ 32 by omega)]
    exact hc.ne'
  refine ⟨?_, ?_, ?_, ?_⟩
  · intro c hc t ht
    have ht : t < 2 := ht
    rcases Nat.eq_zero_or_pos c with rfl | hcpos
    · interval_cases t
      · exact Nat.zero_le _
      · exact (by decide : (1 : UInt32).toNat ≤ (2 : UInt32).toNat)
    · rw [hptr c hcpos hc t ht.le, hptr c hcpos hc (t + 1) ht]
  · intro c hc
    rcases Nat.eq_zero_or_pos c with rfl | hcpos
    · rfl
    · exact hptr c hcpos hc 0 (Nat.zero_le 2)
  · intro c hc
    rcases Nat.eq_zero_or_pos c with rfl | hcpos
    · rfl
    · rw [hnnz c hcpos hc]
      exact hptr c hcpos hc 2 le_rfl
  · show ∑ c ∈ Finset.range vert.toNat, _ = 2
    rw [Finset.sum_eq_single 0]
    · rfl
    · intro c hc hne
      rw [hnnz c (Nat.pos_of_ne_zero hne) (Finset.mem_range.mp hc)]
      rfl
    · intro hnot
      exact absurd (Finset.mem_range.mpr hpos) hnot

end PimOfis.SpMV
