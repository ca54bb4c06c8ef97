/-
`main` of SparseP_EW (`CSR_host.c`): more logical than physical DPUs.

A matrix is split into a fixed number of logical DPUs, two halves of a power of two. Each round of the `dpu_iter` loop
serves `NR_DPUS` of them: the first `NR_DPUS / 2` DPUs take the next ones of the first half, the others those of the
second. The index is computed anew in each of seven loops; none but the last tests it. The arrays of ranks have
`max_nranks` entries. What a transfer reads is written as the logical index it belongs to, what a DPU computes as a
function `kernel` of its five inputs. The assertion that a DPU's share fits its MRAM stops the program before any
transfer; it is taken to pass.

Results:
- `rows_le`: the rows of a logical DPU;
- `iterate_spec`, `inRange_of_iterate`: one round, and when it stays in bounds;
- `served_of_even`: with an even number of DPUs that divides the number of logical ones, the whole run;
- `servedOnce_iff`: when each logical DPU is sent, computed and merged exactly once.
-/
import Mathlib.Data.List.TakeWhile
import Mathlib.Tactic
import PimOfis.Lib.Alloc
import PimOfis.Lib.Loops
import PimOfis.SpMV.TaskletSplit
import PimOfis.SpMV.TileSplit

namespace PimOfis.SpMV

open Lib

/-! ## Model -/

/-- `horz_partitions`, from `-v` -/
def horzPartitions (nrPartitions : ℕ) : ℕ := if nrPartitions = 256 then 128 * 256 else 256 * 512

/-- `horz_partitions * vert_partitions` -/
def logicalDpus (nrPartitions : ℕ) : ℕ := horzPartitions nrPartitions * 2

/-- a matrix file for `n` logical DPUs; `partition_tsklt_by_nnz` takes the offsets into `drowptr` as `int` -/
structure LogicalMatrix (α : Type) (n : ℕ) extends RBDCSRMatrix α where
  valid : toRBDCSRMatrix.Valid
  logical : horzPartitions.toNat * vertPartitions.toNat = n
  rowptr_int : vertPartitions.toNat * (nrows.toNat + 1) < 2 ^ 31

/-- the DPUs of the set, rank by rank, and the `-s` option -/
structure Ranks where
  sizes : List ℕ
  maxNranks : ℕ
  pos : 0 < sizes.sum

/-- `NR_DPUS` -/
def Ranks.nrDpus (k : Ranks) : ℕ := k.sizes.sum

/-- `active_dpus_per_rank` -/
def Ranks.active (k : Ranks) (i : ℕ) : ℕ := if i = 0 then 0 else k.sizes[i - 1]?.getD 0

/-- `accum_dpus_ranks`, with the sum that is carried along -/
def Ranks.accumLoop (k : Ranks) : (ℕ → ℕ) × ℕ :=
  (List.range (k.maxNranks + 1)).foldl (fun (accum, sum) i => (Function.update accum i (k.active i + sum), sum + k.active i))
    (fun _ => 0, 0)

def Ranks.accum (k : Ranks) : ℕ → ℕ := k.accumLoop.1

/-- the rank of DPU `i` in `DPU_FOREACH` -/
def rankOf : List ℕ → ℕ → ℕ
  | [], _ => 0
  | size :: rest, i => if i < size then 0 else rankOf rest (i - size) + 1

/-- `_dpu_index` -/
def dpuIndex (logical nrDpus dpuIter i : ℕ) : ℕ :=
  if i < nrDpus / 2 then dpuIter / 2 + i else dpuIter / 2 + logical / 2 + i - nrDpus / 2

/-- padding to a multiple of `c` -/
def padTo (c x : ℕ) : ℕ := if x % c ≠ 0 then x + (c - x % c) else x

/-- the slot of `row_split` where a logical DPU starts -/
def rowSlot (A : RBDCSRMatrix α) (p : UInt32) : UInt32 := p / A.horzPartitions * (A.horzPartitions + 1) + p % A.horzPartitions

/-- `rows_per_dpu` -/
def rowsPerDpu (A : RBDCSRMatrix α) (split : UInt32 → UInt32) (p : ℕ) : ℕ :=
  (split (rowSlot A (UInt32.ofNat p) + 1) - split (rowSlot A (UInt32.ofNat p))).toNat

/-- `start_row`, `prev_rows_dpu` -/
def startRow (A : RBDCSRMatrix α) (split : UInt32 → UInt32) (p : ℕ) : ℕ := (split (rowSlot A (UInt32.ofNat p))).toNat

/-- what `main` has when it comes to the loop; the last is what a DPU computes of its inputs, row by row -/
structure Setup (V : Type) where
  logical : ℕ
  ranks : Ranks
  v : ValDt
  rows : ℕ → ℕ
  start : ℕ → ℕ
  kernel : (Fin 5 → ℕ) → ℕ → V

/-- a logical DPU whose rows are added to `z` -/
structure Merge (V : Type) where
  part : ℕ
  startRow : ℕ
  rows : ℕ
  /-- the rows that were retrieved from the DPU -/
  retrieved : ℕ
  values : List V

/-- the DPUs and `y`; what has been sent, computed and merged -/
structure Served (V : Type) where
  input : ℕ → Fin 5 → ℕ
  result : ℕ → ℕ → V
  y : ℕ → V
  sent : Fin 5 → List ℕ
  computed : List (Fin 5 → ℕ)
  merged : List (Merge V)

namespace Setup

variable {V : Type} (u : Setup V)

/-- `8 / byte_dt` -/
def gran : ℕ := u.v.granularity.toNat

/-- `rows_per_dpu_pad` -/
def rowsPad (rows : ℕ) : ℕ :=
  let pad := padTo u.gran (rows + 1)
  (if u.v.byteDt = 8 then padTo 2 pad else pad) % 2 ^ 32

/-- `max_rows_per_dpu` -/
def maxRowsPerDpu : ℕ :=
  padTo u.gran (padTo 2 ((List.range u.logical).foldl (fun m p => max m (u.rowsPad (u.rows p))) 0))

/-- `_dpu_index` of DPU `i` in the round that starts at `dpuIter` -/
def index (dpuIter i : ℕ) : ℕ := dpuIndex u.logical u.ranks.nrDpus dpuIter i

/-- the indexes of a rank, up to the last DPU of the set -/
def rankIndexes (dpuIter r : ℕ) : List ℕ :=
  ((List.range (u.ranks.sizes[r]?.getD 0)).takeWhile fun k => u.ranks.accum r + k < u.ranks.nrDpus).map
    fun k => u.index dpuIter (u.ranks.accum r + k)

/-- `max_rows_per_rank`; nothing where an index leaves `dpu_info` -/
def maxRowsPerRank (dpuIter : ℕ) : Option (ℕ → ℕ) :=
  if ∀ r < u.ranks.sizes.length, ∀ p ∈ u.rankIndexes dpuIter r, p < u.logical then
    some fun r => padTo u.gran (padTo 2 ((u.rankIndexes dpuIter r).foldl (fun m p => max m (u.rows p)) 0)) % 2 ^ 32
  else none

/-- input `k` goes to all DPUs -/
def push (dpuIter : ℕ) (k : Fin 5) (s : Served V) : Served V :=
  { s with
    input := fun i j => if j = k ∧ i < u.ranks.nrDpus then u.index dpuIter i else s.input i j
    sent := fun j => if j = k then s.sent j ++ (List.range u.ranks.nrDpus).map (u.index dpuIter) else s.sent j }

/-- the transfer of input `k`; nothing where an index leaves `dpu_info` or `input_args` -/
def send (dpuIter : ℕ) (k : Fin 5) (s : Served V) : Option (Served V) :=
  if ∀ i < u.ranks.nrDpus, u.index dpuIter i < u.logical then some (u.push dpuIter k s) else none

/-- `dpu_launch` -/
def launch (s : Served V) : Served V :=
  { s with
    result := fun i => u.kernel (s.input i)
    computed := s.computed ++ (List.range u.ranks.nrDpus).map s.input }

/-- the transfers from the DPUs, each rank with its own length -/
def retrieve (maxRows : ℕ → ℕ) (s : Served V) : Served V :=
  { s with
    y := putAll s.y ((List.range u.ranks.nrDpus).map fun i =>
      (⟨i * u.maxRowsPerDpu, maxRows (rankOf u.ranks.sizes i)⟩, s.result i)) }

/-- the loop that adds to `z`, up to the first index past the logical DPUs -/
def merge (dpuIter : ℕ) (maxRows : ℕ → ℕ) (s : Served V) : Served V :=
  { s with
    merged := s.merged ++ ((List.range u.ranks.nrDpus).takeWhile fun i => u.index dpuIter i < u.logical).map fun i =>
      let p := u.index dpuIter i
      ⟨p, u.start p, u.rows p, maxRows (rankOf u.ranks.sizes i),
        (List.range (u.rows p)).map fun t => s.y (i * u.maxRowsPerDpu + t)⟩ }

/-- a round of the `dpu_iter` loop -/
def iterate (dpuIter : ℕ) (s : Served V) : Option (Served V) := do
  let maxRows ← u.maxRowsPerRank dpuIter
  let s ← u.send dpuIter 0 s
  let s ← u.send dpuIter 1 s
  let s ← u.send dpuIter 2 s
  let s ← u.send dpuIter 3 s
  let s ← u.send dpuIter 4 s
  some (u.merge dpuIter maxRows (u.retrieve maxRows (u.launch s)))

/-- how often the loop runs -/
def rounds : ℕ := (u.logical + u.ranks.nrDpus - 1) / u.ranks.nrDpus

/-- the loop, from what the DPUs and `y` hold before it; nothing where an array is left -/
def run (s : Served V) : Option (Served V) :=
  if u.ranks.sizes.length ≤ u.ranks.maxNranks then
    (List.range u.rounds).foldlM (fun s d => u.iterate (d * u.ranks.nrDpus) s) s
  else none

/-- nothing has been sent, computed or merged -/
def init (input : ℕ → Fin 5 → ℕ) (result : ℕ → ℕ → V) (y : ℕ → V) : Served V := ⟨input, result, y, fun _ => [], [], []⟩

/-- each logical DPU is sent, computed and merged once, at its own rows, of which all were retrieved -/
structure Once (s : Served V) : Prop where
  sent : ∀ k, (s.sent k).Perm (List.range u.logical)
  computed : s.computed.Perm ((List.range u.logical).map fun p _ => p)
  merged : (s.merged.map Merge.part).Perm (List.range u.logical)
  rows : ∀ m ∈ s.merged, m.startRow = u.start m.part ∧ m.rows = u.rows m.part ∧ m.rows ≤ m.retrieved ∧
    m.values = (List.range m.rows).map (u.kernel fun _ => m.part)

/-- the run stays in bounds and serves every logical DPU once -/
def ServedOnce : Prop := ∀ input result y, ∃ s, u.run (init input result y) = some s ∧ u.Once s

/-! ## Ranks -/

end Setup

namespace Ranks

variable (k : Ranks)

theorem active_succ (r : ℕ) : k.active (r + 1) = k.sizes[r]?.getD 0 := by simp [active]

/-- the DPUs in front of a rank -/
theorem sum_take_succ (sizes : List ℕ) (r : ℕ) : (sizes.take (r + 1)).sum = (sizes.take r).sum + sizes[r]?.getD 0 := by
  by_cases hr : r < sizes.length
  · rw [List.getElem?_eq_getElem hr, List.sum_take_succ sizes r hr, Option.getD_some]
  · rw [List.getElem?_eq_none (Nat.le_of_not_lt hr), List.take_of_length_le (by omega), List.take_of_length_le (by omega)]
    simp

theorem accum_eq {r : ℕ} (hr : r ≤ k.maxNranks) : k.accum r = (k.sizes.take r).sum := by
  have hrun : ∀ n, ((List.range (n + 1)).foldl (fun (acc : (ℕ → ℕ) × ℕ) i =>
      (Function.update acc.1 i (k.active i + acc.2), acc.2 + k.active i)) (fun _ => 0, 0)).2 = (k.sizes.take n).sum ∧
      ∀ j ≤ n, ((List.range (n + 1)).foldl (fun (acc : (ℕ → ℕ) × ℕ) i =>
        (Function.update acc.1 i (k.active i + acc.2), acc.2 + k.active i)) (fun _ => 0, 0)).1 j = (k.sizes.take j).sum := by
    intro n
    induction n with
    | zero =>
      refine ⟨by simp [active], fun j hj => ?_⟩
      obtain rfl : j = 0 := by omega
      simp [active]
    | succ n ih =>
      obtain ⟨hsum, hget⟩ := ih
      have hnext : k.active (n + 1) + (k.sizes.take n).sum = (k.sizes.take (n + 1)).sum := by
        rw [active_succ, sum_take_succ, Nat.add_comm]
      rw [List.range_succ, List.foldl_append]
      simp only [List.foldl_cons, List.foldl_nil, hsum]
      refine ⟨by rw [← hnext, Nat.add_comm], fun j hj => ?_⟩
      by_cases hj' : j = n + 1
      · subst hj'
        rw [Function.update_self, hnext]
      · rw [Function.update_of_ne hj']
        exact hget j (by omega)
  exact (hrun k.maxNranks).2 r hr

theorem sum_take_le (sizes : List ℕ) (r : ℕ) : (sizes.take r).sum ≤ sizes.sum := by
  have h := congrArg List.sum (List.take_append_drop r sizes)
  rw [List.sum_append] at h
  omega

/-- **Every DPU lies in its rank.** -/
theorem rankOf_spec {sizes : List ℕ} {i : ℕ} (hi : i < sizes.sum) : rankOf sizes i < sizes.length ∧
    (sizes.take (rankOf sizes i)).sum ≤ i ∧ i < (sizes.take (rankOf sizes i)).sum + sizes[rankOf sizes i]?.getD 0 := by
  induction sizes generalizing i with
  | nil => exact absurd hi (Nat.not_lt_zero i)
  | cons size rest ih =>
    by_cases hlt : i < size
    · simp [rankOf, hlt]
    · rw [List.sum_cons] at hi
      obtain ⟨hlen, hlo, hhi⟩ := ih (i := i - size) (by omega)
      simp only [rankOf, if_neg hlt, List.length_cons, List.take_succ_cons, List.sum_cons, List.getElem?_cons_succ]
      omega

end Ranks

/-! ## Padding -/

theorem le_padTo (c x : ℕ) : x ≤ padTo c x := by
  unfold padTo
  split_ifs
  · exact Nat.le_add_right x _
  · exact le_rfl

theorem dvd_padTo {c : ℕ} (hc : 0 < c) (x : ℕ) : c ∣ padTo c x := by
  have hlt := Nat.mod_lt x hc
  unfold padTo
  split_ifs with hx
  · refine ⟨x / c + 1, ?_⟩
    calc x + (c - x % c) = c * (x / c) + x % c + (c - x % c) := by rw [Nat.div_add_mod]
      _ = c * (x / c + 1) := by rw [Nat.mul_succ]; omega
  · exact Nat.dvd_of_mod_eq_zero (not_not.mp hx)

/-- the least multiple -/
theorem padTo_le {c x y : ℕ} (hxy : x ≤ y) (hy : c ∣ y) : padTo c x ≤ y := by
  unfold padTo
  split_ifs with hx
  · have hlt : x < y := lt_of_le_of_ne hxy fun heq => hx (Nat.mod_eq_zero_of_dvd (heq ▸ hy))
    have hdvd : c ∣ y - x / c * c := Nat.dvd_sub hy (Nat.dvd_mul_left c _)
    have hdiv := Nat.div_add_mod' x c
    have hle := Nat.le_of_dvd (by omega) hdvd
    omega
  · exact hxy

theorem padTo_mono {c x y : ℕ} (hc : 0 < c) (hxy : x ≤ y) : padTo c x ≤ padTo c y :=
  padTo_le (hxy.trans (le_padTo c y)) (dvd_padTo hc y)

/-! ## One round -/

namespace Setup

variable {V : Type} {u : Setup V}

theorem gran_cases (u : Setup V) : u.gran = 1 ∨ u.gran = 2 ∨ u.gran = 4 ∨ u.gran = 8 := by
  unfold gran
  cases u.v <;> decide

theorem gran_pos (u : Setup V) : 0 < u.gran := by
  rcases gran_cases u with h | h | h | h <;> rw [h] <;> decide

theorem gran_dvd (u : Setup V) : u.gran ∣ 2 ^ 31 := by
  rcases gran_cases u with h | h | h | h <;> rw [h] <;> decide

/-- the counts of rows are not negative as `int` -/
def RowsInt (u : Setup V) : Prop := ∀ p < u.logical, u.rows p < 2 ^ 31

theorem le_rowsPad {rows : ℕ} (h : rows < 2 ^ 31) : rows ≤ u.rowsPad rows := by
  have hpad : rows + 1 ≤ padTo u.gran (rows + 1) := le_padTo _ _
  have hle : padTo u.gran (rows + 1) ≤ 2 ^ 31 := padTo_le h u.gran_dvd
  have hpad2 := le_padTo 2 (padTo u.gran (rows + 1))
  have hle2 : padTo 2 (padTo u.gran (rows + 1)) ≤ 2 ^ 31 := padTo_le hle (by decide)
  unfold rowsPad
  simp only
  split_ifs
  · rw [Nat.mod_eq_of_lt (by omega)]
    omega
  · rw [Nat.mod_eq_of_lt (by omega)]
    omega

theorem mem_rankIndexes (hmax : u.ranks.sizes.length ≤ u.ranks.maxNranks) {dpuIter r p : ℕ} (hr : r < u.ranks.sizes.length) :
    p ∈ u.rankIndexes dpuIter r ↔ ∃ i, (u.ranks.sizes.take r).sum ≤ i ∧
      i < (u.ranks.sizes.take r).sum + u.ranks.sizes[r]?.getD 0 ∧ u.index dpuIter i = p := by
  have hsum := Ranks.sum_take_succ u.ranks.sizes r
  have hle := Ranks.sum_take_le u.ranks.sizes (r + 1)
  -- no DPU of a rank lies behind the last DPU of the set
  have hall : (List.range (u.ranks.sizes[r]?.getD 0)).takeWhile (fun k => u.ranks.accum r + k < u.ranks.nrDpus) =
      List.range (u.ranks.sizes[r]?.getD 0) := by
    refine List.takeWhile_eq_self_iff.mpr fun k hk => ?_
    rw [u.ranks.accum_eq (by omega), decide_eq_true_eq, Ranks.nrDpus]
    have := List.mem_range.mp hk
    omega
  rw [rankIndexes, hall, u.ranks.accum_eq (by omega), List.mem_map]
  constructor
  · rintro ⟨k, hk, rfl⟩
    exact ⟨_, Nat.le_add_right _ _, Nat.add_lt_add_left (List.mem_range.mp hk) _, rfl⟩
  · rintro ⟨i, hlo, hhi, rfl⟩
    refine ⟨i - (u.ranks.sizes.take r).sum, List.mem_range.mpr (by omega), ?_⟩
    rw [Nat.add_sub_cancel' hlo]

/-- all DPUs of the set have an index below the logical DPUs -/
def InRange (u : Setup V) (dpuIter : ℕ) : Prop := ∀ i < u.ranks.nrDpus, u.index dpuIter i < u.logical

theorem rankIndexes_lt_iff (hmax : u.ranks.sizes.length ≤ u.ranks.maxNranks) {dpuIter : ℕ} :
    (∀ r < u.ranks.sizes.length, ∀ p ∈ u.rankIndexes dpuIter r, p < u.logical) ↔ u.InRange dpuIter := by
  constructor
  · intro h i hi
    obtain ⟨hlen, hlo, hhi⟩ := Ranks.rankOf_spec hi
    exact h _ hlen _ ((mem_rankIndexes hmax hlen).mpr ⟨i, hlo, hhi, rfl⟩)
  · intro h r hr p hp
    obtain ⟨i, -, hhi, rfl⟩ := (mem_rankIndexes hmax hr).mp hp
    have hsum := Ranks.sum_take_succ u.ranks.sizes r
    have hle := Ranks.sum_take_le u.ranks.sizes (r + 1)
    exact h i (by rw [Ranks.nrDpus]; omega)

variable (u) in
/-- the value of `max_rows_per_rank` -/
def rankRows (dpuIter r : ℕ) : ℕ :=
  padTo u.gran (padTo 2 ((u.rankIndexes dpuIter r).foldl (fun m p => max m (u.rows p)) 0)) % 2 ^ 32

/-- **What is retrieved** from a rank: the rows of each of its DPUs, and no more than a slot of `y` holds. -/
theorem rankRows_bounds (hmax : u.ranks.sizes.length ≤ u.ranks.maxNranks) (hint : u.RowsInt) {dpuIter : ℕ}
    (hin : u.InRange dpuIter) {i : ℕ} (hi : i < u.ranks.nrDpus) :
    u.rows (u.index dpuIter i) ≤ u.rankRows dpuIter (rankOf u.ranks.sizes i) ∧
      u.rankRows dpuIter (rankOf u.ranks.sizes i) ≤ u.maxRowsPerDpu := by
  obtain ⟨hlen, hlo, hhi⟩ := Ranks.rankOf_spec hi
  have hlt := (rankIndexes_lt_iff hmax).mpr hin _ hlen
  have hmem : u.index dpuIter i ∈ u.rankIndexes dpuIter (rankOf u.ranks.sizes i) :=
    (mem_rankIndexes hmax hlen).mpr ⟨i, hlo, hhi, rfl⟩
  set top := (u.rankIndexes dpuIter (rankOf u.ranks.sizes i)).foldl (fun m p => max m (u.rows p)) 0 with htop
  have hbound : top ≤ 2 ^ 31 := foldl_max_le (Nat.zero_le _) fun p hp => (hint p (hlt p hp)).le
  have hpad : padTo u.gran (padTo 2 top) ≤ 2 ^ 31 := padTo_le (padTo_le hbound (by decide)) u.gran_dvd
  have heq : u.rankRows dpuIter (rankOf u.ranks.sizes i) = padTo u.gran (padTo 2 top) := by
    rw [rankRows, ← htop]
    exact Nat.mod_eq_of_lt (by omega)
  rw [heq]
  refine ⟨?_, padTo_mono u.gran_pos (padTo_mono (by decide) ?_)⟩
  · calc u.rows (u.index dpuIter i) ≤ top := le_foldl_max hmem 0
      _ ≤ padTo 2 top := le_padTo 2 top
      _ ≤ padTo u.gran (padTo 2 top) := le_padTo _ _
  · refine foldl_max_le (Nat.zero_le _) fun p hp => ?_
    calc u.rows p ≤ u.rowsPad (u.rows p) := le_rowsPad (hint p (hlt p hp))
      _ ≤ _ := le_foldl_max (f := fun p => u.rowsPad (u.rows p)) (List.mem_range.mpr (hlt p hp)) 0

theorem maxRowsPerRank_eq (hmax : u.ranks.sizes.length ≤ u.ranks.maxNranks) {dpuIter : ℕ} (hin : u.InRange dpuIter) :
    u.maxRowsPerRank dpuIter = some (u.rankRows dpuIter) := if_pos ((rankIndexes_lt_iff hmax).mpr hin)

theorem inRange_of_iterate (hmax : u.ranks.sizes.length ≤ u.ranks.maxNranks) {dpuIter : ℕ} {s s' : Served V}
    (h : u.iterate dpuIter s = some s') : u.InRange dpuIter := by
  by_contra hin
  have hnone : u.maxRowsPerRank dpuIter = none := if_neg fun hall => hin ((rankIndexes_lt_iff hmax).mp hall)
  rw [iterate, hnone] at h
  cases h

variable (u) in
/-- a merge of a logical DPU's own rows, all of them retrieved -/
structure Right (m : Merge V) : Prop where
  startRow : m.startRow = u.start m.part
  rows : m.rows = u.rows m.part
  retrieved : m.rows ≤ m.retrieved
  values : m.values = (List.range m.rows).map (u.kernel fun _ => m.part)

variable (u) in
/-- the logical DPUs of a round -/
def roundParts (dpuIter : ℕ) : List ℕ := (List.range u.ranks.nrDpus).map (u.index dpuIter)

variable (u) in
/-- the five transfers -/
def pushAll (dpuIter : ℕ) (s : Served V) : Served V :=
  u.push dpuIter 4 (u.push dpuIter 3 (u.push dpuIter 2 (u.push dpuIter 1 (u.push dpuIter 0 s))))

/-- all inputs of the DPUs are those of the round's logical DPUs -/
theorem pushAll_spec (dpuIter : ℕ) (s : Served V) :
    (∀ i < u.ranks.nrDpus, (u.pushAll dpuIter s).input i = fun _ => u.index dpuIter i) ∧
      ∀ k, (u.pushAll dpuIter s).sent k = s.sent k ++ u.roundParts dpuIter := by
  refine ⟨fun i hi => ?_, fun k => ?_⟩
  · funext j
    simp only [pushAll, push, hi, and_true]
    fin_cases j <;> simp
  · fin_cases k <;> simp [pushAll, push, roundParts]

theorem iterate_eq (hmax : u.ranks.sizes.length ≤ u.ranks.maxNranks) {dpuIter : ℕ} (hin : u.InRange dpuIter)
    (s : Served V) : u.iterate dpuIter s = some (u.merge dpuIter (u.rankRows dpuIter)
      (u.retrieve (u.rankRows dpuIter) (u.launch (u.pushAll dpuIter s)))) := by
  have hsend : ∀ k s, u.send dpuIter k s = some (u.push dpuIter k s) := fun k s => if_pos hin
  rw [iterate, maxRowsPerRank_eq hmax hin]
  simp only [Option.bind_eq_bind, Option.bind_some, hsend, pushAll]

/-- **One round.** -/
theorem iterate_spec (hmax : u.ranks.sizes.length ≤ u.ranks.maxNranks) (hint : u.RowsInt) {dpuIter : ℕ}
    (hin : u.InRange dpuIter) (s : Served V) : ∃ s' ms, u.iterate dpuIter s = some s' ∧
      (∀ k, s'.sent k = s.sent k ++ u.roundParts dpuIter) ∧
      s'.computed = s.computed ++ (u.roundParts dpuIter).map (fun p _ => p) ∧
      s'.merged = s.merged ++ ms ∧ ms.map Merge.part = u.roundParts dpuIter ∧ ∀ m ∈ ms, u.Right m := by
  obtain ⟨hinput, hsent⟩ := pushAll_spec (u := u) dpuIter s
  have hwhile : (List.range u.ranks.nrDpus).takeWhile (fun i => u.index dpuIter i < u.logical) = List.range u.ranks.nrDpus :=
    List.takeWhile_eq_self_iff.mpr fun i hi => decide_eq_true (hin i (List.mem_range.mp hi))
  refine ⟨_, _, iterate_eq hmax hin s, hsent, ?_, rfl, ?_, ?_⟩
  · rw [roundParts, List.map_map]
    exact congrArg (s.computed ++ ·) (List.map_congr_left fun i hi => hinput i (List.mem_range.mp hi))
  · rw [hwhile, List.map_map]
    rfl
  · rw [hwhile]
    intro m hm
    obtain ⟨i, hi, rfl⟩ := List.mem_map.mp hm
    have hi := List.mem_range.mp hi
    obtain ⟨hretrieved, hroom⟩ := rankRows_bounds hmax hint hin hi
    refine ⟨rfl, rfl, hretrieved, List.map_congr_left fun k hk => ?_⟩
    have hk : k < u.rankRows dpuIter (rankOf u.ranks.sizes i) := (List.mem_range.mp hk).trans_le hretrieved
    -- the slots of `y` do not meet, for no rank retrieves more rows than a slot has
    have hget := putAll_get (l := (List.range u.ranks.nrDpus).map fun i =>
      ((⟨i * u.maxRowsPerDpu, u.rankRows dpuIter (rankOf u.ranks.sizes i)⟩ : Range), u.kernel ((u.pushAll dpuIter s).input i))) ?_ s.y
      (List.mem_map.mpr ⟨i, List.mem_range.mpr hi, rfl⟩) hk
    · rw [hinput i hi] at hget
      exact hget
    · intro b hb c hc
      obtain ⟨i, hi, rfl⟩ := List.mem_map.mp hb
      obtain ⟨j, hj, rfl⟩ := List.mem_map.mp hc
      by_cases hij : i = j
      · exact Or.inl (by rw [hij])
      · refine Or.inr ?_
        have hiroom := (rankRows_bounds hmax hint hin (List.mem_range.mp hi)).2
        have hjroom := (rankRows_bounds hmax hint hin (List.mem_range.mp hj)).2
        have hapart := block_apart u.maxRowsPerDpu hij
        unfold Range.Apart block at *
        simp only at hapart ⊢
        omega

/-! ## All rounds -/

variable (u) in
/-- the logical DPUs of the first `n` rounds -/
def parts (n : ℕ) : List ℕ := (List.range n).flatMap fun d => u.roundParts (d * u.ranks.nrDpus)

theorem parts_succ (n : ℕ) : u.parts (n + 1) = u.parts n ++ u.roundParts (n * u.ranks.nrDpus) := by
  simp [parts, List.range_succ]

theorem length_parts (n : ℕ) : (u.parts n).length = n * u.ranks.nrDpus := by
  induction n with
  | zero => simp [parts]
  | succ n ih => rw [parts_succ, List.length_append, ih, roundParts, List.length_map, List.length_range, Nat.succ_mul]

variable (u) in
/-- after `n` rounds -/
structure After (n : ℕ) (s : Served V) : Prop where
  sent : ∀ k, s.sent k = u.parts n
  computed : s.computed = (u.parts n).map fun p _ => p
  merged : s.merged.map Merge.part = u.parts n
  right : ∀ m ∈ s.merged, u.Right m

theorem after_iterate (hmax : u.ranks.sizes.length ≤ u.ranks.maxNranks) (hint : u.RowsInt) {n : ℕ}
    (hin : u.InRange (n * u.ranks.nrDpus)) {s : Served V} (h : u.After n s) :
    ∃ s', u.iterate (n * u.ranks.nrDpus) s = some s' ∧ u.After (n + 1) s' := by
  obtain ⟨s', ms, hiter, hsent, hcomputed, hmerged, hparts, hright⟩ := iterate_spec hmax hint hin s
  refine ⟨s', hiter, fun k => ?_, ?_, ?_, fun m hm => ?_⟩
  · rw [hsent, h.sent, parts_succ]
  · rw [hcomputed, h.computed, parts_succ, List.map_append]
  · rw [hmerged, List.map_append, h.merged, hparts, parts_succ]
  · rw [hmerged] at hm
    exact (List.mem_append.mp hm).elim (h.right m) (hright m)

theorem init_after (input : ℕ → Fin 5 → ℕ) (result : ℕ → ℕ → V) (y : ℕ → V) : u.After 0 (init input result y) :=
  ⟨fun _ => rfl, rfl, rfl, fun _ hm => absurd hm List.not_mem_nil⟩

/-- **A run** that stays in bounds in every round. -/
theorem run_after (hmax : u.ranks.sizes.length ≤ u.ranks.maxNranks) (hint : u.RowsInt)
    (hin : ∀ d < u.rounds, u.InRange (d * u.ranks.nrDpus)) (input : ℕ → Fin 5 → ℕ) (result : ℕ → ℕ → V) (y : ℕ → V) :
    ∃ s, u.run (init input result y) = some s ∧ u.After u.rounds s := by
  obtain ⟨s, hs, hafter⟩ := foldlM_range (fun s d => u.iterate (d * u.ranks.nrDpus) s) u.rounds (init input result y)
    u.After (init_after input result y) fun d hd s h => after_iterate hmax hint (hin d hd) h
  exact ⟨s, (if_pos hmax).trans hs, hafter⟩

/-- a run that comes to its end has stayed in bounds -/
theorem inRange_of_run {s s' : Served V} (h : u.run s = some s') :
    u.ranks.sizes.length ≤ u.ranks.maxNranks ∧ ∀ d < u.rounds, u.InRange (d * u.ranks.nrDpus) := by
  unfold run at h
  split_ifs at h with hmax
  refine ⟨hmax, fun d hd => ?_⟩
  obtain ⟨t, t', hstep⟩ := step_of_foldlM h (List.mem_range.mpr hd)
  exact inRange_of_iterate hmax hstep

end Setup

/-! ## Which logical DPUs are served -/

/-- a place in a block of width `h` says which block it is -/
theorem block_place {h d d' a a' : ℕ} (ha : a < h) (ha' : a' < h) (heq : d * h + a = d' * h + a') : d = d' ∧ a = a' := by
  have hd : d = d' := by
    by_contra hne
    rcases block_apart h hne with hle | hle
    · simp only [block] at hle
      omega
    · simp only [block] at hle
      omega
  subst hd
  exact ⟨rfl, by omega⟩

/-- a DPU of the first half, and one of the second -/
theorem dpuIndex_even {h c d i : ℕ} : dpuIndex (2 * h * c) (2 * h) (d * (2 * h)) i =
    if i < h then d * h + i else c * h + (d * h + (i - h)) := by
  have hhalf : 2 * h / 2 = h := by omega
  have hiter : d * (2 * h) / 2 = d * h := by rw [Nat.mul_left_comm]; omega
  have hlogical : 2 * h * c / 2 = c * h := by rw [Nat.mul_assoc, Nat.mul_comm h c]; omega
  rw [dpuIndex, hhalf, hiter, hlogical]
  split_ifs <;> omega

theorem dpuIndex_lt {h c d i : ℕ} (hd : d < c) (hi : i < 2 * h) :
    dpuIndex (2 * h * c) (2 * h) (d * (2 * h)) i < 2 * h * c := by
  have hroom : d * h + h ≤ c * h := by
    rw [← Nat.succ_mul]
    exact Nat.mul_le_mul_right h hd
  have htotal : 2 * h * c = c * h + c * h := by ring
  rw [dpuIndex_even, htotal]
  split_ifs <;> omega

theorem dpuIndex_inj {h c d d' i i' : ℕ} (hd : d < c) (hd' : d' < c) (hi : i < 2 * h) (hi' : i' < 2 * h)
    (heq : dpuIndex (2 * h * c) (2 * h) (d * (2 * h)) i = dpuIndex (2 * h * c) (2 * h) (d' * (2 * h)) i') :
    d = d' ∧ i = i' := by
  have hroom : d * h + h ≤ c * h := by
    rw [← Nat.succ_mul]
    exact Nat.mul_le_mul_right h hd
  have hroom' : d' * h + h ≤ c * h := by
    rw [← Nat.succ_mul]
    exact Nat.mul_le_mul_right h hd'
  rw [dpuIndex_even, dpuIndex_even] at heq
  split_ifs at heq with hlt hlt' hlt'
  · exact block_place hlt hlt' heq
  · omega
  · omega
  · obtain ⟨hdd, hii⟩ := block_place (h := h) (by omega) (by omega) (Nat.add_left_cancel heq)
    exact ⟨hdd, by omega⟩

namespace Setup

variable {V : Type} {u : Setup V}

/-- **All logical DPUs**, each in one round and on one DPU. -/
theorem parts_perm {h c : ℕ} (hN : u.ranks.nrDpus = 2 * h) (hL : u.logical = 2 * h * c) :
    (u.parts c).Perm (List.range u.logical) := by
  have hindex : ∀ d i, u.index (d * u.ranks.nrDpus) i = dpuIndex (2 * h * c) (2 * h) (d * (2 * h)) i := fun d i => by
    rw [index, hN, hL]
  have hnodup : (u.parts c).Nodup := by
    refine List.nodup_flatMap.mpr ⟨fun d hd => ?_, ?_⟩
    · refine List.Nodup.map_on (fun i hi i' hi' heq => ?_) List.nodup_range
      rw [hindex, hindex] at heq
      rw [List.mem_range, hN] at hi hi'
      exact (dpuIndex_inj (List.mem_range.mp hd) (List.mem_range.mp hd) hi hi' heq).2
    · refine List.Nodup.pairwise_of_forall_ne List.nodup_range fun d hd d' hd' hne => ?_
      intro p hp hp'
      obtain ⟨i, hi, rfl⟩ := List.mem_map.mp hp
      obtain ⟨i', hi', heq⟩ := List.mem_map.mp hp'
      rw [hindex, hindex] at heq
      rw [List.mem_range, hN] at hi hi'
      exact hne (dpuIndex_inj (List.mem_range.mp hd') (List.mem_range.mp hd) hi' hi heq).1.symm
  have hsub : u.parts c ⊆ List.range u.logical := by
    intro p hp
    obtain ⟨d, hd, hp⟩ := List.mem_flatMap.mp hp
    obtain ⟨i, hi, rfl⟩ := List.mem_map.mp hp
    rw [List.mem_range, hN] at hi
    rw [List.mem_range, hindex, hL]
    exact dpuIndex_lt (List.mem_range.mp hd) hi
  refine (List.subperm_of_subset hnodup hsub).perm_of_length_le ?_
  rw [List.length_range, length_parts, hN, hL, Nat.mul_comm]

theorem rounds_eq {c : ℕ} (hL : u.logical = u.ranks.nrDpus * c) : u.rounds = c := by
  have hpos : 0 < u.ranks.nrDpus := u.ranks.pos
  rw [rounds, hL, Nat.add_sub_assoc hpos, Nat.mul_add_div hpos, Nat.div_eq_of_lt (by omega), Nat.add_zero]

/-- **The whole run**, with an even number of DPUs that divides the number of logical ones. -/
theorem served_of_even (hint : u.RowsInt) (heven : 2 ∣ u.ranks.nrDpus) (hdvd : u.ranks.nrDpus ∣ u.logical)
    (hmax : u.ranks.sizes.length ≤ u.ranks.maxNranks) : u.ServedOnce := by
  obtain ⟨h, hN⟩ := heven
  obtain ⟨c, hL⟩ := hdvd
  have hL' : u.logical = 2 * h * c := hN ▸ hL
  have hrounds : u.rounds = c := rounds_eq hL
  have hin : ∀ d < u.rounds, u.InRange (d * u.ranks.nrDpus) := by
    intro d hd i hi
    rw [hrounds] at hd
    rw [hN] at hi
    rw [index, hN, hL']
    exact dpuIndex_lt hd hi
  intro input result y
  obtain ⟨s, hs, hafter⟩ := run_after hmax hint hin input result y
  have hperm := parts_perm hN hL'
  rw [hrounds] at hafter
  refine ⟨s, hs, fun k => hafter.sent k ▸ hperm, ?_, hafter.merged ▸ hperm, fun m hm => ?_⟩
  · rw [hafter.computed]
    exact hperm.map _
  · have hright := hafter.right m hm
    exact ⟨hright.startRow, hright.rows, hright.retrieved, hright.values⟩

/-- what a run that serves every logical DPU once tells about the number of DPUs -/
theorem dvd_of_served (hint : u.RowsInt) (h : u.ServedOnce) :
    u.ranks.sizes.length ≤ u.ranks.maxNranks ∧ u.ranks.nrDpus ∣ u.logical ∧ (u.parts u.rounds).Nodup := by
  set v := u.kernel (fun _ => 0) 0
  obtain ⟨s, hs, honce⟩ := h (fun _ _ => 0) (fun _ _ => v) fun _ => v
  obtain ⟨hmax, hin⟩ := inRange_of_run hs
  obtain ⟨s', hs', hafter⟩ := run_after hmax hint hin (fun _ _ => 0) (fun _ _ => v) fun _ => v
  obtain rfl := Option.some.inj (hs.symm.trans hs')
  have hperm := honce.sent 0
  rw [hafter.sent] at hperm
  have hlen := hperm.length_eq
  rw [length_parts, List.length_range] at hlen
  exact ⟨hmax, ⟨u.rounds, by rw [← hlen, Nat.mul_comm]⟩, hperm.nodup_iff.mpr List.nodup_range⟩

/-- one DPU takes a logical DPU of the second half twice -/
theorem even_of_nodup (hL : ∃ k, u.logical = 2 ^ (k + 2)) (hdvd : u.ranks.nrDpus ∣ u.logical)
    (h : (u.parts u.rounds).Nodup) : 2 ∣ u.ranks.nrDpus := by
  obtain ⟨k, hk⟩ := hL
  obtain ⟨j, -, hj⟩ := (Nat.dvd_prime_pow Nat.prime_two).mp (hk ▸ hdvd)
  rcases Nat.eq_zero_or_pos j with rfl | hpos
  · exfalso
    have hN : u.ranks.nrDpus = 1 := hj
    obtain ⟨q, hq⟩ : ∃ q, u.logical = 2 * q + 2 + 1 + 1 := by
      have hpow : 0 < 2 ^ k := Nat.two_pow_pos k
      rw [hk, pow_add]
      exact ⟨2 * (2 ^ k - 1), by omega⟩
    have hrounds : u.rounds = 2 * q + 2 + 1 + 1 := rounds_eq (by rw [hN, hq, Nat.one_mul])
    rw [hrounds, parts_succ, parts_succ, List.append_assoc] at h
    have hlast := (List.nodup_append.mp h).2.1
    simp only [roundParts, hN, List.range_one, List.map_cons, List.map_nil, index, dpuIndex] at hlast
    have hhalf : ¬ (0 : ℕ) < 1 / 2 := by decide
    rw [if_neg hhalf, if_neg hhalf, List.singleton_append] at hlast
    exact (List.nodup_cons.mp hlast).1 (List.mem_singleton.mpr (by omega))
  · rw [hj]
    exact dvd_pow_self 2 hpos.ne'

end Setup

/-! ## The program -/

theorem logicalDpus_pow (nrPartitions : ℕ) : ∃ k, logicalDpus nrPartitions = 2 ^ (k + 2) := by
  unfold logicalDpus horzPartitions
  split_ifs
  · exact ⟨14, by decide⟩
  · exact ⟨16, by decide⟩

/-- what `main` has when it comes to the loop -/
def setup {V : Type} {n : ℕ} (A : LogicalMatrix α n) (split : UInt32 → UInt32) (k : Ranks) (v : ValDt)
    (kernel : (Fin 5 → ℕ) → ℕ → V) : Setup V :=
  ⟨n, k, v, rowsPerDpu A.toRBDCSRMatrix split, startRow A.toRBDCSRMatrix split, kernel⟩

/-- for whatever `malloc` has left in `row_split` -/
def LogicalOnce {V : Type} {n : ℕ} (A : LogicalMatrix α n) (k : Ranks) (v : ValDt) (kernel : (Fin 5 → ℕ) → ℕ → V) : Prop :=
  ∀ get m, partitionByNnz A.toRBDCSRMatrix ⟨get, []⟩ = some m → (setup A m.get k v kernel).ServedOnce

section Program

variable {n : ℕ} {A : LogicalMatrix α n} {get : UInt32 → UInt32} {m : Slots}

theorem LogicalMatrix.pos (A : LogicalMatrix α n) (hn : 0 < n) :
    0 < A.horzPartitions.toNat ∧ 0 < A.vertPartitions.toNat := by
  rw [← A.logical] at hn
  exact ⟨Nat.pos_of_mul_pos_right hn, Nat.pos_of_mul_pos_left hn⟩

/-- **The rows of a logical DPU** are rows of the matrix. -/
theorem rows_le (hm : partitionByNnz A.toRBDCSRMatrix ⟨get, []⟩ = some m) (hlt : n < 2 ^ 30) {p : ℕ} (hp : p < n) :
    rowsPerDpu A.toRBDCSRMatrix m.get p ≤ A.nrows.toNat := by
  obtain ⟨hH, hV⟩ := A.pos (Nat.zero_lt_of_lt hp)
  have hlogical := A.logical
  have hvert : A.vertPartitions.toNat ≤ n := (Nat.le_mul_of_pos_left _ hH).trans_eq hlogical
  have hfit : A.vertPartitions.toNat * (A.horzPartitions.toNat + 2) < 2 ^ 32 := by
    rw [Nat.mul_add, Nat.mul_comm A.vertPartitions.toNat A.horzPartitions.toNat, hlogical]
    omega
  have hrows : A.nrows.toNat + 1 < 2 ^ 31 := lt_of_le_of_lt (Nat.le_mul_of_pos_left _ hV) A.rowptr_int
  obtain ⟨hcuts, -⟩ := tiles_cuts A.valid hH hV hfit (fun h => by omega) hm
  have hp32 : (UInt32.ofNat p).toNat = p := UInt32.toNat_ofNat_of_lt' (show p < 2 ^ 32 by omega)
  have hc : p / A.horzPartitions.toNat < A.vertPartitions.toNat :=
    (Nat.div_lt_iff_lt_mul hH).mpr (by rw [Nat.mul_comm, hlogical]; exact hp)
  have hr := Nat.mod_lt p hH
  have hdiv : UInt32.ofNat p / A.horzPartitions = UInt32.ofNat (p / A.horzPartitions.toNat) := by
    rw [← UInt32.toNat_inj, UInt32.toNat_div, hp32, UInt32.toNat_ofNat_of_lt' (show _ < 2 ^ 32 by omega)]
  have hmod : UInt32.ofNat p % A.horzPartitions = UInt32.ofNat (p % A.horzPartitions.toNat) := by
    rw [← UInt32.toNat_inj, UInt32.toNat_mod, hp32, UInt32.toNat_ofNat_of_lt' (hr.trans A.horzPartitions.toNat_lt)]
  have hslot : rowSlot A.toRBDCSRMatrix (UInt32.ofNat p) =
      UInt32.ofNat (p / A.horzPartitions.toNat * (A.horzPartitions.toNat + 1) + p % A.horzPartitions.toNat) := by
    rw [rowSlot, hdiv, hmod, tile_slot]
  have hnext : rowSlot A.toRBDCSRMatrix (UInt32.ofNat p) + 1 =
      UInt32.ofNat (p / A.horzPartitions.toNat * (A.horzPartitions.toNat + 1) + (p % A.horzPartitions.toNat + 1)) := by
    rw [hslot]
    exact (UInt32.ofNat_add _ 1).symm
  rw [rowsPerDpu, hnext, hslot, UInt32.toNat_sub_of_le _ _ (UInt32.le_iff_toNat_le.mpr ((hcuts _ hc).mono _ hr))]
  exact (Nat.sub_le _ _).trans ((hcuts _ hc).le_hi hr)

theorem rowsInt (hm : partitionByNnz A.toRBDCSRMatrix ⟨get, []⟩ = some m) (hlt : n < 2 ^ 30) {V : Type} (k : Ranks)
    (v : ValDt) (kernel : (Fin 5 → ℕ) → ℕ → V) : (setup A m.get k v kernel).RowsInt := by
  intro p hp
  have hrows : A.nrows.toNat + 1 < 2 ^ 31 :=
    lt_of_le_of_lt (Nat.le_mul_of_pos_left _ (A.pos (Nat.zero_lt_of_lt hp)).2) A.rowptr_int
  exact (rows_le hm hlt hp).trans_lt (by omega)

theorem logicalDpus_lt (nrPartitions : ℕ) : 0 < logicalDpus nrPartitions ∧ logicalDpus nrPartitions < 2 ^ 30 := by
  unfold logicalDpus horzPartitions
  split_ifs <;> decide

/-- the row split of the matrix comes to its end -/
theorem split_returns (A : LogicalMatrix α n) (hpos : 0 < n) (hlt : n < 2 ^ 30) :
    ∃ m, partitionByNnz A.toRBDCSRMatrix ⟨fun _ => 0, []⟩ = some m := by
  obtain ⟨hH, hV⟩ := A.pos hpos
  have hle : A.horzPartitions.toNat ≤ n := (Nat.le_mul_of_pos_right _ hV).trans_eq A.logical
  refine partitionByNnz_returns A.valid (fun hzero => ?_) (by omega) _
  rw [hzero] at hH
  exact absurd hH (by decide)

/-- what has to hold of the number of DPUs -/
theorem ranks_of_once {nrPartitions : ℕ} {A : LogicalMatrix α (logicalDpus nrPartitions)} {V : Type} {k : Ranks} {v : ValDt}
    {kernel : (Fin 5 → ℕ) → ℕ → V} (h : LogicalOnce A k v kernel) :
    2 ∣ k.nrDpus ∧ k.nrDpus ∣ logicalDpus nrPartitions ∧ k.sizes.length ≤ k.maxNranks := by
  obtain ⟨hpos, hlt⟩ := logicalDpus_lt nrPartitions
  obtain ⟨m, hm⟩ := split_returns A hpos hlt
  obtain ⟨hmax, hdvd, hnodup⟩ := Setup.dvd_of_served (rowsInt hm hlt k v kernel) (h _ m hm)
  exact ⟨Setup.even_of_nodup (logicalDpus_pow nrPartitions) hdvd hnodup, hdvd, hmax⟩

end Program

/-- two rows in the first of two tiles, for 65536 logical DPUs -/
def twoRowsLogical : LogicalMatrix Unit (logicalDpus 256) where
  toRBDCSRMatrix := twoRows 32768 2
  valid := twoRows_valid 32768 (by decide) (by decide)
  logical := by decide
  rowptr_int := by decide

end PimOfis.SpMV
