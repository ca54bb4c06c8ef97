/-
The row splits of SparseP_EW (`partition.h`): `partition_by_nnz` shares the rows of a tile over its horizontal
partitions, `partition_tsklt_by_nnz` the rows of a DPU over its tasklets.

Both scan the rows once and close a part as soon as it has its share of entries, in the second function only at a row
that ends a group of `8 / byte_dt` rows, so that no two tasklets write one 8-byte word. Three steps patch the tail: the
rows that are left over fill one more part; parts beyond the last are merged into it; parts that are missing are empty.
`splitRows` is the loop and the patches for any granularity, and `splitRows_spec` says what is in the array behind it.

Results:
- `cutRows_sim`: the loop is the greedy scan of the row pointers;
- `splitRows_spec`: the array afterwards, and the indexes written;
- `last_iff`: the last part ends at the last row unless the scan has cut all parts and left over a full share.
-/
import Mathlib.Tactic
import PimOfis.Lib.Cuts
import PimOfis.Lib.Greedy

namespace PimOfis.SpMV

open Lib Greedy

/-! ## Model -/

/-- an array of `uint32_t`, and the indexes written to it -/
structure Slots where
  get : UInt32 → UInt32
  touched : List UInt32

def Slots.put (m : Slots) (i v : UInt32) : Slots := ⟨Function.update m.get i v, m.touched ++ [i]⟩

/-- the variables of the loop over rows -/
structure Cursor where
  currNnz : UInt32
  splitCnt : UInt32
  split : Slots

/-- one row: its entries are added, and the part is closed if it has its share and the row ends a group -/
def cutRow (granularity perSplit parts sptr : UInt32) (ptr : UInt32 → UInt32) (c : Cursor) (t : UInt32) : Cursor :=
  let currNnz := c.currNnz + (ptr (t + 1) - ptr t)
  if currNnz ≥ perSplit ∧ (t + 1) % granularity = 0 then
    let rowStart := t + 1
    let splitCnt := c.splitCnt + 1
    ⟨0, splitCnt, if splitCnt ≤ parts then c.split.put (sptr + splitCnt) rowStart else c.split⟩
  else { c with currNnz := currNnz }

/-- the first `k` rows -/
def cutRows (granularity perSplit parts sptr : UInt32) (ptr : UInt32 → UInt32) (split : Slots) (k : ℕ) : Cursor :=
  (List.range k).foldl (fun c t => cutRow granularity perSplit parts sptr ptr c (UInt32.ofNat t)) ⟨0, 0, split.put sptr 0⟩

/-- the last split takes the remaining rows -/
def fillLast (perSplit parts sptr rows : UInt32) (c : Cursor) : Cursor :=
  if c.currNnz < perSplit ∧ c.splitCnt ≤ parts then
    { c with splitCnt := c.splitCnt + 1, split := c.split.put (sptr + (c.splitCnt + 1)) rows }
  else c

/-- remaining rows are merged into the last split -/
def mergeRest (parts sptr rows : UInt32) (c : Cursor) : Slots :=
  if c.splitCnt > parts then c.split.put (sptr + parts) rows else c.split

/-- `for (i = first; i <= parts; i++) row_split[sptr + i] = rows`; with the largest `parts` it does not end -/
def emptySplits (parts sptr rows first : UInt32) (split : Slots) : Option Slots :=
  if parts + 1 = 0 then none
  else some ((List.range' first.toNat (parts.toNat + 1 - first.toNat)).foldl
    (fun m i => m.put (sptr + UInt32.ofNat i) rows) split)

/-- the rows `ptr` points to, split into `parts` parts from slot `sptr` on -/
def splitRows (granularity perSplit parts sptr rows : UInt32) (ptr : UInt32 → UInt32) (split : Slots) : Option Slots :=
  let c := fillLast perSplit parts sptr rows (cutRows granularity perSplit parts sptr ptr split rows.toNat)
  emptySplits parts sptr rows (c.splitCnt + 1) (mergeRest parts sptr rows c)

/-! ## The array -/

/-- `m'` is `m` with `f x` at `sptr + x` for every `x` with `P x` -/
structure Fills (m m' : Slots) (sptr : UInt32) (P : UInt32 → Prop) (f : UInt32 → UInt32) : Prop where
  get : ∀ x, P x → m'.get (sptr + x) = f x
  keep : ∀ x, ¬ P x → m'.get (sptr + x) = m.get (sptr + x)
  touched : ∀ x, sptr + x ∈ m'.touched ↔ sptr + x ∈ m.touched ∨ P x

namespace Fills

variable {m m' : Slots} {sptr : UInt32} {P Q : UInt32 → Prop} {f g : UInt32 → UInt32}

theorem refl (m : Slots) (sptr : UInt32) (f : UInt32 → UInt32) : Fills m m sptr (fun _ => False) f where
  get x h := h.elim
  keep x _ := rfl
  touched x := by rw [or_false]

theorem congr (h : Fills m m' sptr P f) (hPQ : ∀ x, P x ↔ Q x) (hfg : ∀ x, Q x → f x = g x) : Fills m m' sptr Q g where
  get x hx := (h.get x ((hPQ x).mpr hx)).trans (hfg x hx)
  keep x hx := h.keep x fun hp => hx ((hPQ x).mp hp)
  touched x := by rw [h.touched x, hPQ x]

theorem put (h : Fills m m' sptr P f) {k : ℕ} (hk : k < 2 ^ 32) (v : UInt32) :
    Fills m (m'.put (sptr + UInt32.ofNat k) v) sptr (fun x => P x ∨ x.toNat = k) (fun x => if x.toNat = k then v else f x) := by
  have hat : ∀ x : UInt32, sptr + x = sptr + UInt32.ofNat k ↔ x.toNat = k := by
    intro x
    rw [UInt32.add_right_inj, ← UInt32.toNat_inj, UInt32.toNat_ofNat_of_lt' hk]
  refine ⟨?_, ?_, ?_⟩
  · intro x hx
    by_cases hxk : x.toNat = k
    · rw [if_pos hxk, (hat x).mpr hxk]
      exact Function.update_self ..
    · rw [if_neg hxk, ← h.get x (hx.resolve_right hxk)]
      exact Function.update_of_ne (fun heq => hxk ((hat x).mp heq)) _ _
  · intro x hx
    rw [not_or] at hx
    rw [← h.keep x hx.1]
    exact Function.update_of_ne (fun heq => hx.2 ((hat x).mp heq)) _ _
  · intro x
    show sptr + x ∈ m'.touched ++ [sptr + UInt32.ofNat k] ↔ _
    rw [List.mem_append, List.mem_singleton, h.touched x, hat, or_assoc]

/-- a loop that puts `v` in the `len` slots from `first` on -/
theorem putRange (h : Fills m m' sptr P f) {first len : ℕ} (hlen : first + len ≤ 2 ^ 32) (v : UInt32) :
    Fills m ((List.range' first len).foldl (fun a i => a.put (sptr + UInt32.ofNat i) v) m') sptr
      (fun x => P x ∨ first ≤ x.toNat ∧ x.toNat < first + len)
      (fun x => if first ≤ x.toNat ∧ x.toNat < first + len then v else f x) := by
  induction len with
  | zero =>
    apply h.congr
    · intro x
      exact (or_iff_left (by omega)).symm
    · intro x _
      rw [if_neg (by omega)]
  | succ len ih =>
    rw [List.range'_1_concat, List.foldl_append]
    apply ((ih (by omega)).put (k := first + len) (by omega) v).congr
    · intro x
      rw [or_assoc]
      exact or_congr_right (by omega)
    · intro x _
      by_cases hx : x.toNat = first + len
      · rw [if_pos hx, if_pos (by omega)]
      · rw [if_neg hx]
        exact if_congr (by omega) rfl rfl

/-- slots in front of `sptr` are kept, if the ones that are filled do not wrap -/
theorem get_of_lt (h : Fills m m' sptr P f) {n : ℕ} (hP : ∀ x, P x → x.toNat ≤ n) (hroom : sptr.toNat + n < 2 ^ 32)
    {i : UInt32} (hi : i.toNat < sptr.toNat) : m'.get i = m.get i := by
  have hx : sptr + (i - sptr) = i := by rw [UInt32.add_comm, UInt32.sub_add_cancel]
  rw [← hx]
  apply h.keep
  intro hfilled
  have hle := hP _ hfilled
  have hsum := congrArg UInt32.toNat hx
  rw [UInt32.toNat_add, Nat.mod_eq_of_lt (by omega)] at hsum
  omega

/-- the indexes written are those from before, and up to `n` behind `sptr` -/
theorem touched_le (h : Fills m m' sptr P f) {n : ℕ} (hP : ∀ x, P x → x.toNat ≤ n) (hroom : sptr.toNat + n < 2 ^ 32)
    {i : UInt32} (hi : i ∈ m'.touched) : i ∈ m.touched ∨ i.toNat ≤ sptr.toNat + n := by
  have hx : sptr + (i - sptr) = i := by rw [UInt32.add_comm, UInt32.sub_add_cancel]
  rw [← hx] at hi
  rcases (h.touched _).mp hi with hold | hnew
  · rw [hx] at hold
    exact Or.inl hold
  · have hle := hP _ hnew
    have hsum := congrArg UInt32.toNat hx
    rw [UInt32.toNat_add, Nat.mod_eq_of_lt (by omega)] at hsum
    exact Or.inr (by omega)

end Fills

/-! ## The loop is the greedy scan -/

/-- the entries of the rows `a, ..., b - 1` -/
def entries (ptr : UInt32 → UInt32) (a b : ℕ) : ℕ := (ptr (UInt32.ofNat b)).toNat - (ptr (UInt32.ofNat a)).toNat

/-- a part of the rows from `a` may end in front of row `b` -/
def closable (granularity perSplit : ℕ) (ptr : UInt32 → UInt32) (a b : ℕ) : Prop :=
  perSplit ≤ entries ptr a b ∧ granularity ∣ b

instance (granularity perSplit : ℕ) (ptr : UInt32 → UInt32) : DecidableRel (closable granularity perSplit ptr) :=
  fun _ _ => inferInstanceAs (Decidable (_ ∧ _))

/-- the row pointers of `rows` rows do not fall -/
def Sorted (ptr : UInt32 → UInt32) (rows : ℕ) : Prop :=
  ∀ t < rows, (ptr (UInt32.ofNat t)).toNat ≤ (ptr (UInt32.ofNat (t + 1))).toNat

theorem Sorted.le {ptr : UInt32 → UInt32} {rows : ℕ} (h : Sorted ptr rows) {a b : ℕ} (hab : a ≤ b) (hb : b ≤ rows) :
    (ptr (UInt32.ofNat a)).toNat ≤ (ptr (UInt32.ofNat b)).toNat := by
  induction b, hab using Nat.le_induction with
  | base => exact le_refl _
  | succ b _ ih => exact (ih (Nat.le_of_succ_le hb)).trans (h b hb)

theorem Sorted.grows {ptr : UInt32 → UInt32} {rows : ℕ} (h : Sorted ptr rows) (granularity perSplit : ℕ) :
    Grows (closable granularity perSplit ptr) rows := by
  intro a a' b ha hab hb hclose
  refine ⟨hclose.1.trans ?_, hclose.2⟩
  exact Nat.sub_le_sub_left (h.le ha (hab.le.trans hb)) _

variable {granularity perSplit parts sptr : UInt32} {ptr : UInt32 → UInt32} {m : Slots} {rows : ℕ}

/-- the scan the loop carries out -/
abbrev rowScan (granularity perSplit : UInt32) (ptr : UInt32 → UInt32) (k : ℕ) : Scan :=
  scan (closable granularity.toNat perSplit.toNat ptr) k

/-- the loop after `k` rows, beside the scan -/
structure Sim (granularity perSplit parts sptr : UInt32) (ptr : UInt32 → UInt32) (m : Slots) (k : ℕ) (s : Scan) (c : Cursor) :
    Prop where
  cnt : c.splitCnt = UInt32.ofNat s.count
  nnz : c.currNnz = ptr (UInt32.ofNat k) - ptr (UInt32.ofNat s.last)
  fills : Fills m c.split sptr (fun x => x.toNat ≤ s.count ∧ x ≤ parts) (fun x => UInt32.ofNat (s.cut x.toNat))

theorem step_sim {k : ℕ} {s : Scan} {c : Cursor} (hsorted : Sorted ptr rows) (hk : k < rows) (hrows : rows < 2 ^ 32)
    (hi : Inv (closable granularity.toNat perSplit.toNat ptr) k s) (h : Sim granularity perSplit parts sptr ptr m k s c) :
    Sim granularity perSplit parts sptr ptr m (k + 1) (s.step (closable granularity.toNat perSplit.toNat ptr) (k + 1))
      (cutRow granularity perSplit parts sptr ptr c (UInt32.ofNat k)) := by
  have hsucc : UInt32.ofNat k + 1 = UInt32.ofNat (k + 1) := (UInt32.ofNat_add k 1).symm
  have hnext : (UInt32.ofNat (k + 1)).toNat = k + 1 := UInt32.toNat_ofNat_of_lt' (lt_of_le_of_lt hk hrows)
  have hcount : (UInt32.ofNat s.count).toNat = s.count :=
    UInt32.toNat_ofNat_of_lt' (hi.count_le.trans_lt (hk.trans hrows))
  have hcount' : (UInt32.ofNat (s.count + 1)).toNat = s.count + 1 :=
    UInt32.toNat_ofNat_of_lt' (lt_of_le_of_lt (Nat.succ_le_succ hi.count_le) (lt_of_le_of_lt hk hrows))
  have hnnz : c.currNnz + (ptr (UInt32.ofNat k + 1) - ptr (UInt32.ofNat k)) =
      ptr (UInt32.ofNat (k + 1)) - ptr (UInt32.ofNat s.last) := by
    rw [h.nnz, hsucc]
    grind
  have hclose : (c.currNnz + (ptr (UInt32.ofNat k + 1) - ptr (UInt32.ofNat k)) ≥ perSplit ∧
      (UInt32.ofNat k + 1) % granularity = 0) ↔ closable granularity.toNat perSplit.toNat ptr s.last (k + 1) := by
    have hle := hsorted.le (hi.last_le.trans (Nat.le_succ k)) hk
    rw [hnnz, hsucc, ge_iff_le, UInt32.le_iff_toNat_le, UInt32.toNat_sub_of_le _ _ (UInt32.le_iff_toNat_le.mpr hle),
      ← UInt32.toNat_inj, UInt32.toNat_mod, hnext]
    exact and_congr_right fun _ => (Nat.dvd_iff_mod_eq_zero ..).symm
  unfold cutRow
  dsimp only
  by_cases hc : closable granularity.toNat perSplit.toNat ptr s.last (k + 1)
  · rw [if_pos (hclose.mpr hc), Scan.step_closed hc, hsucc, h.cnt,
      show UInt32.ofNat s.count + 1 = UInt32.ofNat (s.count + 1) from (UInt32.ofNat_add s.count 1).symm]
    refine ⟨rfl, by rw [Scan.shut_last, UInt32.sub_self], ?_⟩
    dsimp only
    split_ifs with hparts
    · rw [UInt32.le_iff_toNat_le, hcount'] at hparts
      apply (h.fills.put (lt_of_le_of_lt hparts parts.toNat_lt) _).congr
      · intro x
        rw [Scan.shut_count, UInt32.le_iff_toNat_le]
        omega
      · intro x hx
        rw [Scan.shut_count] at hx
        by_cases hxc : x.toNat = s.count + 1
        · rw [if_pos hxc, hxc, Scan.shut_new]
        · rw [if_neg hxc, Scan.shut_old]
          omega
    · rw [UInt32.le_iff_toNat_le, hcount'] at hparts
      apply h.fills.congr
      · intro x
        rw [Scan.shut_count, UInt32.le_iff_toNat_le]
        omega
      · intro x hx
        rw [Scan.shut_count, UInt32.le_iff_toNat_le] at hx
        rw [Scan.shut_old]
        omega
  · rw [if_neg (fun hcond => hc (hclose.mp hcond)), Scan.step_open hc]
    exact ⟨h.cnt, hnnz, h.fills⟩

/-- **The loop is the greedy scan**, as long as the row numbers fit. -/
theorem cutRows_sim (hsorted : Sorted ptr rows) (hrows : rows < 2 ^ 32) {k : ℕ} (hk : k ≤ rows) :
    Sim granularity perSplit parts sptr ptr m k (rowScan granularity perSplit ptr k)
      (cutRows granularity perSplit parts sptr ptr m k) := by
  induction k with
  | zero =>
    refine ⟨rfl, (UInt32.sub_self ..).symm, ?_⟩
    have hfirst := (Fills.refl m sptr fun _ => 0).put (k := 0) (by decide) 0
    rw [show UInt32.ofNat 0 = 0 from rfl, UInt32.add_zero] at hfirst
    apply hfirst.congr
    · intro x
      rw [false_or, UInt32.le_iff_toNat_le]
      show x.toNat = 0 ↔ x.toNat ≤ 0 ∧ _
      omega
    · intro x _
      exact ite_self 0
  | succ k ih =>
    rw [cutRows, List.range_succ, List.foldl_append]
    exact step_sim hsorted hk hrows (scan_inv k) (ih (Nat.le_of_succ_le hk))

/-! ## The tail -/

/-- the open part has not got its share -/
def Short (perSplit : UInt32) (ptr : UInt32 → UInt32) (rows : ℕ) (s : Scan) : Prop :=
  entries ptr s.last rows < perSplit.toNat

instance (s : Scan) : Decidable (Short perSplit ptr rows s) := inferInstanceAs (Decidable (_ < _))

/-- where part `k` starts, and the part before it ends -/
def splitAt (perSplit : UInt32) (ptr : UInt32 → UInt32) (parts rows : ℕ) (s : Scan) (k : ℕ) : ℕ :=
  if k ≤ s.count ∧ (k < parts ∨ k = s.count ∧ ¬ Short perSplit ptr rows s) then s.cut k else rows

/-- the slots that are written: one more than the parts need if the scan has cut them all and is short of one -/
def Written (perSplit : UInt32) (ptr : UInt32 → UInt32) (parts rows : ℕ) (s : Scan) (k : ℕ) : Prop :=
  k ≤ parts ∨ k = parts + 1 ∧ s.count = parts ∧ Short perSplit ptr rows s

/-- how many splits there are when the open part has been filled in -/
def filled (perSplit : UInt32) (ptr : UInt32 → UInt32) (parts rows : ℕ) (s : Scan) : ℕ :=
  if Short perSplit ptr rows s ∧ s.count ≤ parts then s.count + 1 else s.count

section Patches

variable {s : Scan} {c : Cursor}

theorem short_iff (hsorted : Sorted ptr rows) (hlast : s.last ≤ rows)
    (h : Sim granularity perSplit parts sptr ptr m rows s c) : c.currNnz < perSplit ↔ Short perSplit ptr rows s := by
  have hle := hsorted.le hlast le_rfl
  rw [h.nnz, UInt32.lt_iff_toNat_lt, UInt32.toNat_sub_of_le _ _ (UInt32.le_iff_toNat_le.mpr hle)]
  rfl

theorem fillLast_spec (hsorted : Sorted ptr rows) (hlast : s.last ≤ rows) (hcount : s.count < 2 ^ 32)
    (hparts : parts.toNat + 1 < 2 ^ 32) (h : Sim granularity perSplit parts sptr ptr m rows s c) :
    (fillLast perSplit parts sptr (UInt32.ofNat rows) c).splitCnt = UInt32.ofNat (filled perSplit ptr parts.toNat rows s) ∧
      Fills m (fillLast perSplit parts sptr (UInt32.ofNat rows) c).split sptr
        (fun x => (x.toNat ≤ s.count ∧ x.toNat ≤ parts.toNat) ∨
          x.toNat = s.count + 1 ∧ Short perSplit ptr rows s ∧ s.count ≤ parts.toNat)
        (fun x => if x.toNat ≤ s.count then UInt32.ofNat (s.cut x.toNat) else UInt32.ofNat rows) := by
  have hcnt : (UInt32.ofNat s.count).toNat = s.count := UInt32.toNat_ofNat_of_lt' hcount
  have hcond : (c.currNnz < perSplit ∧ c.splitCnt ≤ parts) ↔ Short perSplit ptr rows s ∧ s.count ≤ parts.toNat := by
    rw [short_iff hsorted hlast h, h.cnt, UInt32.le_iff_toNat_le, hcnt]
  have hsucc : UInt32.ofNat s.count + 1 = UInt32.ofNat (s.count + 1) := (UInt32.ofNat_add s.count 1).symm
  unfold fillLast filled
  by_cases hfill : Short perSplit ptr rows s ∧ s.count ≤ parts.toNat
  · rw [if_pos (hcond.mpr hfill), if_pos hfill, h.cnt, hsucc]
    refine ⟨rfl, (h.fills.put (lt_of_le_of_lt (Nat.succ_le_succ hfill.2) hparts) _).congr ?_ ?_⟩
    · intro x
      rw [UInt32.le_iff_toNat_le]
      simp only [hfill, and_self, and_true]
    · intro x hx
      by_cases hxc : x.toNat = s.count + 1
      · rw [if_pos hxc, if_neg (by omega)]
      · rw [if_neg hxc, if_pos (by omega)]
  · rw [if_neg (fun hc => hfill (hcond.mp hc)), if_neg hfill]
    refine ⟨h.cnt, h.fills.congr ?_ ?_⟩
    · intro x
      rw [UInt32.le_iff_toNat_le]
      simp only [hfill, and_false, or_false]
    · intro x hx
      rw [if_pos]
      rcases hx with hx | hx
      · exact hx.1
      · exact absurd hx.2 hfill

/-- the merged array: part `parts` ends at the last row if more splits were made -/
theorem mergeRest_spec {n : ℕ} {P : UInt32 → Prop} {f : UInt32 → UInt32} (hn : n < 2 ^ 32) (parts last : UInt32)
    (hcnt : c.splitCnt = UInt32.ofNat n) (h : Fills m c.split sptr P f) :
    Fills m (mergeRest parts sptr last c) sptr (fun x => P x ∨ x.toNat = parts.toNat ∧ parts.toNat < n)
      (fun x => if x.toNat = parts.toNat ∧ parts.toNat < n then last else f x) := by
  have hput := h.put parts.toNat_lt last
  rw [UInt32.ofNat_toNat] at hput
  have hcond : c.splitCnt > parts ↔ parts.toNat < n := by
    rw [gt_iff_lt, UInt32.lt_iff_toNat_lt, hcnt, UInt32.toNat_ofNat_of_lt' hn]
  unfold mergeRest
  by_cases hmore : parts.toNat < n
  · rw [if_pos (hcond.mpr hmore)]
    simpa only [hmore, and_true] using hput
  · rw [if_neg (fun hc => hmore (hcond.mp hc))]
    simpa only [hmore, and_false, or_false, if_false] using h

/-- the slots behind the splits that were made are empty parts -/
theorem emptySplits_spec {m' : Slots} {n : ℕ} {P : UInt32 → Prop} {f : UInt32 → UInt32} (hparts : parts.toNat + 1 < 2 ^ 32)
    (hn : n < 2 ^ 32) (last : UInt32) (h : Fills m m' sptr P f) :
    ∃ m'', emptySplits parts sptr last (UInt32.ofNat n) m' = some m'' ∧
      Fills m m'' sptr (fun x => P x ∨ n ≤ x.toNat ∧ x.toNat ≤ parts.toNat)
        (fun x => if n ≤ x.toNat ∧ x.toNat ≤ parts.toNat then last else f x) := by
  have hne : ¬ parts + 1 = 0 := by
    rw [← UInt32.toNat_inj, UInt32.toNat_add]
    show ¬ (parts.toNat + 1) % 2 ^ 32 = 0
    omega
  unfold emptySplits
  rw [if_neg hne, UInt32.toNat_ofNat_of_lt' hn]
  refine ⟨_, rfl, (h.putRange (by omega) last).congr ?_ ?_⟩
  · intro x
    exact or_congr_right (by omega)
  · intro x _
    exact if_congr (by omega) rfl rfl

end Patches

/-- what the array holds in front of the loop over empty parts -/
theorem patched_spec (granularity perSplit parts sptr : UInt32) (m : Slots) (hsorted : Sorted ptr rows)
    (hrows : rows < 2 ^ 32) (hparts : parts.toNat + 1 < 2 ^ 32) :
    ∃ n, n = filled perSplit ptr parts.toNat rows (rowScan granularity perSplit ptr rows) ∧ n < 2 ^ 32 ∧
      ∃ m', splitRows granularity perSplit parts sptr (UInt32.ofNat rows) ptr m =
          emptySplits parts sptr (UInt32.ofNat rows) (UInt32.ofNat (n + 1)) m' ∧
        Fills m m' sptr
          (fun x => ((x.toNat ≤ (rowScan granularity perSplit ptr rows).count ∧ x.toNat ≤ parts.toNat) ∨
            x.toNat = (rowScan granularity perSplit ptr rows).count + 1 ∧
              Short perSplit ptr rows (rowScan granularity perSplit ptr rows) ∧
                (rowScan granularity perSplit ptr rows).count ≤ parts.toNat) ∨ x.toNat = parts.toNat ∧ parts.toNat < n)
          (fun x => if x.toNat = parts.toNat ∧ parts.toNat < n then UInt32.ofNat rows
            else if x.toNat ≤ (rowScan granularity perSplit ptr rows).count then
              UInt32.ofNat ((rowScan granularity perSplit ptr rows).cut x.toNat) else UInt32.ofNat rows) := by
  have hrows' : (UInt32.ofNat rows).toNat = rows := UInt32.toNat_ofNat_of_lt' hrows
  have hsim : Sim granularity perSplit parts sptr ptr m rows (rowScan granularity perSplit ptr rows)
      (cutRows granularity perSplit parts sptr ptr m rows) := cutRows_sim hsorted hrows le_rfl
  have hinv : Inv (closable granularity.toNat perSplit.toNat ptr) rows (rowScan granularity perSplit ptr rows) := scan_inv rows
  unfold splitRows
  rw [hrows']
  generalize rowScan granularity perSplit ptr rows = s at *
  have hcount := hinv.count_le.trans_lt hrows
  obtain ⟨hcnt, hfill⟩ := fillLast_spec hsorted hinv.last_le hcount hparts hsim
  have hn : filled perSplit ptr parts.toNat rows s < 2 ^ 32 := by
    unfold filled
    split_ifs with hfilled
    · exact lt_of_le_of_lt (Nat.succ_le_succ hfilled.2) hparts
    · exact hcount
  refine ⟨_, rfl, hn, _, ?_, mergeRest_spec hn parts (UInt32.ofNat rows) hcnt hfill⟩
  dsimp only
  rw [hcnt, UInt32.ofNat_add]
  rfl

/-- with 2^32 - 1 splits the number of the next one wraps to 0, and all parts end up empty -/
def slotAt (perSplit : UInt32) (ptr : UInt32 → UInt32) (parts rows : ℕ) (s : Scan) (k : ℕ) : ℕ :=
  if filled perSplit ptr parts rows s + 1 = 2 ^ 32 then rows else splitAt perSplit ptr parts rows s k

/-- **A split array.** With fewer than 2^32 - 1 parts the function returns, and the slots from `sptr` on hold the cuts of
the scan, the rows behind them merged or filled in, unless the number of splits is 2^32 - 1. -/
theorem splitRows_spec (granularity perSplit parts sptr : UInt32) (m : Slots) (hsorted : Sorted ptr rows)
    (hrows : rows < 2 ^ 32) (hparts : parts.toNat + 1 < 2 ^ 32) :
    ∃ m', splitRows granularity perSplit parts sptr (UInt32.ofNat rows) ptr m = some m' ∧
      Fills m m' sptr (fun x => Written perSplit ptr parts.toNat rows (rowScan granularity perSplit ptr rows) x.toNat)
        (fun x => UInt32.ofNat (slotAt perSplit ptr parts.toNat rows (rowScan granularity perSplit ptr rows) x.toNat)) := by
  obtain ⟨n, hn, hlt, m', hrun, hmerge⟩ := patched_spec granularity perSplit parts sptr m hsorted hrows hparts
  unfold slotAt
  rw [← hn]
  by_cases hwrap : n + 1 = 2 ^ 32
  · -- the loop over empty parts starts at 0
    obtain ⟨m'', hm'', hempty⟩ := emptySplits_spec (n := 0) hparts (by decide) (UInt32.ofNat rows) hmerge
    rw [hwrap] at hrun
    refine ⟨m'', hrun.trans hm'', hempty.congr ?_ ?_⟩
    · intro x
      unfold filled at hn
      unfold Written
      by_cases hshort : Short perSplit ptr rows (rowScan granularity perSplit ptr rows)
      · simp only [hshort, true_and, and_true] at hn ⊢
        split_ifs at hn <;> omega
      · simp only [hshort, false_and, and_false, or_false]
        omega
    · intro x hx
      rw [if_pos hwrap]
      unfold filled at hn
      unfold Written at hx
      split_ifs at hn ⊢ <;> first | rfl | omega
  · obtain ⟨m'', hm'', hempty⟩ := emptySplits_spec (n := n + 1) hparts (by omega) (UInt32.ofNat rows) hmerge
    refine ⟨m'', hrun.trans hm'', hempty.congr ?_ ?_⟩
    · intro x
      rw [hn]
      unfold filled Written
      by_cases hshort : Short perSplit ptr rows (rowScan granularity perSplit ptr rows)
      · simp only [hshort, true_and, and_true]
        split_ifs <;> omega
      · simp only [hshort, false_and, and_false, if_false, or_false]
        omega
    · intro x hx
      rw [if_neg hwrap, hn]
      unfold filled splitAt
      unfold Written at hx
      by_cases hshort : Short perSplit ptr rows (rowScan granularity perSplit ptr rows)
      · simp only [hshort, true_and, not_true_eq_false, and_false, or_false]
        split_ifs <;> first | rfl | omega
      · simp only [hshort, false_and, not_false_eq_true, and_true, if_false]
        split_ifs <;> first | rfl | omega

/-! ## The parts -/

section Parts

variable {g τ parts : ℕ} {perSplit : UInt32} {s : Scan}

theorem splitAt_of_lt {k : ℕ} (hk : k < parts) :
    splitAt perSplit ptr parts rows s k = if k ≤ s.count then s.cut k else rows := by
  unfold splitAt
  exact if_congr (by simp only [hk, true_or, and_true]) rfl rfl

theorem splitAt_le (hi : Inv (closable g τ ptr) rows s) (k : ℕ) : splitAt perSplit ptr parts rows s k ≤ rows := by
  unfold splitAt
  split_ifs with hk
  · exact (hi.cut_mono hk.1 le_rfl).trans hi.last_le
  · exact le_rfl

theorem splitAt_zero (hi : Inv (closable g τ ptr) rows s) (hparts : 0 < parts) : splitAt perSplit ptr parts rows s 0 = 0 := by
  rw [splitAt_of_lt hparts, if_pos (Nat.zero_le _), hi.zero]

theorem splitAt_mono (hi : Inv (closable g τ ptr) rows s) {k : ℕ} (hk : k < parts) :
    splitAt perSplit ptr parts rows s k ≤ splitAt perSplit ptr parts rows s (k + 1) := by
  by_cases hkept : k + 1 ≤ s.count ∧ (k + 1 < parts ∨ k + 1 = s.count ∧ ¬ Short perSplit ptr rows s)
  · rw [splitAt_of_lt hk, if_pos (Nat.le_of_succ_le hkept.1), splitAt, if_pos hkept]
    exact (hi.mono k hkept.1).le
  · rw [splitAt.eq_def (k := k + 1), if_neg hkept]
    exact splitAt_le hi k

/-- every part that is not empty starts with a full group -/
theorem splitAt_aligned (hi : Inv (closable g τ ptr) rows s) {k : ℕ} (hk : k < parts)
    (hne : splitAt perSplit ptr parts rows s k < splitAt perSplit ptr parts rows s (k + 1)) :
    g ∣ splitAt perSplit ptr parts rows s k := by
  have hlt := hne.trans_le (splitAt_le hi (k + 1))
  rw [splitAt_of_lt hk] at hlt ⊢
  split_ifs at hlt ⊢ with hcount
  · rcases Nat.eq_zero_or_pos k with rfl | hpos
    · rw [hi.zero]
      exact Nat.dvd_zero g
    · obtain ⟨j, rfl⟩ := Nat.exists_eq_succ_of_ne_zero hpos.ne'
      exact (hi.closed j hcount).2
  · exact absurd hlt (lt_irrefl rows)

theorem last_iff (parts : ℕ) (s : Scan) :
    splitAt perSplit ptr parts rows s parts = rows ↔ ¬ (s.count = parts ∧ ¬ Short perSplit ptr rows s ∧ s.last ≠ rows) := by
  unfold splitAt
  constructor
  · rintro hlast ⟨hcount, hshort, hne⟩
    rw [if_pos ⟨hcount.ge, Or.inr ⟨hcount.symm, hshort⟩⟩, ← hcount] at hlast
    exact hne hlast
  · intro hfits
    split_ifs with hkept
    · obtain ⟨_, hlt | ⟨hcount, hshort⟩⟩ := hkept
      · exact absurd hlt (lt_irrefl parts)
      · by_contra hne
        exact hfits ⟨hcount.symm, hshort, by rwa [Scan.last, ← hcount]⟩
    · rfl

/-- if the last part ends at the last row, the parts are cuts of all rows -/
theorem splitAt_cuts (hi : Inv (closable g τ ptr) rows s) (hparts : 0 < parts)
    (hlast : splitAt perSplit ptr parts rows s parts = rows) : Cuts (splitAt perSplit ptr parts rows s) parts 0 rows where
  first := splitAt_zero hi hparts
  last := hlast
  mono _ hk := splitAt_mono hi hk

end Parts

/-- The rows can be cut into `parts` parts with their share of entries, each ending with a full group, such that a full
share is left over behind them, but not into one part more. -/
def LeftOver (granularity perSplit : ℕ) (ptr : UInt32 → UInt32) (parts rows : ℕ) : Prop :=
  (∃ c, Chain (closable granularity perSplit ptr) rows parts c ∧ c parts < rows ∧ perSplit ≤ entries ptr (c parts) rows) ∧
    ¬ ∃ c, Chain (closable granularity perSplit ptr) rows (parts + 1) c

theorem leftOver_iff (hsorted : Sorted ptr rows) (granularity perSplit : UInt32) (parts : ℕ) :
    LeftOver granularity.toNat perSplit.toNat ptr parts rows ↔
      (rowScan granularity perSplit ptr rows).count = parts ∧ ¬ Short perSplit ptr rows (rowScan granularity perSplit ptr rows) ∧
        (rowScan granularity perSplit ptr rows).last ≠ rows := by
  have hinv : Inv (closable granularity.toNat perSplit.toNat ptr) rows (rowScan granularity perSplit ptr rows) := scan_inv rows
  have hgrows := hsorted.grows granularity.toNat perSplit.toNat
  unfold LeftOver
  rw [← le_count_iff hgrows]
  constructor
  · rintro ⟨⟨c, hchain, hlt, hshare⟩, hnomore⟩
    obtain ⟨hcount, hcut⟩ := hinv.ahead hgrows hchain
    have heq : (rowScan granularity perSplit ptr rows).count = parts := by
      apply Nat.le_antisymm _ hcount
      exact Nat.lt_succ_iff.mp (not_le.mp hnomore)
    have hlast : (rowScan granularity perSplit ptr rows).last ≤ c parts := by
      rw [Scan.last, heq]
      exact hcut
    refine ⟨heq, not_lt.mpr ?_, (hlast.trans_lt hlt).ne⟩
    calc perSplit.toNat ≤ entries ptr (c parts) rows := hshare
      _ ≤ entries ptr (rowScan granularity perSplit ptr rows).last rows :=
        Nat.sub_le_sub_left (hsorted.le hlast hlt.le) _
  · rintro ⟨heq, hshort, hne⟩
    refine ⟨⟨_, hinv.chain heq.ge, ?_, ?_⟩, ?_⟩
    · rw [← heq]
      exact lt_of_le_of_ne hinv.last_le hne
    · rw [← heq]
      exact not_lt.mp hshort
    · rw [heq]
      exact Nat.not_succ_le_self parts

end PimOfis.SpMV
