/-
How the threads of a transfer pool share a transfer (`thread_do_mram_xfer` of `xeon_sp_translation.c`).

A rank has eight chips with eight DPUs each, and entry `8 * line + chip` of the matrix is the buffer of a DPU, if it has
one. Each thread works out a range of lines and a range of bytes of its own. With at most half as many lines in use as
threads, and a size that halves into words, two threads share a line; with at most as many lines as threads each line has
a thread; otherwise the eight lines are dealt out in equal parts, the rest to the last thread. A stop of 0 stands for the
whole size. `uint8_t` and `uint32_t` variables are natural numbers; only the subtraction from the size could wrap.

Results:
- `getDpuAndDataIds_spec`: which thread is given which line in use;
- `xfer_exactly_once`: together the threads move every word of every line in use exactly once.
-/
import Mathlib.Tactic

namespace PimOfis.Hw

/-! ## Model -/

/-- `struct dpu_transfer_matrix`, with `α` for what an entry points to -/
structure TransferMatrix (α : Type) where
  ptr : ℕ → Option α
  offset : ℕ
  size : ℕ

variable {α : Type}

/-- `is_dpu_line_in_xfer`, and the test that the transfer loops make themselves -/
def TransferMatrix.lineInXfer (m : TransferMatrix α) (line : ℕ) : Bool :=
  (List.range 8).any fun i => (m.ptr (line * 8 + i)).isSome

/-- `get_nb_lines_in_xfer` -/
def TransferMatrix.nbLinesInXfer (m : TransferMatrix α) : ℕ :=
  (List.range 8).foldl (fun res i => if m.lineInXfer i then res + 1 else res) 0

/-- what `thread_mram_get_dpu_and_data_ids` hands back -/
structure Ids where
  dpuIdStart : ℕ
  dpuIdStop : ℕ
  dataIdStart : ℕ
deriving DecidableEq, Repr

/-- the loop of `thread_mram_get_dpu_and_data_ids` over the lines that are left -/
def getDpuAndDataIds (used : ℕ → Bool) (threadId nbThreadsPerLine : ℕ) : List ℕ → ℕ → ℕ → Ids
  | [], _, _ => ⟨8, 8, 0⟩
  | i :: is, cnt, lastLine =>
    let cnt := if used i then cnt + 1 else cnt
    if cnt = 0 then getDpuAndDataIds used threadId nbThreadsPerLine is cnt lastLine
    else
      match (List.range nbThreadsPerLine).find? (fun j => (cnt - 1) * nbThreadsPerLine + j = threadId) with
      | some j => ⟨lastLine, i + 1, j⟩
      | none => getDpuAndDataIds used threadId nbThreadsPerLine is cnt (if used i then i + 1 else lastLine)

/-- the arguments of `threads_write_to_rank` and `threads_read_from_rank` -/
structure Ranges where
  dpuIdStart : ℕ
  dpuIdStop : ℕ
  dataIdStart : ℕ
  dataIdStop : ℕ
deriving DecidableEq, Repr

def nbThreadsPerLine (m : TransferMatrix α) (nbThreadsForXfer : ℕ) : ℕ :=
  if m.nbLinesInXfer ≤ nbThreadsForXfer / 2 ∧ m.size % 16 = 0 then 2 else 1

/-- `thread_do_mram_xfer`: the ranges of a thread, if it takes part -/
def threadDoMramXfer (m : TransferMatrix α) (nbThreadsForXfer threadId : ℕ) : Option Ranges :=
  if ¬threadId < nbThreadsForXfer then none
  else if m.nbLinesInXfer ≤ nbThreadsForXfer then
    let size := m.size / nbThreadsPerLine m nbThreadsForXfer
    let ids := getDpuAndDataIds m.lineInXfer threadId (nbThreadsPerLine m nbThreadsForXfer) (List.range 8) 0 0
    let dataIdStart := ids.dataIdStart * size
    let dataIdStop := dataIdStart + size
    some ⟨ids.dpuIdStart, ids.dpuIdStop, dataIdStart,
      if (m.size + 2 ^ 32 - dataIdStop) % 2 ^ 32 < size then m.size else dataIdStop⟩
  else
    let nbDpusPerThread := 8 / nbThreadsForXfer
    some ⟨threadId * nbDpusPerThread,
      if threadId = nbThreadsForXfer - 1 then 8 else (threadId + 1) * nbDpusPerThread, 0, 0⟩

/-- the words a line's loop runs over -/
def wordRange (m : TransferMatrix α) (r : Ranges) : List ℕ :=
  let sizeTransfer := if r.dataIdStop ≠ 0 then r.dataIdStop - r.dataIdStart else m.size
  List.range' (r.dataIdStart / 8) (sizeTransfer / 8)

/-- the lines and words a thread moves, in its order -/
def threadWords (m : TransferMatrix α) (r : Ranges) : List (ℕ × ℕ) :=
  (List.range' r.dpuIdStart (r.dpuIdStop - r.dpuIdStart)).flatMap fun dpuId =>
    if m.lineInXfer dpuId then (wordRange m r).map (Prod.mk dpuId) else []

/-- all threads of the pool, one after the other -/
def poolWords (m : TransferMatrix α) (nbThreadsForXfer : ℕ) : List (ℕ × ℕ) :=
  (List.range nbThreadsForXfer).flatMap fun threadId =>
    match threadDoMramXfer m nbThreadsForXfer threadId with
    | some r => threadWords m r
    | none => []

/-! ## Lines in use -/

variable (used : ℕ → Bool)

/-- the number of lines in use before line `i` -/
def linesBefore (i : ℕ) : ℕ := Nat.count (fun l => used l = true) i

theorem nbLinesInXfer_eq (m : TransferMatrix α) : m.nbLinesInXfer = linesBefore m.lineInXfer 8 := by
  have hloop : ∀ n, (List.range n).foldl (fun res i => if m.lineInXfer i then res + 1 else res) 0 =
      linesBefore m.lineInXfer n := by
    intro n
    induction n with
    | zero => rfl
    | succ n ih =>
      rw [List.range_succ, List.foldl_append, ih, linesBefore, linesBefore, Nat.count_succ]
      by_cases hn : m.lineInXfer n = true <;> simp [hn]
  exact hloop 8

theorem linesBefore_succ (i : ℕ) : linesBefore used (i + 1) = linesBefore used i + if used i then 1 else 0 :=
  Nat.count_succ ..

theorem linesBefore_lt {i j : ℕ} (hi : used i = true) (hij : i < j) : linesBefore used i < linesBefore used j :=
  Nat.count_strict_mono hi hij

/-- what a thread is given: exactly one line in use, or none -/
structure IdsOk (threadId nbThreadsPerLine : ℕ) (ids : Ids) : Prop where
  stop : ids.dpuIdStop ≤ 8
  line : ∀ l < 8, used l = true → (ids.dpuIdStart ≤ l ∧ l < ids.dpuIdStop ↔ linesBefore used l = threadId / nbThreadsPerLine)
  data : ∀ l < 8, used l = true → linesBefore used l = threadId / nbThreadsPerLine →
    ids.dataIdStart = threadId % nbThreadsPerLine
  dataLt : ids.dataIdStart < nbThreadsPerLine

/-- the loop, entered at line `i` by a thread that has found nothing yet -/
theorem getDpuAndDataIds_spec {t P : ℕ} (hP : P = 1 ∨ P = 2) (k i lastLine : ℕ) (hk : i + k = 8) (hlast : lastLine ≤ i)
    (hnone : ∀ l, lastLine ≤ l → l < i → used l = false) (ht : linesBefore used i * P ≤ t) :
    IdsOk used t P (getDpuAndDataIds used t P (List.range' i k) (linesBefore used i) lastLine) := by
  induction k generalizing i lastLine with
  | zero =>
    have hpast : ∀ l < 8, used l = true → linesBefore used l ≠ t / P := by
      intro l hl hu heq
      have hlt := linesBefore_lt used hu (show l < i by omega)
      rcases hP with rfl | rfl <;> omega
    refine ⟨le_rfl, fun l hl hu => ?_, fun l hl hu heq => absurd heq (hpast l hl hu), by simp only [List.range'_zero, getDpuAndDataIds]; omega⟩
    simp only [List.range'_zero, getDpuAndDataIds]
    have := hpast l hl hu
    omega
  | succ k ih =>
    have hcnt : (if used i then linesBefore used i + 1 else linesBefore used i) = linesBefore used (i + 1) := by
      rw [linesBefore_succ]
      split_ifs <;> rfl
    rw [List.range'_succ, getDpuAndDataIds]
    simp only [hcnt]
    by_cases hzero : linesBefore used (i + 1) = 0
    · -- no line in use up to here
      rw [if_pos hzero]
      have hu : used i = false := by
        by_contra hne
        rw [linesBefore_succ, if_pos (by simpa using hne)] at hzero
        omega
      apply ih (i + 1) lastLine (by omega) (by omega)
      · intro l hl hli
        rcases Nat.lt_succ_iff_lt_or_eq.mp hli with h | rfl
        · exact hnone l hl h
        · exact hu
      · rw [hzero]
        omega
    · rw [if_neg hzero]
      cases hfind : (List.range P).find? (fun j => (linesBefore used (i + 1) - 1) * P + j = t) with
      | some j =>
        have hj := List.find?_some hfind
        have hjP := List.mem_range.mp (List.mem_of_find?_eq_some hfind)
        simp only [decide_eq_true_eq] at hj
        -- the thread was not given an earlier line, so line `i` is in use
        have hu : used i = true := by
          by_contra hne
          have heq : linesBefore used (i + 1) = linesBefore used i := by
            rw [linesBefore_succ, if_neg hne, Nat.add_zero]
          rw [heq] at hj hzero
          rcases hP with rfl | rfl <;> omega
        have hsucc : linesBefore used (i + 1) = linesBefore used i + 1 := by rw [linesBefore_succ, if_pos hu]
        rw [hsucc, Nat.add_sub_cancel] at hj
        have hquot : t / P = linesBefore used i ∧ t % P = j := by rcases hP with rfl | rfl <;> omega
        refine ⟨by simp only; omega, fun l hl hul => ?_, fun l _ _ _ => hquot.2.symm, hjP⟩
        rw [hquot.1]
        simp only
        constructor
        · rintro ⟨hge, hlt⟩
          rcases Nat.lt_succ_iff_lt_or_eq.mp hlt with h | rfl
          · exact absurd hul (by simp [hnone l hge h])
          · rfl
        · intro heq
          rcases Nat.lt_trichotomy l i with h | rfl | h
          · exact absurd heq (linesBefore_lt used hul h).ne
          · exact ⟨hlast, Nat.lt_succ_self l⟩
          · exact absurd heq (linesBefore_lt used hu h).ne'
      | none =>
        have hne := List.find?_eq_none.mp hfind
        simp only [List.mem_range, decide_eq_true_eq] at hne
        simp only
        by_cases hu : used i = true
        · rw [if_pos hu]
          refine ih (i + 1) (i + 1) (by omega) le_rfl (fun l hl hli => by omega) ?_
          have hsucc : linesBefore used (i + 1) = linesBefore used i + 1 := by rw [linesBefore_succ, if_pos hu]
          rw [hsucc] at hne ⊢
          have h0 := hne 0
          have h1 := hne 1
          rcases hP with rfl | rfl <;> omega
        · rw [if_neg hu]
          have heq : linesBefore used (i + 1) = linesBefore used i := by rw [linesBefore_succ, if_neg hu, Nat.add_zero]
          refine ih (i + 1) lastLine (by omega) (by omega) (fun l hl hli => ?_) (by rw [heq]; exact ht)
          rcases Nat.lt_succ_iff_lt_or_eq.mp hli with h | rfl
          · exact hnone l hl h
          · simpa using hu

/-! ## The words of a thread -/

variable (m : TransferMatrix α) (T : ℕ)

/-- the thread that moves word `w` of line `l` -/
def owner (l w : ℕ) : ℕ :=
  if m.nbLinesInXfer ≤ T then
    linesBefore m.lineInXfer l * nbThreadsPerLine m T + if w < m.size / nbThreadsPerLine m T / 8 then 0 else 1
  else min (l / (8 / T)) (T - 1)

/-- a range of a thread: it stays inside the matrix, and holds the words that the thread owns -/
structure RangesOk (t : ℕ) (r : Ranges) : Prop where
  stop : r.dpuIdStop ≤ 8
  aligned : 8 ∣ r.dataIdStart
  word : ∀ l < 8, m.lineInXfer l = true → ∀ w,
    (r.dpuIdStart ≤ l ∧ l < r.dpuIdStop) ∧ w ∈ wordRange m r ↔ w < m.size / 8 ∧ owner m T l w = t

theorem nbThreadsPerLine_cases : (nbThreadsPerLine m T = 1) ∨
    (nbThreadsPerLine m T = 2 ∧ m.nbLinesInXfer ≤ T / 2 ∧ m.size % 16 = 0) := by
  unfold nbThreadsPerLine
  split_ifs with h
  · exact Or.inr ⟨rfl, h⟩
  · exact Or.inl rfl

variable {m T}

theorem mem_wordRange {r : Ranges} {w : ℕ} : w ∈ wordRange m r ↔ r.dataIdStart / 8 ≤ w ∧
    w < r.dataIdStart / 8 + (if r.dataIdStop ≠ 0 then r.dataIdStop - r.dataIdStart else m.size) / 8 :=
  List.mem_range'_1

/-- a line, or half of it, for each thread -/
theorem rangesOk_of_line (h8 : 8 ∣ m.size) (hsize : m.size < 2 ^ 32) {t : ℕ} (hL : m.nbLinesInXfer ≤ T) {r : Ranges}
    (hr : threadDoMramXfer m T t = some r) : RangesOk m T t r := by
  have hP : nbThreadsPerLine m T = 1 ∨ nbThreadsPerLine m T = 2 := (nbThreadsPerLine_cases m T).imp_right And.left
  have hids := getDpuAndDataIds_spec m.lineInXfer (t := t) hP 8 0 0 rfl le_rfl (fun l _ hl => absurd hl (Nat.not_lt_zero l))
    (by simp [linesBefore])
  rw [show linesBefore m.lineInXfer 0 = 0 from rfl, ← List.range_eq_range'] at hids
  unfold threadDoMramXfer at hr
  split_ifs at hr with hT
  set ids := getDpuAndDataIds m.lineInXfer t (nbThreadsPerLine m T) (List.range 8) 0 0 with hidsdef
  obtain rfl := Option.some.inj hr
  have hlt := hids.dataLt
  rcases nbThreadsPerLine_cases m T with hone | ⟨htwo, -, h16⟩
  · rw [hone] at hids hlt
    simp only [hone, Nat.div_one]
    have hstart : ids.dataIdStart = 0 := by omega
    refine ⟨hids.stop, by simp [hstart], fun l hl hu w => ?_⟩
    have hline := hids.line l hl hu
    simp only [mem_wordRange, owner, if_pos hL, hone, Nat.div_one, hstart]
    rw [hline]
    split_ifs <;> omega
  · rw [htwo] at hids hlt
    simp only [htwo]
    refine ⟨hids.stop, Dvd.dvd.mul_left (by omega) _, fun l hl hu w => ?_⟩
    have hline := hids.line l hl hu
    have hdata := hids.data l hl hu
    simp only [mem_wordRange, owner, if_pos hL, htwo]
    rw [hline]
    rcases (show ids.dataIdStart = 0 ∨ ids.dataIdStart = 1 by omega) with h | h
    · rw [h] at hdata ⊢
      split_ifs <;> omega
    · rw [h] at hdata ⊢
      split_ifs <;> omega

/-- an equal part of the lines for each thread -/
theorem rangesOk_of_part {t : ℕ} (hL : ¬m.nbLinesInXfer ≤ T) (hT1 : 1 ≤ T) {r : Ranges}
    (hr : threadDoMramXfer m T t = some r) : RangesOk m T t r := by
  have hT8 : T < 8 := by
    have hle : m.nbLinesInXfer ≤ 8 := by
      rw [nbLinesInXfer_eq]
      exact Nat.count_le _
    omega
  have hT : t < T := by
    by_contra hn
    simp [threadDoMramXfer, hn] at hr
  rw [threadDoMramXfer, if_neg (not_not.mpr hT), if_neg hL] at hr
  obtain rfl := Option.some.inj hr
  refine ⟨?_, Nat.dvd_zero 8, fun l hl hu w => ?_⟩
  · simp only
    interval_cases T <;> split_ifs <;> omega
  · simp only [mem_wordRange, owner, if_neg hL]
    interval_cases T <;> split_ifs <;> omega

theorem ranges_ok (h8 : 8 ∣ m.size) (hsize : m.size < 2 ^ 32) (hT1 : 1 ≤ T) {t : ℕ} {r : Ranges}
    (hr : threadDoMramXfer m T t = some r) : RangesOk m T t r := by
  by_cases hL : m.nbLinesInXfer ≤ T
  · exact rangesOk_of_line h8 hsize hL hr
  · exact rangesOk_of_part hL hT1 hr

/-- the owner of a word takes part -/
theorem owner_lt (hT1 : 1 ≤ T) {l w : ℕ} (hl : l < 8) (hu : m.lineInXfer l = true) (hw : w < m.size / 8) :
    owner m T l w < T := by
  unfold owner
  split_ifs with hL hw'
  · have hbefore := linesBefore_lt m.lineInXfer hu hl
    rw [← nbLinesInXfer_eq] at hbefore
    rcases nbThreadsPerLine_cases m T with hone | ⟨htwo, hhalf, -⟩
    · rw [hone]
      omega
    · rw [htwo]
      omega
  · have hbefore := linesBefore_lt m.lineInXfer hu hl
    rw [← nbLinesInXfer_eq] at hbefore
    rcases nbThreadsPerLine_cases m T with hone | ⟨htwo, hhalf, -⟩
    · rw [hone, Nat.div_one] at hw'
      omega
    · rw [htwo]
      omega
  · omega

theorem mem_threadWords (h8 : 8 ∣ m.size) (hsize : m.size < 2 ^ 32) (hT1 : 1 ≤ T) {t : ℕ} {r : Ranges}
    (hr : threadDoMramXfer m T t = some r) (l w : ℕ) :
    (l, w) ∈ threadWords m r ↔ l < 8 ∧ m.lineInXfer l = true ∧ w < m.size / 8 ∧ owner m T l w = t := by
  have hok := ranges_ok h8 hsize hT1 hr
  have hstop := hok.stop
  simp only [threadWords, List.mem_flatMap, List.mem_range'_1]
  constructor
  · rintro ⟨d, ⟨hd, hd'⟩, hmem⟩
    split_ifs at hmem with hu
    · obtain ⟨w', hw', heq⟩ := List.mem_map.mp hmem
      obtain ⟨rfl, rfl⟩ := Prod.mk.inj heq
      exact ⟨by omega, hu, (hok.word d (by omega) hu w').mp ⟨⟨hd, by omega⟩, hw'⟩⟩
    · simp at hmem
  · rintro ⟨hl, hu, hw⟩
    obtain ⟨⟨hge, hlt⟩, hmem⟩ := (hok.word l hl hu w).mpr hw
    refine ⟨l, ⟨hge, by omega⟩, ?_⟩
    rw [if_pos hu]
    exact List.mem_map.mpr ⟨w, hmem, rfl⟩

theorem nodup_threadWords (r : Ranges) : (threadWords m r).Nodup := by
  refine List.nodup_flatMap.mpr ⟨fun d _ => ?_, ?_⟩
  · split_ifs
    · exact (List.nodup_range' ..).map fun w w' h => (Prod.mk.inj h).2
    · exact List.nodup_nil
  · refine (List.nodup_range' ..).imp fun {d d'} hne => ?_
    intro x hx hx'
    have hfst : ∀ e, x ∈ (if m.lineInXfer e = true then (wordRange m r).map (Prod.mk e) else []) → x.1 = e := by
      intro e he
      split_ifs at he
      · obtain ⟨w, -, rfl⟩ := List.mem_map.mp he
        rfl
      · simp at he
    exact hne ((hfst d hx).symm.trans (hfst d' hx'))

/-! ## All threads -/

/-- **Exactly once.** The threads of a pool move every word of every line in use once and nothing else, from aligned
starts and inside the matrix, for any matrix and any number of threads. -/
theorem xfer_exactly_once (m : TransferMatrix α) (T : ℕ) (hT1 : 1 ≤ T) (h8 : 8 ∣ m.size) (hsize : m.size < 2 ^ 32) :
    (poolWords m T).Nodup ∧
      (∀ l w, (l, w) ∈ poolWords m T ↔ l < 8 ∧ m.lineInXfer l = true ∧ w < m.size / 8) ∧
      ∀ t r, threadDoMramXfer m T t = some r → 8 ∣ r.dataIdStart ∧ r.dpuIdStop ≤ 8 := by
  refine ⟨?_, fun l w => ?_, fun t r hr => ?_⟩
  · refine List.nodup_flatMap.mpr ⟨fun t _ => ?_, ?_⟩
    · cases threadDoMramXfer m T t with
      | some r => exact nodup_threadWords r
      | none => exact List.nodup_nil
    · refine List.nodup_range.imp fun {t t'} hne => ?_
      rintro ⟨l, w⟩ hx hx'
      have howner : ∀ u, (l, w) ∈ (match threadDoMramXfer m T u with
          | some r => threadWords m r
          | none => []) → owner m T l w = u := by
        intro u hu
        cases hr : threadDoMramXfer m T u with
        | some r =>
          rw [hr] at hu
          exact ((mem_threadWords h8 hsize hT1 hr l w).mp hu).2.2.2
        | none =>
          rw [hr] at hu
          simp at hu
      exact hne ((howner t hx).symm.trans (howner t' hx'))
  · simp only [poolWords, List.mem_flatMap, List.mem_range]
    constructor
    · rintro ⟨t, ht, hmem⟩
      cases hr : threadDoMramXfer m T t with
      | some r =>
        rw [hr] at hmem
        obtain ⟨hl, hu, hw, -⟩ := (mem_threadWords h8 hsize hT1 hr l w).mp hmem
        exact ⟨hl, hu, hw⟩
      | none =>
        rw [hr] at hmem
        simp at hmem
    · rintro ⟨hl, hu, hw⟩
      have hlt := owner_lt hT1 hl hu hw
      refine ⟨owner m T l w, hlt, ?_⟩
      cases hr : threadDoMramXfer m T (owner m T l w) with
      | some r => exact (mem_threadWords h8 hsize hT1 hr l w).mpr ⟨hl, hu, hw, rfl⟩
      | none =>
        unfold threadDoMramXfer at hr
        split_ifs at hr
  · have hok := ranges_ok h8 hsize hT1 hr
    exact ⟨hok.aligned, hok.stop⟩

/-- one line, sixteen bytes and two threads: each moves one word -/
theorem xfer_exactly_once_two_threads :
    let m : TransferMatrix Unit := ⟨fun i => if i = 0 then some () else none, 0, 16⟩
    (poolWords m 2).Nodup ∧ (∀ l w, (l, w) ∈ poolWords m 2 ↔ l < 8 ∧ m.lineInXfer l = true ∧ w < 16 / 8) ∧
      ∀ t r, threadDoMramXfer m 2 t = some r → 8 ∣ r.dataIdStart ∧ r.dpuIdStop ≤ 8 :=
  xfer_exactly_once ⟨fun i => if i = 0 then some () else none, 0, 16⟩ 2 (by decide) (by decide) (by decide)

end PimOfis.Hw
