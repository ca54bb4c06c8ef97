/-
Splitting a transfer matrix (`copy_mram_for_dpus` of `ufi_memory.c`).

A line of eight DPUs is written or read for all eight chips at once, and a DPU without a buffer keeps its MRAM only because
its mux is on the DPU side. Two neighbouring lines share their muxes, so a matrix that needs the mux of a pair on both sides
is sent as two, the even and the odd lines. Whether it does is scanned for pair by pair, up to the first chip with one
buffer in the pair, and chips with a disabled DPU in the pair are skipped; the masks of the muxes are then taken from all
enabled DPUs, and an assertion says that those of a pair agree.

Results:
- `isDuplicationNeeded_iff`: when the scan splits a matrix;
- `sendMatrix_carried`: a matrix whose masks agree is sent with the muxes right;
- `split_respected_iff`: exactly when the scan and the masks fit together.
-/
import Mathlib.Tactic
import PimOfis.Mram.Mux

namespace PimOfis.Mram

open PimOfis.Ufi PimOfis.Hw

/-! ## Model -/

variable {α : Type}

/-- the inner loop of `duplicate_transfer_matrix` over the chips that are left: whether the first and the second line were
seen to have a transfer, and whether it broke off at a conflict -/
def scanPair (r : MuxRank α) (m : TransferMatrix α) (k : Pair) : List Ci → Bool → Bool → Bool × Bool × Bool
  | [], first, second => (first, second, false)
  | ci :: cis, first, second =>
    if r.enabled ci k.base = true ∧ r.enabled ci k.friend = true then
      let firstHas := (buf m ci k.base).isSome
      let secondHas := (buf m ci k.friend).isSome
      if firstHas ≠ secondHas then (first || firstHas, second || secondHas, true)
      else scanPair r m k cis (first || firstHas) (second || secondHas)
    else scanPair r m k cis first second

def pairNeedsDuplication (r : MuxRank α) (m : TransferMatrix α) (k : Pair) : Bool :=
  let scan := scanPair r m k (List.finRange 8) false false
  scan.1 && scan.2.1 && scan.2.2

/-- what `duplicate_transfer_matrix` returns -/
def isDuplicationNeeded (r : MuxRank α) (m : TransferMatrix α) : Bool :=
  r.apiMustSwitchMramMux && (List.finRange 4).any (pairNeedsDuplication r m)

/-- the entries of the first DPUs of all pairs; size, offset and type are copied -/
def evenTransferMatrix (m : TransferMatrix α) : TransferMatrix α :=
  { m with ptr := fun idx => if idx < 64 ∧ idx / 8 % 2 = 0 then m.ptr idx else none }

/-- the entries of the second DPUs of all pairs -/
def oddTransferMatrix (m : TransferMatrix α) : TransferMatrix α :=
  { m with ptr := fun idx => if idx < 64 ∧ idx / 8 % 2 = 1 then m.ptr idx else none }

/-- `is_transfer_matrix_full` -/
def IsTransferMatrixFull (r : MuxRank α) (m : TransferMatrix α) : Prop :=
  ∀ ci i, r.enabled ci i = true → (buf m ci i).isSome = true

instance (r : MuxRank α) (m : TransferMatrix α) : Decidable (IsTransferMatrixFull r m) := by
  unfold IsTransferMatrixFull; infer_instance

/-- `mask1` or `mask2` of `host_get_access_for_transfer_matrix`: the chips whose DPU of this line is enabled and has a
buffer -/
def lineMask (r : MuxRank α) (m : TransferMatrix α) (dpu : Member) : Mask8 := fun ci =>
  r.enabled ci dpu && (buf m ci dpu).isSome

/-- `!mask` -/
def noBits (mask : Mask8) : Prop := ∀ ci, mask ci = false

instance (mask : Mask8) : Decidable (noBits mask) := by unfold noBits; infer_instance

/-- the loop of `host_get_access_for_transfer_matrix` over the pairs that are left -/
def hostGetAccessForTransferMatrix (m : TransferMatrix α) : List Pair → MuxRank α → Status × MuxRank α
  | [], r => (.ok, r)
  | k :: ks, r =>
    let mask1 := lineMask r m k.base
    let mask2 := lineMask r m k.friend
    if noBits mask1 ∧ noBits mask2 then hostGetAccessForTransferMatrix m ks r
    else if ¬(noBits mask1 ∨ noBits mask2 ∨ mask1 = mask2) then (.abort, r)
    else
      let mask : Mask8 := fun ci => mask1 ci || mask2 ci
      ff (dpuSwitchMuxForDpuLine r k.base mask) fun r1 =>
        ff (dpuSwitchMuxForDpuLine r1 k.friend mask) fun r2 => hostGetAccessForTransferMatrix m ks r2

/-- `host_get_access_for_transfer` -/
def hostGetAccessForTransfer (r : MuxRank α) (m : TransferMatrix α) : Status × MuxRank α :=
  if IsTransferMatrixFull r m then dpuSwitchMuxForRank r true
  else hostGetAccessForTransferMatrix m (List.finRange 4) r

/-- `do_mram_transfer` -/
def doMramTransfer (r : MuxRank α) (type : TransferType) (m : TransferMatrix α) : Status × MuxRank α :=
  if ∀ idx : Fin 64, (m.ptr idx.val).isSome = false then (.ok, r)
  else
    let r1 := { r with sent := r.sent ++ [⟨type, m, r.mux⟩], transfers := r.transfers.tail }
    if r.transfers.head?.getD true = true then (.ok, r1) else (.driver, r1)

/-- `copy_mram_for_dpus` -/
def copyMramForDpus (r : MuxRank α) (type : TransferType) (m : TransferMatrix α) : Status × MuxRank α :=
  if isDuplicationNeeded r m = false then
    ff (hostGetAccessForTransfer r m) fun r1 => doMramTransfer r1 type m
  else
    ff (hostGetAccessForTransferMatrix (evenTransferMatrix m) (List.finRange 4) r) fun r1 =>
      ff (doMramTransfer r1 type (evenTransferMatrix m)) fun r2 =>
        ff (hostGetAccessForTransferMatrix (oddTransferMatrix m) (List.finRange 4) r2) fun r3 =>
          doMramTransfer r3 type (oddTransferMatrix m)

/-! ## What the muxes have to do with a matrix -/

/-- the mux of every DPU with a buffer is on the host side, and that of no other DPU of a written line is -/
structure Guards (mux : Muxes) (m : TransferMatrix α) : Prop where
  host : ∀ ci i, (buf m ci i).isSome = true → mux ci (pairOf i) = true
  dpu : ∀ ci (i : Member), m.lineInXfer i.val = true → (buf m ci i).isSome = false → mux ci (pairOf i) = false

/-- **The paired mux is respected.** Whatever state the rank is in and however the call ends: the assertion holds, every
matrix sent is guarded by the muxes, and if the call succeeds the matrices sent hold each buffer exactly once. -/
def SplitRespected (enabled : Ci → Mask8) (api : Bool) (m : TransferMatrix α) : Prop :=
  ∀ (r : MuxRank α) (type : TransferType), r.Recorded → r.enabled = enabled → r.apiMustSwitchMramMux = api → r.sent = [] →
    (copyMramForDpus r type m).1 ≠ .abort ∧
      (∀ s ∈ (copyMramForDpus r type m).2.sent,
        s.type = type ∧ s.matrix.offset = m.offset ∧ s.matrix.size = m.size ∧ Guards s.mux s.matrix) ∧
      ((copyMramForDpus r type m).1 = .ok → ∀ ci i,
        (copyMramForDpus r type m).2.sent.filterMap (fun s => buf s.matrix ci i) = (buf m ci i).toList)

/-- the two lines of a pair have buffers on different chips -/
def Conflict (enabled : Ci → Mask8) (m : TransferMatrix α) (k : Pair) : Prop :=
  (∃ ci, enabled ci k.base = true ∧ (buf m ci k.base).isSome = true) ∧
    (∃ ci, enabled ci k.friend = true ∧ (buf m ci k.friend).isSome = true) ∧
    ∃ ci, (enabled ci k.base && (buf m ci k.base).isSome) ≠ (enabled ci k.friend && (buf m ci k.friend).isSome)

/-- a chip with both DPUs of the pair enabled, and a buffer for one of them alone -/
def OneBuffer (enabled : Ci → Mask8) (m : TransferMatrix α) (k : Pair) (ci : Ci) : Prop :=
  enabled ci k.base = true ∧ enabled ci k.friend = true ∧ (buf m ci k.base).isSome ≠ (buf m ci k.friend).isSome

/-- a chip with both DPUs of the pair enabled, and a buffer for both -/
def BothBuffers (enabled : Ci → Mask8) (m : TransferMatrix α) (k : Pair) (ci : Ci) : Prop :=
  enabled ci k.base = true ∧ enabled ci k.friend = true ∧ (buf m ci k.base).isSome = true ∧
    (buf m ci k.friend).isSome = true

/-- among the chips with both DPUs of some pair enabled, one with both buffers comes before the first with one buffer -/
def SeenConflict (enabled : Ci → Mask8) (m : TransferMatrix α) : Prop :=
  ∃ k ci cj, BothBuffers enabled m k ci ∧ OneBuffer enabled m k cj ∧ ci < cj ∧ ∀ c < cj, ¬ OneBuffer enabled m k c

/-- every enabled DPU has a buffer -/
def Full (enabled : Ci → Mask8) (m : TransferMatrix α) : Prop :=
  ∀ ci i, enabled ci i = true → (buf m ci i).isSome = true

/-- the enabled DPUs are those of some chips on some lines -/
def Grid (enabled : Ci → Mask8) : Prop :=
  ∀ ci i, (∃ j, enabled ci j = true) → (∃ cj, enabled cj i = true) → enabled ci i = true

/-- when the scan and the masks fit together -/
def SplitFits (enabled : Ci → Mask8) (api : Bool) (m : TransferMatrix α) : Prop :=
  (∀ ci i, (buf m ci i).isSome = false) ∨
    api = true ∧ (SeenConflict enabled m ∨ Full enabled m ∧ Grid enabled ∨
      ¬ Full enabled m ∧ ∀ k, ¬ Conflict enabled m k)

/-! ## The scan -/

/-- a chip without `P` before all others changes nothing about the first chip with `P` -/
theorem exists_cons_of_not {c : Ci} {cs : List Ci} {P Q : Ci → Prop} (hlt : ∀ d ∈ cs, c < d) (hc : ¬ P c) :
    (∃ cj ∈ c :: cs, P cj ∧ (∀ d ∈ c :: cs, d < cj → ¬ P d) ∧ Q cj) ↔
      ∃ cj ∈ cs, P cj ∧ (∀ d ∈ cs, d < cj → ¬ P d) ∧ Q cj := by
  constructor
  · rintro ⟨cj, hcj, hP, hmin, hQ⟩
    rcases List.mem_cons.mp hcj with rfl | hcj
    · exact absurd hP hc
    · exact ⟨cj, hcj, hP, fun d hd => hmin d (List.mem_cons_of_mem _ hd), hQ⟩
  · rintro ⟨cj, hcj, hP, hmin, hQ⟩
    refine ⟨cj, List.mem_cons_of_mem _ hcj, hP, fun d hd hdj => ?_, hQ⟩
    rcases List.mem_cons.mp hd with rfl | hd
    · exact hc
    · exact hmin d hd hdj

/-- the pair is found to need two matrices at the first chip with one buffer, if both lines have been seen by then -/
theorem scanPair_spec (r : MuxRank α) (m : TransferMatrix α) (k : Pair) (cis : List Ci) (hcis : cis.Pairwise (· < ·))
    (first second : Bool) :
    ((scanPair r m k cis first second).1 && (scanPair r m k cis first second).2.1 &&
        (scanPair r m k cis first second).2.2) = true ↔
      ∃ cj ∈ cis, OneBuffer r.enabled m k cj ∧ (∀ c ∈ cis, c < cj → ¬ OneBuffer r.enabled m k c) ∧
        ((first = true ∨ (buf m cj k.base).isSome = true) ∧ (second = true ∨ (buf m cj k.friend).isSome = true) ∨
          ∃ ci ∈ cis, ci < cj ∧ BothBuffers r.enabled m k ci) := by
  induction cis generalizing first second with
  | nil => simp [scanPair]
  | cons c cs ih =>
    have hlt : ∀ d ∈ cs, c < d := fun d hd => List.rel_of_pairwise_cons hcis hd
    have hcs := List.Pairwise.of_cons hcis
    by_cases hen : r.enabled c k.base = true ∧ r.enabled c k.friend = true
    · by_cases hone : (buf m c k.base).isSome ≠ (buf m c k.friend).isSome
      · -- the scan breaks off here
        have hc : OneBuffer r.enabled m k c := ⟨hen.1, hen.2, hone⟩
        simp only [scanPair, if_pos hen, if_pos hone, Bool.and_true, Bool.and_eq_true, Bool.or_eq_true]
        constructor
        · intro h
          refine ⟨c, List.mem_cons_self, hc, fun d hd hdc => ?_, .inl h⟩
          rcases List.mem_cons.mp hd with rfl | hd
          · exact absurd hdc (lt_irrefl _)
          · exact absurd (hlt d hd) (not_lt.mpr hdc.le)
        · rintro ⟨cj, hcj, -, hmin, h⟩
          have hcjc : cj = c := by
            rcases List.mem_cons.mp hcj with rfl | hcj
            · rfl
            · exact absurd hc (hmin c List.mem_cons_self (hlt cj hcj))
          subst hcjc
          rcases h with h | ⟨ci, hci, hlt', -⟩
          · exact h
          · rcases List.mem_cons.mp hci with rfl | hci
            · exact absurd hlt' (lt_irrefl _)
            · exact absurd (hlt ci hci) (not_lt.mpr hlt'.le)
      · -- both buffers or none: the scan goes on
        have heq : (buf m c k.base).isSome = (buf m c k.friend).isSome := not_not.mp hone
        rw [scanPair, if_pos hen]
        simp only [if_neg hone]
        rw [ih hcs, exists_cons_of_not hlt fun h => hone h.2.2]
        refine exists_congr fun cj => and_congr_right fun hcj => and_congr_right fun _ => and_congr_right fun _ => ?_
        cases hb : (buf m c k.base).isSome with
        | true =>
          have hboth : BothBuffers r.enabled m k c := ⟨hen.1, hen.2, hb, heq ▸ hb⟩
          simp [← heq, hb, hboth, hlt cj hcj]
        | false =>
          have hnot : ¬ BothBuffers r.enabled m k c := fun h => absurd h.2.2.1 (by simp [hb])
          simp [← heq, hb, hnot]
    · have hnot : ¬ BothBuffers r.enabled m k c := fun h => hen ⟨h.1, h.2.1⟩
      rw [scanPair, if_neg hen, ih hcs, exists_cons_of_not hlt fun h => hen ⟨h.1, h.2.1⟩]
      refine exists_congr fun cj => and_congr_right fun hcj => and_congr_right fun _ => and_congr_right fun _ => ?_
      simp [hnot]

theorem pairNeedsDuplication_iff (r : MuxRank α) (m : TransferMatrix α) (k : Pair) :
    pairNeedsDuplication r m k = true ↔ ∃ ci cj, BothBuffers r.enabled m k ci ∧ OneBuffer r.enabled m k cj ∧ ci < cj ∧
      ∀ c < cj, ¬ OneBuffer r.enabled m k c := by
  rw [pairNeedsDuplication, scanPair_spec r m k _ (List.pairwise_lt_finRange 8)]
  constructor
  · rintro ⟨cj, -, hone, hmin, h⟩
    have hmin' : ∀ c < cj, ¬ OneBuffer r.enabled m k c := fun c hc => hmin c (List.mem_finRange c) hc
    rcases h with ⟨h1, h2⟩ | ⟨ci, -, hlt, hboth⟩
    · -- one of the two buffers is missing at `cj` itself
      simp only [Bool.false_eq_true, false_or] at h1 h2
      exact absurd (h1.trans h2.symm) hone.2.2
    · exact ⟨ci, cj, hboth, hone, hlt, hmin'⟩
  · rintro ⟨ci, cj, hboth, hone, hlt, hmin⟩
    exact ⟨cj, List.mem_finRange cj, hone, fun c _ hc => hmin c hc, .inr ⟨ci, List.mem_finRange ci, hlt, hboth⟩⟩

/-- **The scan.** `duplicate_transfer_matrix` splits exactly where it sees both lines of a pair before the first chip with
one buffer. -/
theorem isDuplicationNeeded_iff (r : MuxRank α) (m : TransferMatrix α) :
    isDuplicationNeeded r m = true ↔ r.apiMustSwitchMramMux = true ∧ SeenConflict r.enabled m := by
  simp only [isDuplicationNeeded, Bool.and_eq_true, List.any_eq_true, List.mem_finRange, true_and,
    pairNeedsDuplication_iff, SeenConflict]

/-! ## Access -/

theorem conflict_iff (r : MuxRank α) (m : TransferMatrix α) (k : Pair) :
    Conflict r.enabled m k ↔ ¬ noBits (lineMask r m k.base) ∧ ¬ noBits (lineMask r m k.friend) ∧
      lineMask r m k.base ≠ lineMask r m k.friend := by
  simp only [Conflict, noBits, lineMask, not_forall, Bool.not_eq_false, Bool.and_eq_true, ne_eq, funext_iff]

theorem lineMask_congr {r r' : MuxRank α} (h : SameRank r r') (m : TransferMatrix α) (i : Member) :
    lineMask r' m i = lineMask r m i := funext fun ci => by simp only [lineMask, h.enabled]

/-- one pair of `host_get_access_for_transfer_matrix`, if its masks agree -/
theorem access_cons {m : TransferMatrix α} {k : Pair} {ks : List Pair} {r : MuxRank α} (hk : ¬ Conflict r.enabled m k) :
    hostGetAccessForTransferMatrix m (k :: ks) r =
      if noBits (lineMask r m k.base) ∧ noBits (lineMask r m k.friend) then hostGetAccessForTransferMatrix m ks r
      else
        ff (dpuSwitchMuxForDpuLine r k.base fun ci => lineMask r m k.base ci || lineMask r m k.friend ci) fun r1 =>
          ff (dpuSwitchMuxForDpuLine r1 k.friend fun ci => lineMask r m k.base ci || lineMask r m k.friend ci) fun r2 =>
            hostGetAccessForTransferMatrix m ks r2 := by
  rw [conflict_iff] at hk
  rw [hostGetAccessForTransferMatrix]
  by_cases hno : noBits (lineMask r m k.base) ∧ noBits (lineMask r m k.friend)
  · simp only [if_pos hno]
  · have hassert : ¬¬(noBits (lineMask r m k.base) ∨ noBits (lineMask r m k.friend) ∨
        lineMask r m k.base = lineMask r m k.friend) := by
      intro hn
      simp only [not_or] at hn
      exact hk hn
    simp only [if_neg hno, if_neg hassert]

theorem access_switched {m : TransferMatrix α} {ks : List Pair} {r : MuxRank α}
    (hks : ∀ k ∈ ks, ¬ Conflict r.enabled m k) : Switched r (hostGetAccessForTransferMatrix m ks r) := by
  induction ks generalizing r with
  | nil => exact Switched.stay (SameRank.refl r) rfl
  | cons k ks ih =>
    have hrest : ∀ r', SameRank r r' → ∀ k ∈ ks, ¬ Conflict r'.enabled m k := fun r' h k hk => by
      rw [h.enabled]
      exact hks k (List.mem_cons_of_mem _ hk)
    rw [access_cons (hks k List.mem_cons_self)]
    split_ifs
    · exact ih (hrest r (SameRank.refl r))
    · have h1 := dpuSwitchMuxForDpuLine_switched r k.base fun ci => lineMask r m k.base ci || lineMask r m k.friend ci
      refine h1.then ?_
      have h2 := dpuSwitchMuxForDpuLine_switched
        (dpuSwitchMuxForDpuLine r k.base fun ci => lineMask r m k.base ci || lineMask r m k.friend ci).2
        k.friend fun ci => lineMask r m k.base ci || lineMask r m k.friend ci
      exact h2.then (ih (hrest _ (h1.same.trans h2.same)))

/-- the muxes after access: those of a pair with a buffer are set to its mask, the others stay -/
theorem access_ok {m : TransferMatrix α} {ks : List Pair} {r : MuxRank α} (hr : r.Recorded)
    (hapi : r.apiMustSwitchMramMux = true) (hnd : ks.Nodup) (hks : ∀ k ∈ ks, ¬ Conflict r.enabled m k)
    (hok : (hostGetAccessForTransferMatrix m ks r).1 = .ok) :
    (hostGetAccessForTransferMatrix m ks r).2.Recorded ∧
      ∀ ci k, r.Live ci → (hostGetAccessForTransferMatrix m ks r).2.mux ci k =
        if k ∈ ks ∧ ¬(noBits (lineMask r m k.base) ∧ noBits (lineMask r m k.friend)) then
          lineMask r m k.base ci || lineMask r m k.friend ci
        else r.mux ci k := by
  induction ks generalizing r with
  | nil => exact ⟨hr, fun ci k _ => by simp [hostGetAccessForTransferMatrix]⟩
  | cons k ks ih =>
    obtain ⟨hk, hnd⟩ := List.nodup_cons.mp hnd
    have hrest : ∀ r', SameRank r r' → ∀ k ∈ ks, ¬ Conflict r'.enabled m k := fun r' h k hk => by
      rw [h.enabled]
      exact hks k (List.mem_cons_of_mem _ hk)
    rw [access_cons (hks k List.mem_cons_self)] at hok ⊢
    by_cases hno : noBits (lineMask r m k.base) ∧ noBits (lineMask r m k.friend)
    · rw [if_pos hno] at hok ⊢
      obtain ⟨hrec, hmux⟩ := ih hr hapi hnd (hrest r (SameRank.refl r)) hok
      refine ⟨hrec, fun ci p hl => ?_⟩
      rw [hmux ci p hl]
      by_cases hp : p = k
      · subst hp
        rw [if_neg fun h => hk h.1, if_neg fun h => h.2 hno]
      · simp only [List.mem_cons, hp, false_or]
    · rw [if_neg hno] at hok ⊢
      set mask : Mask8 := fun ci => lineMask r m k.base ci || lineMask r m k.friend ci with hmask
      obtain ⟨hok1, hok, he1⟩ := ff_eq_ok hok
      obtain ⟨hok2, hok3, he2⟩ := ff_eq_ok hok
      rw [he1, he2]
      have hs1 := (dpuSwitchMuxForDpuLine_switched r k.base mask).same
      have hp1 := dpuSwitchMuxForDpuLine_spec hr hapi hok1
      set r1 := (dpuSwitchMuxForDpuLine r k.base mask).2
      have hs2 := (dpuSwitchMuxForDpuLine_switched r1 k.friend mask).same
      have hp2 := dpuSwitchMuxForDpuLine_spec hp1.recorded (hs1.api.trans hapi) hok2
      set r2 := (dpuSwitchMuxForDpuLine r1 k.friend mask).2
      have hs := hs1.trans hs2
      obtain ⟨hrec, hmux⟩ := ih hp2.recorded (hs.api.trans hapi) hnd (hrest r2 hs) hok3
      refine ⟨hrec, fun ci p hl => ?_⟩
      rw [hmux ci p ((hs.live ci).mpr hl)]
      simp only [lineMask_congr hs]
      by_cases hp : p = k
      · subst hp
        rw [if_neg fun h => hk h.1, if_pos ⟨List.mem_cons_self, hno⟩]
        have := hp2.pair ci ((hs1.live ci).mpr hl)
        rwa [pairOf_friend] at this
      · have h2 : r2.mux ci p = r.mux ci p :=
          (hp2.other ci p (by rwa [pairOf_friend])).trans (hp1.other ci p (by rwa [pairOf_base]))
        simp only [List.mem_cons, hp, false_or, h2]

/-- a conflict stops the program, if nothing stops the call before -/
theorem access_abort {m : TransferMatrix α} {ks : List Pair} {r : MuxRank α} (hf : r.Free)
    (h : ∃ k ∈ ks, Conflict r.enabled m k) : (hostGetAccessForTransferMatrix m ks r).1 = .abort := by
  induction ks generalizing r with
  | nil => simp at h
  | cons k ks ih =>
    by_cases hk : Conflict r.enabled m k
    · obtain ⟨h1, h2, h3⟩ := (conflict_iff r m k).mp hk
      rw [hostGetAccessForTransferMatrix]
      simp only [h1, h2, h3, false_and, or_self, if_false, not_false_eq_true, if_true]
    · have hrest : ∃ k ∈ ks, Conflict r.enabled m k := by
        obtain ⟨k', hk', hc⟩ := h
        rcases List.mem_cons.mp hk' with rfl | hk'
        · exact absurd hc hk
        · exact ⟨k', hk', hc⟩
      rw [access_cons hk]
      split_ifs
      · exact ih hf hrest
      · set mask : Mask8 := fun ci => lineMask r m k.base ci || lineMask r m k.friend ci
        have h1 := dpuSwitchMuxForDpuLine_switched r k.base mask
        obtain ⟨hok1, hf1⟩ := h1.free hf
        have h2 := dpuSwitchMuxForDpuLine_switched (dpuSwitchMuxForDpuLine r k.base mask).2 k.friend mask
        obtain ⟨hok2, hf2⟩ := h2.free hf1
        simp only [ff, hok1, hok2]
        exact ih hf2 (by rwa [(h1.same.trans h2.same).enabled])

/-- where it is not the API's job to switch, access changes no mux -/
theorem access_mux {m : TransferMatrix α} {ks : List Pair} {r : MuxRank α} (hapi : r.apiMustSwitchMramMux = false) :
    (hostGetAccessForTransferMatrix m ks r).2.mux = r.mux ∧
      (hostGetAccessForTransferMatrix m ks r).2.apiMustSwitchMramMux = false := by
  induction ks generalizing r with
  | nil => exact ⟨rfl, hapi⟩
  | cons k ks ih =>
    have hline : ∀ (q : MuxRank α) (i : Member) (mask : Mask8), q.mux = r.mux ∧ q.apiMustSwitchMramMux = false →
        (dpuSwitchMuxForDpuLine q i mask).2.mux = r.mux ∧ (dpuSwitchMuxForDpuLine q i mask).2.apiMustSwitchMramMux = false := by
      intro q i mask hq
      obtain ⟨h1, h2⟩ := dpuSwitchMuxForDpuLine_mux hq.2 i mask
      exact ⟨h1.trans hq.1, h2⟩
    rw [hostGetAccessForTransferMatrix]
    simp only
    by_cases hno : noBits (lineMask r m k.base) ∧ noBits (lineMask r m k.friend)
    · rw [if_pos hno]
      exact ih hapi
    rw [if_neg hno]
    by_cases hassert : ¬(noBits (lineMask r m k.base) ∨ noBits (lineMask r m k.friend) ∨
        lineMask r m k.base = lineMask r m k.friend)
    · rw [if_pos hassert]
      exact ⟨rfl, hapi⟩
    rw [if_neg hassert]
    refine ff_preserves (P := fun q => q.mux = r.mux ∧ q.apiMustSwitchMramMux = false) (hline r _ _ ⟨rfl, hapi⟩) fun q hq => ?_
    refine ff_preserves (P := fun q => q.mux = r.mux ∧ q.apiMustSwitchMramMux = false) (hline q _ _ hq) fun q' hq' => ?_
    exact ⟨(ih hq'.2).1.trans hq'.1, (ih hq'.2).2⟩

/-- the mask of a pair without a conflict is that of any of its lines with a buffer -/
theorem pairMask_eq {r : MuxRank α} {m : TransferMatrix α} {i : Member} (hk : ¬ Conflict r.enabled m (pairOf i))
    (hi : ¬ noBits (lineMask r m i)) (ci : Ci) :
    (lineMask r m (pairOf i).base ci || lineMask r m (pairOf i).friend ci) = lineMask r m i ci := by
  rw [conflict_iff, not_and, not_and, ne_eq, not_not] at hk
  rcases (pairOf_eq_iff i _).mp rfl with hb | hf
  · by_cases hno : noBits (lineMask r m (pairOf i).friend)
    · rw [hno ci, Bool.or_false, ← hb]
    · rw [← hk (hb ▸ hi) hno, Bool.or_self, ← hb]
  · by_cases hno : noBits (lineMask r m (pairOf i).base)
    · rw [hno ci, Bool.false_or, ← hf]
    · rw [hk hno (hf ▸ hi), Bool.or_self, ← hf]

/-- a buffer for an enabled DPU alone -/
def OnlyEnabled (enabled : Ci → Mask8) (m : TransferMatrix α) : Prop :=
  ∀ ci i, (buf m ci i).isSome = true → enabled ci i = true

theorem lineInXfer_iff (m : TransferMatrix α) (i : Member) :
    m.lineInXfer i.val = true ↔ ∃ ci, (buf m ci i).isSome = true := by
  simp only [TransferMatrix.lineInXfer, List.any_eq_true, List.mem_range, buf]
  exact ⟨fun ⟨j, hj, h⟩ => ⟨⟨j, hj⟩, h⟩, fun ⟨ci, h⟩ => ⟨ci.val, ci.isLt, h⟩⟩

/-- **Access.** Without a conflict, the muxes guard the matrix once `host_get_access_for_transfer_matrix` has succeeded. -/
theorem access_guards {m : TransferMatrix α} {r : MuxRank α} (hr : r.Recorded) (hapi : r.apiMustSwitchMramMux = true)
    (hm : OnlyEnabled r.enabled m) (hks : ∀ k, ¬ Conflict r.enabled m k)
    (hok : (hostGetAccessForTransferMatrix m (List.finRange 4) r).1 = .ok) :
    Guards (hostGetAccessForTransferMatrix m (List.finRange 4) r).2.mux m := by
  obtain ⟨hrec, hmux⟩ := access_ok hr hapi (List.nodup_finRange 4) (fun k _ => hks k) hok
  have hs : SameRank r (hostGetAccessForTransferMatrix m (List.finRange 4) r).2 :=
    (access_switched fun k _ => hks k).same
  have hmask : ∀ ci i, (buf m ci i).isSome = lineMask r m i ci := by
    intro ci i
    cases hb : (buf m ci i).isSome with
    | true => simp [lineMask, hm ci i hb, hb]
    | false => simp [lineMask, hb]
  -- a line with a buffer gets its own mask
  have hline : ∀ ci (i : Member), r.Live ci → (∃ cj, (buf m cj i).isSome = true) →
      (hostGetAccessForTransferMatrix m (List.finRange 4) r).2.mux ci (pairOf i) = (buf m ci i).isSome := by
    intro ci i hl ⟨cj, hj⟩
    have hbits : ¬ noBits (lineMask r m i) := fun hno => by
      rw [hmask] at hj
      exact absurd (hj.symm.trans (hno cj)) (by decide)
    have hpair : ¬(noBits (lineMask r m (pairOf i).base) ∧ noBits (lineMask r m (pairOf i).friend)) := by
      rintro ⟨h1, h2⟩
      rcases (pairOf_eq_iff i _).mp rfl with hi | hi
      · exact hbits (hi ▸ h1)
      · exact hbits (hi ▸ h2)
    rw [hmux ci _ hl, if_pos ⟨List.mem_finRange _, hpair⟩, pairMask_eq (hks _) hbits, hmask]
  refine ⟨fun ci i hb => ?_, fun ci i hx hb => ?_⟩
  · rw [hline ci i ⟨i, hm ci i hb⟩ ⟨ci, hb⟩, hb]
  · by_cases hl : r.Live ci
    · rw [hline ci i hl ((lineInXfer_iff m i).mp hx), hb]
    · exact hrec.dead ci _ fun h => hl ((hs.live ci).mp h)

/-! ## Sending one matrix -/

theorem buf_eq_none_of_empty {m : TransferMatrix α} (h : ∀ idx : Fin 64, (m.ptr idx.val).isSome = false) (ci : Ci)
    (i : Member) : buf m ci i = none :=
  Option.not_isSome_iff_eq_none.mp (by rw [buf, h ⟨i.val * 8 + ci.val, by omega⟩]; exact Bool.false_ne_true)

theorem empty_iff (m : TransferMatrix α) :
    (∀ idx : Fin 64, (m.ptr idx.val).isSome = false) ↔ ∀ ci i, (buf m ci i).isSome = false := by
  constructor
  · intro h ci i
    rw [buf_eq_none_of_empty h]
    rfl
  · intro h idx
    have := h ⟨idx.val % 8, by omega⟩ ⟨idx.val / 8, by omega⟩
    simp only [buf] at this
    rwa [Nat.div_add_mod'] at this

/-- the matrix `m` has been sent, or nothing has -/
structure Carried (r : MuxRank α) (type : TransferType) (m : TransferMatrix α) (x : Status × MuxRank α) : Prop where
  noAbort : x.1 ≠ .abort
  enabled : x.2.enabled = r.enabled
  api : x.2.apiMustSwitchMramMux = r.apiMustSwitchMramMux
  recorded : x.1 = .ok → x.2.Recorded
  sent : ∃ ss, x.2.sent = r.sent ++ ss ∧ (∀ s ∈ ss, s.type = type ∧ s.matrix = m ∧ Guards s.mux s.matrix) ∧
    (x.1 = .ok → ∀ ci i, ss.filterMap (fun s => buf s.matrix ci i) = (buf m ci i).toList)

theorem doMramTransfer_carried {r : MuxRank α} (hr : r.Recorded) (type : TransferType) {m : TransferMatrix α}
    (hg : Guards r.mux m) : Carried r type m (doMramTransfer r type m) := by
  unfold doMramTransfer
  split_ifs with hempty hok
  · refine ⟨nofun, rfl, rfl, fun _ => hr, [], (List.append_nil _).symm, nofun, fun _ ci i => ?_⟩
    rw [buf_eq_none_of_empty hempty ci i]
    rfl
  all_goals
    have hsent : ∀ s ∈ [(⟨type, m, r.mux⟩ : Sent α)], s.type = type ∧ s.matrix = m ∧ Guards s.mux s.matrix := by
      intro s hs
      rw [List.mem_singleton.mp hs]
      exact ⟨rfl, rfl, hg⟩
  · refine ⟨nofun, rfl, rfl, fun _ => ⟨hr.paired, hr.live, hr.dead⟩, [⟨type, m, r.mux⟩], rfl, hsent, fun _ ci i => ?_⟩
    cases hb : buf m ci i <;> simp [hb]
  · exact ⟨nofun, rfl, rfl, nofun, [⟨type, m, r.mux⟩], rfl, hsent, nofun⟩

/-- what is carried after access has been given -/
theorem Carried.of_access {r : MuxRank α} {type : TransferType} {m : TransferMatrix α} {x : Status × MuxRank α}
    (hs : Switched r x) (hok : x.1 = .ok → Carried x.2 type m (doMramTransfer x.2 type m)) :
    Carried r type m (ff x fun r1 => doMramTransfer r1 type m) := by
  obtain ⟨e, r1⟩ := x
  have hstop : e ≠ .ok → Carried r type m (e, r1) := fun he =>
    ⟨hs.noAbort, hs.same.enabled, hs.same.api, fun h => absurd h he, [], by rw [List.append_nil]; exact hs.same.sent,
      nofun, fun h => absurd h he⟩
  cases e with
  | ok =>
    have hc := hok rfl
    obtain ⟨ss, h1, h2, h3⟩ := hc.sent
    exact ⟨hc.noAbort, hc.enabled.trans hs.same.enabled, hc.api.trans hs.same.api, hc.recorded, ss,
      by rw [← hs.same.sent]; exact h1, h2, h3⟩
  | abort => exact hstop nofun
  | mramBusy => exact hstop nofun
  | timeout => exact hstop nofun
  | driver => exact hstop nofun

/-- a matrix without a conflict is sent under muxes that guard it -/
theorem sendMatrix_carried {r : MuxRank α} (hr : r.Recorded) (hapi : r.apiMustSwitchMramMux = true) (type : TransferType)
    {m : TransferMatrix α} (hm : OnlyEnabled r.enabled m) (hks : ∀ k, ¬ Conflict r.enabled m k) :
    Carried r type m (ff (hostGetAccessForTransferMatrix m (List.finRange 4) r) fun r1 => doMramTransfer r1 type m) :=
  Carried.of_access (access_switched fun k _ => hks k) fun hok =>
    doMramTransfer_carried (access_ok hr hapi (List.nodup_finRange 4) (fun k _ => hks k) hok).1 type
      (access_guards hr hapi hm hks hok)

/-- a full matrix is sent with all muxes on the host side, which is right if no line is written with a disabled DPU that
the host can reach -/
theorem sendFull_carried {r : MuxRank α} (hr : r.Recorded) (hapi : r.apiMustSwitchMramMux = true) (type : TransferType)
    {m : TransferMatrix α} (hm : OnlyEnabled r.enabled m) (hfull : Full r.enabled m) (hgrid : Grid r.enabled) :
    Carried r type m (ff (dpuSwitchMuxForRank r true) fun r1 => doMramTransfer r1 type m) := by
  have hs := dpuSwitchMuxForRank_switched r true
  refine Carried.of_access hs fun hok => ?_
  obtain ⟨hmux, hrec⟩ := dpuSwitchMuxForRank_spec hr hapi hok
  refine doMramTransfer_carried hrec type ⟨fun ci i hb => hmux ci _ ⟨i, hm ci i hb⟩, fun ci i hx hb => ?_⟩
  obtain ⟨cj, hj⟩ := (lineInXfer_iff m i).mp hx
  refine hrec.dead ci _ fun hl => ?_
  have hen := hgrid ci i ((hs.same.live ci).mp hl) ⟨cj, hm cj i hj⟩
  exact absurd ((hfull ci i hen).symm.trans hb) (by decide)

/-! ## The two halves -/

theorem buf_even (m : TransferMatrix α) (ci : Ci) (i : Member) :
    buf (evenTransferMatrix m) ci i = if i.val % 2 = 0 then buf m ci i else none := by
  have hdiv : (i.val * 8 + ci.val) / 8 = i.val := by omega
  simp only [buf, evenTransferMatrix, hdiv, show i.val * 8 + ci.val < 64 by omega, true_and]

theorem buf_odd (m : TransferMatrix α) (ci : Ci) (i : Member) :
    buf (oddTransferMatrix m) ci i = if i.val % 2 = 1 then buf m ci i else none := by
  have hdiv : (i.val * 8 + ci.val) / 8 = i.val := by omega
  simp only [buf, oddTransferMatrix, hdiv, show i.val * 8 + ci.val < 64 by omega, true_and]

/-- each buffer is in one of the two halves -/
theorem buf_halves (m : TransferMatrix α) (ci : Ci) (i : Member) :
    (buf (evenTransferMatrix m) ci i).toList ++ (buf (oddTransferMatrix m) ci i).toList = (buf m ci i).toList := by
  rw [buf_even, buf_odd]
  rcases Nat.mod_two_eq_zero_or_one i.val with h | h
  · simp [h]
  · simp [h]

theorem even_noConflict (enabled : Ci → Mask8) (m : TransferMatrix α) (k : Pair) :
    ¬ Conflict enabled (evenTransferMatrix m) k := by
  rintro ⟨-, ⟨ci, -, h⟩, -⟩
  rw [buf_even, if_neg (by simp only [Pair.friend]; omega)] at h
  exact absurd h Bool.false_ne_true

theorem odd_noConflict (enabled : Ci → Mask8) (m : TransferMatrix α) (k : Pair) :
    ¬ Conflict enabled (oddTransferMatrix m) k := by
  rintro ⟨⟨ci, -, h⟩, -⟩
  rw [buf_odd, if_neg (by simp only [Pair.base]; omega)] at h
  exact absurd h Bool.false_ne_true

theorem even_onlyEnabled {enabled : Ci → Mask8} {m : TransferMatrix α} (hm : OnlyEnabled enabled m) :
    OnlyEnabled enabled (evenTransferMatrix m) := by
  intro ci i h
  rw [buf_even] at h
  split_ifs at h
  · exact hm ci i h
  · exact absurd h Bool.false_ne_true

theorem odd_onlyEnabled {enabled : Ci → Mask8} {m : TransferMatrix α} (hm : OnlyEnabled enabled m) :
    OnlyEnabled enabled (oddTransferMatrix m) := by
  intro ci i h
  rw [buf_odd] at h
  split_ifs at h
  · exact hm ci i h
  · exact absurd h Bool.false_ne_true

/-! ## Exactly when it is respected -/

/-- what `SplitRespected` asks of one call -/
theorem respected_of_carried {r : MuxRank α} {type : TransferType} {m : TransferMatrix α} {x : Status × MuxRank α}
    (h : Carried r type m x) (hr : r.sent = []) :
    x.1 ≠ .abort ∧
      (∀ s ∈ x.2.sent, s.type = type ∧ s.matrix.offset = m.offset ∧ s.matrix.size = m.size ∧ Guards s.mux s.matrix) ∧
      (x.1 = .ok → ∀ ci i, x.2.sent.filterMap (fun s => buf s.matrix ci i) = (buf m ci i).toList) := by
  obtain ⟨ss, h1, h2, h3⟩ := h.sent
  rw [hr, List.nil_append] at h1
  refine ⟨h.noAbort, fun s hs => ?_, fun hok => by rw [h1]; exact h3 hok⟩
  rw [h1] at hs
  obtain ⟨ht, hmat, hg⟩ := h2 s hs
  exact ⟨ht, by rw [hmat], by rw [hmat], hg⟩

/-- **Two matrices.** A matrix that is split is sent as the scan intends. -/
theorem split_respected {r : MuxRank α} (hr : r.Recorded) (hapi : r.apiMustSwitchMramMux = true) (type : TransferType)
    {m : TransferMatrix α} (hm : OnlyEnabled r.enabled m) (hsent : r.sent = []) (hdup : isDuplicationNeeded r m = true) :
    (copyMramForDpus r type m).1 ≠ .abort ∧
      (∀ s ∈ (copyMramForDpus r type m).2.sent,
        s.type = type ∧ s.matrix.offset = m.offset ∧ s.matrix.size = m.size ∧ Guards s.mux s.matrix) ∧
      ((copyMramForDpus r type m).1 = .ok → ∀ ci i,
        (copyMramForDpus r type m).2.sent.filterMap (fun s => buf s.matrix ci i) = (buf m ci i).toList) := by
  rw [copyMramForDpus, if_neg (by rw [hdup]; decide), ← ff_assoc]
  have he := sendMatrix_carried hr hapi type (even_onlyEnabled hm) (even_noConflict r.enabled m)
  generalize (ff (hostGetAccessForTransferMatrix (evenTransferMatrix m) (List.finRange 4) r) fun r1 =>
    doMramTransfer r1 type (evenTransferMatrix m)) = x at he ⊢
  obtain ⟨e, r2⟩ := x
  obtain ⟨ss, h1, h2, h3⟩ := he.sent
  rw [hsent, List.nil_append] at h1
  have hss : ∀ s ∈ ss, s.type = type ∧ s.matrix.offset = m.offset ∧ s.matrix.size = m.size ∧ Guards s.mux s.matrix := by
    intro s hs
    obtain ⟨ht, hmat, hg⟩ := h2 s hs
    exact ⟨ht, by rw [hmat]; rfl, by rw [hmat]; rfl, hg⟩
  by_cases hok : e = .ok
  · subst hok
    have ho := sendMatrix_carried (he.recorded rfl) (he.api.trans hapi) type
      (he.enabled ▸ odd_onlyEnabled hm) (he.enabled ▸ odd_noConflict r.enabled m)
    obtain ⟨ts, g1, g2, g3⟩ := ho.sent
    have hstep : ff (.ok, r2) (fun r2 => ff (hostGetAccessForTransferMatrix (oddTransferMatrix m) (List.finRange 4) r2)
        fun r3 => doMramTransfer r3 type (oddTransferMatrix m)) =
        ff (hostGetAccessForTransferMatrix (oddTransferMatrix m) (List.finRange 4) r2)
          fun r3 => doMramTransfer r3 type (oddTransferMatrix m) := rfl
    rw [hstep]
    rw [h1] at g1
    refine ⟨ho.noAbort, fun s hs => ?_, fun hok ci i => ?_⟩
    · rw [g1, List.mem_append] at hs
      rcases hs with hs | hs
      · exact hss s hs
      · obtain ⟨ht, hmat, hg⟩ := g2 s hs
        exact ⟨ht, by rw [hmat]; rfl, by rw [hmat]; rfl, hg⟩
    · rw [← buf_halves m ci i, ← h3 rfl ci i, ← g3 hok ci i, ← List.filterMap_append, ← g1]
  · have hstop : ff (e, r2) (fun r2 => ff (hostGetAccessForTransferMatrix (oddTransferMatrix m) (List.finRange 4) r2)
        fun r3 => doMramTransfer r3 type (oddTransferMatrix m)) = (e, r2) := by
      cases e <;> first | exact absurd rfl hok | rfl
    rw [hstop]
    exact ⟨he.noAbort, fun s hs => hss s (by rw [← h1]; exact hs), fun h => absurd h hok⟩

/-- a rank with all muxes on the DPU side, where nothing runs and nothing fails -/
def idleRank (α : Type) (enabled : Ci → Mask8) (api : Bool) : MuxRank α where
  enabled := enabled
  hostMux _ _ := false
  mux _ _ := false
  dpuRunning _ _ := false
  apiMustSwitchMramMux := api
  initMramMux := false
  access := []
  transfers := []
  sent := []

theorem idleRank_recorded (enabled : Ci → Mask8) (api : Bool) : (idleRank α enabled api).Recorded :=
  ⟨fun _ _ => rfl, fun _ _ _ => rfl, fun _ _ _ => rfl⟩

theorem idleRank_free (enabled : Ci → Mask8) (api : Bool) : (idleRank α enabled api).Free :=
  ⟨fun ⟨_, _, h⟩ => Bool.false_ne_true h, rfl, rfl⟩

/-- on a rank where nothing fails, a matrix with a buffer is sent as soon as access has been given -/
theorem doMramTransfer_free {r : MuxRank α} (hf : r.Free) (type : TransferType) {m : TransferMatrix α}
    (hm : ∃ ci i, (buf m ci i).isSome = true) :
    (doMramTransfer r type m).2.sent = r.sent ++ [⟨type, m, r.mux⟩] := by
  have hne : ¬ ∀ idx : Fin 64, (m.ptr idx.val).isSome = false := by
    rw [empty_iff]
    obtain ⟨ci, i, h⟩ := hm
    exact fun hall => absurd (h.symm.trans (hall ci i)) (by decide)
  rw [doMramTransfer, if_neg hne]
  simp only [hf.transfers, List.head?_nil, Option.getD_none, if_true]

/-- access that nothing stops ends in the assertion only over a conflict -/
theorem access_free {r : MuxRank α} (hf : r.Free) {m : TransferMatrix α}
    (h : (hostGetAccessForTransfer r m).1 ≠ .abort) :
    Switched r (hostGetAccessForTransfer r m) ∧ (¬ Full r.enabled m → ∀ k, ¬ Conflict r.enabled m k) := by
  unfold hostGetAccessForTransfer at h ⊢
  by_cases hfull : IsTransferMatrixFull r m
  · rw [if_pos hfull]
    exact ⟨dpuSwitchMuxForRank_switched r true, fun hn => absurd hfull hn⟩
  · rw [if_neg hfull] at h ⊢
    have hc : ∀ k, ¬ Conflict r.enabled m k := fun k hk => h (access_abort hf ⟨k, List.mem_finRange k, hk⟩)
    exact ⟨access_switched fun k _ => hc k, fun _ => hc⟩

/-- a call that does not split, on an idle rank: access, then the matrix under the muxes it has set -/
theorem unsplit_sent {enabled : Ci → Mask8} {api : Bool} {m : TransferMatrix α} (h : SplitRespected enabled api m)
    (hne : ∃ ci i, (buf m ci i).isSome = true) (hdup : ¬(api = true ∧ SeenConflict enabled m)) :
    (hostGetAccessForTransfer (idleRank α enabled api) m).1 = .ok ∧
      (¬ Full enabled m → ∀ k, ¬ Conflict enabled m k) ∧
      Guards (hostGetAccessForTransfer (idleRank α enabled api) m).2.mux m := by
  have hd : isDuplicationNeeded (idleRank α enabled api) m = false :=
    Bool.eq_false_iff.mpr fun hd => hdup ((isDuplicationNeeded_iff _ m).mp hd)
  obtain ⟨hab, hg, -⟩ := h (idleRank α enabled api) .toMram (idleRank_recorded enabled api) rfl rfl rfl
  rw [copyMramForDpus, if_pos hd] at hab hg
  have hacc : (hostGetAccessForTransfer (idleRank α enabled api) m).1 ≠ .abort := by
    intro ha
    simp only [ff, ha, ne_eq, not_true_eq_false] at hab
  obtain ⟨hs, hconf⟩ := access_free (idleRank_free enabled api) hacc
  obtain ⟨hok, hf⟩ := hs.free (idleRank_free enabled api)
  have hsent := doMramTransfer_free hf .toMram hne
  simp only [ff, hok, hsent] at hg
  exact ⟨hok, hconf, (hg _ (List.mem_append_right _ (List.mem_singleton.mpr rfl))).2.2.2⟩

theorem splitFits_of_respected {enabled : Ci → Mask8} {api : Bool} {m : TransferMatrix α} (hm : OnlyEnabled enabled m)
    (h : SplitRespected enabled api m) : SplitFits enabled api m := by
  by_cases hempty : ∀ ci i, (buf m ci i).isSome = false
  · exact .inl hempty
  have hne : ∃ ci i, (buf m ci i).isSome = true := by
    simpa only [not_forall, Bool.not_eq_false] using hempty
  by_cases hdup : api = true ∧ SeenConflict enabled m
  · exact .inr ⟨hdup.1, .inl hdup.2⟩
  obtain ⟨hok, hconf, hg⟩ := unsplit_sent h hne hdup
  unfold hostGetAccessForTransfer at hok hg
  cases api with
  | false =>
    -- no mux is moved, and all are on the DPU side
    obtain ⟨ci, i, hb⟩ := hne
    have hmux := hg.host ci i hb
    split_ifs at hmux
    · rw [dpuSwitchMuxForRank_mux rfl rfl] at hmux
      exact absurd hmux Bool.false_ne_true
    · rw [(access_mux rfl).1] at hmux
      exact absurd hmux Bool.false_ne_true
  | true =>
    refine .inr ⟨rfl, .inr ?_⟩
    by_cases hfull : Full enabled m
    · refine .inl ⟨hfull, fun ci i hlive ⟨cj, hj⟩ => ?_⟩
      rw [if_pos (show IsTransferMatrixFull (idleRank α enabled true) m from hfull)] at hok hg
      have hhost := (dpuSwitchMuxForRank_spec (idleRank_recorded enabled true) rfl hok).1 ci (pairOf i) hlive
      by_contra hen
      have hb : (buf m ci i).isSome = false := Bool.eq_false_iff.mpr fun hb => hen (hm ci i hb)
      exact absurd (hhost.symm.trans (hg.dpu ci i ((lineInXfer_iff m i).mpr ⟨cj, hfull cj i hj⟩) hb)) (by decide)
    · exact .inr ⟨hfull, hconf hfull⟩

/-- a matrix without a buffer is never sent -/
theorem empty_respected {enabled : Ci → Mask8} {api : Bool} {m : TransferMatrix α}
    (hempty : ∀ ci i, (buf m ci i).isSome = false) : SplitRespected enabled api m := by
  intro r type hr hen hapi hsent
  have hnone : ∀ ci i, buf m ci i = none := fun ci i => buf_eq_none_of_empty ((empty_iff m).mpr hempty) ci i
  have hd : isDuplicationNeeded r m = false := Bool.eq_false_iff.mpr fun hd => by
    obtain ⟨-, k, ci, -, hboth, -⟩ := (isDuplicationNeeded_iff r m).mp hd
    exact absurd (hboth.2.2.1.symm.trans (hempty ci _)) (by decide)
  have hs : Switched r (hostGetAccessForTransfer r m) := by
    unfold hostGetAccessForTransfer
    split_ifs
    · exact dpuSwitchMuxForRank_switched r true
    · exact access_switched fun k _ ⟨⟨ci, _, hb⟩, _⟩ => absurd (hb.symm.trans (hempty ci _)) (by decide)
  have hstay : ∀ q : MuxRank α, doMramTransfer q type m = (.ok, q) := fun q => if_pos ((empty_iff m).mpr hempty)
  have hcall : copyMramForDpus r type m = hostGetAccessForTransfer r m := by
    rw [copyMramForDpus, if_pos hd]
    simp only [hstay, ff]
    generalize hostGetAccessForTransfer r m = x
    obtain ⟨e, q⟩ := x
    cases e <;> rfl
  rw [hcall, hs.same.sent, hsent]
  exact ⟨hs.noAbort, nofun, fun _ ci i => by rw [hnone]; rfl⟩

/-- **Splitting respects the paired mux exactly when the scan and the masks fit together.** -/
theorem split_respected_iff (enabled : Ci → Mask8) (api : Bool) (m : TransferMatrix α) (hm : OnlyEnabled enabled m) :
    SplitRespected enabled api m ↔ SplitFits enabled api m := by
  refine ⟨splitFits_of_respected hm, ?_⟩
  rintro (hempty | ⟨rfl, h⟩)
  · exact empty_respected hempty
  intro r type hr hen hapi hsent
  subst hen
  by_cases hdup : isDuplicationNeeded r m = true
  · exact split_respected hr hapi type hm hsent hdup
  have hd : isDuplicationNeeded r m = false := Bool.eq_false_iff.mpr hdup
  have hcall : copyMramForDpus r type m = ff (hostGetAccessForTransfer r m) fun r1 => doMramTransfer r1 type m := by
    rw [copyMramForDpus, if_pos hd]
  rw [hcall]
  refine respected_of_carried ?_ hsent
  unfold hostGetAccessForTransfer
  rcases h with hseen | ⟨hfull, hgrid⟩ | ⟨hfull, hconf⟩
  · exact absurd ((isDuplicationNeeded_iff r m).mpr ⟨hapi, hseen⟩) hdup
  · rw [if_pos (show IsTransferMatrixFull r m from hfull)]
    exact sendFull_carried hr hapi type hm hfull hgrid
  · rw [if_neg (show ¬ IsTransferMatrixFull r m from hfull)]
    exact sendMatrix_carried hr hapi type hm hconf

/-- chips 0 and 1 have a buffer for DPU 0, chip 0 alone for DPU 1: the scan sees both lines on chip 0 -/
theorem split_respected_seen :
    SplitFits (fun _ => Mask8.all) true (⟨fun idx => if idx ∈ [0, 1, 8] then some () else none, 0, 8⟩ : TransferMatrix Unit) ∧
      SplitRespected (fun _ => Mask8.all) true
        (⟨fun idx => if idx ∈ [0, 1, 8] then some () else none, 0, 8⟩ : TransferMatrix Unit) := by
  have hfits : SplitFits (fun _ => Mask8.all) true
      (⟨fun idx => if idx ∈ [0, 1, 8] then some () else none, 0, 8⟩ : TransferMatrix Unit) := by
    refine .inr ⟨rfl, .inl ⟨0, 0, 1, ⟨rfl, rfl, rfl, rfl⟩, ⟨rfl, rfl, by decide⟩, by decide, fun c hc => ?_⟩⟩
    have : c = 0 := Fin.lt_one_iff c |>.mp hc
    subst this
    rintro ⟨-, -, h⟩
    exact h rfl
  exact ⟨hfits, (split_respected_iff _ _ _ fun _ _ _ => rfl).mpr hfits⟩

/-- chip 0 has a buffer for DPU 0 alone, chip 1 for DPU 1 alone: the scan breaks off at chip 0 before it has seen the
second line, the matrix is not split, and the assertion fails -/
theorem split_conflict_behind_break :
    ¬ SplitRespected (fun _ => Mask8.all) true
      (⟨fun idx => if idx ∈ [0, 9] then some () else none, 0, 8⟩ : TransferMatrix Unit) := by
  intro h
  rcases splitFits_of_respected (fun _ _ _ => rfl) h with hempty | ⟨-, hseen | ⟨hfull, -⟩ | ⟨-, hconf⟩⟩
  · exact absurd (hempty 0 0) (by decide)
  · obtain ⟨k, ci, -, ⟨-, -, h1, h2⟩, -⟩ := hseen
    revert h1 h2
    revert k ci
    decide
  · exact absurd (hfull 0 1 rfl) (by decide)
  · exact hconf 0 ⟨⟨0, rfl, rfl⟩, ⟨1, rfl, rfl⟩, 0, by decide⟩

end PimOfis.Mram
