/-
The MRAM of a rank under OFIS calls and pushes (`dpu_copy_to_mrams` and `dpu_copy_from_mrams` of `dpu_memory.c` with
`ufi_memory.c` under them; `OFIS_dpu_launch`, `OFIS_set_mux_ig` and `OFIS_set_mux_rank` of `dpu_runner.c`).

The muxes have two drivers. A push goes by the record of the muxes and keeps it; the OFIS calls set the muxes and leave the
record as it is. Between the calls the DPUs write their MRAM as they like.

Results:
- `ofisDpuLaunch_views`, `ofisSetMuxIg_views`, `ofisSetMuxRank_views`: the OFIS calls here are those of the control
  interface, seen at the muxes;
- `push_framed`: from a right record a push writes its buffers and nothing else, and leaves the record right;
- `run_framed`: so does every push of a run whose calls meet `StepOk`;
- `launch_behind_record`: a launch between two pushes, after which the second writes nothing.
-/
import Mathlib.Tactic
import PimOfis.Api.SetMux
import PimOfis.Mram.Reach

namespace PimOfis.Mram

open PimOfis.Ufi PimOfis.Hw

/-! ## Model -/

variable {α : Type}

/-- one of the two DPUs of the pair is enabled -/
def MuxRank.PairEnabled (r : MuxRank α) (ci : Ci) (k : Pair) : Prop :=
  r.enabled ci k.base = true ∨ r.enabled ci k.friend = true

instance (r : MuxRank α) (ci : Ci) (k : Pair) : Decidable (r.PairEnabled ci k) := by
  unfold MuxRank.PairEnabled; infer_instance

/-- the muxes of these pairs put on the side `dir` -/
def MuxRank.setPairs (r : MuxRank α) (P : Ci → Pair → Prop) [∀ ci k, Decidable (P ci k)] (dir : Bool) : MuxRank α :=
  { r with mux := fun ci k => if P ci k then dir else r.mux ci k }

/-- the body of the loop of `OFIS_dpu_launch`, entered with the chips `ciMask` -/
def ofisDpuLaunch (r : MuxRank α) (ciMask : Mask8) : MuxRank α :=
  r.setPairs (fun ci k => ciMask ci = true ∧ r.PairEnabled ci k) false

/-- `OFIS_set_mux_ig` -/
def ofisSetMuxIg (r : MuxRank α) (igId : ℕ) (dir : Bool) : MuxRank α :=
  r.setPairs (fun ci k => (r.enabled ci).bit igId = true ∧ k.val = igId / 2) dir

/-- `OFIS_set_mux_rank` -/
def ofisSetMuxRank (r : MuxRank α) (dir : Bool) : MuxRank α := r.setPairs r.PairEnabled dir

/-- what a push returns -/
inductive PushStatus where
  | invalidMramAccess
  | copied (status : Status)
deriving DecidableEq, Repr

/-- `verify_mram_access_offset_and_size` returns an error; the sum is a `uint32_t` -/
def InvalidAccess (m : TransferMatrix α) : Prop :=
  (m.size % 8 ≠ 0 ∨ m.offset % 8 ≠ 0) ∨ mramSize ≤ m.offset ∨ mramSize < (m.offset + m.size) % 2 ^ 32

instance (m : TransferMatrix α) : Decidable (InvalidAccess m) := by unfold InvalidAccess; infer_instance

/-- `dpu_copy_to_mrams` and `dpu_copy_from_mrams` -/
def dpuCopyMrams (r : MuxRank α) (type : TransferType) (m : TransferMatrix α) : PushStatus × MuxRank α :=
  if InvalidAccess m then (.invalidMramAccess, r)
  else if r.Running then (.copied .mramBusy, r)
  else (.copied (copyMramForDpus r type m).1, (copyMramForDpus r type m).2)

/-- a rank and its MRAM -/
structure Mrams where
  rank : MuxRank Buffer
  mram : Memory

/-- a push, how its switching sequences and transfers end, and the pools that carry them -/
structure Push where
  type : TransferType
  matrix : TransferMatrix Buffer
  access : List (Option Muxes)
  transfers : List Bool
  pools : ℕ → Pool

inductive Call where
  | launch (ciMask : Mask8)
  | setMuxIg (igId : ℕ) (dir : Bool)
  | setMuxRank (dir : Bool)
  | push (p : Push)
  /-- the DPUs have run -/
  | dpus (mram : Memory)

/-- the rank as the push finds it -/
def Push.enter (p : Push) (r : MuxRank Buffer) : MuxRank Buffer :=
  { r with access := p.access, transfers := p.transfers, sent := [] }

def Push.copied (p : Push) (r : MuxRank Buffer) : PushStatus × MuxRank Buffer := dpuCopyMrams (p.enter r) p.type p.matrix

def step (s : Mrams) : Call → Mrams
  | .launch ciMask => { s with rank := ofisDpuLaunch s.rank ciMask }
  | .setMuxIg igId dir => { s with rank := ofisSetMuxIg s.rank igId dir }
  | .setMuxRank dir => { s with rank := ofisSetMuxRank s.rank dir }
  | .push p => ⟨(p.copied s.rank).2, carryAll p.pools 0 (p.copied s.rank).2.sent s.mram⟩
  | .dpus mram => { s with mram := mram }

def run (s : Mrams) (calls : List Call) : Mrams := calls.foldl step s

theorem run_snoc (s : Mrams) (calls : List Call) (c : Call) : run s (calls ++ [c]) = step (run s calls) c := by
  rw [run, List.foldl_append]
  rfl

/-! ## Statement -/

/-- **The record is the hardware's.** A chip without an enabled DPU has its muxes on the DPU side. -/
structure MuxRank.Exact (r : MuxRank α) : Prop where
  record : ∀ ci i, r.hostMux ci i = r.mux ci (pairOf i)
  dead : ∀ ci k, ¬ r.Live ci → r.mux ci k = false

/-- **What a push does.** Where it returns `DPU_OK`, each buffer has been handed over once, with the mux of its DPU on the
host side; a push to the DPUs then has written the buffers and nothing else. Whatever it returns, a DPU without a buffer
keeps its MRAM, as all DPUs do over a push from them. -/
structure Carries (s : Mrams) (p : Push) : Prop where
  once : (p.copied s.rank).1 = .copied .ok → ∀ ci i,
    ((p.copied s.rank).2.sent.filterMap fun e => buf e.matrix ci i) = (buf p.matrix ci i).toList
  host : (p.copied s.rank).1 = .copied .ok → ∀ e ∈ (p.copied s.rank).2.sent, ∀ ci i,
    (buf e.matrix ci i).isSome = true → e.mux ci (pairOf i) = true
  writes : (p.copied s.rank).1 = .copied .ok → p.type = .toMram → (step s (.push p)).mram = written p.matrix s.mram
  keeps : ∀ ci i, p.type = .fromMram ∨ buf p.matrix ci i = none → (step s (.push p)).mram ci i = s.mram ci i

/-- the record is right before and after the call, and a push carries what it is given -/
structure Framed (s : Mrams) (c : Call) : Prop where
  before : ∀ ci i, s.rank.hostMux ci i = s.rank.mux ci (pairOf i)
  after : ∀ ci i, (step s c).rank.hostMux ci i = (step s c).rank.mux ci (pairOf i)
  push : ∀ p, c = .push p → Carries s p

/-- these pairs are recorded on the side they are put on -/
def RecordedAt (r : MuxRank α) (P : Ci → Pair → Prop) (dir : Bool) : Prop :=
  ∀ ci k, P ci k → r.hostMux ci k.base = dir ∧ r.hostMux ci k.friend = dir

/-- a push that is refused; or one whose access does not wrap, that has buffers for enabled DPUs alone and whose switching
sequences succeed, and which, if it switches the whole rank, finds an enabled DPU on each chip, and if it writes, no
disabled DPU on a line with an enabled one -/
def PushOk (r : MuxRank Buffer) (p : Push) : Prop :=
  InvalidAccess p.matrix ∨ r.Running ∨
    (p.matrix.offset + p.matrix.size < 2 ^ 32 ∧ OnlyEnabled r.enabled p.matrix ∧ (∀ e ∈ p.access, e = none) ∧
      (Full r.enabled p.matrix → ¬ SeenConflict r.enabled p.matrix →
        (∀ ci, r.Live ci) ∧ (p.type = .toMram → Grid r.enabled)))

/-- the condition on the state before a call -/
def StepOk (s : Mrams) : Call → Prop
  | .launch ciMask => RecordedAt s.rank (fun ci k => ciMask ci = true ∧ s.rank.PairEnabled ci k) false
  | .setMuxIg igId dir => RecordedAt s.rank (fun ci k => (s.rank.enabled ci).bit igId = true ∧ k.val = igId / 2) dir
  | .setMuxRank dir => RecordedAt s.rank s.rank.PairEnabled dir
  | .push p => PushOk s.rank p
  | .dpus _ => True

/-! ## The control interface -/

/-- a rank of the control interface, and the same rank seen at its muxes -/
structure Views (u : Ufi.Rank) (r : MuxRank α) : Prop where
  enabled : ∀ ci, (u.sliceInfo ci).enabledDpus = r.enabled ci
  record : ∀ ci, (u.sliceInfo ci).hostMuxMramState = r.hostMux ci
  mux : ∀ ci i, (u.chips ci).muxHost i = r.mux ci (pairOf i)

theorem Views.moved {u u' : Ufi.Rank} {r : MuxRank α} (h : Views u r) {P : Ci → Member → Prop} [∀ ci i, Decidable (P ci i)]
    {Q : Ci → Pair → Prop} [∀ ci k, Decidable (Q ci k)] {dir : Bool} (hm : Api.MuxMoved u u' P dir)
    (hPQ : ∀ ci i, P ci i ↔ Q ci (pairOf i)) : Views u' (r.setPairs Q dir) where
  enabled ci := (hm.enabled ci).trans (h.enabled ci)
  record ci := (hm.record ci).trans (h.record ci)
  mux ci i := by
    rw [hm.mux, h.mux]
    simp only [MuxRank.setPairs, hPQ]

theorem Views.pairEnabled {u : Ufi.Rank} {r : MuxRank α} (h : Views u r) (ci : Ci) (i : Member) :
    Api.PairEnabled u ci i ↔ r.PairEnabled ci (pairOf i) := by
  simp only [Api.PairEnabled, MuxRank.PairEnabled, h.enabled]
  constructor
  · rintro ⟨j, hj, hen⟩
    have hpair : pairOf j = pairOf i := Fin.ext hj
    rcases (pairOf_eq_iff j _).mp hpair with hj | hj
    · exact .inl (hj ▸ hen)
    · exact .inr (hj ▸ hen)
  · rintro (hen | hen)
    · exact ⟨(pairOf i).base, congrArg Fin.val (pairOf_base (pairOf i)), hen⟩
    · exact ⟨(pairOf i).friend, congrArg Fin.val (pairOf_friend (pairOf i)), hen⟩

/-- **`OFIS_dpu_launch`**, seen at the muxes. -/
theorem ofisDpuLaunch_views {u : Ufi.Rank} {r : MuxRank α} (hu : Api.Ready u) (h : Views u r) (ciMask : Mask8) :
    Views (Api.ofisDpuLaunchRank u ciMask).2 (ofisDpuLaunch r ciMask) :=
  h.moved (Api.ofisDpuLaunchRank_mux hu ciMask) fun ci i => and_congr_right fun _ => h.pairEnabled ci i

/-- **`OFIS_set_mux_ig`**, seen at the muxes. -/
theorem ofisSetMuxIg_views {u : Ufi.Rank} {r : MuxRank α} (hu : Api.Ready u) (h : Views u r) (igId : ℕ) (dir : Bool) :
    Views (Api.ofisSetMuxIg u igId dir) (ofisSetMuxIg r igId dir) :=
  h.moved (Api.ofisSetMuxIg_spec hu igId dir) fun ci i => by
    rw [h.enabled]
    rfl

/-- **`OFIS_set_mux_rank`**, seen at the muxes. -/
theorem ofisSetMuxRank_views {u : Ufi.Rank} {r : MuxRank α} (hu : Api.Ready u) (h : Views u r) (dir : Bool) :
    Views (Api.ofisSetMuxRank u dir) (ofisSetMuxRank r dir) :=
  h.moved (Api.ofisSetMuxRank_spec hu dir) fun ci i => h.pairEnabled ci i

/-! ## The record under a push -/

theorem MuxRank.Exact.recorded {r : MuxRank α} (h : r.Exact) : r.Recorded where
  paired ci k := by rw [h.record, h.record, pairOf_base, pairOf_friend]
  live ci i _ := h.record ci i
  dead := h.dead

/-- a rank whose record is right, and whose switching sequences are going to succeed -/
structure Tracked (enabled : Ci → Mask8) (r : MuxRank α) : Prop where
  enabled : r.enabled = enabled
  api : r.apiMustSwitchMramMux = true
  works : ∀ e ∈ r.access, e = none
  exact : r.Exact

theorem Tracked.live {enabled : Ci → Mask8} {r : MuxRank α} (h : Tracked enabled r) (ci : Ci) :
    r.Live ci ↔ ∃ i, enabled ci i = true := by
  rw [MuxRank.Live, h.enabled]

/-- a sequence that succeeds -/
theorem handleAccess_works {r : MuxRank α} (h : ∀ e ∈ r.access, e = none) (target : Muxes) :
    r.handleAccess target =
      (.ok, { r with mux := fun ci k => if r.Live ci then target ci k else r.mux ci k, access := r.access.tail }) := by
  unfold MuxRank.handleAccess
  cases ha : r.access with
  | nil => rfl
  | cons e es =>
    rw [h e (ha ▸ List.mem_cons_self)]
    rfl

theorem tail_works {access : List (Option Muxes)} (h : ∀ e ∈ access, e = none) : ∀ e ∈ access.tail, e = none :=
  fun e he => h e (List.mem_of_mem_tail he)

/-- a line whose mask has no chip without an enabled DPU -/
theorem dpuSwitchMuxForDpuLine_tracked {enabled : Ci → Mask8} {r : MuxRank α} (h : Tracked enabled r) (dpuId : Member)
    {mask : Mask8} (hmask : ∀ ci, ¬ r.Live ci → mask ci = false) :
    Tracked enabled (dpuSwitchMuxForDpuLine r dpuId mask).2 := by
  rw [dpuSwitchMuxForDpuLine_eq h.exact.recorded]
  split_ifs with hsame hrun hapi
  · exact h
  · exact h
  · exact absurd (h.api.symm.trans hapi) (by decide)
  · set k := pairOf dpuId
    have hworks : ∀ e ∈ (r.recordPair k mask).access, e = none := h.works
    rw [hostHandleAccessForDpu, handleAccess_works hworks, ff]
    simp only
    rw [hostHandleAccessForDpu, handleAccess_works (tail_works hworks)]
    refine ⟨h.enabled, h.api, tail_works (tail_works hworks), ⟨fun ci i => ?_, fun ci p hl => ?_⟩⟩
    · have hrec := h.exact.record ci i
      simp only [MuxRank.recordPair, MuxRank.Live, pairOf_base, pairOf_friend]
      by_cases hl : ∃ j, r.enabled ci j = true
      · by_cases hp : pairOf i = k <;> simp [hl, hp, hrec]
      · have hdead := h.exact.dead ci (pairOf i) hl
        by_cases hp : pairOf i = k
        · simp [hl, hp, hmask ci hl, ← hdead]
        · simp [hl, hp, hrec]
    · have hdead := h.exact.dead ci p hl
      have hl' : ¬ ∃ j, r.enabled ci j = true := hl
      simp [MuxRank.recordPair, MuxRank.Live, hl', hdead]

/-- the whole rank, where every chip has an enabled DPU -/
theorem dpuSwitchMuxForRank_tracked {enabled : Ci → Mask8} {r : MuxRank α} (h : Tracked enabled r)
    (hlive : ∀ ci, r.Live ci) (host : Bool) : Tracked enabled (dpuSwitchMuxForRank r host).2 := by
  unfold dpuSwitchMuxForRank
  split_ifs with hrun hall hapi
  · exact h
  · exact h
  · exact absurd (h.api.symm.trans hapi.1) (by decide)
  · have hworks : ∀ e ∈ (r.recordRank host).access, e = none := h.works
    have heq := handleAccess_works hworks fun _ _ => host
    simp only [MuxRank.recordRank] at heq
    rw [hostHandleAccessForRank, heq]
    refine ⟨h.enabled, h.api, tail_works hworks, ⟨fun ci i => ?_, fun ci k hl => absurd (hlive ci) hl⟩⟩
    exact (if_pos (hlive ci)).symm

theorem doMramTransfer_tracked {enabled : Ci → Mask8} {r : MuxRank α} (h : Tracked enabled r) (type : TransferType)
    (m : TransferMatrix α) : Tracked enabled (doMramTransfer r type m).2 := by
  unfold doMramTransfer
  split_ifs
  · exact h
  · exact ⟨h.enabled, h.api, h.works, h.exact.record, h.exact.dead⟩
  · exact ⟨h.enabled, h.api, h.works, h.exact.record, h.exact.dead⟩

/-- the masks of a matrix are taken from enabled DPUs -/
theorem access_tracked {enabled : Ci → Mask8} {m : TransferMatrix α} {ks : List Pair} {r : MuxRank α}
    (h : Tracked enabled r) : Tracked enabled (hostGetAccessForTransferMatrix m ks r).2 := by
  induction ks generalizing r with
  | nil => exact h
  | cons k ks ih =>
    have hmask : ∀ q : MuxRank α, Tracked enabled q → ∀ ci, ¬ q.Live ci →
        (lineMask r m k.base ci || lineMask r m k.friend ci) = false := by
      intro q hq ci hl
      rw [hq.live, ← h.enabled] at hl
      have hoff : ∀ i, r.enabled ci i = false := fun i => Bool.eq_false_iff.mpr fun hi => hl ⟨i, hi⟩
      simp only [lineMask, hoff, Bool.false_and, Bool.or_self]
    rw [hostGetAccessForTransferMatrix]
    simp only
    split_ifs
    · exact ih h
    · refine ff_preserves (P := Tracked enabled) (dpuSwitchMuxForDpuLine_tracked h k.base (hmask r h)) fun r1 h1 => ?_
      refine ff_preserves (P := Tracked enabled) (dpuSwitchMuxForDpuLine_tracked h1 k.friend (hmask r1 h1)) fun r2 h2 => ?_
      exact ih h2
    · exact h

/-- **The record under a push.** It stays right however the push ends, unless the whole rank is switched with a chip that
the host cannot reach. -/
theorem copyMramForDpus_tracked {enabled : Ci → Mask8} {r : MuxRank α} (h : Tracked enabled r) (type : TransferType)
    {m : TransferMatrix α} (hfull : Full enabled m → ¬ SeenConflict enabled m → ∀ ci, ∃ i, enabled ci i = true) :
    Tracked enabled (copyMramForDpus r type m).2 := by
  unfold copyMramForDpus
  split_ifs with hdup
  · refine ff_preserves (P := Tracked enabled) ?_ fun r1 h1 => doMramTransfer_tracked h1 type m
    unfold hostGetAccessForTransfer
    split_ifs with hf
    · refine dpuSwitchMuxForRank_tracked h (fun ci => (h.live ci).mpr (hfull ?_ (fun hseen => ?_) ci)) true
      · exact h.enabled ▸ hf
      · exact Bool.eq_false_iff.mp hdup ((isDuplicationNeeded_iff r m).mpr ⟨h.api, h.enabled ▸ hseen⟩)
    · exact access_tracked h
  · refine ff_preserves (P := Tracked enabled) (access_tracked h) fun r1 h1 => ?_
    refine ff_preserves (P := Tracked enabled) (doMramTransfer_tracked h1 type _) fun r2 h2 => ?_
    refine ff_preserves (P := Tracked enabled) (access_tracked h2) fun r3 h3 => ?_
    exact doMramTransfer_tracked h3 type _

/-! ## The matrices of a push -/

/-- every matrix handed over is of this type and holds buffers of `m` -/
def PartsOf (type : TransferType) (m : TransferMatrix α) (r : MuxRank α) : Prop :=
  ∀ e ∈ r.sent, e.type = type ∧ ∀ ci i, buf m ci i = none → buf e.matrix ci i = none

theorem access_sent (m : TransferMatrix α) (ks : List Pair) (r : MuxRank α) :
    (hostGetAccessForTransferMatrix m ks r).2.sent = r.sent := by
  induction ks generalizing r with
  | nil => rfl
  | cons k ks ih =>
    have hline : ∀ (q : MuxRank α) (i : Member) (mask : Mask8), q.sent = r.sent →
        (dpuSwitchMuxForDpuLine q i mask).2.sent = r.sent := fun q i mask hq =>
      (dpuSwitchMuxForDpuLine_switched q i mask).same.sent.trans hq
    rw [hostGetAccessForTransferMatrix]
    simp only
    split_ifs
    · exact ih r
    · refine ff_preserves (P := fun q => q.sent = r.sent) (hline r _ _ rfl) fun r1 h1 => ?_
      refine ff_preserves (P := fun q => q.sent = r.sent) (hline r1 _ _ h1) fun r2 h2 => ?_
      exact (ih r2).trans h2
    · rfl

theorem hostGetAccessForTransfer_sent (r : MuxRank α) (m : TransferMatrix α) :
    (hostGetAccessForTransfer r m).2.sent = r.sent := by
  unfold hostGetAccessForTransfer
  split_ifs
  · exact (dpuSwitchMuxForRank_switched r true).same.sent
  · exact access_sent m _ r

/-- `do_mram_transfer` hands the matrix over, unless it is empty -/
theorem doMramTransfer_sent (r : MuxRank α) (type : TransferType) (m : TransferMatrix α) :
    (∀ ci i, buf m ci i = none) ∧ (doMramTransfer r type m).2.sent = r.sent ∨
      (doMramTransfer r type m).2.sent = r.sent ++ [⟨type, m, r.mux⟩] := by
  unfold doMramTransfer
  split_ifs with hempty hok
  · exact .inl ⟨fun ci i => buf_eq_none_of_empty hempty ci i, rfl⟩
  · exact .inr rfl
  · exact .inr rfl

theorem doMramTransfer_parts {type : TransferType} {m m' : TransferMatrix α} {r : MuxRank α} (h : PartsOf type m r)
    (hm : ∀ ci i, buf m ci i = none → buf m' ci i = none) : PartsOf type m (doMramTransfer r type m').2 := by
  intro e he
  rcases doMramTransfer_sent r type m' with ⟨-, hsent⟩ | hsent
  · exact h e (hsent ▸ he)
  · rw [hsent, List.mem_append, List.mem_singleton] at he
    rcases he with he | rfl
    · exact h e he
    · exact ⟨rfl, hm⟩

theorem copyMramForDpus_parts {r : MuxRank α} (hr : r.sent = []) (type : TransferType) (m : TransferMatrix α) :
    PartsOf type m (copyMramForDpus r type m).2 := by
  have hstart : PartsOf type m r := fun e he => absurd (hr ▸ he) List.not_mem_nil
  have hacc : ∀ (q : MuxRank α) (m' : TransferMatrix α) (ks : List Pair), PartsOf type m q →
      PartsOf type m (hostGetAccessForTransferMatrix m' ks q).2 := by
    intro q m' ks hq e he
    exact hq e (access_sent m' ks q ▸ he)
  have heven : ∀ ci i, buf m ci i = none → buf (evenTransferMatrix m) ci i = none := fun ci i h => by
    rw [buf_even, h, ite_self]
  have hodd : ∀ ci i, buf m ci i = none → buf (oddTransferMatrix m) ci i = none := fun ci i h => by
    rw [buf_odd, h, ite_self]
  unfold copyMramForDpus
  split_ifs
  · refine ff_preserves (P := PartsOf type m) ?_ fun r1 h1 => doMramTransfer_parts h1 fun _ _ => id
    intro e he
    exact hstart e (hostGetAccessForTransfer_sent r m ▸ he)
  · refine ff_preserves (P := PartsOf type m) (hacc r _ _ hstart) fun r1 h1 => ?_
    refine ff_preserves (P := PartsOf type m) (doMramTransfer_parts h1 heven) fun r2 h2 => ?_
    refine ff_preserves (P := PartsOf type m) (hacc r2 _ _ h2) fun r3 h3 => ?_
    exact doMramTransfer_parts h3 hodd

/-- access succeeds only where the masks of no pair are in conflict -/
theorem noConflict_of_access_ok {m : TransferMatrix α} {ks : List Pair} {r : MuxRank α}
    (h : (hostGetAccessForTransferMatrix m ks r).1 = .ok) : ∀ k ∈ ks, ¬ Conflict r.enabled m k := by
  induction ks generalizing r with
  | nil => exact fun k hk => absurd hk List.not_mem_nil
  | cons k ks ih =>
    by_cases hk : Conflict r.enabled m k
    · obtain ⟨h1, h2, h3⟩ := (conflict_iff r m k).mp hk
      rw [hostGetAccessForTransferMatrix] at h
      simp only [h1, h2, h3, false_and, or_self, if_false, not_false_eq_true, if_true] at h
      exact absurd h (by simp)
    · intro k' hk'
      rcases List.mem_cons.mp hk' with rfl | hk'
      · exact hk
      rw [access_cons hk] at h
      split_ifs at h
      · exact ih h k' hk'
      · obtain ⟨-, h, -⟩ := ff_eq_ok h
        obtain ⟨-, h, -⟩ := ff_eq_ok h
        have hs1 := (dpuSwitchMuxForDpuLine_switched r k.base fun ci =>
          lineMask r m k.base ci || lineMask r m k.friend ci).same
        have hs2 := (dpuSwitchMuxForDpuLine_switched (dpuSwitchMuxForDpuLine r k.base fun ci =>
          lineMask r m k.base ci || lineMask r m k.friend ci).2 k.friend fun ci =>
            lineMask r m k.base ci || lineMask r m k.friend ci).same
        have hrest := ih h k' hk'
        rwa [(hs1.trans hs2).enabled] at hrest

/-- what the matrices handed over for `m` must be -/
structure Handed (type : TransferType) (m : TransferMatrix α) (x : Status × MuxRank α) : Prop where
  once : x.1 = .ok → ∀ ci i, (x.2.sent.filterMap fun e => buf e.matrix ci i) = (buf m ci i).toList
  host : ∀ e ∈ x.2.sent, ∀ ci i, (buf e.matrix ci i).isSome = true → e.mux ci (pairOf i) = true
  guards : type = .toMram → ∀ e ∈ x.2.sent, e.matrix.offset = m.offset ∧ e.matrix.size = m.size ∧ Guards e.mux e.matrix

theorem Handed.of_respected {type : TransferType} {m : TransferMatrix α} {x : Status × MuxRank α}
    (h : x.1 ≠ .abort ∧
      (∀ s ∈ x.2.sent, s.type = type ∧ s.matrix.offset = m.offset ∧ s.matrix.size = m.size ∧ Guards s.mux s.matrix) ∧
      (x.1 = .ok → ∀ ci i, x.2.sent.filterMap (fun s => buf s.matrix ci i) = (buf m ci i).toList)) :
    Handed type m x where
  once := h.2.2
  host e he := (h.2.1 e he).2.2.2.host
  guards _ e he := (h.2.1 e he).2

/-- nothing handed over, and not `DPU_OK` -/
theorem Handed.stopped {type : TransferType} {m : TransferMatrix α} {x : Status × MuxRank α} (hx : x.1 ≠ .ok)
    (hs : x.2.sent = []) : Handed type m x where
  once h := absurd h hx
  host _ he := absurd (hs ▸ he) List.not_mem_nil
  guards _ _ he := absurd (hs ▸ he) List.not_mem_nil

theorem ff_of_ne_ok {x : Status × MuxRank α} {k : MuxRank α → Status × MuxRank α} (h : x.1 ≠ .ok) : ff x k = x := by
  obtain ⟨e, r⟩ := x
  cases e with
  | ok => exact absurd rfl h
  | _ => rfl

/-- a full matrix read with all muxes on the host side -/
theorem readFull_handed {r : MuxRank α} (hr : r.Recorded) (hapi : r.apiMustSwitchMramMux = true) (hsent : r.sent = [])
    {m : TransferMatrix α} (hm : OnlyEnabled r.enabled m) :
    Handed .fromMram m (ff (dpuSwitchMuxForRank r true) fun r1 => doMramTransfer r1 .fromMram m) := by
  have hs := dpuSwitchMuxForRank_switched r true
  by_cases hok : (dpuSwitchMuxForRank r true).1 = .ok
  · have hff : ff (dpuSwitchMuxForRank r true) (fun r1 => doMramTransfer r1 .fromMram m) =
        doMramTransfer (dpuSwitchMuxForRank r true).2 .fromMram m := by simp only [ff, hok]
    obtain ⟨hmux, -⟩ := dpuSwitchMuxForRank_spec hr hapi hok
    rw [hff]
    refine ⟨fun _ ci i => ?_, fun e he ci i hb => ?_, fun h => by cases h⟩
    · rcases doMramTransfer_sent (dpuSwitchMuxForRank r true).2 .fromMram m with ⟨hempty, h⟩ | h
      · rw [h, hs.same.sent, hsent, hempty]
        rfl
      · rw [h, hs.same.sent, hsent]
        cases hb : buf m ci i <;> simp [hb]
    · rcases doMramTransfer_sent (dpuSwitchMuxForRank r true).2 .fromMram m with ⟨-, h⟩ | h
      · rw [h, hs.same.sent, hsent] at he
        exact absurd he List.not_mem_nil
      · rw [h, hs.same.sent, hsent, List.nil_append, List.mem_singleton] at he
        subst he
        exact hmux ci _ ⟨i, hm ci i hb⟩
  · rw [ff_of_ne_ok hok]
    exact Handed.stopped hok (hs.same.sent.trans hsent)

/-- **The matrices of a push.** With a right record each buffer is handed over once, and with the muxes where they must
be. -/
theorem copyMramForDpus_handed {r : MuxRank α} (hr : r.Recorded) (hapi : r.apiMustSwitchMramMux = true)
    (hsent : r.sent = []) (type : TransferType) {m : TransferMatrix α} (hm : OnlyEnabled r.enabled m)
    (hgrid : Full r.enabled m → ¬ SeenConflict r.enabled m → type = .toMram → Grid r.enabled) :
    Handed type m (copyMramForDpus r type m) := by
  by_cases hdup : isDuplicationNeeded r m = true
  · exact Handed.of_respected (split_respected hr hapi type hm hsent hdup)
  have hd : isDuplicationNeeded r m = false := Bool.eq_false_iff.mpr hdup
  have hseen : ¬ SeenConflict r.enabled m := fun h => hdup ((isDuplicationNeeded_iff r m).mpr ⟨hapi, h⟩)
  rw [copyMramForDpus, if_pos hd, hostGetAccessForTransfer]
  by_cases hfull : Full r.enabled m
  · rw [if_pos (show IsTransferMatrixFull r m from hfull)]
    cases type with
    | toMram =>
      exact Handed.of_respected (respected_of_carried (sendFull_carried hr hapi .toMram hm hfull (hgrid hfull hseen rfl)) hsent)
    | fromMram => exact readFull_handed hr hapi hsent hm
  · rw [if_neg (show ¬ IsTransferMatrixFull r m from hfull)]
    by_cases hok : (hostGetAccessForTransferMatrix m (List.finRange 4) r).1 = .ok
    · have hks : ∀ k, ¬ Conflict r.enabled m k := fun k => noConflict_of_access_ok hok k (List.mem_finRange k)
      exact Handed.of_respected (respected_of_carried (sendMatrix_carried hr hapi type hm hks) hsent)
    · rw [ff_of_ne_ok hok]
      exact Handed.stopped hok ((access_sent m _ r).trans hsent)

/-! ## A push -/

theorem xferOk_of_valid {m : TransferMatrix α} (h : ¬ InvalidAccess m) (hlt : m.offset + m.size < 2 ^ 32) : XferOk m := by
  simp only [InvalidAccess, not_or, not_not, not_le, not_lt] at h
  obtain ⟨⟨hsize, hoffset⟩, -, hfits⟩ := h
  rw [Nat.mod_eq_of_lt hlt] at hfits
  exact ⟨Nat.dvd_of_mod_eq_zero hoffset, Nat.dvd_of_mod_eq_zero hsize, hfits⟩

theorem copied_eq {r : MuxRank Buffer} {p : Push} (hv : ¬ InvalidAccess p.matrix) (hrun : ¬ r.Running) :
    p.copied r = (.copied (copyMramForDpus (p.enter r) p.type p.matrix).1, (copyMramForDpus (p.enter r) p.type p.matrix).2) := by
  rw [Push.copied, dpuCopyMrams, if_neg hv, if_neg (show ¬ (p.enter r).Running from hrun)]

/-- a push that is refused finds the rank as it leaves it -/
theorem copied_refused {r : MuxRank Buffer} {p : Push} (h : InvalidAccess p.matrix ∨ r.Running) :
    (p.copied r).1 ≠ .copied .ok ∧ (p.copied r).2 = p.enter r := by
  rw [Push.copied, dpuCopyMrams]
  by_cases hv : InvalidAccess p.matrix
  · rw [if_pos hv]
    exact ⟨nofun, rfl⟩
  · have hrun : (p.enter r).Running := h.resolve_left hv
    rw [if_neg hv, if_pos hrun]
    exact ⟨nofun, rfl⟩

theorem carries_of_refused {s : Mrams} {p : Push} (h : InvalidAccess p.matrix ∨ s.rank.Running) : Carries s p := by
  obtain ⟨hne, heq⟩ := copied_refused h
  refine ⟨fun hok => absurd hok hne, fun hok => absurd hok hne, fun hok => absurd hok hne, fun ci i _ => ?_⟩
  rw [step, heq]
  rfl

/-- the matrices of a push that holds no buffer of a DPU leave its MRAM as it is -/
theorem carryAll_keeps {m : TransferMatrix Buffer} (hm : XferOk m) {type : TransferType} {x : Status × MuxRank Buffer}
    (hparts : PartsOf type m x.2) (hx : Handed type m x) (pools : ℕ → Pool) (mram : Memory) {ci : Ci} {i : Member}
    (hi : type = .fromMram ∨ buf m ci i = none) : carryAll pools 0 x.2.sent mram ci i = mram ci i := by
  cases type with
  | fromMram => rw [carryAll_fromMram fun e he => (hparts e he).1]
  | toMram =>
    have hnone : buf m ci i = none := hi.resolve_left nofun
    have hcov : ∀ e ∈ x.2.sent, Covers m.offset m.size e := by
      intro e he
      obtain ⟨hoff, hsize, hg⟩ := hx.guards rfl e he
      exact ⟨(hparts e he).1, hoff, hsize, hg⟩
    have hfm : (x.2.sent.filterMap fun e => buf e.matrix ci i) = [] := by
      rw [List.filterMap_eq_nil_iff]
      exact fun e he => (hparts e he).2 ci i hnone
    rw [carryAll_foldl ⟨hm.offset, hm.size, hm.fits⟩ hcov, hfm]
    rfl

/-- **A push.** From a right record a push that meets its condition does what it is to do. -/
theorem push_carries {s : Mrams} (hx : s.rank.Exact) (hapi : s.rank.apiMustSwitchMramMux = true) {p : Push}
    (hp : PushOk s.rank p) : Carries s p := by
  by_cases href : InvalidAccess p.matrix ∨ s.rank.Running
  · exact carries_of_refused href
  rw [not_or] at href
  obtain ⟨hlt, hm, -, hfull⟩ := (hp.resolve_left href.1).resolve_left href.2
  have hok := xferOk_of_valid href.1 hlt
  have hrec : (p.enter s.rank).Recorded := ⟨hx.recorded.paired, hx.recorded.live, hx.recorded.dead⟩
  have hparts := copyMramForDpus_parts (r := p.enter s.rank) rfl p.type p.matrix
  have hh := copyMramForDpus_handed hrec hapi rfl p.type hm fun h1 h2 => (hfull h1 h2).2
  have heq := copied_eq href.1 href.2
  have hstatus : (p.copied s.rank).1 = .copied .ok → (copyMramForDpus (p.enter s.rank) p.type p.matrix).1 = .ok := by
    rw [heq]
    exact fun h => PushStatus.copied.inj h
  have hsent : (p.copied s.rank).2.sent = (copyMramForDpus (p.enter s.rank) p.type p.matrix).2.sent := by rw [heq]
  refine ⟨fun h => ?_, fun h => ?_, fun h htype => ?_, fun ci i hi => ?_⟩
  · rw [hsent]
    exact hh.once (hstatus h)
  · rw [hsent]
    exact hh.host
  · rw [step, hsent]
    refine carryAll_spec hok (fun e he => ?_) (hh.once (hstatus h)) 0 s.mram
    obtain ⟨hoff, hsize, hg⟩ := hh.guards htype e he
    exact ⟨(hparts e he).1.trans htype, hoff, hsize, hg⟩
  · rw [step, hsent]
    exact carryAll_keeps hok hparts hh p.pools s.mram hi

/-! ## Runs -/

/-- the invariant of a run whose calls meet `StepOk` -/
structure Inv (s : Mrams) : Prop where
  exact : s.rank.Exact
  api : s.rank.apiMustSwitchMramMux = true

/-- setting pairs leaves a right record right exactly where they are recorded on that side, and then they do not move -/
theorem setPairs_record_iff {r : MuxRank α} (h : ∀ ci i, r.hostMux ci i = r.mux ci (pairOf i)) (P : Ci → Pair → Prop)
    [∀ ci k, Decidable (P ci k)] (dir : Bool) :
    (∀ ci i, (r.setPairs P dir).hostMux ci i = (r.setPairs P dir).mux ci (pairOf i)) ↔ RecordedAt r P dir := by
  constructor
  · intro hr ci k hk
    have hside : ∀ i, pairOf i = k → r.hostMux ci i = dir := by
      intro i hi
      have hri : r.hostMux ci i = if P ci (pairOf i) then dir else r.mux ci (pairOf i) := hr ci i
      rwa [if_pos (hi ▸ hk)] at hri
    exact ⟨hside _ (pairOf_base k), hside _ (pairOf_friend k)⟩
  · intro hP ci i
    simp only [MuxRank.setPairs]
    split_ifs with hk
    · rcases (pairOf_eq_iff i _).mp rfl with hi | hi
      · exact hi ▸ (hP ci _ hk).1
      · exact hi ▸ (hP ci _ hk).2
    · exact h ci i

theorem setPairs_inv {s : Mrams} (h : Inv s) {P : Ci → Pair → Prop} [∀ ci k, Decidable (P ci k)] {dir : Bool}
    (hP : RecordedAt s.rank P dir) : Inv { s with rank := s.rank.setPairs P dir } := by
  have hrec := (setPairs_record_iff h.exact.record P dir).mpr hP
  refine ⟨⟨hrec, fun ci k hl => ?_⟩, h.api⟩
  have hk := hrec ci k.base
  rw [pairOf_base] at hk
  calc (s.rank.setPairs P dir).mux ci k = s.rank.hostMux ci k.base := hk.symm
    _ = s.rank.mux ci k := by rw [h.exact.record, pairOf_base]
    _ = false := h.exact.dead ci k hl

theorem push_inv {s : Mrams} (h : Inv s) {p : Push} (hp : PushOk s.rank p) : Inv (step s (.push p)) := by
  by_cases href : InvalidAccess p.matrix ∨ s.rank.Running
  · have heq := (copied_refused href).2
    refine ⟨⟨fun ci i => ?_, fun ci k hl => ?_⟩, ?_⟩
    · rw [step, heq]
      exact h.exact.record ci i
    · rw [step, heq] at hl ⊢
      exact h.exact.dead ci k hl
    · rw [step, heq]
      exact h.api
  rw [not_or] at href
  obtain ⟨-, -, hworks, hfull⟩ := (hp.resolve_left href.1).resolve_left href.2
  have hstart : Tracked s.rank.enabled (p.enter s.rank) := ⟨rfl, h.api, hworks, ⟨h.exact.record, h.exact.dead⟩⟩
  have hend := copyMramForDpus_tracked hstart p.type fun h1 h2 => (hfull h1 h2).1
  have heq := copied_eq href.1 href.2
  rw [step, heq]
  exact ⟨hend.exact, hend.api⟩

theorem step_inv {s : Mrams} (h : Inv s) (c : Call) (hc : StepOk s c) : Inv (step s c) := by
  cases c with
  | launch ciMask => exact setPairs_inv h hc
  | setMuxIg igId dir => exact setPairs_inv h hc
  | setMuxRank dir => exact setPairs_inv h hc
  | push p => exact push_inv h hc
  | dpus mram => exact ⟨h.exact, h.api⟩

theorem run_inv {s : Mrams} (h : Inv s) (calls : List Call)
    (hok : ∀ before c after, calls = before ++ c :: after → StepOk (run s before) c) : Inv (run s calls) := by
  induction calls using List.reverseRecOn with
  | nil => exact h
  | append_singleton calls c ih =>
    rw [run_snoc]
    refine step_inv (ih fun before c' after heq => ?_) c (hok calls c [] rfl)
    exact hok before c' (after ++ [c]) (by rw [heq, List.append_assoc, List.cons_append])

/-- from a right record a call that meets its condition leaves it right, and a push carries what it is given -/
theorem step_framed {s : Mrams} (h : Inv s) (c : Call) (hc : StepOk s c) : Framed s c where
  before := h.exact.record
  after := (step_inv h c hc).exact.record
  push p hp := by
    subst hp
    exact push_carries h.exact h.api hc

/-- **The frame of a run.** In a run whose calls all meet `StepOk` the record is the hardware's before and after every call,
and every push that returns `DPU_OK` finds the muxes of its DPUs on the host side, writes its buffers and nothing else. -/
theorem run_framed (s : Mrams) (hx : s.rank.Exact) (hapi : s.rank.apiMustSwitchMramMux = true) (calls : List Call)
    (hok : ∀ before c after, calls = before ++ c :: after → StepOk (run s before) c) :
    ∀ before c after, calls = before ++ c :: after → Framed (run s before) c := by
  intro before c after heq
  refine step_framed (run_inv ⟨hx, hapi⟩ before fun b c' a h => ?_) c (hok before c after heq)
  exact hok b c' (a ++ c :: after) (by rw [heq, h, List.append_assoc, List.cons_append])

/-- a rank with all its DPUs enabled and all muxes on the DPU side -/
def idleMrams : Mrams := ⟨idleRank Buffer (fun _ => Mask8.all) true, fun _ _ _ => 0⟩

theorem eight_pos : 1 ≤ 8 := by decide

/-- eight threads, each with an empty `cache_line` -/
def eightThreads : Pool := ⟨8, eight_pos, fun _ _ => 0, id, List.Perm.refl⟩

/-- a push of 8 bytes at the start of the MRAM to the DPUs with these indices, where nothing fails -/
def smallPush (dpus : List ℕ) : Push where
  type := .toMram
  matrix := ⟨fun idx => if idx ∈ dpus then some fun x => UInt8.ofNat (x + 1) else none, 0, 8⟩
  access := []
  transfers := []
  pools _ := eightThreads

theorem idleMrams_exact : idleMrams.rank.Exact := ⟨fun _ _ => rfl, fun _ _ _ => rfl⟩

/-- a launch, then a push to DPU 0 of chip 0 -/
theorem run_framed_launch_push : Framed (run idleMrams [.launch Mask8.all]) (.push (smallPush [0])) := by
  refine run_framed idleMrams idleMrams_exact rfl [.launch Mask8.all, .push (smallPush [0])] ?_ [.launch Mask8.all] _ [] rfl
  intro before c after h
  rcases before with _ | ⟨b1, _ | ⟨b2, before⟩⟩
  · obtain ⟨rfl, -⟩ : Call.launch Mask8.all = c ∧ _ := by simpa using h
    exact fun _ _ _ => ⟨rfl, rfl⟩
  · obtain ⟨rfl, rfl, -⟩ : Call.launch Mask8.all = b1 ∧ Call.push (smallPush [0]) = c ∧ _ := by simpa using h
    refine .inr (.inr ⟨by decide, fun _ _ _ => rfl, nofun, fun hfull => ?_⟩)
    exact absurd (hfull 0 1 rfl) (by decide)
  · simp at h

/-- all DPUs are pushed to and launched: the second push finds all muxes recorded on the host side, returns `DPU_OK` and
writes with all of them on the DPU side -/
theorem launch_behind_record :
    ¬ ∀ before c after, [Call.push (smallPush (List.range 64)), .launch Mask8.all, .push (smallPush (List.range 64))] =
      before ++ c :: after → Framed (run idleMrams before) c := by
  intro h
  have hf := (h [.push (smallPush (List.range 64)), .launch Mask8.all] (.push (smallPush (List.range 64))) [] rfl).push _ rfl
  set s := run idleMrams [.push (smallPush (List.range 64)), .launch Mask8.all] with hs
  have hok : ((smallPush (List.range 64)).copied s.rank).1 = .copied .ok := by decide +kernel
  have hbuf : (buf (smallPush (List.range 64)).matrix 0 0).isSome = true := rfl
  have hsent : ((smallPush (List.range 64)).copied s.rank).2.sent =
      [⟨.toMram, (smallPush (List.range 64)).matrix, s.rank.mux⟩] := rfl
  have hmux := hf.host hok _ (hsent ▸ List.mem_singleton_self _) 0 0 hbuf
  exact absurd hmux (by decide +kernel)

end PimOfis.Mram
