/-
The MRAM muxes of a rank and the host's record of them (`ufi_config.c`, the switching functions).

The MRAM of a DPU is reached either by the DPU or by the host. The mux is set for two neighbouring DPUs of a chip at once,
the `Pair`. The host records for every DPU the side its mux is on (`host_mux_mram_state`), and switches a line of DPUs, or
the whole rank, only where the record says otherwise.

Switching goes through select, DMA control and check frames; here such a sequence is one step, whose end is an oracle: it
succeeds (an entry `none`, or no entry), or fails and leaves the muxes anywhere. A chip without an enabled DPU is left out
of every such sequence. What is handed to the backend is kept in `sent`, with the muxes of that moment.

Results:
- `Recorded`: the record is right for every chip the host can reach, and a chip it cannot reach is on the DPU side;
- `dpuSwitchMuxForDpuLine_spec`, `dpuSwitchMuxForRank_spec`: with a right record a switch that succeeds sets the muxes, as
  recorded.
-/
import Mathlib.Tactic
import PimOfis.Ufi.Chip
import PimOfis.Hw.Threads

namespace PimOfis.Mram

open PimOfis.Ufi PimOfis.Hw

/-! ## Model -/

/-- two neighbouring DPUs of a chip, which share their mux -/
abbrev Pair := Fin 4

def Pair.base (k : Pair) : Member := ⟨2 * k.val, by omega⟩
def Pair.friend (k : Pair) : Member := ⟨2 * k.val + 1, by omega⟩

/-- `dpu_id & ~1`, as the pair it is the base of -/
def pairOf (dpuId : Member) : Pair := ⟨dpuId.val / 2, by omega⟩

/-- where the muxes of a rank are: `true` is the host side -/
abbrev Muxes := Ci → Pair → Bool

inductive TransferType where
  | toMram
  | fromMram
deriving DecidableEq, Repr

variable {α : Type}

/-- the buffer of a DPU (`ptr[get_transfer_matrix_index(..)]`) -/
def buf (m : TransferMatrix α) (ci : Ci) (dpu : Member) : Option α := m.ptr (dpu.val * 8 + ci.val)

/-- a matrix handed to the backend, and the muxes at that moment -/
structure Sent (α : Type) where
  type : TransferType
  matrix : TransferMatrix α
  mux : Muxes

structure MuxRank (α : Type) where
  enabled : Ci → Mask8
  /-- `host_mux_mram_state` -/
  hostMux : Ci → Mask8
  mux : Muxes
  dpuRunning : Ci → Mask8
  apiMustSwitchMramMux : Bool
  initMramMux : Bool
  /-- how the next switching sequences end: `none` is success -/
  access : List (Option Muxes)
  /-- how the next transfers of the backend end -/
  transfers : List Bool
  sent : List (Sent α)

/-- `dpu_error_t`, and the end of the program in an `assert` -/
inductive Status where
  | ok
  | mramBusy
  | timeout
  | driver
  | abort
deriving DecidableEq, Repr

/-- `FF(s)`: on a status other than `DPU_OK` go to the end -/
def ff (x : Status × MuxRank α) (k : MuxRank α → Status × MuxRank α) : Status × MuxRank α :=
  match x.1 with
  | .ok => k x.2
  | e => (e, x.2)

/-- the chip has an enabled DPU, so that the `even_disabled` selections address it -/
def MuxRank.Live (r : MuxRank α) (ci : Ci) : Prop := ∃ i, r.enabled ci i = true

instance (r : MuxRank α) (ci : Ci) : Decidable (r.Live ci) := by unfold MuxRank.Live; infer_instance

/-- one switching sequence that is to bring the muxes to `target` -/
def MuxRank.handleAccess (r : MuxRank α) (target : Muxes) : Status × MuxRank α :=
  match r.access.head?.getD none with
  | none => (.ok, { r with mux := fun ci k => if r.Live ci then target ci k else r.mux ci k, access := r.access.tail })
  | some left => (.timeout, { r with mux := fun ci k => if r.Live ci then left ci k else r.mux ci k, access := r.access.tail })

/-- `host_handle_access_for_dpu` -/
def hostHandleAccessForDpu (r : MuxRank α) (dpuId : Member) (ciMuxPos : Mask8) : Status × MuxRank α :=
  r.handleAccess fun ci k => if k = pairOf dpuId then ciMuxPos ci else r.mux ci k

/-- `host_handle_access_for_rank` -/
def hostHandleAccessForRank (r : MuxRank α) (setMuxForHost : Bool) : Status × MuxRank α :=
  r.handleAccess fun _ _ => setMuxForHost

/-- the recorded mux state of a line of DPUs (`mux_mram_mask`) -/
def MuxRank.muxMramMask (r : MuxRank α) (dpuId : Member) : Mask8 := fun ci => r.hostMux ci dpuId

/-- `dpu_switch_mux_for_dpu_line` -/
def dpuSwitchMuxForDpuLine (r : MuxRank α) (dpuId : Member) (mask : Mask8) : Status × MuxRank α :=
  let base := (pairOf dpuId).base
  let friend := (pairOf dpuId).friend
  let switchBaseLine := decide (r.muxMramMask base ≠ mask)
  let switchFriendLine := decide (r.muxMramMask friend ≠ mask)
  if switchBaseLine = false ∧ switchFriendLine = false then (.ok, r)
  else if ∃ ci, (switchBaseLine && r.dpuRunning ci base || switchFriendLine && r.dpuRunning ci friend) = true then
    (.mramBusy, r)
  else
    let r1 : MuxRank α := { r with
      hostMux := fun ci i =>
        if switchBaseLine = true ∧ i = base ∨ switchFriendLine = true ∧ i = friend then mask ci else r.hostMux ci i }
    if r.apiMustSwitchMramMux = false then (.ok, r1)
    else
      ff (if switchBaseLine then hostHandleAccessForDpu r1 base mask else (.ok, r1)) fun r2 =>
        if switchFriendLine then hostHandleAccessForDpu r2 friend mask else (.ok, r2)

/-- `nb_dpu_running > 0` -/
def MuxRank.Running (r : MuxRank α) : Prop := ∃ ci i, r.dpuRunning ci i = true

instance (r : MuxRank α) : Decidable r.Running := by unfold MuxRank.Running; infer_instance

/-- `dpu_switch_mux_for_rank` -/
def dpuSwitchMuxForRank (r : MuxRank α) (setMuxForHost : Bool) : Status × MuxRank α :=
  if r.Running then (.mramBusy, r)
  else if ∀ ci i, r.hostMux ci i = setMuxForHost then (.ok, r)
  else
    let r1 : MuxRank α := { r with hostMux := fun _ _ => setMuxForHost }
    if r.apiMustSwitchMramMux = false ∧ r.initMramMux = false then (.ok, r1)
    else hostHandleAccessForRank r1 setMuxForHost

/-! ## Pairs -/

@[simp] theorem pairOf_base (k : Pair) : pairOf k.base = k := by
  apply Fin.ext
  simp only [pairOf, Pair.base]
  omega

@[simp] theorem pairOf_friend (k : Pair) : pairOf k.friend = k := by
  apply Fin.ext
  simp only [pairOf, Pair.friend]
  omega

theorem pairOf_eq_iff (i : Member) (k : Pair) : pairOf i = k ↔ i = k.base ∨ i = k.friend := by
  simp only [pairOf, Pair.base, Pair.friend, Fin.ext_iff]
  omega

/-! ## The record -/

/-- **The record is right.** The muxes of the chips with an enabled DPU are where the record says; the others, which no
sequence addresses, are on the DPU side. -/
structure MuxRank.Recorded (r : MuxRank α) : Prop where
  paired : ∀ ci (k : Pair), r.hostMux ci k.base = r.hostMux ci k.friend
  live : ∀ ci i, r.Live ci → r.hostMux ci i = r.mux ci (pairOf i)
  dead : ∀ ci k, ¬ r.Live ci → r.mux ci k = false

/-- what no switch changes -/
structure SameRank (r r' : MuxRank α) : Prop where
  enabled : r'.enabled = r.enabled
  api : r'.apiMustSwitchMramMux = r.apiMustSwitchMramMux
  running : r'.dpuRunning = r.dpuRunning
  transfers : r'.transfers = r.transfers
  sent : r'.sent = r.sent

theorem SameRank.refl (r : MuxRank α) : SameRank r r := ⟨rfl, rfl, rfl, rfl, rfl⟩

theorem SameRank.trans {a b c : MuxRank α} (h1 : SameRank a b) (h2 : SameRank b c) : SameRank a c :=
  ⟨h2.enabled.trans h1.enabled, h2.api.trans h1.api, h2.running.trans h1.running, h2.transfers.trans h1.transfers,
    h2.sent.trans h1.sent⟩

theorem SameRank.live {r r' : MuxRank α} (h : SameRank r r') (ci : Ci) : r'.Live ci ↔ r.Live ci := by
  simp only [MuxRank.Live, h.enabled]

/-- the pair of every chip on the side the mask says, the other pairs as they were -/
structure PairSet (r r' : MuxRank α) (k : Pair) (mask : Mask8) : Prop where
  pair : ∀ ci, r.Live ci → r'.mux ci k = mask ci
  other : ∀ ci p, p ≠ k → r'.mux ci p = r.mux ci p
  recorded : r'.Recorded

/-- no switch or transfer is going to fail -/
structure MuxRank.Free (r : MuxRank α) : Prop where
  idle : ¬ r.Running
  access : r.access = []
  transfers : r.transfers = []

/-- what every switch keeps to: it changes nothing else, never ends in an assertion, and succeeds if nothing stands in
its way -/
structure Switched (r : MuxRank α) (x : Status × MuxRank α) : Prop where
  same : SameRank r x.2
  noAbort : x.1 ≠ .abort
  free : r.Free → x.1 = .ok ∧ x.2.Free

theorem Switched.stay {r r' : MuxRank α} (h : SameRank r r') (ha : r'.access = r.access) : Switched r (.ok, r') where
  same := h
  noAbort := nofun
  free hf := ⟨rfl, by simpa only [MuxRank.Running, h.running] using hf.idle, ha.trans hf.access, h.transfers.trans hf.transfers⟩

theorem Switched.then {r : MuxRank α} {x : Status × MuxRank α} {k : MuxRank α → Status × MuxRank α} (h : Switched r x)
    (hk : Switched x.2 (k x.2)) : Switched r (ff x k) := by
  obtain ⟨e, r'⟩ := x
  cases e with
  | ok => exact ⟨h.same.trans hk.same, hk.noAbort, fun hf => hk.free (h.free hf).2⟩
  | abort => exact absurd rfl h.noAbort
  | mramBusy => exact ⟨h.same, nofun, fun hf => absurd (h.free hf).1 nofun⟩
  | timeout => exact ⟨h.same, nofun, fun hf => absurd (h.free hf).1 nofun⟩
  | driver => exact ⟨h.same, nofun, fun hf => absurd (h.free hf).1 nofun⟩

theorem ff_eq_ok {x : Status × MuxRank α} {k : MuxRank α → Status × MuxRank α} (h : (ff x k).1 = .ok) :
    x.1 = .ok ∧ (k x.2).1 = .ok ∧ ff x k = k x.2 := by
  obtain ⟨e, r⟩ := x
  cases e with
  | ok => exact ⟨rfl, h, rfl⟩
  | _ => exact absurd h nofun

theorem ff_assoc (x : Status × MuxRank α) (f g : MuxRank α → Status × MuxRank α) :
    ff (ff x f) g = ff x fun r => ff (f r) g := by
  obtain ⟨e, r⟩ := x
  cases e <;> rfl

theorem ff_preserves {P : MuxRank α → Prop} {x : Status × MuxRank α} {k : MuxRank α → Status × MuxRank α} (hx : P x.2)
    (hk : ∀ r, P r → P (k r).2) : P (ff x k).2 := by
  obtain ⟨e, r⟩ := x
  cases e with
  | ok => exact hk r hx
  | _ => exact hx

theorem handleAccess_switched (r : MuxRank α) (target : Muxes) : Switched r (r.handleAccess target) := by
  unfold MuxRank.handleAccess
  cases h : r.access.head?.getD none with
  | none =>
    refine ⟨⟨rfl, rfl, rfl, rfl, rfl⟩, nofun, fun hf => ⟨rfl, hf.idle, ?_, hf.transfers⟩⟩
    simp only [hf.access, List.tail_nil]
  | some left =>
    refine ⟨⟨rfl, rfl, rfl, rfl, rfl⟩, nofun, fun hf => ?_⟩
    rw [hf.access] at h
    exact absurd h nofun

theorem handleAccess_ok {r : MuxRank α} {target : Muxes} (h : (r.handleAccess target).1 = .ok) :
    (r.handleAccess target).2.hostMux = r.hostMux ∧
      ∀ ci k, (r.handleAccess target).2.mux ci k = if r.Live ci then target ci k else r.mux ci k := by
  unfold MuxRank.handleAccess at h ⊢
  cases ha : r.access.head?.getD none with
  | none => exact ⟨rfl, fun ci k => rfl⟩
  | some left =>
    rw [ha] at h
    exact absurd h nofun

theorem dpuSwitchMuxForDpuLine_switched (r : MuxRank α) (dpuId : Member) (mask : Mask8) :
    Switched r (dpuSwitchMuxForDpuLine r dpuId mask) := by
  unfold dpuSwitchMuxForDpuLine
  extract_lets base friend switchBaseLine switchFriendLine r1
  have h1 : Switched r (.ok, r1) := Switched.stay ⟨rfl, rfl, rfl, rfl, rfl⟩ rfl
  have hhandle : ∀ (q : MuxRank α) (b : Bool) (i : Member),
      Switched q (if b then hostHandleAccessForDpu q i mask else (.ok, q)) := by
    intro q b i
    cases b with
    | true => exact handleAccess_switched q _
    | false => exact Switched.stay (SameRank.refl q) rfl
  have hchain := (hhandle r1 switchBaseLine base).then (k := fun r2 =>
    if switchFriendLine then hostHandleAccessForDpu r2 friend mask else (.ok, r2)) (hhandle _ _ _)
  by_cases hsame : switchBaseLine = false ∧ switchFriendLine = false
  · rw [if_pos hsame]
    exact Switched.stay (SameRank.refl r) rfl
  rw [if_neg hsame]
  by_cases hrun : ∃ ci, (switchBaseLine && r.dpuRunning ci base || switchFriendLine && r.dpuRunning ci friend) = true
  · rw [if_pos hrun]
    refine ⟨SameRank.refl r, nofun, fun hf => absurd ?_ hf.idle⟩
    obtain ⟨ci, h⟩ := hrun
    rcases Bool.or_eq_true_iff.mp h with h | h
    · exact ⟨ci, _, (Bool.and_eq_true_iff.mp h).2⟩
    · exact ⟨ci, _, (Bool.and_eq_true_iff.mp h).2⟩
  rw [if_neg hrun]
  by_cases hapi : r.apiMustSwitchMramMux = false
  · rw [if_pos hapi]
    exact h1
  · rw [if_neg hapi]
    exact h1.then (k := fun _ => _) hchain

/-- `mask` recorded for both lines of the pair -/
def MuxRank.recordPair (r : MuxRank α) (k : Pair) (mask : Mask8) : MuxRank α :=
  { r with hostMux := fun ci i => if pairOf i = k then mask ci else r.hostMux ci i }

/-- the two lines of a pair have one record, so both are switched or none is -/
theorem dpuSwitchMuxForDpuLine_eq {r : MuxRank α} (hr : r.Recorded) (dpuId : Member) (mask : Mask8) :
    dpuSwitchMuxForDpuLine r dpuId mask =
      if r.muxMramMask (pairOf dpuId).base = mask then (.ok, r)
      else if ∃ ci, (r.dpuRunning ci (pairOf dpuId).base || r.dpuRunning ci (pairOf dpuId).friend) = true then
        (.mramBusy, r)
      else if r.apiMustSwitchMramMux = false then (.ok, r.recordPair (pairOf dpuId) mask)
      else ff (hostHandleAccessForDpu (r.recordPair (pairOf dpuId) mask) (pairOf dpuId).base mask) fun r2 =>
        hostHandleAccessForDpu r2 (pairOf dpuId).friend mask := by
  have hline : r.muxMramMask (pairOf dpuId).friend = r.muxMramMask (pairOf dpuId).base :=
    funext fun ci => (hr.paired ci _).symm
  unfold dpuSwitchMuxForDpuLine
  simp only [hline]
  by_cases h : r.muxMramMask (pairOf dpuId).base = mask
  · simp [h]
  · simp [h, MuxRank.recordPair, pairOf_eq_iff]

/-- **Switching a line.** With a right record `dpu_switch_mux_for_dpu_line`, where it succeeds, puts the pair of lines
where the mask says, and records it. -/
theorem dpuSwitchMuxForDpuLine_spec {r : MuxRank α} (hr : r.Recorded) (hapi : r.apiMustSwitchMramMux = true)
    {dpuId : Member} {mask : Mask8} (hok : (dpuSwitchMuxForDpuLine r dpuId mask).1 = .ok) :
    PairSet r (dpuSwitchMuxForDpuLine r dpuId mask).2 (pairOf dpuId) mask := by
  rw [dpuSwitchMuxForDpuLine_eq hr] at hok ⊢
  set k := pairOf dpuId with hk
  by_cases hmask : r.muxMramMask k.base = mask
  · rw [if_pos hmask]
    refine ⟨fun ci hl => ?_, fun _ _ _ => rfl, hr⟩
    have := hr.live ci k.base hl
    rw [pairOf_base] at this
    rw [← this, ← hmask]
    rfl
  rw [if_neg hmask] at hok ⊢
  by_cases hrun : ∃ ci, (r.dpuRunning ci k.base || r.dpuRunning ci k.friend) = true
  · rw [if_pos hrun] at hok
    exact absurd hok nofun
  rw [if_neg hrun, if_neg (by simp only [hapi, Bool.true_eq_false, not_false_eq_true])] at hok ⊢
  set r1 := r.recordPair k mask with hr1
  obtain ⟨hb, hf, he⟩ := ff_eq_ok hok
  obtain ⟨hb1, hb2⟩ := handleAccess_ok hb
  obtain ⟨hf1, hf2⟩ := handleAccess_ok hf
  rw [he]
  set r2 := (hostHandleAccessForDpu r1 k.base mask).2 with hr2
  have hs2 : SameRank r1 r2 := (handleAccess_switched r1 _).same
  have hs : SameRank r1 (hostHandleAccessForDpu r2 k.friend mask).2 := hs2.trans (handleAccess_switched r2 _).same
  have hlive : ∀ ci, r1.Live ci ↔ r.Live ci := fun _ => Iff.rfl
  -- both sequences set the one mux of the pair
  have hmux : ∀ ci p, (hostHandleAccessForDpu r2 k.friend mask).2.mux ci p =
      if r.Live ci ∧ p = k then mask ci else r.mux ci p := by
    intro ci p
    have e1 : r2.mux ci p = if r.Live ci ∧ p = k then mask ci else r.mux ci p := by
      refine (hb2 ci p).trans ?_
      simp only [pairOf_base, hlive]
      by_cases hl : r.Live ci <;> simp [hl, hr1, MuxRank.recordPair]
    refine (hf2 ci p).trans ?_
    simp only [pairOf_friend, hs2.live, hlive, e1]
    by_cases hl : r.Live ci <;> by_cases hp : p = k <;> simp [hl, hp]
  have hrec : ∀ ci i, (hostHandleAccessForDpu r2 k.friend mask).2.hostMux ci i =
      if pairOf i = k then mask ci else r.hostMux ci i := by
    intro ci i
    rw [hostHandleAccessForDpu, hf1, hr2, hostHandleAccessForDpu, hb1]
    rfl
  refine ⟨fun ci hl => ?_, fun ci p hp => ?_, ⟨fun ci p => ?_, fun ci i hl => ?_, fun ci p hl => ?_⟩⟩
  · rw [hmux, if_pos ⟨hl, rfl⟩]
  · rw [hmux, if_neg fun h => hp h.2]
  · rw [hrec, hrec, pairOf_base, pairOf_friend, hr.paired ci p]
  · rw [hs.live, hlive] at hl
    rw [hrec, hmux, hr.live ci i hl]
    simp only [hl, true_and]
  · rw [hs.live, hlive] at hl
    rw [hmux, if_neg fun h => hl h.1, hr.dead ci p hl]

/-- where it is not the API's job to switch, only the record changes -/
theorem dpuSwitchMuxForDpuLine_mux {r : MuxRank α} (hapi : r.apiMustSwitchMramMux = false) (dpuId : Member)
    (mask : Mask8) : (dpuSwitchMuxForDpuLine r dpuId mask).2.mux = r.mux ∧
      (dpuSwitchMuxForDpuLine r dpuId mask).2.apiMustSwitchMramMux = false := by
  refine ⟨?_, (dpuSwitchMuxForDpuLine_switched r dpuId mask).same.api.trans hapi⟩
  unfold dpuSwitchMuxForDpuLine
  simp only [hapi, if_true]
  split_ifs <;> rfl

/-- one side recorded for all DPUs -/
def MuxRank.recordRank (r : MuxRank α) (host : Bool) : MuxRank α := { r with hostMux := fun _ _ => host }

theorem dpuSwitchMuxForRank_switched (r : MuxRank α) (host : Bool) : Switched r (dpuSwitchMuxForRank r host) := by
  have h1 : Switched r (.ok, r.recordRank host) := Switched.stay ⟨rfl, rfl, rfl, rfl, rfl⟩ rfl
  unfold dpuSwitchMuxForRank
  split_ifs with hrun hall hapi
  · exact ⟨SameRank.refl r, nofun, fun hf => absurd hrun hf.idle⟩
  · exact Switched.stay (SameRank.refl r) rfl
  · exact h1
  · exact h1.then (k := fun _ => _) (handleAccess_switched (r.recordRank host) _)

/-- **Switching the rank.** With a right record `dpu_switch_mux_for_rank`, where it succeeds, puts every mux that can be
reached on the side asked for, and records it. -/
theorem dpuSwitchMuxForRank_spec {r : MuxRank α} (hr : r.Recorded) (hapi : r.apiMustSwitchMramMux = true) {host : Bool}
    (hok : (dpuSwitchMuxForRank r host).1 = .ok) :
    (∀ ci k, r.Live ci → (dpuSwitchMuxForRank r host).2.mux ci k = host) ∧ (dpuSwitchMuxForRank r host).2.Recorded := by
  have hs := dpuSwitchMuxForRank_switched r host
  by_cases hrun : r.Running
  · rw [dpuSwitchMuxForRank, if_pos hrun] at hok
    exact absurd hok nofun
  by_cases hall : ∀ ci i, r.hostMux ci i = host
  · rw [dpuSwitchMuxForRank, if_neg hrun, if_pos hall]
    refine ⟨fun ci k hl => ?_, hr⟩
    have := hr.live ci k.base hl
    rw [pairOf_base] at this
    rw [← this, hall]
  have heq : dpuSwitchMuxForRank r host = hostHandleAccessForRank (r.recordRank host) host := by
    rw [dpuSwitchMuxForRank, if_neg hrun, if_neg hall]
    exact if_neg (by simp only [hapi, Bool.true_eq_false, false_and, not_false_eq_true])
  rw [heq] at hs hok ⊢
  obtain ⟨hrec, hmux⟩ := handleAccess_ok hok
  have hmux' : ∀ ci k, (hostHandleAccessForRank (r.recordRank host) host).2.mux ci k =
      if r.Live ci then host else r.mux ci k := hmux
  have hrec' : ∀ ci i, (hostHandleAccessForRank (r.recordRank host) host).2.hostMux ci i = host := by
    intro ci i
    rw [hostHandleAccessForRank, hrec]
    rfl
  refine ⟨fun ci k hl => by rw [hmux', if_pos hl], fun ci k => by rw [hrec', hrec'], fun ci i hl => ?_, fun ci k hl => ?_⟩
  · rw [hs.same.live] at hl
    rw [hrec', hmux', if_pos hl]
  · rw [hs.same.live] at hl
    rw [hmux', if_neg hl, hr.dead ci k hl]

/-- where it is not the API's job to switch, not even at the start, only the record changes -/
theorem dpuSwitchMuxForRank_mux {r : MuxRank α} (hapi : r.apiMustSwitchMramMux = false) (hinit : r.initMramMux = false)
    (host : Bool) : (dpuSwitchMuxForRank r host).2.mux = r.mux := by
  unfold dpuSwitchMuxForRank
  simp only [hapi, hinit, and_self, if_true]
  split_ifs <;> rfl

end PimOfis.Mram
