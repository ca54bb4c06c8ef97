/-
`dpu_copy_to_wram_fifo` (`dpu_memory.c`) with the pointer functions of `dpu_fifo.c`: one element pushed into the input FIFO
of each prepared DPU of a rank.

A FIFO is a ring in the WRAM of its DPU. The host owns the write pointer, the DPU the read pointer: it takes elements out
while the host is pushing. Each round the host fetches the pointers of all DPUs. In the first round it tries a broadcast:
if no enabled DPU has a full FIFO and all have the same write address, the elements go to that address and the write pointer
of the first enabled DPU, increased by one, goes to all enabled DPUs. Otherwise, and in later rounds, every prepared DPU that
is not yet done and not full gets its element and its own pointer, and there is another round if some DPU was full.

What the code gets wrong:
- write addresses are `uint8_t`: from 512 elements on (`fifo_ptr_size` 9 and 10) they lose their high bits;
- the broadcast advances the pointers of enabled DPUs without a buffer, and writes one 64-bit pointer to DPUs whose pointers
  agree only in their address;
- a round that follows a retry counts as one more retry even if it serves the last DPU, so that the error is returned
  although every element has been delivered.

Element `s` of a FIFO lies at `dpu_fifo_address + s * data_size / 4`; a slot stands for it here.

Results:
- `sendAll_spec`, `Slow.swept`, `slow_rounds`: what the rounds without broadcast do;
- `push_returns`: there are at most `max_retries + 1` rounds;
- `pushExact_iff`: when each prepared DPU gets its element, nothing else changes, and an error is returned for a reason.
-/
import Mathlib.Tactic
import PimOfis.Lib.RingBuf

namespace PimOfis.Api.Fifo

open Lib RingBuf

/-! ## Pointers -/

/-- `MASK_FIFO_PTR` -/
def maskFifoPtr (x : UInt64) (ptrSize : UInt8) : UInt64 := x &&& (((1 : UInt32) <<< ptrSize.toUInt32) - 1).toUInt64

/-- the entries of a DPU in `dpu_fifo_pointers` -/
structure Pointers where
  rd : UInt64
  wr : UInt64
deriving DecidableEq

def getFifoWrPtr (p : Pointers) (ptrSize : UInt8) : UInt8 := (maskFifoPtr p.wr ptrSize).toUInt8

def isFifoFull (p : Pointers) (ptrSize : UInt8) : Bool :=
  decide (maskFifoPtr p.rd ptrSize = maskFifoPtr p.wr ptrSize) && decide (p.rd ≠ p.wr)

/-- `dpu_copy_from_wram_for_matrix` with `fifo_pointers_matrix` -/
def fetch {E : Type} (ring : ℕ → RingBuf E) (i : ℕ) : Pointers := ⟨(ring i).rd, (ring i).wr⟩

theorem maskFifoPtr_toNat {ptrSize : UInt8} (h : ptrSize.toNat ≤ 10) (x : UInt64) :
    (maskFifoPtr x ptrSize).toNat = place ptrSize.toNat x := by
  have hpow : 2 ^ ptrSize.toNat < 2 ^ 32 := Nat.pow_lt_pow_right (by norm_num) (by omega)
  have hshift : ((1 : UInt32) <<< ptrSize.toUInt32).toNat = 2 ^ ptrSize.toNat := by
    have hmod : ptrSize.toNat % 32 = ptrSize.toNat := Nat.mod_eq_of_lt (by omega)
    rw [UInt32.toNat_shiftLeft, UInt8.toNat_toUInt32, hmod, UInt32.toNat_one, Nat.one_shiftLeft, Nat.mod_eq_of_lt hpow]
  have hone : (1 : UInt32) ≤ (1 : UInt32) <<< ptrSize.toUInt32 := by
    rw [UInt32.le_iff_toNat_le, hshift]
    exact Nat.one_le_two_pow
  unfold maskFifoPtr
  rw [UInt64.toNat_and, UInt32.toNat_toUInt64, UInt32.toNat_sub_of_le _ _ hone, hshift, UInt32.toNat_one,
    Nat.and_two_pow_sub_one_eq_mod]
  rfl

/-- the write address as the host computes it -/
theorem getFifoWrPtr_toNat {ptrSize : UInt8} (h : ptrSize.toNat ≤ 10) (p : Pointers) :
    (getFifoWrPtr p ptrSize).toNat = place ptrSize.toNat p.wr % 256 := by
  unfold getFifoWrPtr
  rw [UInt64.toNat_toUInt8, maskFifoPtr_toNat h]

theorem isFifoFull_iff {E : Type} {ptrSize : UInt8} (h : ptrSize.toNat ≤ 10) {r : RingBuf E} (hr : r.Ok ptrSize.toNat) :
    isFifoFull ⟨r.rd, r.wr⟩ ptrSize = true ↔ r.count = 2 ^ ptrSize.toNat := by
  unfold isFifoFull
  rw [Bool.and_eq_true, decide_eq_true_eq, decide_eq_true_eq, ← UInt64.toNat_inj, maskFifoPtr_toNat h, maskFifoPtr_toNat h]
  exact full_iff (by omega) hr

/-! ## The push -/

/-- the rank, the FIFO and the transfer matrix; DPUs are numbered in the order the code goes through them -/
structure PushJob where
  nrDpus : ℕ
  enabled : ℕ → Bool
  /-- whether the matrix has a buffer for the DPU -/
  buffered : ℕ → Bool
  ptrSize : UInt8
  maxRetries : UInt32
  enabled_lt : ∀ i, enabled i = true → i < nrDpus
  buffered_enabled : ∀ i, buffered i = true → enabled i = true
  /-- `MAX_FIFO_PTR_SIZE` -/
  ptr_le : ptrSize.toNat ≤ 10

inductive Status where
  | ok
  | wramFifoFull
  | internal
deriving DecidableEq, Repr

/-- how many elements the DPUs take out in each round, before the host fetches the pointers and after -/
structure Drains where
  before : ℕ → ℕ → ℕ
  after : ℕ → ℕ → ℕ

/-- `broadcast_possible` from DPU number `i` on: the address, if all enabled DPUs agree in it and none is full -/
def broadcastFrom (job : PushJob) (p : ℕ → Pointers) : List ℕ → Option UInt8 → Option UInt8
  | [], addr => some (addr.getD 0)
  | i :: is, addr =>
    if job.enabled i = false then broadcastFrom job p is addr
    else if isFifoFull (p i) job.ptrSize then none
    else match addr with
      | none => broadcastFrom job p is (some (getFifoWrPtr (p i) job.ptrSize))
      | some a => if a ≠ getFifoWrPtr (p i) job.ptrSize then none else broadcastFrom job p is addr

def broadcastPossible (job : PushJob) (p : ℕ → Pointers) : Option UInt8 := broadcastFrom job p (List.range job.nrDpus) none

def getFirstEnabledDpu (job : PushJob) : Option ℕ := (List.range job.nrDpus).find? job.enabled

variable {E : Type}

structure PushSt (E : Type) where
  ring : ℕ → RingBuf E
  /-- `dpu_xfer_done_mask` -/
  done : ℕ → Bool
  retry : Bool
  nRetries : ℕ
  loop : Bool

/-- the body of the loop over DPUs: `send_data_one_dpu`, `increment_fifo_wr_pointer_one_dpu` -/
def sendOne (job : PushJob) (x : ℕ → E) (p : ℕ → Pointers) (s : PushSt E) (i : ℕ) : PushSt E :=
  if job.enabled i = false then s
  else if s.done i = false ∧ job.buffered i = true then
    if isFifoFull (p i) job.ptrSize = false then
      { s with
        ring := Function.update s.ring i
          (((s.ring i).store (getFifoWrPtr (p i) job.ptrSize).toNat (x i)).setWr ((p i).wr + 1))
        done := Function.update s.done i true }
    else { s with loop := true, retry := true }
  else s

/-- `ci_copy_to_wrams_matrix` at slot `addr`, and `increment_fifo_wr_pointer`: `ci_copy_to_wrams_rank` writes to the enabled
DPUs -/
def broadcast (job : PushJob) (x : ℕ → E) (p : ℕ → Pointers) (ring : ℕ → RingBuf E) (addr : UInt8) : (ℕ → RingBuf E) × Status :=
  let sent := fun i => if job.buffered i = true then (ring i).store addr.toNat (x i) else ring i
  match getFirstEnabledDpu job with
  | none => (sent, .internal)
  | some f => (fun i => if job.enabled i = true then (sent i).setWr ((p f).wr + 1) else sent i, .ok)

/-- one round; a status ends the loop -/
def round (job : PushJob) (x : ℕ → E) (d : Drains) (j : ℕ) (s : PushSt E) : PushSt E × Option Status :=
  let before := fun i => (s.ring i).drain (d.before j i)
  let p := fetch before
  let ring := fun i => (before i).drain (d.after j i)
  match if s.retry then none else broadcastPossible job p with
  | some addr =>
    let b := broadcast job x p ring addr
    ({ s with ring := b.1 }, some b.2)
  | none =>
    let t := (List.range job.nrDpus).foldl (sendOne job x p) { s with ring := ring, loop := false }
    if t.retry then
      let t := { t with nRetries := t.nRetries + 1 }
      if t.nRetries > job.maxRetries.toNat then (t, some .wramFifoFull)
      else (t, if t.loop then none else some .ok)
    else (t, some .ok)

def pushLoop (job : PushJob) (x : ℕ → E) (d : Drains) : ℕ → ℕ → PushSt E → Option ((ℕ → RingBuf E) × Status)
  | 0, _, _ => none
  | fuel + 1, j, s =>
    match round job x d j s with
    | (s, some status) => some (s.ring, status)
    | (s, none) => pushLoop job x d fuel (j + 1) s

/-- the loop, with a round for every retry that is allowed and one more; nothing comes out if these are not enough -/
def dpuCopyToWramFifo (job : PushJob) (x : ℕ → E) (d : Drains) (ring : ℕ → RingBuf E) : Option ((ℕ → RingBuf E) × Status) :=
  pushLoop job x d (job.maxRetries.toNat + 1) 0 ⟨ring, fun _ => false, false, 0, false⟩

/-- DPU `i` has got its element: it lies where the write pointer was, which is one further -/
def Delivered (job : PushJob) (x : ℕ → E) (s s' : ℕ → RingBuf E) (i : ℕ) : Prop :=
  (s' i).slot (place job.ptrSize.toNat (s i).wr) = x i ∧ (s' i).wr = (s i).wr + 1

/-- what a push from `s` to `s'` that returns `status` promises -/
structure PushRight (job : PushJob) (x : ℕ → E) (s s' : ℕ → RingBuf E) (status : Status) : Prop where
  delivered : status = .ok → ∀ i, job.buffered i = true → Delivered job x s s' i
  /-- the FIFO is what it was with the element behind, less what the DPU has taken out -/
  kept : status = .ok → ∀ i, job.buffered i = true →
    ∃ n, (s' i).contents job.ptrSize.toNat = ((s i).contents job.ptrSize.toNat ++ [x i]).drop n
  untouched : status = .ok → ∀ i, job.buffered i = false → ∃ n, s' i = (s i).drain n
  full : status = .wramFifoFull → ∃ i, job.buffered i = true ∧ ¬ Delivered job x s s' i

/-- the pointers of the FIFOs before the push, and what the DPUs take out during it -/
structure PushInput extends PushJob where
  pointers : ℕ → Pointers
  drains : Drains
  valid : ∀ i, ((pointers i).wr - (pointers i).rd).toNat ≤ 2 ^ ptrSize.toNat

/-- the FIFOs with what `slot` has in their slots -/
def PushInput.rings (a : PushInput) (slot : ℕ → ℕ → E) (i : ℕ) : RingBuf E := ⟨(a.pointers i).rd, (a.pointers i).wr, slot i⟩

/-- the push returns and keeps its promise, whatever the elements are -/
def PushExact (E : Type) (a : PushInput) : Prop :=
  ∀ (slot : ℕ → ℕ → E) (x : ℕ → E), ∃ s' status,
    dpuCopyToWramFifo a.toPushJob x a.drains (a.rings slot) = some (s', status) ∧
      PushRight a.toPushJob x (a.rings slot) s' status

/-- what DPU `i` has been asked for when the host fetches the pointers of round `j` -/
def taken (d : Drains) (j i : ℕ) : ℕ := ∑ q ∈ Finset.range j, (d.before q i + d.after q i) + d.before j i

/-- DPU `i` has room in round `j`: it had from the start, or has taken something out -/
def PushInput.Ready (a : PushInput) (j i : ℕ) : Prop :=
  ((a.pointers i).wr - (a.pointers i).rd).toNat < 2 ^ a.ptrSize.toNat ∨ 0 < taken a.drains j i

/-- the address of the next element is not cut off -/
def PushInput.AddrFits (a : PushInput) (i : ℕ) : Prop := place a.ptrSize.toNat (a.pointers i).wr < 256

/-- the first round broadcasts -/
def PushInput.Broadcasts (a : PushInput) : Prop :=
  (∀ i, a.enabled i = true → a.Ready 0 i) ∧
    ∀ i j, a.enabled i = true → a.enabled j = true → getFifoWrPtr (a.pointers i) a.ptrSize = getFifoWrPtr (a.pointers j) a.ptrSize

/-- the write pointer DPU `i` should end with -/
def PushInput.nextWr (a : PushInput) (i : ℕ) : UInt64 :=
  if a.buffered i = true then (a.pointers i).wr + 1 else (a.pointers i).wr

/-- all prepared DPUs have room by round `j` -/
def PushInput.AllReady (a : PushInput) (j : ℕ) : Prop := ∀ i, a.buffered i = true → a.Ready j i

/-- A broadcast is in order if all enabled DPUs are to end with one pointer. Otherwise the last element must not go out in the
very round that exceeds `max_retries`. -/
structure PushFits (a : PushInput) : Prop where
  broadcast : a.Broadcasts → ∀ f i, getFirstEnabledDpu a.toPushJob = some f → a.enabled i = true →
    (a.pointers f).wr + 1 = a.nextWr i
  in_time : ¬ a.Broadcasts → a.AllReady a.maxRetries.toNat → a.AllReady (a.maxRetries.toNat - 1)
  addr : a.Broadcasts ∨ a.AllReady a.maxRetries.toNat → ∀ i, a.buffered i = true → a.AddrFits i

/-! ## Broadcasting -/

section Broadcast

variable {job : PushJob} {p : ℕ → Pointers}

theorem broadcastFrom_some {L : List ℕ} {addr : Option UInt8} {b : UInt8} (h : broadcastFrom job p L addr = some b) :
    (∀ c, addr = some c → b = c) ∧
      ∀ i ∈ L, job.enabled i = true → isFifoFull (p i) job.ptrSize = false ∧ getFifoWrPtr (p i) job.ptrSize = b := by
  induction L generalizing addr with
  | nil =>
    refine ⟨?_, fun i hi => absurd hi List.not_mem_nil⟩
    rintro c rfl
    exact (Option.some.inj h).symm
  | cons i L ih =>
    unfold broadcastFrom at h
    split_ifs at h with hen hfull
    · obtain ⟨haddr, hall⟩ := ih h
      refine ⟨haddr, fun i' hi' hen' => ?_⟩
      rcases List.mem_cons.mp hi' with rfl | hi'
      · rw [hen] at hen'
        cases hen'
      · exact hall i' hi' hen'
    · cases addr with
      | none =>
        obtain ⟨haddr, hall⟩ := ih h
        refine ⟨fun c hc => absurd hc (Option.some_ne_none c).symm, fun i' hi' hen' => ?_⟩
        rcases List.mem_cons.mp hi' with rfl | hi'
        · exact ⟨Bool.not_eq_true _ ▸ hfull, (haddr _ rfl).symm⟩
        · exact hall i' hi' hen'
      | some a =>
        dsimp only at h
        split_ifs at h with hne
        obtain ⟨haddr, hall⟩ := ih h
        refine ⟨haddr, fun i' hi' hen' => ?_⟩
        rcases List.mem_cons.mp hi' with rfl | hi'
        · exact ⟨Bool.not_eq_true _ ▸ hfull, (not_not.mp hne).symm.trans (haddr a rfl).symm⟩
        · exact hall i' hi' hen'

theorem broadcastFrom_of_agree {L : List ℕ} (addr : Option UInt8)
    (hfull : ∀ i ∈ L, job.enabled i = true → isFifoFull (p i) job.ptrSize = false)
    (hagree : ∀ i ∈ L, ∀ j ∈ L, job.enabled i = true → job.enabled j = true →
      getFifoWrPtr (p i) job.ptrSize = getFifoWrPtr (p j) job.ptrSize)
    (haddr : ∀ c, addr = some c → ∀ i ∈ L, job.enabled i = true → getFifoWrPtr (p i) job.ptrSize = c) :
    ∃ b, broadcastFrom job p L addr = some b := by
  induction L generalizing addr with
  | nil => exact ⟨_, rfl⟩
  | cons i L ih =>
    have htail : ∀ a ∈ L, a ∈ i :: L := fun a ha => List.mem_cons_of_mem i ha
    have hhead : i ∈ i :: L := List.mem_cons_self
    have next := fun (addr : Option UInt8) h => ih addr (fun a ha => hfull a (htail a ha))
      (fun a ha b hb => hagree a (htail a ha) b (htail b hb)) h
    unfold broadcastFrom
    split_ifs with hen hf
    · exact next addr fun c hc a ha => haddr c hc a (htail a ha)
    · rw [hfull i hhead (Bool.not_eq_false _ ▸ hen)] at hf
      cases hf
    · have hen' : job.enabled i = true := Bool.not_eq_false _ ▸ hen
      cases addr with
      | none =>
        apply next
        intro c hc a ha hena
        rw [← Option.some.inj hc]
        exact hagree a (htail a ha) i hhead hena hen'
      | some a =>
        have ha := haddr a rfl i hhead hen'
        dsimp only
        rw [if_neg (not_not.mpr ha.symm)]
        exact next (some a) fun c hc b hb => haddr c hc b (htail b hb)

theorem broadcastPossible_some {b : UInt8} (h : broadcastPossible job p = some b) {i : ℕ} (hi : job.enabled i = true) :
    isFifoFull (p i) job.ptrSize = false ∧ getFifoWrPtr (p i) job.ptrSize = b :=
  (broadcastFrom_some h).2 i (List.mem_range.mpr (job.enabled_lt i hi)) hi

theorem getFirstEnabledDpu_none (h : getFirstEnabledDpu job = none) (i : ℕ) : job.enabled i = false := by
  by_contra hi
  have hen : job.enabled i = true := Bool.not_eq_false _ ▸ hi
  exact List.find?_eq_none.mp h i (List.mem_range.mpr (job.enabled_lt i hen)) hen

end Broadcast

/-! ## One round without broadcast -/

section Send

variable {job : PushJob} {x : ℕ → E} {p : ℕ → Pointers} {s : PushSt E}

/-- the DPU gets its element in this round -/
def Serves (job : PushJob) (p : ℕ → Pointers) (s : PushSt E) (i : ℕ) : Prop :=
  s.done i = false ∧ job.buffered i = true ∧ isFifoFull (p i) job.ptrSize = false

/-- the DPU is full and has to wait -/
def Blocks (job : PushJob) (p : ℕ → Pointers) (s : PushSt E) (i : ℕ) : Prop :=
  s.done i = false ∧ job.buffered i = true ∧ isFifoFull (p i) job.ptrSize = true

/-- what the host writes into the FIFO of DPU `i` -/
def put (job : PushJob) (x : ℕ → E) (p : ℕ → Pointers) (r : RingBuf E) (i : ℕ) : RingBuf E :=
  (r.store (getFifoWrPtr (p i) job.ptrSize).toNat (x i)).setWr ((p i).wr + 1)

/-- the state after the DPUs below `m` -/
structure SentBelow (job : PushJob) (x : ℕ → E) (p : ℕ → Pointers) (s : PushSt E) (m : ℕ) (t : PushSt E) : Prop where
  served : ∀ i < m, Serves job p s i → t.ring i = put job x p (s.ring i) i
  others : ∀ i, ¬ (i < m ∧ Serves job p s i) → t.ring i = s.ring i
  done_iff : ∀ i, t.done i = true ↔ s.done i = true ∨ (i < m ∧ Serves job p s i)
  retry_iff : t.retry = true ↔ s.retry = true ∨ ∃ i < m, Blocks job p s i
  loop_iff : t.loop = true ↔ s.loop = true ∨ ∃ i < m, Blocks job p s i
  nRetries : t.nRetries = s.nRetries

theorem sendOne_of_serves {i : ℕ} (h : Serves job p s i) :
    sendOne job x p s i = { s with
      ring := Function.update s.ring i (put job x p (s.ring i) i), done := Function.update s.done i true } := by
  obtain ⟨hdone, hbuf, hroom⟩ := h
  have hen := job.buffered_enabled i hbuf
  unfold sendOne
  rw [if_neg (by rw [hen]; exact Bool.true_eq_false_eq_False), if_pos ⟨hdone, hbuf⟩, if_pos hroom]
  rfl

theorem sendOne_of_blocks {i : ℕ} (h : Blocks job p s i) : sendOne job x p s i = { s with loop := true, retry := true } := by
  obtain ⟨hdone, hbuf, hfull⟩ := h
  have hen := job.buffered_enabled i hbuf
  unfold sendOne
  rw [if_neg (by rw [hen]; exact Bool.true_eq_false_eq_False), if_pos ⟨hdone, hbuf⟩,
    if_neg (by rw [hfull]; exact Bool.true_eq_false_eq_False)]

theorem sendOne_of_other {i : ℕ} (hs : ¬ Serves job p s i) (hb : ¬ Blocks job p s i) : sendOne job x p s i = s := by
  unfold sendOne
  split_ifs with hen hmem hroom
  · rfl
  · exact absurd ⟨hmem.1, hmem.2, hroom⟩ hs
  · exact absurd ⟨hmem.1, hmem.2, Bool.not_eq_false _ ▸ hroom⟩ hb
  · rfl

theorem sendAll_spec (job : PushJob) (x : ℕ → E) (p : ℕ → Pointers) (s : PushSt E) (m : ℕ) :
    SentBelow job x p s m ((List.range m).foldl (sendOne job x p) s) := by
  induction m with
  | zero => exact ⟨by simp, by simp, by simp, by simp, by simp, rfl⟩
  | succ m ih =>
    rw [List.range_succ, List.foldl_append, List.foldl_cons, List.foldl_nil]
    set t := (List.range m).foldl (sendOne job x p) s with ht
    have hring : t.ring m = s.ring m := ih.others m fun h => absurd h.1 (lt_irrefl m)
    have hdone : t.done m = s.done m := by
      have hiff := ih.done_iff m
      rw [Bool.eq_iff_iff, hiff]
      exact ⟨fun h => h.resolve_right fun hm => absurd hm.1 (lt_irrefl m), Or.inl⟩
    have hserves : Serves job p t m ↔ Serves job p s m := by unfold Serves; rw [hdone]
    have hblocks : Blocks job p t m ↔ Blocks job p s m := by unfold Blocks; rw [hdone]
    by_cases hs : Serves job p s m
    · have hnb : ¬ Blocks job p s m := by
        rintro ⟨_, _, hfull⟩
        rw [hs.2.2] at hfull
        cases hfull
      rw [sendOne_of_serves (hserves.mpr hs)]
      refine ⟨?_, ?_, ?_, ?_, ?_, ih.nRetries⟩
      · intro i hi hsi
        rcases Nat.lt_succ_iff_lt_or_eq.mp hi with hi | rfl
        · dsimp only
          rw [Function.update_of_ne hi.ne]
          exact ih.served i hi hsi
        · dsimp only
          rw [Function.update_self, hring]
      · intro i hi
        have hne : i ≠ m := by
          rintro rfl
          exact hi ⟨Nat.lt_succ_self i, hs⟩
        dsimp only
        rw [Function.update_of_ne hne]
        exact ih.others i fun h => hi ⟨Nat.lt_succ_of_lt h.1, h.2⟩
      · intro i
        dsimp only
        by_cases him : i = m
        · subst him
          rw [Function.update_self]
          exact ⟨fun _ => Or.inr ⟨Nat.lt_succ_self i, hs⟩, fun _ => rfl⟩
        · rw [Function.update_of_ne him, ih.done_iff]
          have hlt : i < m ↔ i < m + 1 := by omega
          rw [hlt]
      · rw [Nat.exists_lt_succ_right, or_iff_left hnb]
        exact ih.retry_iff
      · rw [Nat.exists_lt_succ_right, or_iff_left hnb]
        exact ih.loop_iff
    · have hothers : ∀ i, (i < m + 1 ∧ Serves job p s i) ↔ (i < m ∧ Serves job p s i) := by
        intro i
        constructor
        · rintro ⟨hi, hsi⟩
          rcases Nat.lt_succ_iff_lt_or_eq.mp hi with hi | rfl
          · exact ⟨hi, hsi⟩
          · exact absurd hsi hs
        · rintro ⟨hi, hsi⟩
          exact ⟨Nat.lt_succ_of_lt hi, hsi⟩
      have hrings : ∀ i < m + 1, Serves job p s i → t.ring i = put job x p (s.ring i) i := fun i hi hsi =>
        ih.served i ((hothers i).mp ⟨hi, hsi⟩).1 hsi
      by_cases hb : Blocks job p s m
      · rw [sendOne_of_blocks (hblocks.mpr hb)]
        refine ⟨hrings, fun i hi => ih.others i (mt (hothers i).mpr hi), fun i => ?_, ?_, ?_, ih.nRetries⟩
        · rw [hothers]
          exact ih.done_iff i
        · exact ⟨fun _ => Or.inr ⟨m, Nat.lt_succ_self m, hb⟩, fun _ => rfl⟩
        · exact ⟨fun _ => Or.inr ⟨m, Nat.lt_succ_self m, hb⟩, fun _ => rfl⟩
      · rw [sendOne_of_other (mt hserves.mp hs) (mt hblocks.mp hb)]
        refine ⟨hrings, fun i hi => ih.others i (mt (hothers i).mpr hi), fun i => ?_, ?_, ?_, ih.nRetries⟩
        · rw [hothers]
          exact ih.done_iff i
        · rw [Nat.exists_lt_succ_right, or_iff_left hb]
          exact ih.retry_iff
        · rw [Nat.exists_lt_succ_right, or_iff_left hb]
          exact ih.loop_iff

end Send

/-! ## The rounds without broadcast -/

section Rounds

variable {a : PushInput} {slot : ℕ → ℕ → E} {x : ℕ → E}

theorem PushInput.rings_ok (a : PushInput) (slot : ℕ → ℕ → E) (i : ℕ) : (a.rings slot i).Ok a.ptrSize.toNat := a.valid i

/-- a FIFO that had room still has it, and one that was full has it once something was taken out -/
theorem isFifoFull_drain {ptrSize : UInt8} (h : ptrSize.toNat ≤ 10) {r : RingBuf E} (hr : r.Ok ptrSize.toNat) (n : ℕ) :
    isFifoFull ⟨(r.drain n).rd, (r.drain n).wr⟩ ptrSize = false ↔ r.count < 2 ^ ptrSize.toNat ∨ 0 < n := by
  have hfull := isFifoFull_iff h (drain_ok hr n)
  have hpos : 0 < 2 ^ ptrSize.toNat := Nat.two_pow_pos _
  have hle : r.count ≤ 2 ^ ptrSize.toNat := hr
  rw [← Bool.not_eq_true, hfull, count_drain]
  omega

/-- how much DPU `i` was asked for before round `j` -/
def given (d : Drains) (j i : ℕ) : ℕ := ∑ q ∈ Finset.range j, (d.before q i + d.after q i)

theorem given_succ (d : Drains) (j i : ℕ) : given d (j + 1) i = given d j i + (d.before j i + d.after j i) :=
  Finset.sum_range_succ ..

theorem taken_mono (d : Drains) {j q : ℕ} (h : j ≤ q) (i : ℕ) : taken d j i ≤ taken d q i := by
  have hle : given d j i ≤ given d q i := Finset.sum_le_sum_of_subset (Finset.range_mono h)
  rcases h.lt_or_eq with hlt | rfl
  · have hsucc : given d (j + 1) i ≤ given d q i := Finset.sum_le_sum_of_subset (Finset.range_mono hlt)
    rw [given_succ] at hsucc
    change given d j i + d.before j i ≤ given d q i + d.before q i
    omega
  · exact le_rfl

theorem PushInput.Ready.mono {j q i : ℕ} (h : a.Ready j i) (hjq : j ≤ q) : a.Ready q i :=
  h.imp_right fun hpos => hpos.trans_le (taken_mono a.drains hjq i)

theorem PushInput.AllReady.mono {j q : ℕ} (h : a.AllReady j) (hjq : j ≤ q) : a.AllReady q := fun i hi => (h i hi).mono hjq

/-- the FIFOs and the mask before round `j` -/
structure Slow (a : PushInput) (slot : ℕ → ℕ → E) (x : ℕ → E) (j : ℕ) (s : PushSt E) : Prop where
  done_iff : ∀ i, s.done i = true ↔ a.buffered i = true ∧ ∃ q < j, a.Ready q i
  waiting : ∀ i, s.done i = false → s.ring i = (a.rings slot i).drain (given a.drains j i)
  served : ∀ i, s.done i = true → ∃ m n, ((a.rings slot i).drain m).count < 2 ^ a.ptrSize.toNat ∧
    s.ring i = (put a.toPushJob x a.pointers ((a.rings slot i).drain m) i).drain n

/-- the FIFOs when the host fetches the pointers of round `j` -/
def fetched (a : PushInput) (j : ℕ) (s : PushSt E) (i : ℕ) : RingBuf E := (s.ring i).drain (a.drains.before j i)

/-- the state after the DPUs have been gone through in round `j` -/
def swept (a : PushInput) (x : ℕ → E) (j : ℕ) (s : PushSt E) : PushSt E :=
  (List.range a.nrDpus).foldl (sendOne a.toPushJob x (fetch (fetched a j s)))
    { s with ring := fun i => (fetched a j s i).drain (a.drains.after j i), loop := false }

variable {j : ℕ} {s : PushSt E}

theorem Slow.fetched_waiting (h : Slow a slot x j s) {i : ℕ} (hi : s.done i = false) :
    fetched a j s i = (a.rings slot i).drain (taken a.drains j i) := by
  unfold fetched
  rw [h.waiting i hi, drain_drain]
  rfl

theorem Slow.room_iff (h : Slow a slot x j s) {i : ℕ} (hi : s.done i = false) :
    isFifoFull (fetch (fetched a j s) i) a.ptrSize = false ↔ a.Ready j i := by
  unfold fetch
  rw [h.fetched_waiting hi]
  exact isFifoFull_drain a.ptr_le (a.rings_ok slot i) _

theorem Slow.room_count (h : Slow a slot x j s) {i : ℕ} (hi : s.done i = false) (hr : a.Ready j i) (n : ℕ) :
    ((fetched a j s i).drain n).count < 2 ^ a.ptrSize.toNat := by
  have hle : (a.rings slot i).count ≤ 2 ^ a.ptrSize.toNat := a.rings_ok slot i
  have hpos : 0 < 2 ^ a.ptrSize.toNat := Nat.two_pow_pos _
  have hr' : (a.rings slot i).count < 2 ^ a.ptrSize.toNat ∨ 0 < taken a.drains j i := hr
  rw [h.fetched_waiting hi, drain_drain, count_drain]
  omega

/-- one round keeps the invariant -/
theorem Slow.swept (h : Slow a slot x j s) : Slow a slot x (j + 1) (swept a x j s) := by
  have hspec := sendAll_spec a.toPushJob x (fetch (fetched a j s))
    { s with ring := fun i => (fetched a j s i).drain (a.drains.after j i), loop := false } a.nrDpus
  have hserves : ∀ i, (i < a.nrDpus ∧ Serves a.toPushJob (fetch (fetched a j s))
      { s with ring := fun i => (fetched a j s i).drain (a.drains.after j i), loop := false } i) ↔
        s.done i = false ∧ a.buffered i = true ∧ a.Ready j i := by
    intro i
    constructor
    · rintro ⟨_, hdone, hbuf, hroom⟩
      exact ⟨hdone, hbuf, (h.room_iff hdone).mp hroom⟩
    · rintro ⟨hdone, hbuf, hr⟩
      exact ⟨a.enabled_lt i (a.buffered_enabled i hbuf), hdone, hbuf, (h.room_iff hdone).mpr hr⟩
  have hdone : ∀ i, (Fifo.swept a x j s).done i = true ↔
      s.done i = true ∨ (s.done i = false ∧ a.buffered i = true ∧ a.Ready j i) := fun i => by
    rw [← hserves i]
    exact hspec.done_iff i
  constructor
  · intro i
    rw [hdone, Nat.exists_lt_succ_right, and_or_left, ← h.done_iff i]
    constructor
    · exact Or.imp_right fun hr => hr.2
    · rintro (hd | hr)
      · exact Or.inl hd
      · by_cases hd : s.done i = true
        · exact Or.inl hd
        · exact Or.inr ⟨Bool.not_eq_true _ ▸ hd, hr⟩
  · intro i hi
    have hnot := mt (hdone i).mpr (Bool.eq_false_iff.mp hi)
    push Not at hnot
    have hd : s.done i = false := Bool.eq_false_iff.mpr hnot.1
    have hring := hspec.others i fun hsi => (hnot.2 hd ((hserves i).mp hsi).2.1) ((hserves i).mp hsi).2.2
    refine hring.trans ?_
    dsimp only
    rw [h.fetched_waiting hd, drain_drain, given_succ, ← Nat.add_assoc]
    rfl
  · intro i hi
    rcases (hdone i).mp hi with hd | hsi
    · obtain ⟨m, n, hroom, hring⟩ := h.served i hd
      have hother := hspec.others i fun hsi => by
        rw [((hserves i).mp hsi).1] at hd
        cases hd
      refine ⟨m, n + a.drains.before j i + a.drains.after j i, hroom, hother.trans ?_⟩
      dsimp only
      unfold fetched
      rw [hring, drain_drain, drain_drain, Nat.add_assoc]
    · have hlt := (hserves i).mpr hsi
      have hring := hspec.served i hlt.1 hlt.2
      refine ⟨taken a.drains j i + a.drains.after j i, 0, ?_, hring.trans ?_⟩
      · rw [← drain_drain, ← h.fetched_waiting hsi.1]
        exact h.room_count hsi.1 hsi.2.2 _
      · dsimp only
        unfold put fetch
        rw [h.fetched_waiting hsi.1, drain_drain, drain_zero]
        rfl

/-- a DPU is left behind just when some prepared DPU has had no room so far -/
theorem Slow.blocks_iff (h : Slow a slot x j s) (t : PushSt E) (ht : t.done = s.done) :
    (∃ i < a.nrDpus, Blocks a.toPushJob (fetch (fetched a j s)) t i) ↔ ¬ a.AllReady j := by
  unfold PushInput.AllReady
  push Not
  constructor
  · rintro ⟨i, _, hdone, hbuf, hfull⟩
    rw [ht] at hdone
    refine ⟨i, hbuf, fun hr => ?_⟩
    rw [(h.room_iff hdone).mpr hr] at hfull
    cases hfull
  · rintro ⟨i, hbuf, hr⟩
    have hdone : s.done i = false := by
      rw [Bool.eq_false_iff]
      intro hd
      obtain ⟨_, q, hq, hrq⟩ := (h.done_iff i).mp hd
      exact hr (hrq.mono hq.le)
    refine ⟨i, a.enabled_lt i (a.buffered_enabled i hbuf), ?_, hbuf, ?_⟩
    · rw [ht]
      exact hdone
    · rw [← Bool.not_eq_false]
      exact mt (h.room_iff hdone).mp hr

theorem Slow.init (a : PushInput) (slot : ℕ → ℕ → E) (x : ℕ → E) :
    Slow a slot x 0 ⟨a.rings slot, fun _ => false, false, 0, false⟩ where
  done_iff i := by simp
  waiting i _ := (drain_zero _).symm
  served i hi := by cases hi

/-- A round without broadcast ends the push with `ok` if it is the first and no DPU had to wait, or if all have got their
elements and retries are left; it ends it with `wramFifoFull` if none are left. -/
theorem Slow.round (h : Slow a slot x j s) (hretry : s.retry = decide (0 < j)) (hn : s.nRetries = j)
    (hslow : j = 0 → broadcastPossible a.toPushJob (fetch (fetched a j s)) = none) :
    ∃ t r, Fifo.round a.toPushJob x a.drains j s = (t, r) ∧ Slow a slot x (j + 1) t ∧
      ((r = some .ok ∧ a.AllReady j ∧ (j = 0 ∨ j < a.maxRetries.toNat)) ∨
        (r = some .wramFifoFull ∧ a.maxRetries.toNat ≤ j ∧ (j = 0 → ¬ a.AllReady 0)) ∨
        (r = none ∧ ¬ a.AllReady j ∧ j < a.maxRetries.toNat ∧ t.retry = true ∧ t.nRetries = j + 1)) := by
  have hspec := sendAll_spec a.toPushJob x (fetch (fetched a j s))
    { s with ring := fun i => (fetched a j s i).drain (a.drains.after j i), loop := false } a.nrDpus
  have hblocks := h.blocks_iff { s with ring := fun i => (fetched a j s i).drain (a.drains.after j i), loop := false } rfl
  have hnext := h.swept
  set t := Fifo.swept a x j s with ht
  have hr : t.retry = true ↔ 0 < j ∨ ¬ a.AllReady j := by
    refine hspec.retry_iff.trans ?_
    rw [hblocks]
    dsimp only
    rw [hretry, decide_eq_true_eq]
  have hl : t.loop = true ↔ ¬ a.AllReady j := by
    refine hspec.loop_iff.trans ?_
    rw [hblocks]
    simp
  have htn : t.nRetries = j := hspec.nRetries.trans hn
  have hbranch : (if s.retry = true then none else broadcastPossible a.toPushJob (fetch (fetched a j s))) = none := by
    rcases Nat.eq_zero_or_pos j with rfl | hj
    · rw [hslow rfl, ite_self]
    · rw [hretry, decide_eq_true hj, if_pos rfl]
  have hround : Fifo.round a.toPushJob x a.drains j s =
      if t.retry = true then
        if t.nRetries + 1 > a.maxRetries.toNat then ({ t with nRetries := t.nRetries + 1 }, some .wramFifoFull)
        else ({ t with nRetries := t.nRetries + 1 }, if t.loop = true then none else some .ok)
      else (t, some .ok) := by
    unfold Fifo.round
    change (match (if s.retry = true then none else broadcastPossible a.toPushJob (fetch (fetched a j s))) with
      | some addr => _
      | none => _) = _
    rw [hbranch]
    rfl
  have hcount : Slow a slot x (j + 1) { t with nRetries := t.nRetries + 1 } := ⟨hnext.done_iff, hnext.waiting, hnext.served⟩
  rw [hround]
  split_ifs with hret hmax hloop
  · refine ⟨_, _, rfl, hcount, Or.inr (Or.inl ⟨rfl, ?_, ?_⟩)⟩
    · omega
    · rintro rfl
      exact (hr.mp hret).resolve_left (lt_irrefl 0)
  · refine ⟨_, _, rfl, hcount, Or.inr (Or.inr ⟨rfl, hl.mp hloop, by omega, hret, ?_⟩)⟩
    dsimp only
    rw [htn]
  · exact ⟨_, _, rfl, hcount, Or.inl ⟨rfl, not_not.mp (mt hl.mpr hloop), by omega⟩⟩
  · have hnot := mt hr.mpr hret
    push Not at hnot
    exact ⟨_, _, rfl, hnext, Or.inl ⟨rfl, hnot.2, by omega⟩⟩

/-- how the rounds from the `j`-th on end, and after which round -/
theorem slow_rounds (fuel : ℕ) (h : Slow a slot x j s) (hretry : s.retry = decide (0 < j)) (hn : s.nRetries = j)
    (hslow : j = 0 → broadcastPossible a.toPushJob (fetch (fetched a j s)) = none) (hj : j ≤ a.maxRetries.toNat)
    (hfuel : fuel = a.maxRetries.toNat + 1 - j) :
    ∃ t status q, pushLoop a.toPushJob x a.drains fuel j s = some (t.ring, status) ∧ Slow a slot x (q + 1) t ∧ j ≤ q ∧
      q ≤ a.maxRetries.toNat ∧ (∀ q', j ≤ q' → q' < q → ¬ a.AllReady q') ∧
      ((status = .ok ∧ a.AllReady q ∧ (q = 0 ∨ q < a.maxRetries.toNat)) ∨
        (status = .wramFifoFull ∧ q = a.maxRetries.toNat ∧ (q = 0 → ¬ a.AllReady 0))) := by
  induction fuel generalizing j s with
  | zero => omega
  | succ fuel ih =>
    obtain ⟨t, r, hround, hnext, hend | hend | hend⟩ := h.round hretry hn hslow
    · obtain ⟨rfl, hall⟩ := hend
      refine ⟨t, .ok, j, ?_, hnext, le_rfl, hj, fun q' hq' hlt => absurd hlt (by omega), Or.inl ⟨rfl, hall⟩⟩
      rw [pushLoop, hround]
    · obtain ⟨rfl, hmax, hzero⟩ := hend
      refine ⟨t, .wramFifoFull, j, ?_, hnext, le_rfl, hj, fun q' hq' hlt => absurd hlt (by omega),
        Or.inr ⟨rfl, by omega, hzero⟩⟩
      rw [pushLoop, hround]
    · obtain ⟨rfl, hnot, hlt, hret, htn⟩ := hend
      obtain ⟨t', status, q, hrun, hslow', hle, hmax, hbefore, hcase⟩ :=
        ih hnext (by rw [hret]; simp) htn (fun h0 => absurd h0 (Nat.succ_ne_zero j)) hlt (by omega)
      refine ⟨t', status, q, ?_, hslow', by omega, hmax, ?_, hcase⟩
      · rw [pushLoop, hround]
        exact hrun
      · intro q' hq' hlt'
        rcases hq'.eq_or_lt with rfl | hq'
        · exact hnot
        · exact hbefore q' hq' hlt'

end Rounds

/-! ## The first round -/

section First

variable {a : PushInput} {slot : ℕ → ℕ → E} {x : ℕ → E}

/-- the state the push starts with -/
def start (ring : ℕ → RingBuf E) : PushSt E := ⟨ring, fun _ => false, false, 0, false⟩

theorem first_room_iff (a : PushInput) (slot : ℕ → ℕ → E) (i : ℕ) :
    isFifoFull (fetch (fetched a 0 (start (a.rings slot))) i) a.ptrSize = false ↔ a.Ready 0 i :=
  (Slow.init a slot fun _ => slot 0 0).room_iff rfl

theorem broadcasts_iff (a : PushInput) (slot : ℕ → ℕ → E) :
    (∃ addr, broadcastPossible a.toPushJob (fetch (fetched a 0 (start (a.rings slot)))) = some addr) ↔ a.Broadcasts := by
  constructor
  · rintro ⟨addr, h⟩
    constructor
    · intro i hi
      exact (first_room_iff a slot i).mp (broadcastPossible_some h hi).1
    · intro i j hi hj
      exact (broadcastPossible_some h hi).2.trans (broadcastPossible_some h hj).2.symm
  · rintro ⟨hready, hagree⟩
    apply broadcastFrom_of_agree
    · exact fun i _ hi => (first_room_iff a slot i).mpr (hready i hi)
    · exact fun i _ j _ hi hj => hagree i j hi hj
    · exact fun c hc => absurd hc.symm (Option.some_ne_none c)

/-- what a broadcast leaves in the FIFO of DPU `i` when `f` is the first enabled DPU -/
def broadcastTo (a : PushInput) (x : ℕ → E) (f i : ℕ) (r : RingBuf E) : RingBuf E :=
  let sent := if a.buffered i = true then r.store (getFifoWrPtr (a.pointers i) a.ptrSize).toNat (x i) else r
  if a.enabled i = true then sent.setWr ((a.pointers f).wr + 1) else sent

/-- the broadcast of the first round -/
def firstBroadcast (a : PushInput) (slot : ℕ → ℕ → E) (x : ℕ → E) (addr : UInt8) : (ℕ → RingBuf E) × Status :=
  broadcast a.toPushJob x (fetch (fetched a 0 (start (a.rings slot))))
    (fun i => (fetched a 0 (start (a.rings slot)) i).drain (a.drains.after 0 i)) addr

/-- the push when the first round broadcasts -/
theorem push_of_broadcasts (h : a.Broadcasts) (slot : ℕ → ℕ → E) (x : ℕ → E) :
    (getFirstEnabledDpu a.toPushJob = none →
      ∃ s', dpuCopyToWramFifo a.toPushJob x a.drains (a.rings slot) = some (s', .internal)) ∧
    ∀ f, getFirstEnabledDpu a.toPushJob = some f →
      ∃ s', dpuCopyToWramFifo a.toPushJob x a.drains (a.rings slot) = some (s', .ok) ∧
        ∀ i, s' i = broadcastTo a x f i ((a.rings slot i).drain (a.drains.before 0 i + a.drains.after 0 i)) := by
  obtain ⟨addr, haddr⟩ := (broadcasts_iff a slot).mpr h
  have hround : round a.toPushJob x a.drains 0 (start (a.rings slot)) =
      ({ start (a.rings slot) with ring := (firstBroadcast a slot x addr).1 }, some (firstBroadcast a slot x addr).2) := by
    unfold round
    change (match (if false = true then none else broadcastPossible a.toPushJob (fetch (fetched a 0 (start (a.rings slot))))) with
      | some addr => _
      | none => _) = _
    rw [if_neg Bool.false_ne_true, haddr]
    rfl
  have hpush : dpuCopyToWramFifo a.toPushJob x a.drains (a.rings slot) = some (firstBroadcast a slot x addr) := by
    unfold dpuCopyToWramFifo
    change pushLoop a.toPushJob x a.drains _ 0 (start (a.rings slot)) = _
    rw [pushLoop, hround]
  rw [hpush]
  constructor
  · intro hf
    unfold firstBroadcast broadcast
    rw [hf]
    exact ⟨_, rfl⟩
  · intro f hf
    unfold firstBroadcast broadcast
    rw [hf]
    refine ⟨_, rfl, fun i => ?_⟩
    unfold broadcastTo
    dsimp only
    rw [← drain_drain]
    by_cases hbuf : a.buffered i = true
    · have hen := a.buffered_enabled i hbuf
      have hi : getFifoWrPtr (a.pointers i) a.ptrSize = addr := (broadcastPossible_some haddr hen).2
      rw [if_pos hbuf, if_pos hbuf, if_pos hen, if_pos hen, hi]
      rfl
    · rw [if_neg hbuf, if_neg hbuf]
      rfl

/-- the push when it does not -/
theorem push_of_not_broadcasts (h : ¬ a.Broadcasts) (slot : ℕ → ℕ → E) (x : ℕ → E) :
    ∃ t status q, dpuCopyToWramFifo a.toPushJob x a.drains (a.rings slot) = some (t.ring, status) ∧
      Slow a slot x (q + 1) t ∧ q ≤ a.maxRetries.toNat ∧ (∀ q' < q, ¬ a.AllReady q') ∧
      ((status = .ok ∧ a.AllReady q ∧ (q = 0 ∨ q < a.maxRetries.toNat)) ∨
        (status = .wramFifoFull ∧ q = a.maxRetries.toNat ∧ (q = 0 → ¬ a.AllReady 0))) := by
  have hnone : broadcastPossible a.toPushJob (fetch (fetched a 0 (start (a.rings slot)))) = none := by
    rw [Option.eq_none_iff_forall_ne_some]
    exact fun addr haddr => h ((broadcasts_iff a slot).mp ⟨addr, haddr⟩)
  obtain ⟨t, status, q, hrun, hslow, _, hmax, hbefore, hcase⟩ :=
    slow_rounds (a.maxRetries.toNat + 1) (Slow.init a slot x) rfl rfl (fun _ => hnone) (Nat.zero_le _) rfl
  exact ⟨t, status, q, hrun, hslow, hmax, fun q' hq' => hbefore q' (Nat.zero_le _) hq', hcase⟩

/-- **The push returns**, after at most one round more than there are retries. -/
theorem push_returns (a : PushInput) (slot : ℕ → ℕ → E) (x : ℕ → E) :
    ∃ s' status, dpuCopyToWramFifo a.toPushJob x a.drains (a.rings slot) = some (s', status) := by
  by_cases h : a.Broadcasts
  · obtain ⟨hnone, hsome⟩ := push_of_broadcasts h slot x
    cases hf : getFirstEnabledDpu a.toPushJob with
    | none =>
      obtain ⟨s', hrun⟩ := hnone hf
      exact ⟨s', _, hrun⟩
    | some f =>
      obtain ⟨s', hrun, _⟩ := hsome f hf
      exact ⟨s', _, hrun⟩
  · obtain ⟨t, status, q, hrun, _⟩ := push_of_not_broadcasts h slot x
    exact ⟨t.ring, status, hrun⟩

end First

/-! ## When the push is right -/

section Exact

variable {a : PushInput} {slot : ℕ → ℕ → E} {x : ℕ → E}

theorem ne_add_one (p : UInt64) : p ≠ p + 1 := by
  intro h
  have hone : (1 : UInt64) = 0 := by grind
  exact absurd hone (by decide)

/-- the slot the host writes to, and the one it should write to -/
theorem put_slot (a : PushInput) (x : ℕ → E) (r : RingBuf E) (i : ℕ) :
    (put a.toPushJob x a.pointers r i).slot =
      Function.update r.slot (place a.ptrSize.toNat (a.pointers i).wr % 256) (x i) := by
  rw [← getFifoWrPtr_toNat a.ptr_le]
  rfl

theorem put_eq_push {i : ℕ} (haddr : a.AddrFits i) (x : ℕ → E) (n : ℕ) :
    put a.toPushJob x a.pointers ((a.rings slot i).drain n) i = push a.ptrSize.toNat (x i) ((a.rings slot i).drain n) := by
  have hplace : (getFifoWrPtr (a.pointers i) a.ptrSize).toNat = place a.ptrSize.toNat (a.pointers i).wr := by
    rw [getFifoWrPtr_toNat a.ptr_le, Nat.mod_eq_of_lt haddr]
  unfold put
  rw [hplace]
  rfl

/-- a FIFO that had room and got its element -/
theorem served_right {i m n : ℕ} {s' : ℕ → RingBuf E} (haddr : a.AddrFits i)
    (hroom : ((a.rings slot i).drain m).count < 2 ^ a.ptrSize.toNat)
    (hs' : s' i = (put a.toPushJob x a.pointers ((a.rings slot i).drain m) i).drain n) :
    Delivered a.toPushJob x (a.rings slot) s' i ∧
      ∃ n, (s' i).contents a.ptrSize.toNat = ((a.rings slot i).contents a.ptrSize.toNat ++ [x i]).drop n := by
  have hk : a.ptrSize.toNat < 64 := a.ptr_le.trans_lt (by norm_num)
  rw [put_eq_push haddr] at hs'
  constructor
  · constructor
    · rw [hs', drain_slot]
      exact push_slot_self ..
    · rw [hs']
      rfl
  · rw [hs', contents_drain, contents_push hk hroom, contents_drain]
    refine ⟨min m (a.rings slot i).count + n, ?_⟩
    rw [← List.drop_drop, ← length_contents a.ptrSize.toNat, drop_append_last]

/-- the address is whole if the slot under the old pointer did not get the element -/
theorem addrFits_of_slot {e₁ e₂ : E} (hne : e₁ ≠ e₂) {i : ℕ} {r : RingBuf E} (hslot : r.slot = fun _ => e₁)
    (h : (put a.toPushJob (fun _ => e₂) a.pointers r i).slot (place a.ptrSize.toNat (a.pointers i).wr) = e₂) :
    a.AddrFits i := by
  by_contra hnot
  have hge : 256 ≤ place a.ptrSize.toNat (a.pointers i).wr := Nat.not_lt.mp hnot
  have hother : place a.ptrSize.toNat (a.pointers i).wr ≠ place a.ptrSize.toNat (a.pointers i).wr % 256 := by
    have hlt := Nat.mod_lt (place a.ptrSize.toNat (a.pointers i).wr) (show 0 < 256 by norm_num)
    omega
  rw [put_slot, Function.update_of_ne hother, hslot] at h
  exact hne h

/-- the broadcast reaches a DPU with a buffer the way a single push does, but for the pointer -/
theorem broadcastTo_buffered {f i : ℕ} (hbuf : a.buffered i = true) (r : RingBuf E) :
    broadcastTo a x f i r = (put a.toPushJob x a.pointers r i).setWr ((a.pointers f).wr + 1) := by
  unfold broadcastTo
  rw [if_pos hbuf, if_pos (a.buffered_enabled i hbuf)]
  rfl

theorem pushRight_of_broadcasts (h : PushFits a) (hb : a.Broadcasts) (slot : ℕ → ℕ → E) (x : ℕ → E) :
    ∃ s' status, dpuCopyToWramFifo a.toPushJob x a.drains (a.rings slot) = some (s', status) ∧
      PushRight a.toPushJob x (a.rings slot) s' status := by
  obtain ⟨hnone, hsome⟩ := push_of_broadcasts hb slot x
  cases hf : getFirstEnabledDpu a.toPushJob with
  | none =>
    obtain ⟨s', hrun⟩ := hnone hf
    refine ⟨s', .internal, hrun, ?_⟩
    constructor <;> intro hstatus <;> cases hstatus
  | some f =>
    obtain ⟨s', hrun, hs'⟩ := hsome f hf
    have hbuffered : ∀ i, a.buffered i = true → Delivered a.toPushJob x (a.rings slot) s' i ∧
        ∃ n, (s' i).contents a.ptrSize.toNat = ((a.rings slot i).contents a.ptrSize.toNat ++ [x i]).drop n := by
      intro i hbuf
      have hen := a.buffered_enabled i hbuf
      have hwr := h.broadcast hb f i hf hen
      rw [PushInput.nextWr, if_pos hbuf] at hwr
      apply served_right (h.addr (Or.inl hb) i hbuf) (m := a.drains.before 0 i + a.drains.after 0 i) (n := 0)
      · have hready := hb.1 i hen
        have hfull := (isFifoFull_drain a.ptr_le (a.rings_ok slot i) (a.drains.before 0 i + a.drains.after 0 i)).mpr
          (hready.imp_right fun hpos => by
            change 0 < given a.drains 0 i + a.drains.before 0 i at hpos
            have hzero : given a.drains 0 i = 0 := rfl
            omega)
        have hok := drain_ok (a.rings_ok slot i) (a.drains.before 0 i + a.drains.after 0 i)
        have hiff := isFifoFull_iff a.ptr_le hok
        rw [hfull] at hiff
        exact lt_of_le_of_ne hok fun heq => absurd (hiff.mpr heq) Bool.false_ne_true
      · rw [hs', broadcastTo_buffered hbuf, hwr, drain_zero]
        rfl
    refine ⟨s', .ok, hrun, fun _ i hi => (hbuffered i hi).1, fun _ i hi => (hbuffered i hi).2, fun _ i hi => ?_, ?_⟩
    · refine ⟨a.drains.before 0 i + a.drains.after 0 i, ?_⟩
      rw [hs']
      have hnot : ¬ a.buffered i = true := Bool.eq_false_iff.mp hi
      unfold broadcastTo
      dsimp only
      rw [if_neg hnot]
      split_ifs with hen
      · have hwr := h.broadcast hb f i hf hen
        rw [PushInput.nextWr, if_neg hnot] at hwr
        rw [hwr]
        rfl
      · rfl
    · intro hstatus
      cases hstatus

theorem pushRight_of_not_broadcasts (h : PushFits a) (hb : ¬ a.Broadcasts) (slot : ℕ → ℕ → E) (x : ℕ → E) :
    ∃ s' status, dpuCopyToWramFifo a.toPushJob x a.drains (a.rings slot) = some (s', status) ∧
      PushRight a.toPushJob x (a.rings slot) s' status := by
  obtain ⟨t, status, q, hrun, hslow, hmax, hbefore, ⟨rfl, hall, _⟩ | ⟨rfl, rfl, hzero⟩⟩ := push_of_not_broadcasts hb slot x
  · have hbuffered : ∀ i, a.buffered i = true → Delivered a.toPushJob x (a.rings slot) t.ring i ∧
        ∃ n, (t.ring i).contents a.ptrSize.toNat = ((a.rings slot i).contents a.ptrSize.toNat ++ [x i]).drop n := by
      intro i hi
      obtain ⟨m, n, hroom, hring⟩ := hslow.served i ((hslow.done_iff i).mpr ⟨hi, q, Nat.lt_succ_self q, hall i hi⟩)
      exact served_right (h.addr (Or.inr (hall.mono hmax)) i hi) hroom hring
    refine ⟨t.ring, .ok, hrun, fun _ i hi => (hbuffered i hi).1, fun _ i hi => (hbuffered i hi).2, fun _ i hi => ?_, ?_⟩
    · refine ⟨_, hslow.waiting i (Bool.eq_false_iff.mpr fun hd => ?_)⟩
      have hbuf := ((hslow.done_iff i).mp hd).1
      rw [hi] at hbuf
      cases hbuf
    · intro hstatus
      cases hstatus
  · have hnot : ¬ a.AllReady a.maxRetries.toNat := by
      intro hall
      have hprev := h.in_time hb hall
      rcases Nat.eq_zero_or_pos a.maxRetries.toNat with h0 | hpos
      · rw [h0] at hall
        exact hzero h0 hall
      · exact hbefore _ (Nat.sub_lt hpos Nat.one_pos) hprev
    refine ⟨t.ring, .wramFifoFull, hrun, ?_, ?_, ?_, ?_⟩
    · intro hstatus
      cases hstatus
    · intro hstatus
      cases hstatus
    · intro hstatus
      cases hstatus
    · intro _
      unfold PushInput.AllReady at hnot
      push Not at hnot
      obtain ⟨i, hi, hr⟩ := hnot
      refine ⟨i, hi, fun hd => ?_⟩
      have hwait := hslow.waiting i (Bool.eq_false_iff.mpr fun hdone => by
        obtain ⟨_, q, hq, hrq⟩ := (hslow.done_iff i).mp hdone
        exact hr (hrq.mono (Nat.lt_succ_iff.mp hq)))
      have hwr := hd.2
      rw [hwait, drain_wr] at hwr
      exact ne_add_one _ hwr

/-! ## Only then -/

theorem PushExact.broadcast [Nonempty E] (h : PushExact E a) (hb : a.Broadcasts) {f i : ℕ}
    (hf : getFirstEnabledDpu a.toPushJob = some f) (hi : a.enabled i = true) : (a.pointers f).wr + 1 = a.nextWr i := by
  obtain ⟨e⟩ := ‹Nonempty E›
  obtain ⟨s', status, hrun, hright⟩ := h (fun _ _ => e) fun _ => e
  obtain ⟨s₂, hrun₂, hs₂⟩ := (push_of_broadcasts hb (fun _ _ => e) fun _ => e).2 f hf
  obtain ⟨rfl, rfl⟩ := Prod.mk.inj (Option.some.inj (hrun.symm.trans hrun₂))
  have hwr : (s' i).wr = (a.pointers f).wr + 1 := by
    rw [hs₂]
    unfold broadcastTo
    rw [if_pos hi]
    rfl
  unfold PushInput.nextWr
  by_cases hbuf : a.buffered i = true
  · rw [if_pos hbuf, ← hwr]
    exact (hright.delivered rfl i hbuf).2
  · rw [if_neg hbuf, ← hwr]
    obtain ⟨n, hn⟩ := hright.untouched rfl i (Bool.not_eq_true _ ▸ hbuf)
    rw [hn]
    rfl

theorem PushExact.in_time [Nonempty E] (h : PushExact E a) (hb : ¬ a.Broadcasts) (hall : a.AllReady a.maxRetries.toNat) :
    a.AllReady (a.maxRetries.toNat - 1) := by
  obtain ⟨e⟩ := ‹Nonempty E›
  obtain ⟨s', status, hrun, hright⟩ := h (fun _ _ => e) fun _ => e
  obtain ⟨t, st, q, hrun₂, hslow, hmax, hbefore, hcase⟩ := push_of_not_broadcasts hb (fun _ _ => e) fun _ => e
  obtain ⟨rfl, rfl⟩ := Prod.mk.inj (Option.some.inj (hrun.symm.trans hrun₂))
  rcases hcase with ⟨_, hq, hlt⟩ | ⟨rfl, rfl, hzero⟩
  · exact hq.mono (by omega)
  · by_contra hprev
    obtain ⟨i, hi, hnot⟩ := hright.full rfl
    obtain ⟨m, n, _, hring⟩ := hslow.served i ((hslow.done_iff i).mpr ⟨hi, _, Nat.lt_succ_self _, hall i hi⟩)
    apply hnot
    constructor
    · rw [hring, drain_slot, put_slot]
      exact congrFun (Function.update_eq_self _ _) _
    · rw [hring]
      rfl

theorem PushExact.addr [Nontrivial E] (h : PushExact E a) (hb : a.Broadcasts ∨ a.AllReady a.maxRetries.toNat) {i : ℕ}
    (hi : a.buffered i = true) : a.AddrFits i := by
  obtain ⟨e₁, e₂, hne⟩ := exists_pair_ne E
  obtain ⟨s', status, hrun, hright⟩ := h (fun _ _ => e₁) fun _ => e₂
  by_cases hbr : a.Broadcasts
  · cases hf : getFirstEnabledDpu a.toPushJob with
    | none =>
      have hdis := getFirstEnabledDpu_none hf i
      rw [a.buffered_enabled i hi] at hdis
      cases hdis
    | some f =>
      obtain ⟨s₂, hrun₂, hs₂⟩ := (push_of_broadcasts hbr (fun _ _ => e₁) fun _ => e₂).2 f hf
      obtain ⟨rfl, rfl⟩ := Prod.mk.inj (Option.some.inj (hrun.symm.trans hrun₂))
      have hslot := (hright.delivered rfl i hi).1
      rw [hs₂, broadcastTo_buffered hi] at hslot
      exact addrFits_of_slot hne rfl hslot
  · have hall := hb.resolve_left hbr
    obtain ⟨t, st, q, hrun₂, hslow, hmax, hbefore, hcase⟩ := push_of_not_broadcasts hbr (fun _ _ => e₁) fun _ => e₂
    obtain ⟨rfl, rfl⟩ := Prod.mk.inj (Option.some.inj (hrun.symm.trans hrun₂))
    rcases hcase with ⟨rfl, hq, _⟩ | ⟨rfl, rfl, hzero⟩
    · obtain ⟨m, n, _, hring⟩ := hslow.served i ((hslow.done_iff i).mpr ⟨hi, q, Nat.lt_succ_self q, hq i hi⟩)
      have hslot := (hright.delivered rfl i hi).1
      rw [hring, drain_slot] at hslot
      exact addrFits_of_slot hne rfl hslot
    · -- all were ready one round earlier, so that the push had ended there
      have hprev := h.in_time hbr hall
      rcases Nat.eq_zero_or_pos a.maxRetries.toNat with h0 | hpos
      · rw [h0] at hall
        exact absurd hall (hzero h0)
      · exact absurd hprev (hbefore _ (Nat.sub_lt hpos Nat.one_pos))

/-- **When a push is right.** For any elements, the push returns, `ok` means that each prepared DPU has its element behind
those it had and that no other FIFO is changed, and `wramFifoFull` that some prepared DPU did not get its element, if and
only if: a broadcast, when it happens, gives every enabled DPU the pointer it is to have; without one, the last DPU does not
get room only in round `max_retries`; and no slot number is cut off. -/
theorem pushExact_iff (E : Type) [Nontrivial E] (a : PushInput) : PushExact E a ↔ PushFits a := by
  constructor
  · intro h
    exact ⟨fun hb f i hf hi => h.broadcast hb hf hi, h.in_time, fun hb i hi => h.addr hb hi⟩
  · intro h slot x
    by_cases hb : a.Broadcasts
    · exact pushRight_of_broadcasts h hb slot x
    · exact pushRight_of_not_broadcasts h hb slot x

end Exact

theorem two_le_ten : UInt8.toNat 2 ≤ 10 := by decide

/-- two DPUs, both enabled, with empty FIFOs of four elements; the first alone has a buffer -/
def oneOfTwo : PushInput where
  nrDpus := 2
  enabled i := decide (i < 2)
  buffered i := decide (i = 0)
  ptrSize := 2
  maxRetries := 1000
  enabled_lt i h := of_decide_eq_true h
  buffered_enabled i h := by
    rw [of_decide_eq_true h]
    rfl
  ptr_le := two_le_ten
  pointers _ := ⟨0, 0⟩
  drains := ⟨fun _ _ => 0, fun _ _ => 0⟩
  valid _ := by decide

/-- a push to the first alone goes out as a broadcast: the second counts an element more, one that no one has sent -/
theorem oneOfTwo_counts : ¬ PushExact UInt8 oneOfTwo := by
  intro h
  obtain ⟨s', status, hrun, hright⟩ := h (fun _ _ => 0) fun _ => 1
  have hrun₂ : (dpuCopyToWramFifo oneOfTwo.toPushJob (fun _ => (1 : UInt8)) oneOfTwo.drains
      (oneOfTwo.rings fun _ _ => 0)).map (fun r => ((r.1 1).wr, r.2)) = some (1, .ok) := by decide +kernel
  rw [hrun] at hrun₂
  obtain ⟨hwr, rfl⟩ := Prod.mk.inj (Option.some.inj hrun₂)
  obtain ⟨n, hn⟩ := hright.untouched rfl 1 rfl
  have hzero : (s' 1).wr = 0 := by
    rw [hn]
    rfl
  rw [hzero] at hwr
  exact absurd hwr (by decide)

/-- the two DPUs, with a buffer for both -/
def bothOfTwo : PushInput := { oneOfTwo with buffered := oneOfTwo.enabled, buffered_enabled := fun _ h => h }

theorem pushExact_bothOfTwo : PushExact UInt8 bothOfTwo := by
  have : Nontrivial UInt8 := ⟨0, 1, by decide⟩
  apply (pushExact_iff UInt8 bothOfTwo).mpr
  constructor
  · intro _ f i _ hi
    have hbuf : bothOfTwo.buffered i = true := hi
    rw [PushInput.nextWr, if_pos hbuf]
    rfl
  · intro _ _ i _
    left
    change ((0 : UInt64) - 0).toNat < 2 ^ 2
    decide
  · intro _ i _
    change place 2 0 < 256
    decide

end PimOfis.Api.Fifo
