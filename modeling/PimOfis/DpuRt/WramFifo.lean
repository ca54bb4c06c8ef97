/-
`process_inputs_each_tasklet` (`wramfifo.c`): the tasklets of a DPU take elements out of its input FIFO and put results into its
output FIFO, while the host puts elements in, takes results out and at last clears `active`.

Every access to what is shared is a step of its own, in the order of the source: the reads of the two pointers in
`is_input_fifo_empty`, those of the pointers and of `nb_reserved` in `is_output_fifo_full`, the copy of an element and the
change of a pointer. Tasklets and host step in any order. A FIFO's pointer that only one party writes, or only under the
mutex, is increased in one step. The function the elements are given to works on the tasklet's own buffers.

The host does not put into a full input FIFO, writes the slot before the pointer, and moves the read pointer of the output FIFO
no further than the write pointer (`FifoPush`, `FifoFlush`).

`sent`, `taken`, `given` and `got` are the elements that the host has put in, that tasklets have taken out, that tasklets have put
in and that the host has taken out, in the order it happened; nothing in the source reads them.

Results:
- `exchange_exact`: in every reachable state no element is lost, duplicated or overwritten in either FIFO, the results are those
  of the elements taken, one for each, and a tasklet that waits does so for one that can go on;
- `input_left`: an element that comes between the two tests of a tasklet can be left behind when it stops.
-/
import Mathlib.Tactic
import PimOfis.Lib.Index
import PimOfis.Lib.RingBuf

namespace PimOfis.DpuRt.WramFifo

open Lib RingBuf

/-! ## Model -/

/-- what the macros fix: the sizes of the FIFOs and the number of tasklets -/
structure Conf where
  inputPtrSize : UInt32
  outputPtrSize : UInt32
  nrTasklets : ℕ
  /-- the static assertions of `INPUT_FIFO_INIT` and `OUTPUT_FIFO_INIT` -/
  input_le : inputPtrSize.toNat ≤ 10
  output_le : outputPtrSize.toNat ≤ 10
  tasklets_le : nrTasklets ≤ 24

/-- `MASK_WRAM_FIFO_PTR` -/
def maskWramFifoPtr (ptrSize : UInt32) (x : UInt64) : UInt64 := x &&& (((1 : UInt32) <<< ptrSize) - 1).toUInt64

/-- the comparison of `is_output_fifo_full` -/
def pointersFull (ptrSize : UInt32) (rdPtr wrPtr : UInt64) : Bool :=
  decide (maskWramFifoPtr ptrSize rdPtr = maskWramFifoPtr ptrSize wrPtr) && decide (rdPtr ≠ wrPtr)

/-- where a tasklet stands: the step it is about to take, with what it has read; `locked` tells the tests under the mutex from
those before it -/
inductive Pc where
  | inputRd (locked : Bool)
  | inputWr (locked : Bool) (rd : UInt64)
  | outputRd (locked : Bool)
  | outputWr (locked : Bool) (rd : UInt64)
  | nbReserved (locked : Bool) (rd wr : UInt64)
  | lockInput
  | copyInput
  | pop
  | reserve
  | unlockInput
  | process
  | lockOutput
  | copyOutput
  | push
  | cede
  | unlockOutput
  /-- the unlock of the `else` branch -/
  | unlockElse
  | readActive
  | stopped
deriving DecidableEq

variable {E F : Type}

/-- a tasklet and its parts of the two `tmp_data` -/
structure Tasklet (E F : Type) where
  pc : Pc
  tmpInput : E
  tmpOutput : F

structure St (n : ℕ) (E F : Type) where
  input : RingBuf E
  output : RingBuf F
  nbReserved : UInt32
  /-- the tasklet that has the mutex -/
  mutex : Option (Fin n)
  active : Bool
  tasklet : Fin n → Tasklet E F
  /-- an element that the host has written to its slot and not yet counted -/
  pending : Option E
  sent : List E
  taken : List E
  given : List F
  got : List F

/-- before the first step; what the arrays hold is arbitrary -/
def init (n : ℕ) (inputSlot : ℕ → E) (outputSlot : ℕ → F) (tmpInput : Fin n → E) (tmpOutput : Fin n → F) : St n E F where
  input := ⟨0, 0, inputSlot⟩
  output := ⟨0, 0, outputSlot⟩
  nbReserved := 0
  mutex := none
  active := true
  tasklet := fun t => ⟨.inputRd false, tmpInput t, tmpOutput t⟩
  pending := none
  sent := []
  taken := []
  given := []
  got := []

/-- tasklet `t` becomes `v` -/
def St.put {n : ℕ} (s : St n E F) (t : Fin n) (v : Tasklet E F) : St n E F := { s with tasklet := Function.update s.tasklet t v }

/-- tasklet `t` goes on at `pc` -/
def St.goto {n : ℕ} (s : St n E F) (t : Fin n) (pc : Pc) : St n E F := s.put t { s.tasklet t with pc }

def taskletStep (c : Conf) (process : E → F) (s : St c.nrTasklets E F) (t : Fin c.nrTasklets) : Option (St c.nrTasklets E F) :=
  match (s.tasklet t).pc with
  | .inputRd locked => some (s.goto t (.inputWr locked s.input.rd))
  | .inputWr locked rd =>
    if rd = s.input.wr then some (s.goto t (if locked then .unlockElse else .readActive))
    else some (s.goto t (.outputRd locked))
  | .outputRd locked => some (s.goto t (.outputWr locked s.output.rd))
  | .outputWr locked rd => some (s.goto t (.nbReserved locked rd s.output.wr))
  | .nbReserved locked rd wr =>
    if pointersFull c.outputPtrSize rd (wr + s.nbReserved.toUInt64) then
      some (s.goto t (if locked then .unlockElse else .inputRd false))
    else some (s.goto t (if locked then .copyInput else .lockInput))
  | .lockInput => if s.mutex = none then some { s.goto t (.inputRd true) with mutex := some t } else none
  | .copyInput =>
    some (s.put t { s.tasklet t with
      pc := .pop
      tmpInput := s.input.slot (maskWramFifoPtr c.inputPtrSize s.input.rd).toNat })
  | .pop => some { s.goto t .reserve with input := s.input.setRd (s.input.rd + 1), taken := s.taken ++ [(s.tasklet t).tmpInput] }
  | .reserve => some { s.goto t .unlockInput with nbReserved := s.nbReserved + 1 }
  | .unlockInput => some { s.goto t .process with mutex := none }
  | .process => some (s.put t { s.tasklet t with pc := .lockOutput, tmpOutput := process (s.tasklet t).tmpInput })
  | .lockOutput => if s.mutex = none then some { s.goto t .copyOutput with mutex := some t } else none
  | .copyOutput =>
    some { s.goto t .push with
      output := s.output.store (maskWramFifoPtr c.outputPtrSize s.output.wr).toNat (s.tasklet t).tmpOutput }
  | .push =>
    some { s.goto t .cede with output := s.output.setWr (s.output.wr + 1), given := s.given ++ [(s.tasklet t).tmpOutput] }
  | .cede => some { s.goto t .unlockOutput with nbReserved := s.nbReserved - 1 }
  | .unlockOutput => some { s.goto t (.inputRd false) with mutex := none }
  | .unlockElse => some { s.goto t (.inputRd false) with mutex := none }
  | .readActive => if s.active then some (s.goto t (.inputRd false)) else some (s.goto t .stopped)
  | .stopped => none

inductive Act (n : ℕ) (E : Type) where
  | tasklet (t : Fin n)
  /-- the host writes a slot -/
  | store (x : E)
  /-- the host writes the write pointer of the input FIFO -/
  | publish
  /-- the host takes out up to so many results and writes the read pointer of the output FIFO -/
  | drain (m : ℕ)
  | setActive (b : Bool)

def step (c : Conf) (process : E → F) (s : St c.nrTasklets E F) : Act c.nrTasklets E → Option (St c.nrTasklets E F)
  | .tasklet t => taskletStep c process s t
  | .store x =>
    if s.pending.isNone ∧ s.input.count < 2 ^ c.inputPtrSize.toNat then
      some { s with input := s.input.store (place c.inputPtrSize.toNat s.input.wr) x, pending := some x }
    else none
  | .publish =>
    match s.pending with
    | some x => some { s with input := s.input.setWr (s.input.wr + 1), pending := none, sent := s.sent ++ [x] }
    | none => none
  | .drain m =>
    some { s with
      output := s.output.drain m
      got := s.got ++ (s.output.contents c.outputPtrSize.toNat).take m }
  | .setActive b => some { s with active := b }

inductive Reachable (c : Conf) (process : E → F) : St c.nrTasklets E F → Prop where
  | init (inputSlot : ℕ → E) (outputSlot : ℕ → F) (tmpInput : Fin c.nrTasklets → E) (tmpOutput : Fin c.nrTasklets → F) :
      Reachable c process (WramFifo.init c.nrTasklets inputSlot outputSlot tmpInput tmpOutput)
  | step {s s' : St c.nrTasklets E F} (a : Act c.nrTasklets E) (hs : Reachable c process s)
      (hstep : WramFifo.step c process s a = some s') : Reachable c process s'

/-! ## What holds at each point of the code -/

/-- between taking the mutex and giving it back -/
def Pc.locked : Pc → Bool
  | .inputRd l => l
  | .inputWr l _ => l
  | .outputRd l => l
  | .outputWr l _ => l
  | .nbReserved l _ _ => l
  | .lockInput => false
  | .copyInput => true
  | .pop => true
  | .reserve => true
  | .unlockInput => true
  | .process => false
  | .lockOutput => false
  | .copyOutput => true
  | .push => true
  | .cede => true
  | .unlockOutput => true
  | .unlockElse => true
  | .readActive => false
  | .stopped => false

/-- the places in the output FIFO that `nb_reserved` counts for the tasklet -/
def Pc.reserves : Pc → ℕ
  | .unlockInput => 1
  | .process => 1
  | .lockOutput => 1
  | .copyOutput => 1
  | .push => 1
  | .cede => 1
  | _ => 0

/-- the places that the tasklet needs: it has found room, and has not yet put its result in -/
def Pc.owes : Pc → ℕ
  | .copyInput => 1
  | .pop => 1
  | .reserve => 1
  | .unlockInput => 1
  | .process => 1
  | .lockOutput => 1
  | .copyOutput => 1
  | .push => 1
  | _ => 0

/-- the result that the tasklet has in work -/
def Tasklet.holds (process : E → F) (v : Tasklet E F) : Multiset F :=
  match v.pc with
  | .reserve => {process v.tmpInput}
  | .unlockInput => {process v.tmpInput}
  | .process => {process v.tmpInput}
  | .lockOutput => {v.tmpOutput}
  | .copyOutput => {v.tmpOutput}
  | .push => {v.tmpOutput}
  | _ => 0

/-- what the tasklet that has the mutex knows -/
def Knows (c : Conf) (s : St c.nrTasklets E F) (v : Tasklet E F) : Prop :=
  match v.pc with
  | .inputWr true rd => rd = s.input.rd
  | .outputRd true => 0 < s.input.count
  | .outputWr true rd =>
    0 < s.input.count ∧ s.output.count ≤ (s.output.wr - rd).toNat ∧
      (s.output.wr - rd).toNat + s.nbReserved.toNat ≤ 2 ^ c.outputPtrSize.toNat
  | .nbReserved true rd wr =>
    wr = s.output.wr ∧ 0 < s.input.count ∧ s.output.count ≤ (wr - rd).toNat ∧
      (wr - rd).toNat + s.nbReserved.toNat ≤ 2 ^ c.outputPtrSize.toNat
  | .copyInput => 0 < s.input.count
  | .pop => 0 < s.input.count ∧ v.tmpInput = s.input.slot (place c.inputPtrSize.toNat s.input.rd)
  | .push => s.output.slot (place c.outputPtrSize.toNat s.output.wr) = v.tmpOutput
  | _ => True

structure Inv (c : Conf) (process : E → F) (s : St c.nrTasklets E F) : Prop where
  lock : ∀ t, s.mutex = some t ↔ (s.tasklet t).pc.locked = true
  knows : ∀ t, s.mutex = some t → Knows c s (s.tasklet t)
  reserved : s.nbReserved.toNat = ∑ t, (s.tasklet t).pc.reserves
  room : s.output.count + ∑ t, (s.tasklet t).pc.owes ≤ 2 ^ c.outputPtrSize.toNat
  input_ok : s.input.Ok c.inputPtrSize.toNat
  pending : ∀ x, s.pending = some x →
    s.input.slot (place c.inputPtrSize.toNat s.input.wr) = x ∧ s.input.count < 2 ^ c.inputPtrSize.toNat
  sent : s.sent = s.taken ++ s.input.contents c.inputPtrSize.toNat
  work : (s.taken.map process : Multiset F) = s.given + ∑ t, (s.tasklet t).holds process
  given : s.given = s.got ++ s.output.contents c.outputPtrSize.toNat

/-! ## Pointers and sums -/

theorem Conf.input_lt (c : Conf) : c.inputPtrSize.toNat < 64 := by have := c.input_le; omega

theorem Conf.output_lt (c : Conf) : c.outputPtrSize.toNat < 64 := by have := c.output_le; omega

theorem maskWramFifoPtr_toNat {ptrSize : UInt32} (h : ptrSize.toNat ≤ 10) (x : UInt64) :
    (maskWramFifoPtr ptrSize x).toNat = place ptrSize.toNat x := by
  have hpow : 2 ^ ptrSize.toNat < 2 ^ 32 := Nat.pow_lt_pow_right (by norm_num) (by omega)
  have hshift : ((1 : UInt32) <<< ptrSize).toNat = 2 ^ ptrSize.toNat := by
    have hmod : ptrSize.toNat % 32 = ptrSize.toNat := Nat.mod_eq_of_lt (by omega)
    rw [UInt32.toNat_shiftLeft, hmod, UInt32.toNat_one, Nat.one_shiftLeft, Nat.mod_eq_of_lt hpow]
  have hone : (1 : UInt32) ≤ (1 : UInt32) <<< ptrSize := by
    rw [UInt32.le_iff_toNat_le, hshift]
    exact Nat.one_le_two_pow
  unfold maskWramFifoPtr
  rw [UInt64.toNat_and, UInt32.toNat_toUInt64, UInt32.toNat_sub_of_le _ _ hone, hshift, UInt32.toNat_one,
    Nat.and_two_pow_sub_one_eq_mod]
  rfl

/-- pointers no more than a round apart are full at a whole round -/
theorem pointersFull_iff {ptrSize : UInt32} (h : ptrSize.toNat ≤ 10) {rd wr : UInt64} (hle : (wr - rd).toNat ≤ 2 ^ ptrSize.toNat) :
    pointersFull ptrSize rd wr = true ↔ (wr - rd).toNat = 2 ^ ptrSize.toNat := by
  unfold pointersFull
  rw [Bool.and_eq_true, decide_eq_true_eq, decide_eq_true_eq, ← UInt64.toNat_inj, maskWramFifoPtr_toNat h, maskWramFifoPtr_toNat h]
  have hring : (⟨rd, wr, id⟩ : RingBuf ℕ).Ok ptrSize.toNat := hle
  exact full_iff (by omega) hring

/-- with one value changed, a sum loses the old part and gains the new one -/
theorem sum_update_add {ι α M : Type} [Fintype ι] [DecidableEq ι] [AddCommMonoid M] (f : ι → α) (g : α → M) (t : ι) (v : α) :
    ∑ i, g (Function.update f t v i) + g (f t) = ∑ i, g (f i) + g v := by
  have hnew := Finset.add_sum_erase Finset.univ (fun i => g (Function.update f t v i)) (Finset.mem_univ t)
  have hold := Finset.add_sum_erase Finset.univ (fun i => g (f i)) (Finset.mem_univ t)
  have hrest : ∑ i ∈ Finset.univ.erase t, g (Function.update f t v i) = ∑ i ∈ Finset.univ.erase t, g (f i) := by
    apply Finset.sum_congr rfl
    intro i hi
    rw [Function.update_of_ne (Finset.ne_of_mem_erase hi)]
  simp only [Function.update_self, hrest] at hnew hold
  rw [← hnew, ← hold]
  abel

section Steps

variable {c : Conf} {process : E → F} {s : St c.nrTasklets E F} {t : Fin c.nrTasklets} {v : Tasklet E F}

theorem Inv.others (hs : Inv c process s) (ht : s.mutex = some t) {i : Fin c.nrTasklets} (hi : i ≠ t) :
    (s.tasklet i).pc.locked = false := by
  rw [← Bool.not_eq_true, ← hs.lock i, ht]
  exact fun heq => hi (Option.some.inj heq).symm

theorem Inv.holder (hs : Inv c process s) (hpc : (s.tasklet t).pc.locked = true) : s.mutex = some t := (hs.lock t).2 hpc

theorem reserves_le_owes {pc : Pc} (h : pc ≠ .cede) : pc.reserves ≤ pc.owes := by
  cases pc <;> simp_all [Pc.reserves, Pc.owes]

theorem owes_le_reserves {pc : Pc} (h : pc.locked = false) : pc.owes ≤ pc.reserves := by
  cases pc <;> simp_all [Pc.reserves, Pc.owes, Pc.locked]

/-- while a tasklet tests under the mutex, the reserved places are among those needed -/
theorem Inv.reserved_le (hs : Inv c process s) (ht : s.mutex = some t) (hpc : (s.tasklet t).pc ≠ .cede) :
    s.output.count + s.nbReserved.toNat ≤ 2 ^ c.outputPtrSize.toNat := by
  have hsum : ∑ i, (s.tasklet i).pc.reserves ≤ ∑ i, (s.tasklet i).pc.owes := by
    apply Finset.sum_le_sum
    intro i _
    apply reserves_le_owes
    rcases eq_or_ne i t with rfl | hi
    · exact hpc
    · intro hcede
      have hother := hs.others ht hi
      rw [hcede] at hother
      cases hother
  have hroom := hs.room
  have hreserved := hs.reserved
  omega

/-- and those needed are all reserved -/
theorem Inv.le_reserved (hs : Inv c process s) (ht : s.mutex = some t) (hpc : (s.tasklet t).pc.owes = 0) :
    ∑ i, (s.tasklet i).pc.owes ≤ s.nbReserved.toNat := by
  rw [hs.reserved]
  apply Finset.sum_le_sum
  intro i _
  rcases eq_or_ne i t with rfl | hi
  · omega
  · exact owes_le_reserves (hs.others ht hi)

theorem Inv.lock_put (hs : Inv c process s) (hlock : v.pc.locked = (s.tasklet t).pc.locked) (i : Fin c.nrTasklets) :
    s.mutex = some i ↔ ((s.put t v).tasklet i).pc.locked = true := by
  rw [hs.lock i]
  rcases eq_or_ne i t with rfl | hi
  · simp [St.put, hlock]
  · simp [St.put, hi]

theorem reserves_put (s : St c.nrTasklets E F) (t : Fin c.nrTasklets) (v : Tasklet E F) :
    ∑ i, ((s.put t v).tasklet i).pc.reserves + (s.tasklet t).pc.reserves = ∑ i, (s.tasklet i).pc.reserves + v.pc.reserves :=
  sum_update_add s.tasklet (fun w => w.pc.reserves) t v

theorem owes_put (s : St c.nrTasklets E F) (t : Fin c.nrTasklets) (v : Tasklet E F) :
    ∑ i, ((s.put t v).tasklet i).pc.owes + (s.tasklet t).pc.owes = ∑ i, (s.tasklet i).pc.owes + v.pc.owes :=
  sum_update_add s.tasklet (fun w => w.pc.owes) t v

theorem holds_put (process : E → F) (s : St c.nrTasklets E F) (t : Fin c.nrTasklets) (v : Tasklet E F) :
    ∑ i, ((s.put t v).tasklet i).holds process + (s.tasklet t).holds process =
      ∑ i, (s.tasklet i).holds process + v.holds process :=
  sum_update_add s.tasklet (fun w => w.holds process) t v

/-- what the holder of the mutex knows is all there is to know -/
theorem knows_holder {s' : St c.nrTasklets E F} (ht : s'.mutex = some t) (htasklet : s'.tasklet = (s.put t v).tasklet)
    (hknows : Knows c s' v) (i : Fin c.nrTasklets) (hi : s'.mutex = some i) : Knows c s' (s'.tasklet i) := by
  obtain rfl : t = i := Option.some.inj (ht.symm.trans hi)
  rw [htasklet]
  simpa [St.put] using hknows

/-- a step of one tasklet: what it changes in the sums is what it changes in what is shared -/
theorem Inv.of_put (hs : Inv c process s) {s' : St c.nrTasklets E F} (htasklet : s'.tasklet = (s.put t v).tasklet)
    (hlock : ∀ i, s'.mutex = some i ↔ (s'.tasklet i).pc.locked = true)
    (hknows : ∀ i, s'.mutex = some i → Knows c s' (s'.tasklet i))
    (hreserves : s'.nbReserved.toNat + (s.tasklet t).pc.reserves = s.nbReserved.toNat + v.pc.reserves)
    (howes : s'.output.count + ∑ i, (s.tasklet i).pc.owes + v.pc.owes ≤ 2 ^ c.outputPtrSize.toNat + (s.tasklet t).pc.owes)
    (hinput : s'.input.Ok c.inputPtrSize.toNat)
    (hpending : ∀ x, s'.pending = some x →
      s'.input.slot (place c.inputPtrSize.toNat s'.input.wr) = x ∧ s'.input.count < 2 ^ c.inputPtrSize.toNat)
    (hsent : s'.sent = s'.taken ++ s'.input.contents c.inputPtrSize.toNat)
    (hholds : (s'.taken.map process : Multiset F) + (s.given + (s.tasklet t).holds process) =
      s'.given + (s.taken.map process + v.holds process))
    (hgiven : s'.given = s'.got ++ s'.output.contents c.outputPtrSize.toNat) : Inv c process s' := by
  have hsumReserves := reserves_put s t v
  have hsumOwes := owes_put s t v
  have hsumHolds := holds_put process s t v
  have hreserved := hs.reserved
  rw [← htasklet] at hsumReserves hsumOwes hsumHolds
  refine ⟨hlock, hknows, by omega, by omega, hinput, hpending, hsent, ?_, hgiven⟩
  have hcancel : (s'.taken.map process : Multiset F) + (s.given + (s.tasklet t).holds process) =
      s'.given + ∑ i, (s'.tasklet i).holds process + (s.given + (s.tasklet t).holds process) := by
    calc (s'.taken.map process : Multiset F) + (s.given + (s.tasklet t).holds process)
        = s'.given + (s.taken.map process + v.holds process) := hholds
      _ = s'.given + (s.given + (∑ i, (s.tasklet i).holds process + v.holds process)) := by rw [hs.work, add_assoc]
      _ = s'.given + (s.given + (∑ i, (s'.tasklet i).holds process + (s.tasklet t).holds process)) := by rw [hsumHolds]
      _ = s'.given + ∑ i, (s'.tasklet i).holds process + (s.given + (s.tasklet t).holds process) := by abel
  exact add_right_cancel hcancel

/-- a step of a tasklet that only changes who has the mutex -/
theorem Inv.pass (hs : Inv c process s) {m : Option (Fin c.nrTasklets)}
    (hlock : ∀ i, m = some i ↔ ((s.put t v).tasklet i).pc.locked = true)
    (hknows : ∀ i, m = some i → Knows c s ((s.put t v).tasklet i))
    (hreserves : v.pc.reserves = (s.tasklet t).pc.reserves) (howes : v.pc.owes = (s.tasklet t).pc.owes)
    (hholds : v.holds process = (s.tasklet t).holds process) : Inv c process { s.put t v with mutex := m } := by
  refine hs.of_put rfl hlock hknows ?_ ?_ hs.input_ok hs.pending hs.sent ?_ hs.given
  · rw [hreserves]
    rfl
  · rw [howes]
    exact Nat.add_le_add_right hs.room _
  · rw [hholds]
    exact add_left_comm ..

/-- a step of a tasklet that changes neither what is shared nor what it has in work -/
theorem Inv.move (hs : Inv c process s) (hlock : v.pc.locked = (s.tasklet t).pc.locked)
    (hreserves : v.pc.reserves = (s.tasklet t).pc.reserves) (howes : v.pc.owes = (s.tasklet t).pc.owes)
    (hholds : v.holds process = (s.tasklet t).holds process) (hknows : s.mutex = some t → Knows c s v) :
    Inv c process (s.put t v) := by
  refine hs.pass (hs.lock_put hlock) (fun i hi => ?_) hreserves howes hholds
  rcases eq_or_ne i t with rfl | hne
  · simpa [St.put] using hknows hi
  · simpa [St.put, hne] using hs.knows i hi

theorem holds_of_owes {v : Tasklet E F} (h : v.pc.owes = 0) : v.holds process = 0 := by
  unfold Tasklet.holds
  cases hpc : v.pc <;> simp_all [Pc.owes]

/-- a step from test to test, with nothing in work -/
theorem Inv.goto (hs : Inv c process s) {old pc : Pc} (hpc : (s.tasklet t).pc = old) (hlock : pc.locked = old.locked)
    (hold : old.owes = 0 ∧ old.reserves = 0) (hnew : pc.owes = 0 ∧ pc.reserves = 0)
    (hknows : s.mutex = some t → Knows c s { s.tasklet t with pc }) : Inv c process (s.goto t pc) := by
  subst hpc
  apply hs.move hlock
  · exact hnew.2.trans hold.2.symm
  · exact hnew.1.trans hold.1.symm
  · rw [holds_of_owes hold.1]
    exact holds_of_owes hnew.1
  · exact hknows

theorem Inv.acquire (hs : Inv c process s) (hfree : s.mutex = none) (hlock : v.pc.locked = true)
    (hreserves : v.pc.reserves = (s.tasklet t).pc.reserves) (howes : v.pc.owes = (s.tasklet t).pc.owes)
    (hholds : v.holds process = (s.tasklet t).holds process) (hknows : Knows c s v) :
    Inv c process { s.put t v with mutex := some t } := by
  refine hs.pass (fun i => ?_) (fun i hi => ?_) hreserves howes hholds
  · rcases eq_or_ne i t with rfl | hne
    · simp [St.put, hlock]
    · have hother := hs.lock i
      rw [hfree] at hother
      simpa [St.put, hne, Ne.symm hne] using hother
  · obtain rfl : t = i := Option.some.inj hi
    simpa [St.put] using hknows

theorem Inv.release (hs : Inv c process s) (ht : s.mutex = some t) (hlock : v.pc.locked = false)
    (hreserves : v.pc.reserves = (s.tasklet t).pc.reserves) (howes : v.pc.owes = (s.tasklet t).pc.owes)
    (hholds : v.holds process = (s.tasklet t).holds process) : Inv c process { s.put t v with mutex := none } := by
  refine hs.pass (fun i => ?_) (fun i hi => ?_) hreserves howes hholds
  · rcases eq_or_ne i t with rfl | hne
    · simp [St.put, hlock]
    · simp [St.put, hne, hs.others ht hne]
  · cases hi

/-- room has been found under the mutex -/
theorem Inv.findRoom (hs : Inv c process s) (ht : s.mutex = some t) (hlocked : (s.tasklet t).pc.locked = true)
    (howes : (s.tasklet t).pc.owes = 0) (hreserves : (s.tasklet t).pc.reserves = 0) (hholds : (s.tasklet t).holds process = 0)
    (hcount : 0 < s.input.count) (hroom : s.output.count + s.nbReserved.toNat < 2 ^ c.outputPtrSize.toNat) :
    Inv c process (s.goto t .copyInput) := by
  have hle := hs.le_reserved ht howes
  refine hs.of_put (v := { s.tasklet t with pc := .copyInput }) rfl (hs.lock_put (by rw [hlocked]; rfl))
    (knows_holder (s := s) ht rfl hcount) ?_ ?_ hs.input_ok hs.pending hs.sent ?_ hs.given
  · rw [hreserves]
    rfl
  · rw [howes]
    change s.output.count + _ + 1 ≤ _ + 0
    omega
  · rw [hholds]
    exact add_left_comm ..

/-! ## Steps that change what is shared -/

theorem contents_cons {α : Type} {k : ℕ} {r : RingBuf α} (h : 0 < r.count) :
    r.contents k = r.slot (place k r.rd) :: (r.contents k).drop 1 := by
  have hlen : 0 < (r.contents k).length := by rw [length_contents]; exact h
  have hhead : (r.contents k)[0] = r.slot (place k r.rd) := by
    rw [getElem_contents]
    change r.slot (place k (r.rd + 0)) = _
    rw [UInt64.add_zero]
  rw [← hhead, List.getElem_cons_drop, List.drop_zero]

theorem setRd_eq_drain {α : Type} {r : RingBuf α} (h : 0 < r.count) : r.setRd (r.rd + 1) = r.drain 1 := by
  have hmin : min 1 r.count = 1 := by omega
  rw [drain, hmin]
  rfl

theorem setWr_eq_push {α : Type} {k : ℕ} {r : RingBuf α} {x : α} (h : r.slot (place k r.wr) = x) :
    r.setWr (r.wr + 1) = push k x r := by
  have hstore : r.store (place k r.wr) x = r := by
    rw [store, ← h, Function.update_eq_self]
  rw [push, hstore]

theorem coe_append_singleton {α : Type} (l : List α) (x : α) : ((l ++ [x] : List α) : Multiset α) = (l : Multiset α) + {x} := by
  rw [← Multiset.coe_add, Multiset.coe_singleton]

/-- the tasklet takes the element it has copied -/
theorem Inv.pop (hs : Inv c process s) (hpc : (s.tasklet t).pc = .pop) :
    Inv c process { s.goto t .reserve with
      input := s.input.setRd (s.input.rd + 1), taken := s.taken ++ [(s.tasklet t).tmpInput] } := by
  have ht : s.mutex = some t := hs.holder (by rw [hpc]; rfl)
  have hknows := hs.knows t ht
  unfold Knows at hknows
  rw [hpc] at hknows
  obtain ⟨hcount, htmp⟩ := hknows
  have hholds : (s.tasklet t).holds process = 0 := by unfold Tasklet.holds; rw [hpc]
  rw [setRd_eq_drain hcount]
  refine hs.of_put (v := { s.tasklet t with pc := .reserve }) rfl (hs.lock_put (by rw [hpc]; rfl))
    (knows_holder (s := s) ht rfl trivial) ?_ ?_ (drain_ok hs.input_ok 1) ?_ ?_ ?_ hs.given
  · rw [hpc]
    rfl
  · rw [hpc]
    exact Nat.add_le_add_right hs.room 1
  · intro x hx
    obtain ⟨hslot, hlt⟩ := hs.pending x hx
    refine ⟨hslot, ?_⟩
    change (s.input.drain 1).count < _
    rw [count_drain]
    omega
  · change s.sent = s.taken ++ [_] ++ (s.input.drain 1).contents _
    rw [contents_drain, List.append_assoc, List.singleton_append, htmp, ← contents_cons hcount]
    exact hs.sent
  · rw [hholds]
    change ((List.map process (s.taken ++ [_]) : List F) : Multiset F) + (s.given + 0) =
      s.given + (_ + {process (s.tasklet t).tmpInput})
    rw [List.map_append, List.map_singleton, coe_append_singleton, add_zero, add_comm]

theorem reserves_le_one (pc : Pc) : pc.reserves ≤ 1 := by cases pc <;> simp [Pc.reserves]

theorem Inv.reserved_small (hs : Inv c process s) : s.nbReserved.toNat ≤ 24 := by
  rw [hs.reserved]
  calc ∑ i, (s.tasklet i).pc.reserves ≤ ∑ _i : Fin c.nrTasklets, 1 := Finset.sum_le_sum fun i _ => reserves_le_one _
    _ = c.nrTasklets := by simp
    _ ≤ 24 := c.tasklets_le

theorem Inv.reserve (hs : Inv c process s) (hpc : (s.tasklet t).pc = .reserve) :
    Inv c process { s.goto t .unlockInput with nbReserved := s.nbReserved + 1 } := by
  have ht : s.mutex = some t := hs.holder (by rw [hpc]; rfl)
  have hsmall := hs.reserved_small
  have hholds : (s.tasklet t).holds process = {process (s.tasklet t).tmpInput} := by unfold Tasklet.holds; rw [hpc]
  refine hs.of_put (v := { s.tasklet t with pc := .unlockInput }) rfl (hs.lock_put (by rw [hpc]; rfl))
    (knows_holder (s := s) ht rfl trivial) ?_ ?_ hs.input_ok hs.pending hs.sent ?_ hs.given
  · rw [hpc]
    change (s.nbReserved + 1).toNat + 0 = s.nbReserved.toNat + 1
    rw [UInt32.toNat_add, UInt32.toNat_one, Nat.mod_eq_of_lt (by omega)]
  · rw [hpc]
    exact Nat.add_le_add_right hs.room 1
  · rw [hholds]
    exact add_left_comm ..

/-- a tasklet that has its result in hand has room for it -/
theorem Inv.room_of_owes (hs : Inv c process s) (howes : (s.tasklet t).pc.owes = 1) :
    s.output.count < 2 ^ c.outputPtrSize.toNat := by
  have hroom := hs.room
  have hone := Finset.single_le_sum (fun i _ => Nat.zero_le ((s.tasklet i).pc.owes)) (Finset.mem_univ t)
  omega

theorem Inv.copyOutput (hs : Inv c process s) (hpc : (s.tasklet t).pc = .copyOutput) :
    Inv c process { s.goto t .push with
      output := s.output.store (place c.outputPtrSize.toNat s.output.wr) (s.tasklet t).tmpOutput } := by
  have ht : s.mutex = some t := hs.holder (by rw [hpc]; rfl)
  have hlt := hs.room_of_owes (t := t) (by rw [hpc]; rfl)
  have hholds : (s.tasklet t).holds process = {(s.tasklet t).tmpOutput} := by unfold Tasklet.holds; rw [hpc]
  refine hs.of_put (v := { s.tasklet t with pc := .push }) rfl (hs.lock_put (by rw [hpc]; rfl))
    (knows_holder (s := s) ht rfl ?_) ?_ ?_ hs.input_ok hs.pending hs.sent ?_ ?_
  · exact Function.update_self ..
  · rw [hpc]
    rfl
  · rw [hpc]
    exact Nat.add_le_add_right hs.room 1
  · rw [hholds]
    exact add_left_comm ..
  · change s.given = s.got ++ (s.output.store _ _).contents _
    rw [contents_store c.output_lt hlt]
    exact hs.given

/-- the result in the slot of the write pointer is counted -/
theorem Inv.push (hs : Inv c process s) (hpc : (s.tasklet t).pc = .push) :
    Inv c process { s.goto t .cede with
      output := s.output.setWr (s.output.wr + 1), given := s.given ++ [(s.tasklet t).tmpOutput] } := by
  have ht : s.mutex = some t := hs.holder (by rw [hpc]; rfl)
  have hslot := hs.knows t ht
  unfold Knows at hslot
  rw [hpc] at hslot
  have hroom := hs.room
  have hlt := hs.room_of_owes (t := t) (by rw [hpc]; rfl)
  have hholds : (s.tasklet t).holds process = {(s.tasklet t).tmpOutput} := by unfold Tasklet.holds; rw [hpc]
  rw [setWr_eq_push hslot]
  refine hs.of_put (v := { s.tasklet t with pc := .cede }) rfl (hs.lock_put (by rw [hpc]; rfl))
    (knows_holder (s := s) ht rfl trivial) ?_ ?_ hs.input_ok hs.pending hs.sent ?_ ?_
  · rw [hpc]
    rfl
  · rw [hpc]
    change (RingBuf.push c.outputPtrSize.toNat _ s.output).count + _ + 0 ≤ _ + 1
    rw [count_push c.output_lt hlt]
    omega
  · rw [hholds]
    change _ = ((s.given ++ [_] : List F) : Multiset F) + (_ + 0)
    rw [coe_append_singleton, add_zero, add_comm]
    rfl
  · change s.given ++ [_] = s.got ++ (RingBuf.push c.outputPtrSize.toNat _ s.output).contents _
    rw [contents_push c.output_lt hlt, ← List.append_assoc, ← hs.given]

theorem Inv.cede (hs : Inv c process s) (hpc : (s.tasklet t).pc = .cede) :
    Inv c process { s.goto t .unlockOutput with nbReserved := s.nbReserved - 1 } := by
  have ht : s.mutex = some t := hs.holder (by rw [hpc]; rfl)
  have hreserved := hs.reserved
  have hreserves : (s.tasklet t).pc.reserves = 1 := by rw [hpc]; rfl
  have hsum := Finset.single_le_sum (fun i _ => Nat.zero_le ((s.tasklet i).pc.reserves)) (Finset.mem_univ t)
  have hholds : (s.tasklet t).holds process = 0 := by unfold Tasklet.holds; rw [hpc]
  have hone : (1 : UInt32) ≤ s.nbReserved := by
    rw [UInt32.le_iff_toNat_le, UInt32.toNat_one]
    omega
  refine hs.of_put (v := { s.tasklet t with pc := .unlockOutput }) rfl (hs.lock_put (by rw [hpc]; rfl))
    (knows_holder (s := s) ht rfl trivial) ?_ ?_ hs.input_ok hs.pending hs.sent ?_ hs.given
  · rw [hreserves]
    change (s.nbReserved - 1).toNat + 1 = s.nbReserved.toNat + 0
    rw [UInt32.toNat_sub_of_le _ _ hone, UInt32.toNat_one]
    omega
  · rw [hpc]
    exact hs.room
  · rw [hholds]
    exact add_left_comm ..

/-! ## Steps -/

theorem Inv.inputWr (hs : Inv c process s) {locked : Bool} {rd : UInt64} (hpc : (s.tasklet t).pc = .inputWr locked rd)
    (hne : rd ≠ s.input.wr) : Inv c process (s.goto t (.outputRd locked)) := by
  refine hs.goto hpc rfl ⟨rfl, rfl⟩ ⟨rfl, rfl⟩ fun ht => ?_
  have hknows := hs.knows t ht
  unfold Knows at hknows ⊢
  rw [hpc] at hknows
  cases locked with
  | false => trivial
  | true =>
    -- the pointers differ, and no one else takes out
    change 0 < s.input.count
    apply Nat.pos_of_ne_zero
    intro hzero
    have hwr := wr_eq s.input
    rw [hzero] at hwr
    apply hne
    rw [hknows, hwr]
    exact (UInt64.add_zero _).symm

theorem Inv.outputRd (hs : Inv c process s) {locked : Bool} (hpc : (s.tasklet t).pc = .outputRd locked) :
    Inv c process (s.goto t (.outputWr locked s.output.rd)) := by
  refine hs.goto hpc rfl ⟨rfl, rfl⟩ ⟨rfl, rfl⟩ fun ht => ?_
  have hknows := hs.knows t ht
  unfold Knows at hknows ⊢
  rw [hpc] at hknows
  cases locked with
  | false => trivial
  | true => exact ⟨hknows, le_rfl, hs.reserved_le ht (by simp [hpc])⟩

theorem Inv.outputWr (hs : Inv c process s) {locked : Bool} {rd : UInt64} (hpc : (s.tasklet t).pc = .outputWr locked rd) :
    Inv c process (s.goto t (.nbReserved locked rd s.output.wr)) := by
  refine hs.goto hpc rfl ⟨rfl, rfl⟩ ⟨rfl, rfl⟩ fun ht => ?_
  have hknows := hs.knows t ht
  unfold Knows at hknows ⊢
  rw [hpc] at hknows
  cases locked with
  | false => trivial
  | true => exact ⟨rfl, hknows⟩

/-- the test under the mutex that does not find the FIFO full has found room -/
theorem Inv.notFull (hs : Inv c process s) {rd wr : UInt64} (hpc : (s.tasklet t).pc = .nbReserved true rd wr)
    (hfull : pointersFull c.outputPtrSize rd (wr + s.nbReserved.toUInt64) = false) : Inv c process (s.goto t .copyInput) := by
  have ht : s.mutex = some t := hs.holder (by rw [hpc]; rfl)
  have hknows := hs.knows t ht
  unfold Knows at hknows
  rw [hpc] at hknows
  obtain ⟨rfl, hcount, hle, hroom⟩ := hknows
  have hpow : 2 ^ c.outputPtrSize.toNat ≤ 2 ^ 10 := Nat.pow_le_pow_right (by norm_num) c.output_le
  have hsum : (s.output.wr + s.nbReserved.toUInt64 - rd).toNat = (s.output.wr - rd).toNat + s.nbReserved.toNat := by
    have hswap : s.output.wr + s.nbReserved.toUInt64 - rd = s.output.wr - rd + s.nbReserved.toUInt64 := by grind
    rw [hswap, UInt64.toNat_add, UInt32.toNat_toUInt64, Nat.mod_eq_of_lt (by omega)]
  have hiff := pointersFull_iff c.output_le (by rw [hsum]; exact hroom)
  rw [hfull, hsum] at hiff
  have hne : (s.output.wr - rd).toNat + s.nbReserved.toNat ≠ 2 ^ c.outputPtrSize.toNat := fun heq => by
    cases hiff.2 heq
  refine hs.findRoom ht (by rw [hpc]; rfl) (by rw [hpc]; rfl) (by rw [hpc]; rfl) ?_ hcount (by omega)
  unfold Tasklet.holds
  rw [hpc]

theorem Inv.copyInput (hs : Inv c process s) (hpc : (s.tasklet t).pc = .copyInput) :
    Inv c process (s.put t { s.tasklet t with
      pc := .pop, tmpInput := s.input.slot (place c.inputPtrSize.toNat s.input.rd) }) := by
  apply hs.move
  · rw [hpc]
    rfl
  · rw [hpc]
    rfl
  · rw [hpc]
    rfl
  · unfold Tasklet.holds
    rw [hpc]
  · intro ht
    have hcount := hs.knows t ht
    unfold Knows at hcount
    rw [hpc] at hcount
    exact ⟨hcount, rfl⟩

theorem Inv.processed (hs : Inv c process s) (hpc : (s.tasklet t).pc = .process) :
    Inv c process (s.put t { s.tasklet t with pc := .lockOutput, tmpOutput := process (s.tasklet t).tmpInput }) := by
  apply hs.move
  · rw [hpc]
    rfl
  · rw [hpc]
    rfl
  · rw [hpc]
    rfl
  · unfold Tasklet.holds
    rw [hpc]
  · intro _
    trivial

/-- the mutex is given back with nothing in work, and the loop begins anew -/
theorem Inv.again (hs : Inv c process s) {old : Pc} (hpc : (s.tasklet t).pc = old) (hlocked : old.locked = true)
    (hold : old.owes = 0 ∧ old.reserves = 0) : Inv c process { s.goto t (.inputRd false) with mutex := none } := by
  subst hpc
  apply hs.release (hs.holder hlocked) rfl
  · rw [hold.2]
    rfl
  · rw [hold.1]
    rfl
  · rw [holds_of_owes hold.1]
    exact holds_of_owes rfl

/-- **A step of a tasklet keeps the invariant.** -/
theorem taskletStep_inv (hs : Inv c process s) {s' : St c.nrTasklets E F} (hstep : taskletStep c process s t = some s') :
    Inv c process s' := by
  unfold taskletStep at hstep
  cases hpc : (s.tasklet t).pc with
  | inputRd locked =>
    rw [hpc] at hstep
    obtain rfl := Option.some.inj hstep
    refine hs.goto hpc rfl ⟨rfl, rfl⟩ ⟨rfl, rfl⟩ fun _ => ?_
    unfold Knows
    cases locked with
    | false => trivial
    | true => rfl
  | inputWr locked rd =>
    rw [hpc] at hstep
    simp only at hstep
    by_cases hempty : rd = s.input.wr
    · rw [if_pos hempty] at hstep
      obtain rfl := Option.some.inj hstep
      cases locked with
      | false => exact hs.goto hpc rfl ⟨rfl, rfl⟩ ⟨rfl, rfl⟩ fun _ => trivial
      | true => exact hs.goto hpc rfl ⟨rfl, rfl⟩ ⟨rfl, rfl⟩ fun _ => trivial
    · rw [if_neg hempty] at hstep
      obtain rfl := Option.some.inj hstep
      exact hs.inputWr hpc hempty
  | outputRd locked =>
    rw [hpc] at hstep
    obtain rfl := Option.some.inj hstep
    exact hs.outputRd hpc
  | outputWr locked rd =>
    rw [hpc] at hstep
    obtain rfl := Option.some.inj hstep
    exact hs.outputWr hpc
  | nbReserved locked rd wr =>
    rw [hpc] at hstep
    simp only at hstep
    by_cases hfull : pointersFull c.outputPtrSize rd (wr + s.nbReserved.toUInt64) = true
    · rw [if_pos hfull] at hstep
      obtain rfl := Option.some.inj hstep
      cases locked with
      | false => exact hs.goto hpc rfl ⟨rfl, rfl⟩ ⟨rfl, rfl⟩ fun _ => trivial
      | true => exact hs.goto hpc rfl ⟨rfl, rfl⟩ ⟨rfl, rfl⟩ fun _ => trivial
    · rw [if_neg hfull] at hstep
      obtain rfl := Option.some.inj hstep
      cases locked with
      | false => exact hs.goto hpc rfl ⟨rfl, rfl⟩ ⟨rfl, rfl⟩ fun _ => trivial
      | true => exact hs.notFull hpc (Bool.eq_false_iff.2 hfull)
  | lockInput =>
    rw [hpc] at hstep
    simp only at hstep
    split_ifs at hstep with hfree
    obtain rfl := Option.some.inj hstep
    apply hs.acquire hfree rfl
    · rw [hpc]
      rfl
    · rw [hpc]
      rfl
    · rw [holds_of_owes (v := s.tasklet t) (by rw [hpc]; rfl)]
      exact holds_of_owes rfl
    · trivial
  | copyInput =>
    rw [hpc] at hstep
    obtain rfl := Option.some.inj hstep
    rw [maskWramFifoPtr_toNat c.input_le]
    exact hs.copyInput hpc
  | pop =>
    rw [hpc] at hstep
    obtain rfl := Option.some.inj hstep
    exact hs.pop hpc
  | reserve =>
    rw [hpc] at hstep
    obtain rfl := Option.some.inj hstep
    exact hs.reserve hpc
  | unlockInput =>
    rw [hpc] at hstep
    obtain rfl := Option.some.inj hstep
    apply hs.release (hs.holder (by rw [hpc]; rfl)) rfl
    · rw [hpc]
      rfl
    · rw [hpc]
      rfl
    · unfold Tasklet.holds
      rw [hpc]
  | process =>
    rw [hpc] at hstep
    obtain rfl := Option.some.inj hstep
    exact hs.processed hpc
  | lockOutput =>
    rw [hpc] at hstep
    simp only at hstep
    split_ifs at hstep with hfree
    obtain rfl := Option.some.inj hstep
    apply hs.acquire hfree rfl
    · rw [hpc]
      rfl
    · rw [hpc]
      rfl
    · unfold Tasklet.holds
      rw [hpc]
    · trivial
  | copyOutput =>
    rw [hpc] at hstep
    obtain rfl := Option.some.inj hstep
    rw [maskWramFifoPtr_toNat c.output_le]
    exact hs.copyOutput hpc
  | push =>
    rw [hpc] at hstep
    obtain rfl := Option.some.inj hstep
    exact hs.push hpc
  | cede =>
    rw [hpc] at hstep
    obtain rfl := Option.some.inj hstep
    exact hs.cede hpc
  | unlockOutput =>
    rw [hpc] at hstep
    obtain rfl := Option.some.inj hstep
    exact hs.again hpc rfl ⟨rfl, rfl⟩
  | unlockElse =>
    rw [hpc] at hstep
    obtain rfl := Option.some.inj hstep
    exact hs.again hpc rfl ⟨rfl, rfl⟩
  | readActive =>
    rw [hpc] at hstep
    simp only at hstep
    split_ifs at hstep with hactive
    · obtain rfl := Option.some.inj hstep
      exact hs.goto hpc rfl ⟨rfl, rfl⟩ ⟨rfl, rfl⟩ fun _ => trivial
    · obtain rfl := Option.some.inj hstep
      exact hs.goto hpc rfl ⟨rfl, rfl⟩ ⟨rfl, rfl⟩ fun _ => trivial
  | stopped =>
    rw [hpc] at hstep
    cases hstep

/-- what the holder of the mutex knows stays true whatever the host does -/
theorem Knows.mono (h : Knows c s v) {s' : St c.nrTasklets E F} (hrd : s'.input.rd = s.input.rd) (hcount : s.input.count ≤ s'.input.count)
    (hslot : 0 < s.input.count →
      s'.input.slot (place c.inputPtrSize.toNat s.input.rd) = s.input.slot (place c.inputPtrSize.toNat s.input.rd))
    (hwr : s'.output.wr = s.output.wr) (hleft : s'.output.count ≤ s.output.count) (hkeep : s'.output.slot = s.output.slot)
    (hnb : s'.nbReserved = s.nbReserved) : Knows c s' v := by
  unfold Knows at h ⊢
  cases hpc : v.pc with
  | inputWr locked rd =>
    rw [hpc] at h
    cases locked with
    | false => trivial
    | true => exact Eq.trans h hrd.symm
  | outputRd locked =>
    rw [hpc] at h
    cases locked with
    | false => trivial
    | true => exact lt_of_lt_of_le h hcount
  | outputWr locked rd =>
    rw [hpc] at h
    cases locked with
    | false => trivial
    | true =>
      obtain ⟨hmore, hle, hroom⟩ := h
      simp only
      rw [hwr, hnb]
      exact ⟨lt_of_lt_of_le hmore hcount, hleft.trans hle, hroom⟩
  | nbReserved locked rd wr =>
    rw [hpc] at h
    cases locked with
    | false => trivial
    | true =>
      obtain ⟨hwr', hmore, hle, hroom⟩ := h
      simp only
      rw [hwr, hnb]
      exact ⟨hwr', lt_of_lt_of_le hmore hcount, hleft.trans hle, hroom⟩
  | copyInput =>
    rw [hpc] at h
    exact lt_of_lt_of_le h hcount
  | pop =>
    rw [hpc] at h
    obtain ⟨hmore, htmp⟩ := h
    simp only
    rw [hrd, hslot hmore]
    exact ⟨lt_of_lt_of_le hmore hcount, htmp⟩
  | push =>
    rw [hpc] at h
    simp only
    rw [hwr, hkeep]
    exact h
  | _ => trivial

/-- what lies in the slot of the write pointer does not count yet -/
theorem Inv.store (hs : Inv c process s) (hlt : s.input.count < 2 ^ c.inputPtrSize.toNat) (x : E) :
    Inv c process { s with input := s.input.store (place c.inputPtrSize.toNat s.input.wr) x, pending := some x } := by
  refine ⟨hs.lock, fun i hi => ?_, hs.reserved, hs.room, hs.input_ok, ?_, ?_, hs.work, hs.given⟩
  · refine (hs.knows i hi).mono rfl le_rfl ?_ rfl le_rfl rfl rfl
    intro hcount
    have hsame := slot_push c.input_lt hlt x hcount
    have hzero : s.input.rd + UInt64.ofNat 0 = s.input.rd := UInt64.add_zero _
    rw [hzero] at hsame
    exact hsame
  · intro y hy
    obtain rfl := Option.some.inj hy
    exact ⟨Function.update_self .., hlt⟩
  · change s.sent = s.taken ++ (s.input.store _ x).contents _
    rw [contents_store c.input_lt hlt]
    exact hs.sent

theorem Inv.publish (hs : Inv c process s) {x : E} (hx : s.pending = some x) :
    Inv c process { s with input := s.input.setWr (s.input.wr + 1), pending := none, sent := s.sent ++ [x] } := by
  obtain ⟨hslot, hlt⟩ := hs.pending x hx
  rw [setWr_eq_push hslot]
  have hcount := count_push c.input_lt hlt x
  have hslots : (RingBuf.push c.inputPtrSize.toNat x s.input).slot = s.input.slot := by rw [← setWr_eq_push hslot]; rfl
  refine ⟨hs.lock, fun i hi => ?_, hs.reserved, hs.room, push_ok c.input_lt hlt x, ?_, ?_, hs.work, hs.given⟩
  · refine (hs.knows i hi).mono rfl ?_ ?_ rfl le_rfl rfl rfl
    · change s.input.count ≤ (RingBuf.push c.inputPtrSize.toNat x s.input).count
      omega
    · intro _
      exact congrFun hslots _
  · intro y hy
    cases hy
  · change s.sent ++ [x] = s.taken ++ (RingBuf.push c.inputPtrSize.toNat x s.input).contents _
    rw [contents_push c.input_lt hlt, ← List.append_assoc, ← hs.sent]

/-- the host only makes room -/
theorem Inv.drain (hs : Inv c process s) (m : ℕ) :
    Inv c process { s with
      output := s.output.drain m, got := s.got ++ (s.output.contents c.outputPtrSize.toNat).take m } := by
  have hroom := hs.room
  have hcount := count_drain m s.output
  refine ⟨hs.lock, fun i hi => ?_, hs.reserved, ?_, hs.input_ok, hs.pending, hs.sent, hs.work, ?_⟩
  · refine (hs.knows i hi).mono rfl le_rfl (fun _ => rfl) rfl ?_ rfl rfl
    change (s.output.drain m).count ≤ s.output.count
    omega
  · change (s.output.drain m).count + ∑ i, (s.tasklet i).pc.owes ≤ _
    omega
  · change s.given = s.got ++ _ ++ (s.output.drain m).contents _
    rw [contents_drain, List.append_assoc, List.take_append_drop]
    exact hs.given

/-- **Any step keeps the invariant.** -/
theorem step_inv (hs : Inv c process s) {a : Act c.nrTasklets E} {s' : St c.nrTasklets E F} (hstep : step c process s a = some s') :
    Inv c process s' := by
  cases a with
  | tasklet t => exact taskletStep_inv hs hstep
  | store x =>
    simp only [step] at hstep
    split_ifs at hstep with hguard
    obtain rfl := Option.some.inj hstep
    exact hs.store hguard.2 x
  | publish =>
    simp only [step] at hstep
    split at hstep
    · next x hx =>
      obtain rfl := Option.some.inj hstep
      exact hs.publish hx
    · cases hstep
  | drain m =>
    obtain rfl := Option.some.inj hstep
    exact hs.drain m
  | setActive b =>
    obtain rfl := Option.some.inj hstep
    exact ⟨hs.lock, fun i hi => hs.knows i hi, hs.reserved, hs.room, hs.input_ok, hs.pending, hs.sent, hs.work, hs.given⟩

theorem init_inv (inputSlot : ℕ → E) (outputSlot : ℕ → F) (tmpInput : Fin c.nrTasklets → E) (tmpOutput : Fin c.nrTasklets → F) :
    Inv c process (init c.nrTasklets inputSlot outputSlot tmpInput tmpOutput) := by
  have hcount : ∀ {α : Type} (slot : ℕ → α), (⟨0, 0, slot⟩ : RingBuf α).count = 0 := by
    intro α slot
    change ((0 : UInt64) - 0).toNat = 0
    decide
  have hempty : ∀ {α : Type} (k : ℕ) (slot : ℕ → α), (⟨0, 0, slot⟩ : RingBuf α).contents k = [] := by
    intro α k slot
    apply List.eq_nil_of_length_eq_zero
    rw [length_contents, hcount]
  refine ⟨fun t => ?_, fun t ht => ?_, ?_, ?_, ?_, fun x hx => ?_, (hempty _ _).symm, ?_, (hempty _ _).symm⟩
  · simp [init, Pc.locked]
  · cases ht
  · simp [init, Pc.reserves]
  · simp [init, Pc.owes, hcount]
  · change (⟨0, 0, inputSlot⟩ : RingBuf E).count ≤ _
    rw [hcount]
    exact Nat.zero_le _
  · cases hx
  · simp [init, Tasklet.holds]

theorem reachable_inv (h : Reachable c process s) : Inv c process s := by
  induction h with
  | init inputSlot outputSlot tmpInput tmpOutput => exact init_inv inputSlot outputSlot tmpInput tmpOutput
  | step a _ hstep ih => exact step_inv ih hstep

end Steps

/-! ## What the host can rely on -/

section Results

variable {c : Conf} {process : E → F} {s : St c.nrTasklets E F}

/-- the tasklet that has the mutex can go on -/
theorem holder_steps (hs : Inv c process s) {t : Fin c.nrTasklets} (ht : s.mutex = some t) :
    (taskletStep c process s t).isSome = true := by
  have hlocked := (hs.lock t).1 ht
  unfold taskletStep
  cases hpc : (s.tasklet t).pc <;> simp_all [Pc.locked] <;> split_ifs <;> rfl

theorem tasklet_steps (hs : Inv c process s) (t : Fin c.nrTasklets) (hpc : (s.tasklet t).pc ≠ .stopped) :
    (taskletStep c process s t).isSome = true ∨ ∃ i, s.mutex = some i ∧ (taskletStep c process s i).isSome = true := by
  cases hmutex : s.mutex with
  | some i => exact Or.inr ⟨i, rfl, holder_steps hs hmutex⟩
  | none =>
    left
    unfold taskletStep
    cases hpc' : (s.tasklet t).pc <;> simp_all <;> split_ifs <;> rfl

/-- **Nothing is lost, duplicated or overwritten**, in whatever order tasklets and host step. One tasklet at a time has the
mutex. What the host has put in is what the tasklets have taken out and what is in the input FIFO, in order; what the tasklets
have put in is what the host has taken out and what is in the output FIFO, in order; neither holds more than it has slots for,
and a result is written only where there is room. The results are those of the elements taken, one for each, put in or in work,
and all put in once all tasklets have stopped. A tasklet that cannot go on waits for one that can. -/
theorem exchange_exact (h : Reachable c process s) :
    (∀ i j, (s.tasklet i).pc.locked = true → (s.tasklet j).pc.locked = true → i = j) ∧
      (s.sent = s.taken ++ s.input.contents c.inputPtrSize.toNat ∧ s.input.Ok c.inputPtrSize.toNat) ∧
      (s.given = s.got ++ s.output.contents c.outputPtrSize.toNat ∧ s.output.Ok c.outputPtrSize.toNat) ∧
      (∀ t, (s.tasklet t).pc = .copyOutput → s.output.count < 2 ^ c.outputPtrSize.toNat) ∧
      (s.taken.map process : Multiset F) = s.given + ∑ t, (s.tasklet t).holds process ∧
      ((∀ t, (s.tasklet t).pc = .stopped) → s.given.Perm (s.taken.map process)) ∧
      (∀ t, (s.tasklet t).pc ≠ .stopped →
        (taskletStep c process s t).isSome = true ∨ ∃ i, s.mutex = some i ∧ (taskletStep c process s i).isSome = true) := by
  have hs := reachable_inv h
  refine ⟨fun i j hi hj => ?_, ⟨hs.sent, hs.input_ok⟩, ⟨hs.given, ?_⟩, fun t hpc => ?_, hs.work, fun hstopped => ?_, tasklet_steps hs⟩
  · have hmutex := (hs.lock i).2 hi
    rw [(hs.lock j).2 hj] at hmutex
    exact (Option.some.inj hmutex).symm
  · have hroom := hs.room
    unfold Ok
    omega
  · exact hs.room_of_owes (t := t) (by rw [hpc]; rfl)
  · have hnone : ∑ t, (s.tasklet t).holds process = 0 :=
      Finset.sum_eq_zero fun t _ => holds_of_owes (by rw [hstopped t]; rfl)
    have hwork := hs.work
    rw [hnone, add_zero] at hwork
    exact (Multiset.coe_eq_coe.1 hwork).symm

/-- the actions of a list, one after the other -/
def runActs (c : Conf) (process : E → F) : St c.nrTasklets E F → List (Act c.nrTasklets E) → Option (St c.nrTasklets E F)
  | s, [] => some s
  | s, a :: as =>
    match step c process s a with
    | some s' => runActs c process s' as
    | none => none

theorem reachable_runActs {as : List (Act c.nrTasklets E)} {s' : St c.nrTasklets E F} (h : Reachable c process s)
    (hrun : runActs c process s as = some s') : Reachable c process s' := by
  induction as generalizing s with
  | nil => exact Option.some.inj hrun ▸ h
  | cons a as ih =>
    rw [runActs] at hrun
    split at hrun
    · next s1 hstep => exact ih (h.step a hstep) hrun
    · cases hrun

theorem one_le_ten : (1 : UInt32).toNat ≤ 10 := by decide

theorem two_le : 2 ≤ 24 := by decide

/-- two tasklets, FIFOs of two elements -/
def twoTasklets : Conf := ⟨1, 1, 2, one_le_ten, one_le_ten, two_le⟩

/-- the host sends 5, tasklet 0 handles it, the host takes the result, and both tasklets stop -/
def exchange : List (Act 2 ℕ) :=
  [.store 5, .publish] ++ List.replicate 21 (.tasklet 0) ++ [.drain 1, .setActive false] ++ List.replicate 3 (.tasklet 0) ++
    List.replicate 3 (.tasklet 1)

theorem exchange_exact_five : ∃ s : St 2 ℕ ℕ, Reachable twoTasklets (· + 1) s ∧ s.got = [6] ∧
    s.given.Perm (s.taken.map (· + 1)) := by
  have hrun : (runActs twoTasklets (· + 1) (init 2 (fun _ => 0) (fun _ => 0) (fun _ => 0) fun _ => 0) exchange).map
      (fun s => (s.got, decide (∀ t, (s.tasklet t).pc = .stopped))) = some ([6], true) := by decide +kernel
  obtain ⟨s, hs, hres⟩ := Option.map_eq_some_iff.1 hrun
  obtain ⟨hgot, hstopped⟩ := Prod.mk.inj hres
  have hreach : Reachable twoTasklets (· + 1) s := reachable_runActs (.init _ _ _ _) hs
  exact ⟨s, hreach, hgot, (exchange_exact hreach).2.2.2.2.2.1 (of_decide_eq_true hstopped)⟩

end Results

/-! ## An element left behind -/

section Left

variable {c : Conf} {process : E → F} {s : St c.nrTasklets E F}

/-- the tasklets of a list stand at `pc` -/
def St.placed (s : St c.nrTasklets E F) (l : List (Fin c.nrTasklets)) (pc : Pc) : St c.nrTasklets E F :=
  { s with tasklet := fun t => if t ∈ l then { s.tasklet t with pc } else s.tasklet t }

theorem placed_cons {t : Fin c.nrTasklets} {l : List (Fin c.nrTasklets)} (ht : t ∉ l) (pc : Pc) :
    (s.goto t pc).placed l pc = s.placed (t :: l) pc := by
  have htasklet : ∀ i, ((s.goto t pc).placed l pc).tasklet i = (s.placed (t :: l) pc).tasklet i := by
    intro i
    rcases eq_or_ne i t with rfl | hne
    · simp [St.placed, St.goto, St.put, ht]
    · simp [St.placed, St.goto, St.put, hne]
  have hfun := funext htasklet
  unfold St.placed at hfun ⊢
  simp only at hfun
  rw [hfun]
  rfl

theorem runActs_append (s : St c.nrTasklets E F) (as bs : List (Act c.nrTasklets E)) :
    runActs c process s (as ++ bs) = (runActs c process s as).bind fun s' => runActs c process s' bs := by
  induction as generalizing s with
  | nil => rfl
  | cons a as ih =>
    rw [List.cons_append, runActs, runActs]
    cases step c process s a with
    | none => rfl
    | some s' => exact ih s'

/-- the tasklets of a list take the same steps, one after the other -/
theorem runActs_each {old pc : Pc} {steps : ℕ} {input : RingBuf E} {active : Bool}
    (hone : ∀ (s : St c.nrTasklets E F) (t : Fin c.nrTasklets), s.input = input → s.active = active →
      (s.tasklet t).pc = old → runActs c process s (List.replicate steps (.tasklet t)) = some (s.goto t pc))
    (l : List (Fin c.nrTasklets)) (hl : l.Nodup) (hinput : s.input = input) (hactive : s.active = active)
    (hold : ∀ t ∈ l, (s.tasklet t).pc = old) :
    runActs c process s (l.flatMap fun t => List.replicate steps (.tasklet t)) = some (s.placed l pc) := by
  induction l generalizing s with
  | nil =>
    have hnil : s.placed [] pc = s := by simp [St.placed]
    rw [hnil]
    rfl
  | cons t l ih =>
    obtain ⟨ht, hl⟩ := List.nodup_cons.1 hl
    rw [List.flatMap_cons, runActs_append, hone s t hinput hactive (hold t List.mem_cons_self), Option.bind_some,
      ← placed_cons ht]
    apply ih (s := s.goto t pc) hl hinput hactive
    intro i hi
    have hne : i ≠ t := fun heq => ht (heq ▸ hi)
    rw [← hold i (List.mem_cons_of_mem t hi)]
    simp [St.goto, St.put, hne]

theorem goto_goto (s : St c.nrTasklets E F) (t : Fin c.nrTasklets) (pc pc' : Pc) : (s.goto t pc).goto t pc' = s.goto t pc' := by
  simp [St.goto, St.put]

theorem goto_pc (s : St c.nrTasklets E F) (t : Fin c.nrTasklets) (pc : Pc) : ((s.goto t pc).tasklet t).pc = pc := by
  simp [St.goto, St.put]

/-- with the input FIFO empty, two steps from the top of the loop to the test of `active` -/
theorem look (hempty : s.input.rd = s.input.wr) {t : Fin c.nrTasklets} (hpc : (s.tasklet t).pc = .inputRd false) :
    runActs c process s (List.replicate 2 (.tasklet t)) = some (s.goto t .readActive) := by
  have hfirst : step c process s (.tasklet t) = some (s.goto t (.inputWr false s.input.rd)) := by
    simp only [step, taskletStep, hpc]
  have hsecond : step c process (s.goto t (.inputWr false s.input.rd)) (.tasklet t) = some (s.goto t .readActive) := by
    simp only [step, taskletStep, goto_pc]
    change (if s.input.rd = s.input.wr then _ else _) = _
    rw [if_pos hempty, goto_goto]
    rfl
  rw [List.replicate_succ, runActs, hfirst, List.replicate_one]
  simp only [runActs, hsecond]

/-- and one step from there to the end, when it is cleared -/
theorem stop (hactive : s.active = false) {t : Fin c.nrTasklets} (hpc : (s.tasklet t).pc = .readActive) :
    runActs c process s (List.replicate 1 (.tasklet t)) = some (s.goto t .stopped) := by
  have hstep : step c process s (.tasklet t) = some (s.goto t .stopped) := by
    simp only [step, taskletStep, hpc, hactive, Bool.false_eq_true, if_false]
  rw [List.replicate_one]
  simp only [runActs, hstep]

/-- the host's steps do not touch the tasklets -/
theorem send_and_clear (process : E → F) (s : St c.nrTasklets E F) (x : E) (hpending : s.pending = none)
    (hcount : s.input.count < 2 ^ c.inputPtrSize.toNat) :
    ∃ s', runActs c process s [.store x, .publish, .setActive false] = some s' ∧ s'.tasklet = s.tasklet ∧ s'.active = false ∧
      s'.sent = s.sent ++ [x] ∧ s'.taken = s.taken := by
  have hstore : step c process s (.store x) =
      some { s with input := s.input.store (place c.inputPtrSize.toNat s.input.wr) x, pending := some x } :=
    if_pos ⟨by rw [hpending]; rfl, hcount⟩
  rw [runActs, hstore]
  exact ⟨_, rfl, rfl, rfl, rfl, rfl⟩

/-- **An element can be left behind**, with any number of tasklets: each finds the input FIFO empty, then the host sends an
element and only after that clears `active`, and each tasklet stops without another look at the FIFO. -/
theorem input_left (c : Conf) (process : E → F) (x : E) (inputSlot : ℕ → E) (outputSlot : ℕ → F)
    (tmpInput : Fin c.nrTasklets → E) (tmpOutput : Fin c.nrTasklets → F) :
    ∃ s, runActs c process (init c.nrTasklets inputSlot outputSlot tmpInput tmpOutput)
        (((List.finRange c.nrTasklets).flatMap fun t => List.replicate 2 (.tasklet t)) ++ [.store x, .publish, .setActive false] ++
          (List.finRange c.nrTasklets).flatMap fun t => List.replicate 1 (.tasklet t)) = some s ∧
      (∀ t, (s.tasklet t).pc = .stopped) ∧ s.sent = [x] ∧ s.taken = [] := by
  have hcount : (⟨0, 0, inputSlot⟩ : RingBuf E).count < 2 ^ c.inputPtrSize.toNat := by
    have hzero : (⟨0, 0, inputSlot⟩ : RingBuf E).count = 0 := by
      change ((0 : UInt64) - 0).toNat = 0
      decide
    rw [hzero]
    positivity
  have hnodup := List.nodup_finRange c.nrTasklets
  have hlook : runActs c process (init c.nrTasklets inputSlot outputSlot tmpInput tmpOutput)
      ((List.finRange c.nrTasklets).flatMap fun t => List.replicate 2 (.tasklet t)) =
        some ((init c.nrTasklets inputSlot outputSlot tmpInput tmpOutput).placed (List.finRange c.nrTasklets) .readActive) :=
    runActs_each (fun s t hinput _ hpc => look (by rw [hinput]; rfl) hpc) _ hnodup rfl rfl fun t _ => rfl
  obtain ⟨s, hhost, hplaced, hinactive, hsent, htaken⟩ : ∃ s : St c.nrTasklets E F,
      runActs c process ((init c.nrTasklets inputSlot outputSlot tmpInput tmpOutput).placed (List.finRange c.nrTasklets)
        .readActive) [.store x, .publish, .setActive false] = some s ∧
      (∀ t, (s.tasklet t).pc = .readActive) ∧ s.active = false ∧ s.sent = [x] ∧ s.taken = [] := by
    obtain ⟨s, hrun, htasklet, hactive, hsent, htaken⟩ :=
      send_and_clear process ((init c.nrTasklets inputSlot outputSlot tmpInput tmpOutput).placed (List.finRange c.nrTasklets)
        .readActive) x rfl hcount
    refine ⟨s, hrun, fun t => ?_, hactive, hsent, htaken⟩
    rw [htasklet]
    simp [St.placed]
  have hstop : runActs c process s ((List.finRange c.nrTasklets).flatMap fun t => List.replicate 1 (.tasklet t)) =
      some (s.placed (List.finRange c.nrTasklets) .stopped) :=
    runActs_each (fun s t _ hactive hpc => stop hactive hpc) _ hnodup rfl hinactive fun t _ => hplaced t
  refine ⟨s.placed (List.finRange c.nrTasklets) .stopped, ?_, fun t => by simp [St.placed], hsent, htaken⟩
  rw [runActs_append, runActs_append, hlook, Option.bind_some, hhost, Option.bind_some, hstop]

end Left

end PimOfis.DpuRt.WramFifo
