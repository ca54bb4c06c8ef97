/-
The UFI layer of one rank (`ufi.c`, `ufi_ci.c`): the per-chip cache the host keeps (slice target, structure value,
enabled DPUs), the command array kept between calls, and the functions that select DPUs and move WRAM words.

Every function follows its C body. A `for_each_ci` loop whose iterations are independent is written as a function of the
chip. `ff` is the macro `FF`: go on if the status is `DPU_OK`, else leave with the state reached so far. An array of
commands is sent by `execCmd` alone: it sends EVERY command of the array that is not `CI_EMPTY`, whatever mask its
caller works on.

The bus is an oracle: before each exchange the DPUs may store to their own WRAM, and the exchange may fail before or
after the chips executed it. An exchange the list does not give succeeds, with no own store.
-/
import Mathlib.Tactic
import PimOfis.Ufi.Chip

namespace PimOfis.Ufi

/-! ## Model -/

/-- `dpu_error_t`, as far as the modelled functions return it -/
inductive Status where
  | ok
  | internal
  | driver
  | timeout
deriving DecidableEq, Repr

/-- `struct dpu_slice_target` -/
inductive SliceTarget where
  | none
  | dpu (dpuId : ℕ)
  | all
  | group (groupId : ℕ)
deriving DecidableEq, Repr

/-- `struct dpu_configuration_slice_info_t` -/
structure SliceInfo where
  structureValue : ℕ
  sliceTarget : SliceTarget
  hostMuxMramState : Mask8
  dpusPerGroup : ℕ → Mask8
  enabledDpus : Mask8
  allDpusAreEnabled : Bool

/-- how one exchange of the command array with the chips ends -/
inductive Outcome where
  /-- executed and acknowledged -/
  | ok
  /-- the commit failed: nothing reached the chips -/
  | lost
  /-- executed, but the acknowledgement did not come back -/
  | unread
deriving DecidableEq, Repr

structure Exchange where
  outcome : Outcome
  /-- the stores the DPUs make to their own WRAM before this exchange -/
  before : List DpuWrite

structure Rank where
  sliceInfo : Ci → SliceInfo
  /-- `rank->cmds`, `rank->data` -/
  cmds : Ci → Cmd
  data : Ci → ℕ
  chips : Ci → Chip
  bus : List Exchange

/-- `FF(s)`: on a status other than `DPU_OK` go to the end -/
def ff (x : Status × Rank) (k : Rank → Status × Rank) : Status × Rank :=
  match x.1 with
  | .ok => k x.2
  | e => (e, x.2)

@[simp] theorem ff_ok (r : Rank) (k : Rank → Status × Rank) : ff (.ok, r) k = k r := rfl

/-- `ci_prepare_mask` -/
def ciPrepareMask (mask : Mask8) (data : Cmd) : Ci → Cmd := fun ci => if mask ci then data else .empty

/-- `ci_fill_selected_dpu_mask`; `none` is its `DPU_ERR_INTERNAL` -/
def ciFillSelectedDpuMask (info : SliceInfo) : Option Mask8 :=
  match info.sliceTarget with
  | .none => Option.none
  | .all => some Mask8.all
  | .dpu d => some (Mask8.one d)
  | .group g => some (info.dpusPerGroup g)

/-- what happens on the rank up to its next exchange: the DPUs' own stores -/
def Rank.tick (r : Rank) : Rank :=
  { r with chips := ownWrites r.chips ((r.bus.head?.map Exchange.before).getD []), bus := r.bus.tail }

/-- the chips execute the command array and answer it -/
def Rank.send (r : Rank) (commands : Ci → Cmd) : Rank :=
  { r with chips := fun ci => (r.chips ci).run (commands ci), data := fun ci => (r.chips ci).answer (commands ci) }

/-- the acknowledgement mask `exec_cmd` waits for differs from the DPUs that executed the command -/
def Rank.Unacknowledged (r : Rank) (commands : Ci → Cmd) : Prop :=
  ∃ ci, commands ci ≠ .empty ∧ ∃ i, (ciFillSelectedDpuMask (r.sliceInfo ci)).any (fun m => m i) ≠ (r.chips ci).selected i

instance (r : Rank) (commands : Ci → Cmd) : Decidable (r.Unacknowledged commands) := by
  unfold Rank.Unacknowledged; infer_instance

/-- `exec_cmd`: all non-empty commands of the array go out; with `addSelectMask` the selected DPUs of every addressed
chip must acknowledge -/
def execCmd (r : Rank) (commands : Ci → Cmd) (addSelectMask : Bool) : Status × Rank :=
  if addSelectMask = true ∧ ∃ ci, commands ci ≠ .empty ∧ ciFillSelectedDpuMask (r.sliceInfo ci) = Option.none then
    (.internal, r)
  else
    match (r.bus.head?.map Exchange.outcome).getD .ok with
    | .lost => (.driver, r.tick)
    | .unread => (.timeout, r.tick.send commands)
    | .ok =>
      if addSelectMask = true ∧ (r.tick.send commands).Unacknowledged commands then
        (.timeout, r.tick.send commands)
      else (.ok, r.tick.send commands)

def Rank.setStructures (r : Rank) (mask : Mask8) (struct : Ci → ℕ) : Rank :=
  { r with
    sliceInfo := fun ci =>
      if mask ci then { r.sliceInfo ci with structureValue := struct ci } else r.sliceInfo ci }

/-- `do_write_structure`: a chip of the mask has another structure in the cache -/
def DoWriteStructure (r : Rank) (ciMask : Mask8) (struct : ℕ) : Prop :=
  ∃ ci, ciMask ci = true ∧ (r.sliceInfo ci).structureValue ≠ struct

instance (r : Rank) (ciMask : Mask8) (struct : ℕ) : Decidable (DoWriteStructure r ciMask struct) := by
  unfold DoWriteStructure; infer_instance

/-- `ufi_exec_write_structure` -/
def ufiExecWriteStructure (r : Rank) (ciMask : Mask8) (struct : ℕ) : Status × Rank :=
  let r1 := r.setStructures ciMask fun _ => struct
  if DoWriteStructure r ciMask struct then
    let r2 := { r1 with cmds := ciPrepareMask ciMask (.struct struct) }
    execCmd r2 r2.cmds false
  else (.ok, r1)

/-- a structure of the array `ufi_exec_write_structures` gets, `CI_EMPTY` being `none` -/
def structCmd : Option ℕ → Cmd
  | Option.none => .empty
  | some s => .struct s

/-- the chips of the mask whose structure `ufi_exec_write_structures` has to change -/
def staleStructures (r : Rank) (ciMask : Mask8) (structures : Ci → Option ℕ) : Mask8 := fun ci =>
  ciMask ci && (structures ci).any fun s => (r.sliceInfo ci).structureValue ≠ s

/-- `ufi_exec_write_structures`: what is sent is the whole array `structures` -/
def ufiExecWriteStructures (r : Rank) (ciMask : Mask8) (structures : Ci → Option ℕ) : Status × Rank :=
  let r1 := r.setStructures (staleStructures r ciMask structures) fun ci => (structures ci).getD 0
  if (∃ ci, staleStructures r ciMask structures ci = true) then
    execCmd r1 (fun ci => structCmd (structures ci)) false
  else (.ok, r1)

/-- `ufi_exec_void_frame`, and `ufi_exec_32bit_frame` (whose results are `rank->data`) -/
def ufiExecVoidFrame (r : Rank) (ciMask : Mask8) (struct : ℕ) (f : Frame) : Status × Rank :=
  ff (ufiExecWriteStructure r ciMask struct) fun r1 =>
    let r2 := { r1 with cmds := ciPrepareMask ciMask (.frame f) }
    execCmd r2 r2.cmds false

/-- `ufi_exec_void_frames` on `frames = rank->cmds` -/
def ufiExecVoidFrames (r : Rank) (ciMask : Mask8) (structures : Ci → Option ℕ) : Status × Rank :=
  ff (ufiExecWriteStructures r ciMask structures) fun r1 => execCmd r1 r1.cmds false

def Rank.setTargets (r : Rank) (mask : Mask8) (t : SliceTarget) : Rank :=
  { r with
    sliceInfo := fun ci => if mask ci then { r.sliceInfo ci with sliceTarget := t } else r.sliceInfo ci }

/-- the mask `ufi_select_dpu` leaves in `*ci_mask`: the chips whose DPU is enabled -/
def selectDpuMask (r : Rank) (ciMask : Mask8) (dpu : ℕ) : Mask8 := fun ci =>
  ciMask ci && (r.sliceInfo ci).enabledDpus.bit dpu

/-- `do_select`: a chip of the mask has another target in the cache -/
def DoSelect (r : Rank) (mask : Mask8) (dpu : ℕ) : Prop :=
  ∃ ci, mask ci = true ∧ (r.sliceInfo ci).sliceTarget ≠ .dpu dpu

instance (r : Rank) (mask : Mask8) (dpu : ℕ) : Decidable (DoSelect r mask dpu) := by
  unfold DoSelect; infer_instance

/-- `ufi_select_dpu`: the third result is the rank, the second `*ci_mask`, which keeps its value on an error -/
def ufiSelectDpu (r : Rank) (ciMask : Mask8) (dpu : ℕ) : Status × Mask8 × Rank :=
  let mask := selectDpuMask r ciMask dpu
  let r1 := r.setTargets mask (.dpu dpu)
  if DoSelect r mask dpu then
    let (status, r2) := ufiExecVoidFrame r1 mask ciSelectDpuStruct (.selectDpu dpu)
    (status, if status = .ok then mask else ciMask, r2)
  else (.ok, mask, r1)

/-- `DPU_ENABLED_GROUP` -/
def dpuEnabledGroup : ℕ := 0

/-- what `ufi_select_all` does with one chip of its mask -/
inductive SelectAllCase where
  | keep
  | all
  | group
  | drop
deriving DecidableEq

def selectAllCase (info : SliceInfo) : SelectAllCase :=
  if info.allDpusAreEnabled then
    if info.sliceTarget ≠ .all then .all else .keep
  else if info.sliceTarget ≠ .group dpuEnabledGroup then
    if info.enabledDpus ≠ fun _ => false then .group else .drop
  else .keep

def selectAllKind (r : Rank) (ciMask : Mask8) (ci : Ci) : SelectAllCase :=
  if ciMask ci then selectAllCase (r.sliceInfo ci) else .keep

/-- the mask `ufi_select_all` leaves in `*ci_mask`: a chip with no DPU enabled is dropped -/
def selectAllMask (r : Rank) (ciMask : Mask8) : Mask8 := fun ci => ciMask ci && selectAllKind r ciMask ci ≠ .drop

/-- the array `structs` of `ufi_select_all` -/
def selectAllStructs (r : Rank) (ciMask : Mask8) (ci : Ci) : Option ℕ :=
  match selectAllKind r ciMask ci with
  | .all => some ciSelectAllStruct
  | .group => some ciSelectGroupStruct
  | .keep => Option.none
  | .drop => Option.none

/-- the targets and the frames `ufi_select_all` sets chip by chip. The frames are written into `rank->cmds` in place: a
chip that already has the right target keeps the command it had. -/
def Rank.allSelected (r : Rank) (ciMask : Mask8) : Rank :=
  { r with
    sliceInfo := fun ci =>
      match selectAllKind r ciMask ci with
      | .all => { r.sliceInfo ci with sliceTarget := .all }
      | .group => { r.sliceInfo ci with sliceTarget := .group dpuEnabledGroup }
      | .keep => r.sliceInfo ci
      | .drop => r.sliceInfo ci
    cmds := fun ci =>
      match selectAllKind r ciMask ci with
      | .all => .frame .selectAll
      | .group => .frame (.selectGroup dpuEnabledGroup)
      | .keep => r.cmds ci
      | .drop => .empty }

/-- `ufi_select_all` -/
def ufiSelectAll (r : Rank) (ciMask : Mask8) : Status × Mask8 × Rank :=
  let mask := selectAllMask r ciMask
  let r1 := r.allSelected ciMask
  if (∃ ci, (selectAllStructs r ciMask ci).isSome = true) then
    let (status, r2) := ufiExecVoidFrames r1 mask (selectAllStructs r ciMask)
    (status, if status = .ok then mask else ciMask, r2)
  else (.ok, mask, r1)

/-- the frames of one round of `ufi_wram_write`: those of the chips in the mask are replaced in `rank->cmds`, the others
stay as they are -/
def wramWriteFrames (r : Rank) (ciMask : Mask8) (word : Ci → ℕ) (address : ℕ) : Ci → Cmd := fun ci =>
  if ciMask ci then .frame (.wramWriteWord (word ci) address) else r.cmds ci

/-- one round of the loop of `ufi_wram_write` -/
def wramWriteWord (r : Rank) (ciMask : Mask8) (word : Ci → ℕ) (address : ℕ) : Status × Rank :=
  ff (ufiExecWriteStructure r ciMask (ciWramWriteWordStruct address)) fun r1 =>
    let r2 := { r1 with cmds := wramWriteFrames r1 ciMask word address }
    execCmd r2 r2.cmds true

/-- `ufi_wram_write` of `len` words; the address is a `u16` -/
def ufiWramWrite (r : Rank) (ciMask : Mask8) (src : Ci → ℕ → ℕ) (offset : ℕ) : ℕ → Status × Rank
  | 0 => (.ok, r)
  | n + 1 => ff (ufiWramWrite r ciMask src offset n) fun r1 =>
      wramWriteWord r1 ciMask (fun ci => src ci n) ((offset + n) % 2 ^ 16)

/-- `ufi_wram_read` of `len` words into `dst`, which keeps the words that were not read -/
def ufiWramRead (r : Rank) (ciMask : Mask8) (dst : Ci → ℕ → ℕ) (offset : ℕ) :
    ℕ → Status × (Ci → ℕ → ℕ) × Rank
  | 0 => (.ok, dst, r)
  | n + 1 =>
    match ufiWramRead r ciMask dst offset n with
    | (.ok, dst1, r1) =>
      match ufiExecVoidFrame r1 ciMask ciWramReadWordStruct (.wramReadWord ((offset + n) % 2 ^ 16)) with
      | (.ok, r2) => (.ok, fun ci a => if ciMask ci = true ∧ a = n then r2.data ci else dst1 ci a, r2)
      | (e, r2) => (e, dst1, r2)
    | (e, dst1, r1) => (e, dst1, r1)

end PimOfis.Ufi
