/-
How the API checks an access to a symbol: `CHECK_SYMBOL`, `MEMORY_SWITCH` and the parameter conversions of
`api/dpu_memory.c`, the job they make, and the `verify_*_access` macros a rank's thread runs before it hands the range on.

A symbol's address says with two flag bits which memory it is in; the rest is a byte address in that memory. Offsets are
32 bits, lengths 64, and the job holds both as 32 bits, in instructions for the IRAM and in words for the WRAM. A
broadcast into the IRAM hands them on as 16 bits. The memories of the rank's description may have any size.

What happens after the check (the rank's lock, the test that no DPU runs, the transfer) is not modelled here.

Results:
- `access_eq`: the checks as one condition on the address, the offset and the length, each sum with the wrap it has;
- `Meets.unwrapped`, `Unwrapped.meets`: an access is as asked for where nothing wraps, and only there;
- `accepted_as_asked_iff`: exactly which calls access what they are asked for;
- `unwrapped_of_inside`: a range inside a symbol that ends below 2^32, and in the IRAM below 2^16 instructions, is
  always among them.
-/
import Mathlib.Tactic
import PimOfis.Lib.Bits

namespace PimOfis.Api.AccessCheck

open Lib

/-! ## Model -/

/-- `struct dpu_symbol_t` -/
structure Symbol where
  address : UInt32
  size : UInt32

/-- `description->hw.memories`: bytes of MRAM, words of WRAM, instructions of IRAM -/
structure Memories where
  mramSize : UInt32
  wramSize : UInt32
  iramSize : UInt16

/-- the memories of every chip of `dpu_chip_description.c` -/
def chipMemories : Memories where
  mramSize := 67108864
  wramSize := 16384
  iramSize := 4096

inductive DpuError where
  | internal | dpuDisabled | invalidDpuSet | invalidSymbolAccess | invalidIramAccess | invalidWramAccess
  | invalidMramAccess | invalidMemoryTransfer | invalidParallelMemoryTransfer
  deriving DecidableEq

inductive Memory where
  | iram | mram | wram
  deriving DecidableEq

def iramMask : UInt32 := 0x80000000
def mramMask : UInt32 := 0x08000000

def iramAlign : UInt32 := 3
def wramAlign : UInt32 := 2

def alignMask (align : UInt32) : UInt32 := ~~~((1 <<< align) - 1)

/-- `MEMORY_SWITCH` -/
def memorySwitch (address : UInt32) : Memory :=
  if address &&& iramMask = iramMask then .iram
  else if address &&& mramMask = mramMask then .mram
  else .wram

def updateMramCopyParameters (address : UInt32) (length : UInt64) : UInt32 × UInt64 :=
  (address &&& ~~~mramMask, length)

def updateWramCopyParameters (address : UInt32) (length : UInt64) : UInt32 × UInt64 :=
  (address >>> wramAlign, length >>> wramAlign.toUInt64)

def updateIramCopyParameters (address : UInt32) (length : UInt64) : UInt32 × UInt64 :=
  ((address &&& ~~~iramMask) >>> iramAlign, length >>> iramAlign.toUInt64)

/-- the parameters a memory's arm of `MEMORY_SWITCH_AND_UPDATE_COPY_PARAMETERS` leaves -/
def updateCopyParameters : Memory → UInt32 → UInt64 → UInt32 × UInt64
  | .iram => updateIramCopyParameters
  | .mram => updateMramCopyParameters
  | .wram => updateWramCopyParameters

/-- `CHECK_SYMBOL`: `symbol_offset + length` is a sum of 64 bits, `_address` one of 32 -/
def checkSymbol (symbol : Symbol) (symbolOffset : UInt32) (length : UInt64) : Except DpuError Unit :=
  let address := symbol.address + symbolOffset
  if symbolOffset.toUInt64 + length > symbol.size.toUInt64 then .error .invalidSymbolAccess
  else match memorySwitch address with
    | .iram =>
      if address &&& ~~~(alignMask iramAlign) ≠ 0 then .error .invalidIramAccess
      else if length &&& (~~~(alignMask iramAlign)).toUInt64 ≠ 0 then .error .invalidIramAccess
      else .ok ()
    | .mram => .ok () -- all alignments are allowed
    | .wram =>
      if address &&& ~~~(alignMask wramAlign) ≠ 0 then .error .invalidWramAccess
      else if length &&& (~~~(alignMask wramAlign)).toUInt64 ≠ 0 then .error .invalidWramAccess
      else .ok ()

/-- `dpu_xfer_t`, with what the `default` of a switch takes -/
inductive Xfer where
  | toDpu | fromDpu | other

/-- `enum dpu_thread_job_type`: the jobs that access a memory at an offset -/
inductive JobType where
  | copyIramToMatrix | copyMramToMatrix | copyWramToMatrix
  | copyIramFromMatrix | copyMramFromMatrix | copyWramFromMatrix
  | parallelCopyWramToMatrix | parallelCopyWramFromMatrix
  | copyIramToRank | copyMramToRank | copyWramToRank

/-- `struct dpu_thread_job`: the offset and size of its matrix, or its address and length -/
structure Job where
  type : JobType
  offset : UInt32
  size : UInt32

def broadcastJobType : Memory → JobType
  | .iram => .copyIramToRank
  | .mram => .copyMramToRank
  | .wram => .copyWramToRank

/-- `DPU_COPY_MATRIX_SET_JOB_TYPE` -/
def copyMatrixJobType : Xfer → Memory → Except DpuError JobType
  | .toDpu, .iram => .ok .copyIramToMatrix
  | .toDpu, .mram => .ok .copyMramToMatrix
  | .toDpu, .wram => .ok .copyWramToMatrix
  | .fromDpu, .iram => .ok .copyIramFromMatrix
  | .fromDpu, .mram => .ok .copyMramFromMatrix
  | .fromDpu, .wram => .ok .copyWramFromMatrix
  | .other, _ => .error .invalidMemoryTransfer

/-- the job with the parameters of the memory's arm, the length cut to the 32 bits of the job -/
def makeJob (type : JobType) (address : UInt32) (length : UInt64) : Job :=
  let p := updateCopyParameters (memorySwitch address) address length
  { type := type, offset := p.1, size := p.2.toUInt32 }

/-- `struct dpu_set_t`: ranks, a DPU that is enabled or not, or a kind no switch knows -/
inductive DpuSet where
  | ranks
  | dpu (enabled : Bool)
  | other

def dpuCopySymbolDpu (enabled : Bool) (symbol : Symbol) (symbolOffset : UInt32) (length : UInt64) (xfer : Xfer) :
    Except DpuError Job := do
  if !enabled then throw .dpuDisabled
  checkSymbol symbol symbolOffset length
  let address := symbol.address + symbolOffset
  let jobType ← copyMatrixJobType xfer (memorySwitch address)
  return makeJob jobType address length

def dpuBroadcastToSymbolForRanks (symbol : Symbol) (symbolOffset : UInt32) (length : UInt64) : Except DpuError Job := do
  checkSymbol symbol symbolOffset length
  let address := symbol.address + symbolOffset
  return makeJob (broadcastJobType (memorySwitch address)) address length

/-- the job type with `DPU_XFER_PARALLEL`: only a transfer of WRAM may run beside the program -/
def parallelJobType : JobType → Except DpuError JobType
  | .copyWramFromMatrix => .ok .parallelCopyWramFromMatrix
  | .copyWramToMatrix => .ok .parallelCopyWramToMatrix
  | _ => .error .invalidParallelMemoryTransfer

def dpuPushXferSymbol (dpuSet : DpuSet) (xfer : Xfer) (symbol : Symbol) (symbolOffset : UInt32) (length : UInt64)
    (parallel : Bool) : Except DpuError Job :=
  match dpuSet with
  | .ranks => do
    checkSymbol symbol symbolOffset length
    let address := symbol.address + symbolOffset
    let jobType ← copyMatrixJobType xfer (memorySwitch address)
    let jobType ← if parallel then parallelJobType jobType else pure jobType
    return makeJob jobType address length
  | .dpu enabled => dpuCopySymbolDpu enabled symbol symbolOffset length xfer
  | .other => throw .internal

def dpuBroadcastToSymbol (dpuSet : DpuSet) (symbol : Symbol) (symbolOffset : UInt32) (length : UInt64) :
    Except DpuError Job :=
  match dpuSet with
  | .ranks => dpuBroadcastToSymbolForRanks symbol symbolOffset length
  | .dpu enabled => dpuCopySymbolDpu enabled symbol symbolOffset length .toDpu
  | .other => throw .internal

def dpuCopyFromSymbol (dpuSet : DpuSet) (symbol : Symbol) (symbolOffset : UInt32) (length : UInt64) :
    Except DpuError Job :=
  match dpuSet with
  | .ranks => throw .invalidDpuSet
  | .dpu enabled => dpuCopySymbolDpu enabled symbol symbolOffset length .fromDpu
  | .other => throw .internal

/-- a range of bytes of one memory, as the rank's handler gets it -/
structure Access where
  memory : Memory
  start : ℕ
  length : ℕ
  deriving DecidableEq

/-- words of WRAM from `wram_word_offset` on -/
def wramAccess (wramWordOffset nbOfWords : UInt32) : Access :=
  ⟨.wram, wramWordOffset.toNat * 4, nbOfWords.toNat * 4⟩

/-- instructions of IRAM; every way to the hardware takes `iram_addr_t` and `iram_size_t` -/
def iramAccess (iramInstructionIndex nbOfInstructions : UInt16) : Access :=
  ⟨.iram, iramInstructionIndex.toNat * 8, nbOfInstructions.toNat * 8⟩

def mramAccess (offset size : UInt32) : Access := ⟨.mram, offset.toNat, size.toNat⟩

/-- the two macros of the memories that are accessed by words: an access of size 0 ends in `DPU_OK` before anything is
accessed -/
def verifyAccess (size : UInt32) (error : DpuError) (o s : UInt32) (access : Access) : Except DpuError (Option Access) :=
  if s = 0 then .ok none
  else if o ≥ size ∨ o + s > size then .error error
  else .ok (some access)

def verifyWramAccess (m : Memories) : UInt32 → UInt32 → Access → Except DpuError (Option Access) :=
  verifyAccess m.wramSize .invalidWramAccess

/-- operands of 16 bits are promoted, so their sum is one of 32 bits as well -/
def verifyIramAccess (m : Memories) : UInt32 → UInt32 → Access → Except DpuError (Option Access) :=
  verifyAccess m.iramSize.toUInt32 .invalidIramAccess

def verifyMramAccessOffsetAndSize (m : Memories) (o s : UInt32) (access : Access) : Except DpuError (Option Access) :=
  if s % 8 ≠ 0 ∨ o % 8 ≠ 0 then .error .invalidMramAccess
  else if o ≥ m.mramSize ∨ o + s > m.mramSize then .error .invalidMramAccess
  else .ok (some access)

/-- `dpu_copy_to_wram_for_matrix`, `dpu_copy_from_wram_for_matrix` -/
def dpuCopyWramForMatrix (m : Memories) (offset size : UInt32) : Except DpuError (Option Access) :=
  verifyWramAccess m offset size (wramAccess offset size)

/-- `dpu_copy_to_iram_for_matrix`, `dpu_copy_from_iram_for_matrix`: checked as 32 bits, handed on DPU by DPU as 16 -/
def dpuCopyIramForMatrix (m : Memories) (offset size : UInt32) : Except DpuError (Option Access) :=
  verifyIramAccess m offset size (iramAccess offset.toUInt16 size.toUInt16)

/-- `dpu_copy_to_mrams`, `dpu_copy_from_mrams` -/
def dpuCopyMrams (m : Memories) (offset size : UInt32) : Except DpuError (Option Access) :=
  verifyMramAccessOffsetAndSize m offset size (mramAccess offset size)

def dpuCopyToWramForRank (m : Memories) (wramWordOffset nbOfWords : UInt32) : Except DpuError (Option Access) :=
  verifyWramAccess m wramWordOffset nbOfWords (wramAccess wramWordOffset nbOfWords)

def dpuCopyToIramForRank (m : Memories) (iramInstructionIndex nbOfInstructions : UInt16) :
    Except DpuError (Option Access) :=
  verifyIramAccess m iramInstructionIndex.toUInt32 nbOfInstructions.toUInt32
    (iramAccess iramInstructionIndex nbOfInstructions)

/-- what the rank's thread does with the job -/
def doJob (m : Memories) (job : Job) : Except DpuError (Option Access) :=
  match job.type with
  | .copyWramToMatrix | .parallelCopyWramToMatrix => dpuCopyWramForMatrix m job.offset job.size
  | .copyIramToMatrix => dpuCopyIramForMatrix m job.offset job.size
  | .copyMramToMatrix => dpuCopyMrams m job.offset job.size
  | .copyWramFromMatrix | .parallelCopyWramFromMatrix => dpuCopyWramForMatrix m job.offset job.size
  | .copyIramFromMatrix => dpuCopyIramForMatrix m job.offset job.size
  | .copyMramFromMatrix => dpuCopyMrams m job.offset job.size
  | .copyWramToRank => dpuCopyToWramForRank m job.offset job.size
  | .copyIramToRank => dpuCopyToIramForRank m job.offset.toUInt16 job.size.toUInt16
  | .copyMramToRank => dpuCopyMrams m job.offset job.size

/-- the calls of the API that access a symbol -/
inductive Call where
  | push (dpuSet : DpuSet) (xfer : Xfer) (parallel : Bool)
  | broadcast (dpuSet : DpuSet)
  | copyFrom (dpuSet : DpuSet)

def Call.job (c : Call) (symbol : Symbol) (symbolOffset : UInt32) (length : UInt64) : Except DpuError Job :=
  match c with
  | .push dpuSet xfer parallel => dpuPushXferSymbol dpuSet xfer symbol symbolOffset length parallel
  | .broadcast dpuSet => dpuBroadcastToSymbol dpuSet symbol symbolOffset length
  | .copyFrom dpuSet => dpuCopyFromSymbol dpuSet symbol symbolOffset length

/-- the range a call accesses on a rank, none when the size it is left with is 0 -/
def Call.access (c : Call) (m : Memories) (symbol : Symbol) (symbolOffset : UInt32) (length : UInt64) :
    Except DpuError (Option Access) := do
  let job ← c.job symbol symbolOffset length
  doJob m job

/-! ## The checks in natural numbers -/

/-- the address of a memory's first byte -/
def Memory.base : Memory → ℕ
  | .iram => 2 ^ 31
  | .mram => 2 ^ 27
  | .wram => 0

/-- the bytes an offset or a size of the memory counts -/
def Memory.unit : Memory → ℕ
  | .iram => 8
  | .mram => 1
  | .wram => 4

/-- what its addresses and lengths have to divide by -/
def Memory.align : Memory → ℕ
  | .iram => 8
  | .mram => 8
  | .wram => 4

/-- its size in units -/
def Memories.capacity (m : Memories) : Memory → ℕ
  | .iram => m.iramSize.toNat
  | .mram => m.mramSize.toNat
  | .wram => m.wramSize.toNat

theorem memorySwitch_base (address : UInt32) : (memorySwitch address).base ≤ address.toNat := by
  have hsplit := and_not_add address
  unfold memorySwitch
  split_ifs with hi hm
  · calc Memory.base .iram = iramMask.toNat := rfl
      _ = (address &&& iramMask).toNat := by rw [hi]
      _ ≤ address.toNat := by rw [← hsplit iramMask]; exact Nat.le_add_left _ _
  · calc Memory.base .mram = mramMask.toNat := rfl
      _ = (address &&& mramMask).toNat := by rw [hm]
      _ ≤ address.toNat := by rw [← hsplit mramMask]; exact Nat.le_add_left _ _
  · exact Nat.zero_le _

/-- the address handed on is the address in the memory, in units -/
theorem updateCopyParameters_address (address : UInt32) (length : UInt64) :
    (updateCopyParameters (memorySwitch address) address length).1.toNat =
      (address.toNat - (memorySwitch address).base) / (memorySwitch address).unit := by
  have hsplit := and_not_add address
  unfold memorySwitch
  split_ifs with hi hm
  · have h := hsplit iramMask
    rw [hi] at h
    have hstart : (address &&& ~~~iramMask).toNat = address.toNat - Memory.base .iram := Nat.eq_sub_of_add_eq h
    simp only [updateCopyParameters, updateIramCopyParameters, UInt32.toNat_shiftRight, hstart]
    rw [show iramAlign.toNat % 32 = 3 from rfl, Nat.shiftRight_eq_div_pow]
    rfl
  · have h := hsplit mramMask
    rw [hm] at h
    have hstart : (address &&& ~~~mramMask).toNat = address.toNat - Memory.base .mram := Nat.eq_sub_of_add_eq h
    simp only [updateCopyParameters, updateMramCopyParameters, hstart]
    exact (Nat.div_one _).symm
  · simp only [updateCopyParameters, updateWramCopyParameters, UInt32.toNat_shiftRight]
    rw [show wramAlign.toNat % 32 = 2 from rfl, Nat.shiftRight_eq_div_pow]
    rfl

/-- and the length handed on is the length in units -/
theorem updateCopyParameters_length (mem : Memory) (address : UInt32) (length : UInt64) :
    (updateCopyParameters mem address length).2.toNat = length.toNat / mem.unit := by
  cases mem with
  | iram =>
    simp only [updateCopyParameters, updateIramCopyParameters, UInt64.toNat_shiftRight]
    rw [show iramAlign.toUInt64.toNat % 64 = 3 from rfl, Nat.shiftRight_eq_div_pow]
    rfl
  | mram => exact (Nat.div_one _).symm
  | wram =>
    simp only [updateCopyParameters, updateWramCopyParameters, UInt64.toNat_shiftRight]
    rw [show wramAlign.toUInt64.toNat % 64 = 2 from rfl, Nat.shiftRight_eq_div_pow]
    rfl

theorem low_bits_zero_iff (x : UInt32) (k : ℕ) (m : UInt32) (hm : m.toNat = 2 ^ k - 1) :
    x &&& m = 0 ↔ x.toNat % 2 ^ k = 0 := by
  rw [← UInt32.toNat_inj, UInt32.toNat_and, hm, Nat.and_two_pow_sub_one_eq_mod]
  rfl

theorem low_bits_zero_iff64 (x : UInt64) (k : ℕ) (m : UInt64) (hm : m.toNat = 2 ^ k - 1) :
    x &&& m = 0 ↔ x.toNat % 2 ^ k = 0 := by
  rw [← UInt64.toNat_inj, UInt64.toNat_and, hm, Nat.and_two_pow_sub_one_eq_mod]
  rfl

/-- what `CHECK_SYMBOL` asks of an address in the memory -/
def Memory.Aligned (mem : Memory) (address length : ℕ) : Prop :=
  address % mem.align = 0 ∧ length % mem.align = 0

instance (mem : Memory) (address length : ℕ) : Decidable (mem.Aligned address length) :=
  inferInstanceAs (Decidable (_ ∧ _))

/-- `CHECK_SYMBOL` lets an access through -/
theorem checkSymbol_ok_iff (symbol : Symbol) (symbolOffset : UInt32) (length : UInt64) :
    checkSymbol symbol symbolOffset length = .ok () ↔
      (symbolOffset.toNat + length.toNat) % 2 ^ 64 ≤ symbol.size.toNat ∧
        (memorySwitch (symbol.address + symbolOffset) = .mram ∨
          (memorySwitch (symbol.address + symbolOffset)).Aligned (symbol.address + symbolOffset).toNat length.toNat) := by
  have hsum : symbolOffset.toUInt64 + length > symbol.size.toUInt64 ↔
      ¬(symbolOffset.toNat + length.toNat) % 2 ^ 64 ≤ symbol.size.toNat := by
    rw [gt_iff_lt, UInt64.lt_iff_toNat_lt, UInt64.toNat_add, Nat.not_le]
    rfl
  unfold checkSymbol
  simp only [hsum]
  by_cases hsize : (symbolOffset.toNat + length.toNat) % 2 ^ 64 ≤ symbol.size.toNat
  · rw [if_neg (not_not.mpr hsize)]
    cases hmem : memorySwitch (symbol.address + symbolOffset) with
    | iram =>
      have ha := low_bits_zero_iff (symbol.address + symbolOffset) 3 (~~~(alignMask iramAlign)) rfl
      have hl := low_bits_zero_iff64 length 3 (~~~(alignMask iramAlign)).toUInt64 rfl
      simp only [ne_eq, ha, hl, hsize, Memory.Aligned, Memory.align]
      split_ifs <;> simp_all
    | mram => exact ⟨fun _ => ⟨hsize, Or.inl rfl⟩, fun _ => rfl⟩
    | wram =>
      have ha := low_bits_zero_iff (symbol.address + symbolOffset) 2 (~~~(alignMask wramAlign)) rfl
      have hl := low_bits_zero_iff64 length 2 (~~~(alignMask wramAlign)).toUInt64 rfl
      simp only [ne_eq, ha, hl, hsize, Memory.Aligned, Memory.align]
      split_ifs <;> simp_all
  · rw [if_pos hsize]
    exact ⟨nofun, fun h => absurd h.1 hsize⟩

/-! ## What a job accesses -/

def JobType.memory : JobType → Memory
  | .copyIramToMatrix | .copyIramFromMatrix | .copyIramToRank => .iram
  | .copyMramToMatrix | .copyMramFromMatrix | .copyMramToRank => .mram
  | .copyWramToMatrix | .copyWramFromMatrix | .parallelCopyWramToMatrix | .parallelCopyWramFromMatrix
  | .copyWramToRank => .wram

/-- the check takes offset and size modulo this -/
def JobType.limit : JobType → ℕ
  | .copyIramToRank => 2 ^ 16
  | _ => 2 ^ 32

/-- and the hardware modulo this -/
def Memory.limit : Memory → ℕ
  | .iram => 2 ^ 16
  | _ => 2 ^ 32

/-- the range of a memory from an index on, in units -/
def Memory.range (mem : Memory) (index count : ℕ) : Access :=
  ⟨mem, index % mem.limit * mem.unit, count % mem.limit * mem.unit⟩

/-- the outcome of `verify_*_access` as a test of the index and the count -/
def verified (m : Memories) (mem : Memory) (index count : ℕ) : Option (Option Access) :=
  if count = 0 ∧ mem ≠ .mram then some none
  else if (mem = .mram → mem.Aligned index count) ∧ index < m.capacity mem ∧
      (index + count) % 2 ^ 32 ≤ m.capacity mem then some (some (mem.range index count))
  else none

theorem sum_fits_iff (o s cap : UInt32) :
    (o ≥ cap ∨ o + s > cap) ↔ ¬(o.toNat < cap.toNat ∧ (o.toNat + s.toNat) % 2 ^ 32 ≤ cap.toNat) := by
  rw [ge_iff_le, gt_iff_lt, UInt32.le_iff_toNat_le, UInt32.lt_iff_toNat_lt, UInt32.toNat_add, not_and_or,
    Nat.not_lt, Nat.not_le]

theorem eq_zero_iff (s : UInt32) : s = 0 ↔ s.toNat = 0 := by
  rw [← UInt32.toNat_inj]
  rfl

theorem verifyAccess_eq (m : Memories) (mem : Memory) (hmem : mem ≠ .mram) (size : UInt32)
    (hsize : size.toNat = m.capacity mem) (error : DpuError) (o s : UInt32) (access : Access)
    (haccess : access = mem.range o.toNat s.toNat) :
    (verifyAccess size error o s access).toOption = verified m mem o.toNat s.toNat := by
  have hfits := sum_fits_iff o s size
  rw [hsize] at hfits
  unfold verifyAccess verified
  by_cases hs : s = 0
  · rw [if_pos hs, if_pos ⟨(eq_zero_iff s).mp hs, hmem⟩]
    rfl
  have hs' : ¬(s.toNat = 0 ∧ mem ≠ .mram) := fun h => hs ((eq_zero_iff s).mpr h.1)
  rw [if_neg hs, if_neg hs']
  by_cases hfit : o.toNat < m.capacity mem ∧ (o.toNat + s.toNat) % 2 ^ 32 ≤ m.capacity mem
  · rw [if_neg fun h => hfits.mp h hfit, if_pos ⟨fun h => absurd h hmem, hfit⟩, haccess]
    rfl
  · rw [if_pos (hfits.mpr hfit), if_neg fun h => hfit h.2]
    rfl

theorem verifyWramAccess_eq (m : Memories) (o s : UInt32) :
    (verifyWramAccess m o s (wramAccess o s)).toOption = verified m .wram o.toNat s.toNat := by
  apply verifyAccess_eq m .wram nofun m.wramSize rfl
  simp only [wramAccess, Memory.range, Memory.limit, Memory.unit, Nat.mod_eq_of_lt o.toNat_lt,
    Nat.mod_eq_of_lt s.toNat_lt]

theorem verifyIramAccess_eq (m : Memories) (o s : UInt32) (index count : UInt16)
    (hindex : index.toNat = o.toNat % 2 ^ 16) (hcount : count.toNat = s.toNat % 2 ^ 16) :
    (verifyIramAccess m o s (iramAccess index count)).toOption = verified m .iram o.toNat s.toNat := by
  apply verifyAccess_eq m .iram nofun m.iramSize.toUInt32 m.iramSize.toNat_toUInt32
  simp only [iramAccess, Memory.range, Memory.limit, Memory.unit, hindex, hcount]

theorem verifyMramAccess_eq (m : Memories) (o s : UInt32) :
    (verifyMramAccessOffsetAndSize m o s (mramAccess o s)).toOption = verified m .mram o.toNat s.toNat := by
  have hrange : mramAccess o s = Memory.mram.range o.toNat s.toNat := by
    simp only [mramAccess, Memory.range, Memory.limit, Memory.unit, Nat.mod_eq_of_lt o.toNat_lt,
      Nat.mod_eq_of_lt s.toNat_lt, Nat.mul_one]
  have haligned : (s % 8 ≠ 0 ∨ o % 8 ≠ 0) ↔ ¬Memory.mram.Aligned o.toNat s.toNat := by
    rw [Memory.Aligned, not_and_or, or_comm, ne_eq, ne_eq, eq_zero_iff, eq_zero_iff, UInt32.toNat_mod, UInt32.toNat_mod]
    rfl
  have hfits := sum_fits_iff o s m.mramSize
  unfold verifyMramAccessOffsetAndSize verified
  rw [if_neg fun h : s.toNat = 0 ∧ Memory.mram ≠ .mram => h.2 rfl]
  by_cases halign : Memory.mram.Aligned o.toNat s.toNat
  · rw [if_neg fun h => haligned.mp h halign]
    by_cases hfit : o.toNat < m.mramSize.toNat ∧ (o.toNat + s.toNat) % 2 ^ 32 ≤ m.mramSize.toNat
    · rw [if_neg fun h => hfits.mp h hfit, if_pos ⟨fun _ => halign, hfit⟩, hrange]
      rfl
    · rw [if_pos (hfits.mpr hfit), if_neg fun h => hfit h.2]
      rfl
  · rw [if_pos (haligned.mpr halign), if_neg fun h => halign (h.1 rfl)]
    rfl

/-- **A job is checked and handed on modulo its limits.** -/
theorem doJob_eq (m : Memories) (job : Job) : (doJob m job).toOption =
    verified m job.type.memory (job.offset.toNat % job.type.limit) (job.size.toNat % job.type.limit) := by
  have ho : job.offset.toNat % 2 ^ 32 = job.offset.toNat := Nat.mod_eq_of_lt job.offset.toNat_lt
  have hs : job.size.toNat % 2 ^ 32 = job.size.toNat := Nat.mod_eq_of_lt job.size.toNat_lt
  cases hty : job.type with
  | copyIramToMatrix | copyIramFromMatrix =>
    simp only [doJob, hty, JobType.memory, JobType.limit, ho, hs]
    exact verifyIramAccess_eq m _ _ _ _ (UInt32.toNat_toUInt16 _) (UInt32.toNat_toUInt16 _)
  | copyMramToMatrix | copyMramFromMatrix | copyMramToRank =>
    simp only [doJob, hty, JobType.memory, JobType.limit, ho, hs]
    exact verifyMramAccess_eq m _ _
  | copyWramToMatrix | copyWramFromMatrix | parallelCopyWramToMatrix | parallelCopyWramFromMatrix | copyWramToRank =>
    simp only [doJob, hty, JobType.memory, JobType.limit, ho, hs]
    exact verifyWramAccess_eq m _ _
  | copyIramToRank =>
    have h16 : ∀ x : UInt32, x.toUInt16.toNat = x.toUInt16.toUInt32.toNat % 2 ^ 16 := fun x =>
      (Nat.mod_eq_of_lt x.toUInt16.toNat_lt).symm
    have h := verifyIramAccess_eq m job.offset.toUInt16.toUInt32 job.size.toUInt16.toUInt32 _ _ (h16 _) (h16 _)
    simp only [doJob, hty, JobType.memory, JobType.limit]
    exact h

/-! ## What a call accesses -/

def Xfer.known : Xfer → Bool
  | .other => false
  | _ => true

/-- what a call asks for beside the checks: a kind of set and a direction it knows, a DPU that is enabled, WRAM for a
transfer beside the program -/
def Call.admits : Call → Memory → Bool
  | .push .ranks xfer parallel, mem => xfer.known && (!parallel || decide (mem = .wram))
  | .push (.dpu enabled) xfer _, _ => enabled && xfer.known
  | .broadcast .ranks, _ => true
  | .broadcast (.dpu enabled), _ => enabled
  | .copyFrom (.dpu enabled), _ => enabled
  | _, _ => false

/-- a broadcast to ranks is the call that hands on 16 bits -/
def Call.limit : Call → Memory → ℕ
  | .broadcast .ranks, .iram => 2 ^ 16
  | _, _ => 2 ^ 32

theorem Call.limit_dvd (c : Call) (mem : Memory) :
    mem.limit ∣ c.limit mem ∧ mem.limit ≤ c.limit mem ∧ c.limit mem ∣ 2 ^ 32 := by
  unfold Call.limit
  split
  · exact ⟨dvd_rfl, le_rfl, by decide⟩
  · cases mem <;> exact ⟨by decide, by decide, dvd_rfl⟩

/-- the job is made of what the checks let through, under the guard, and else there is an error -/
def Makes (job : Except DpuError Job) (symbol : Symbol) (symbolOffset : UInt32) (length : UInt64) (guard : Bool)
    (limit : ℕ) : Prop :=
  if guard = true ∧ checkSymbol symbol symbolOffset length = .ok () then
    ∃ type, JobType.memory type = memorySwitch (symbol.address + symbolOffset) ∧ type.limit = limit ∧
      job = .ok (makeJob type (symbol.address + symbolOffset) length)
  else ∃ e, job = .error e

section
variable (symbol : Symbol) (symbolOffset : UInt32) (length : UInt64)

theorem makes_of_refused {job : Except DpuError Job} {guard : Bool} {limit : ℕ} (hguard : guard = false)
    (h : ∃ e, job = .error e) : Makes job symbol symbolOffset length guard limit := by
  rw [Makes, if_neg (by rw [hguard]; exact fun h => Bool.false_ne_true h.1)]
  exact h

/-- after the check there is a job type, or the guard fails -/
theorem makes_of_checked (next : Except DpuError JobType) (guard : Bool) (limit : ℕ)
    (hnext : if guard = true then ∃ type, JobType.memory type = memorySwitch (symbol.address + symbolOffset) ∧
      type.limit = limit ∧ next = .ok type else ∃ e, next = .error e) :
    Makes (do
      checkSymbol symbol symbolOffset length
      let jobType ← next
      return makeJob jobType (symbol.address + symbolOffset) length) symbol symbolOffset length guard limit := by
  unfold Makes
  cases hcheck : checkSymbol symbol symbolOffset length with
  | error e =>
    rw [if_neg nofun]
    exact ⟨e, rfl⟩
  | ok u =>
    cases guard with
    | true =>
      rcases hnext with ⟨type, hmem, hlimit, rfl⟩
      rw [if_pos ⟨rfl, rfl⟩]
      exact ⟨type, hmem, hlimit, rfl⟩
    | false =>
      rcases hnext with ⟨e, rfl⟩
      rw [if_neg nofun]
      exact ⟨e, rfl⟩

theorem copyMatrixJobType_cases (xfer : Xfer) (mem : Memory) :
    if xfer.known = true then ∃ type, JobType.memory type = mem ∧ type.limit = 2 ^ 32 ∧
      copyMatrixJobType xfer mem = .ok type else ∃ e, copyMatrixJobType xfer mem = .error e := by
  cases xfer <;> cases mem <;> first | exact ⟨_, rfl, rfl, rfl⟩ | exact ⟨_, rfl⟩

theorem dpuCopySymbolDpu_makes (enabled : Bool) (xfer : Xfer) :
    Makes (dpuCopySymbolDpu enabled symbol symbolOffset length xfer) symbol symbolOffset length
      (enabled && xfer.known) (2 ^ 32) := by
  cases enabled with
  | false => exact makes_of_refused _ _ _ rfl ⟨_, rfl⟩
  | true =>
    rw [Bool.true_and]
    exact makes_of_checked symbol symbolOffset length _ _ _ (copyMatrixJobType_cases xfer _)

theorem dpuBroadcastToSymbolForRanks_makes :
    Makes (dpuBroadcastToSymbolForRanks symbol symbolOffset length) symbol symbolOffset length true
      ((Call.broadcast .ranks).limit (memorySwitch (symbol.address + symbolOffset))) := by
  refine makes_of_checked symbol symbolOffset length
    (pure (broadcastJobType (memorySwitch (symbol.address + symbolOffset)))) _ _ ?_
  cases memorySwitch (symbol.address + symbolOffset) <;> exact ⟨_, rfl, rfl, rfl⟩

theorem dpuPushXferSymbol_ranks_makes (xfer : Xfer) (parallel : Bool) :
    Makes (dpuPushXferSymbol .ranks xfer symbol symbolOffset length parallel) symbol symbolOffset length
      ((Call.push .ranks xfer parallel).admits (memorySwitch (symbol.address + symbolOffset))) (2 ^ 32) := by
  have h := makes_of_checked symbol symbolOffset length
    (do
      let jobType ← copyMatrixJobType xfer (memorySwitch (symbol.address + symbolOffset))
      if parallel then parallelJobType jobType else pure jobType)
    ((Call.push .ranks xfer parallel).admits (memorySwitch (symbol.address + symbolOffset))) (2 ^ 32) (by
      cases memorySwitch (symbol.address + symbolOffset) <;> cases xfer <;> cases parallel <;>
        first | exact ⟨_, rfl, rfl, rfl⟩ | exact ⟨_, rfl⟩)
  cases parallel <;>
    simpa only [dpuPushXferSymbol, bind_assoc, Bool.false_eq_true, if_false, if_true, pure_bind, bind_pure] using h

theorem Call.job_makes (c : Call) :
    Makes (c.job symbol symbolOffset length) symbol symbolOffset length
      (c.admits (memorySwitch (symbol.address + symbolOffset)))
      (c.limit (memorySwitch (symbol.address + symbolOffset))) := by
  rcases c with ⟨_ | enabled | _, xfer, parallel⟩ | ⟨_ | enabled | _⟩ | ⟨_ | enabled | _⟩
  · exact dpuPushXferSymbol_ranks_makes symbol symbolOffset length xfer parallel
  · exact dpuCopySymbolDpu_makes symbol symbolOffset length enabled xfer
  · exact makes_of_refused _ _ _ rfl ⟨_, rfl⟩
  · exact dpuBroadcastToSymbolForRanks_makes symbol symbolOffset length
  · have h := dpuCopySymbolDpu_makes symbol symbolOffset length enabled .toDpu
    rw [show Xfer.known .toDpu = true from rfl, Bool.and_true] at h
    exact h
  · exact makes_of_refused _ _ _ rfl ⟨_, rfl⟩
  · exact makes_of_refused _ _ _ rfl ⟨_, rfl⟩
  · have h := dpuCopySymbolDpu_makes symbol symbolOffset length enabled .fromDpu
    rw [show Xfer.known .fromDpu = true from rfl, Bool.and_true] at h
    exact h
  · exact makes_of_refused _ _ _ rfl ⟨_, rfl⟩

/-- the memory of the access -/
def accessMemory : Memory := memorySwitch (symbol.address + symbolOffset)

/-- where the access begins in its memory, in units -/
def startUnits : ℕ :=
  ((symbol.address + symbolOffset).toNat - (accessMemory symbol symbolOffset).base) /
    (accessMemory symbol symbolOffset).unit

/-- how long it is, in units -/
def lengthUnits : ℕ := length.toNat / (accessMemory symbol symbolOffset).unit

/-- both as the check of the call takes them -/
def checkedStart (c : Call) : ℕ := startUnits symbol symbolOffset % c.limit (accessMemory symbol symbolOffset)

def checkedLength (c : Call) : ℕ := lengthUnits symbol symbolOffset length % c.limit (accessMemory symbol symbolOffset)

/-- **The checks as one condition.** What a call accesses, with every sum and every type as wide as it is: the sum of
offset and length is taken modulo 2^64, that of address and offset modulo 2^32, start and length in units modulo the
limit of the call, and their sum modulo 2^32. -/
theorem access_eq (c : Call) (m : Memories) : (c.access m symbol symbolOffset length).toOption =
    if c.admits (accessMemory symbol symbolOffset) = true ∧ checkSymbol symbol symbolOffset length = .ok ()
    then verified m (accessMemory symbol symbolOffset) (checkedStart symbol symbolOffset c)
      (checkedLength symbol symbolOffset length c)
    else none := by
  have hjob := c.job_makes symbol symbolOffset length
  unfold Makes at hjob
  unfold checkedStart checkedLength startUnits lengthUnits accessMemory
  split_ifs at hjob ⊢ with hguard
  · rcases hjob with ⟨type, hmem, hlimit, hjob⟩
    have hdo := doJob_eq m (makeJob type (symbol.address + symbolOffset) length)
    simp only [makeJob, hmem, hlimit, updateCopyParameters_address, UInt64.toNat_toUInt32,
      updateCopyParameters_length, Nat.mod_mod_of_dvd _ (c.limit_dvd _).2.2] at hdo
    rw [Call.access, hjob]
    exact hdo
  · rcases hjob with ⟨e, hjob⟩
    rw [Call.access, hjob]
    rfl

/-! ## What is asked for -/

/-- the range is the one asked for: it starts at the symbol's address plus the offset, has the length, and lies inside
the symbol and inside its memory -/
structure Meets (m : Memories) (r : Access) : Prop where
  start_eq : r.memory.base + r.start = symbol.address.toNat + symbolOffset.toNat
  length_eq : r.length = length.toNat
  inside_symbol : r.memory.base + r.start + r.length ≤ symbol.address.toNat + symbol.size.toNat
  inside_memory : r.start + r.length ≤ m.capacity r.memory * r.memory.unit

/-- a call that is refused accesses nothing, one that ends early was asked for nothing, any other meets what it was
asked for -/
def AsAsked (m : Memories) : Except DpuError (Option Access) → Prop
  | .error _ => True
  | .ok none => length = 0
  | .ok (some r) => Meets symbol symbolOffset length m r

/-- an access that is as asked for has a sum of offset and length that did not wrap -/
theorem Meets.no_wrap {m : Memories} {r : Access} (h : Meets symbol symbolOffset length m r) :
    symbolOffset.toNat + length.toNat < 2 ^ 64 := by
  have hsum : symbolOffset.toNat + length.toNat ≤ symbol.size.toNat := by
    have h' := h.inside_symbol
    rw [h.start_eq, h.length_eq, Nat.add_assoc] at h'
    exact Nat.le_of_add_le_add_left h'
  exact hsum.trans_lt (symbol.size.toNat_lt.trans (by decide))

/-- no sum wraps and nothing is cut -/
structure Unwrapped (c : Call) : Prop where
  address : symbol.address.toNat + symbolOffset.toNat < 2 ^ 32
  sum : symbolOffset.toNat + length.toNat < 2 ^ 64
  start : startUnits symbol symbolOffset < c.limit (accessMemory symbol symbolOffset)
  size : lengthUnits symbol symbolOffset length < c.limit (accessMemory symbol symbolOffset)
  range : startUnits symbol symbolOffset + lengthUnits symbol symbolOffset length < 2 ^ 32

/-- what is left after wrapping and cutting is refused all the same: by a guard of the call, for the symbol's size, for
the alignment, or for the size of the memory -/
inductive Barred (c : Call) (m : Memories) : Prop where
  | guards (h : c.admits (accessMemory symbol symbolOffset) = false)
  | symbolSize (h : symbol.size.toNat < (symbolOffset.toNat + length.toNat) % 2 ^ 64)
  | alignment (h : ¬(accessMemory symbol symbolOffset).Aligned (symbol.address + symbolOffset).toNat length.toNat)
  | memorySize (hlength : checkedLength symbol symbolOffset length c ≠ 0 ∨ accessMemory symbol symbolOffset = .mram)
      (h : m.capacity (accessMemory symbol symbolOffset) ≤ checkedStart symbol symbolOffset c ∨
        m.capacity (accessMemory symbol symbolOffset) <
          (checkedStart symbol symbolOffset c + checkedLength symbol symbolOffset length c) % 2 ^ 32)

/-! ## Results -/

theorem Memories.capacity_lt (m : Memories) (mem : Memory) : m.capacity mem < mem.limit := by
  cases mem with
  | iram => exact m.iramSize.toNat_lt
  | mram => exact m.mramSize.toNat_lt
  | wram => exact m.wramSize.toNat_lt

theorem Memory.unit_pos (mem : Memory) : 0 < mem.unit := by
  cases mem <;> decide

theorem Memory.unit_dvd (mem : Memory) : mem.unit ∣ mem.base ∧ mem.unit ∣ mem.align := by
  cases mem <;> decide

/-- an aligned address is whole units past the base -/
theorem startUnits_mul (halign : (accessMemory symbol symbolOffset).Aligned (symbol.address + symbolOffset).toNat
    length.toNat) :
    (accessMemory symbol symbolOffset).base + startUnits symbol symbolOffset * (accessMemory symbol symbolOffset).unit =
      (symbol.address + symbolOffset).toNat := by
  have hbase : (accessMemory symbol symbolOffset).base ≤ (symbol.address + symbolOffset).toNat := memorySwitch_base _
  have hunit := (accessMemory symbol symbolOffset).unit_dvd
  have hdvd := Nat.dvd_sub (hunit.2.trans (Nat.dvd_of_mod_eq_zero halign.1)) hunit.1
  rw [startUnits, Nat.div_mul_cancel hdvd]
  exact Nat.add_sub_of_le hbase

theorem lengthUnits_mul (halign : (accessMemory symbol symbolOffset).Aligned (symbol.address + symbolOffset).toNat
    length.toNat) :
    lengthUnits symbol symbolOffset length * (accessMemory symbol symbolOffset).unit = length.toNat :=
  Nat.div_mul_cancel ((accessMemory symbol symbolOffset).unit_dvd.2.trans (Nat.dvd_of_mod_eq_zero halign.2))

/-- a part of a number whose multiple is all of it is the number -/
theorem eq_of_mod_mul_eq {n k u t : ℕ} (hu : 0 < u) (ht : n * u ≤ t) (h : n % k * u = t) : n % k = n := by
  have hle : n * u ≤ n % k * u := by rw [h]; exact ht
  exact le_antisymm (Nat.mod_le n k) (Nat.le_of_mul_le_mul_right hle hu)

variable {symbol symbolOffset length}

/-- the range handed on, in units that the check has not cut yet -/
theorem range_checked (c : Call) :
    (accessMemory symbol symbolOffset).range (checkedStart symbol symbolOffset c)
        (checkedLength symbol symbolOffset length c) =
      (accessMemory symbol symbolOffset).range (startUnits symbol symbolOffset)
        (lengthUnits symbol symbolOffset length) := by
  have hdvd := (c.limit_dvd (accessMemory symbol symbolOffset)).1
  simp only [Memory.range, checkedStart, checkedLength, Nat.mod_mod_of_dvd _ hdvd]

theorem toNat_address_le : (symbol.address + symbolOffset).toNat ≤ symbol.address.toNat + symbolOffset.toNat := by
  rw [UInt32.toNat_add]
  exact Nat.mod_le _ _

theorem Meets.unwrapped {c : Call} {m : Memories}
    (halign : (accessMemory symbol symbolOffset).Aligned (symbol.address + symbolOffset).toNat length.toNat)
    (h : Meets symbol symbolOffset length m ((accessMemory symbol symbolOffset).range (startUnits symbol symbolOffset)
      (lengthUnits symbol symbolOffset length))) : Unwrapped symbol symbolOffset length c := by
  have hstart := startUnits_mul symbol symbolOffset length halign
  have hlength := lengthUnits_mul symbol symbolOffset length halign
  have hunit := (accessMemory symbol symbolOffset).unit_pos
  have hlimit := c.limit_dvd (accessMemory symbol symbolOffset)
  -- the start cannot be behind the wrapped address, nor in front of the one that is not
  have hpart : startUnits symbol symbolOffset % (accessMemory symbol symbolOffset).limit *
      (accessMemory symbol symbolOffset).unit ≤
        startUnits symbol symbolOffset * (accessMemory symbol symbolOffset).unit :=
    Nat.mul_le_mul_right _ (Nat.mod_le _ _)
  have hasked : (accessMemory symbol symbolOffset).base + startUnits symbol symbolOffset %
      (accessMemory symbol symbolOffset).limit * (accessMemory symbol symbolOffset).unit =
        symbol.address.toNat + symbolOffset.toNat := h.start_eq
  have haddr : (symbol.address + symbolOffset).toNat = symbol.address.toNat + symbolOffset.toNat := by
    apply le_antisymm toNat_address_le
    calc symbol.address.toNat + symbolOffset.toNat
        ≤ (accessMemory symbol symbolOffset).base +
          startUnits symbol symbolOffset * (accessMemory symbol symbolOffset).unit := by
          rw [← hasked]
          exact Nat.add_le_add_left hpart _
      _ = (symbol.address + symbolOffset).toNat := hstart
  have hs := eq_of_mod_mul_eq hunit le_rfl (Nat.add_left_cancel (hasked.trans (haddr.symm.trans hstart.symm)))
  have hl := eq_of_mod_mul_eq hunit hlength.le h.length_eq
  have hin : startUnits symbol symbolOffset + lengthUnits symbol symbolOffset length <
      (accessMemory symbol symbolOffset).limit := by
    have hinside := h.inside_memory
    simp only [Memory.range, hs, hl, ← Nat.add_mul] at hinside
    exact (Nat.le_of_mul_le_mul_right hinside hunit).trans_lt (m.capacity_lt _)
  have hbound := hlimit.2.1
  have htop := Nat.le_of_dvd (by decide) hlimit.2.2
  refine ⟨haddr ▸ UInt32.toNat_lt _, Meets.no_wrap _ _ _ h, ?_, ?_, ?_⟩
  · exact (Nat.le_add_right _ _).trans_lt (hin.trans_le hbound)
  · exact (Nat.le_add_left _ _).trans_lt (hin.trans_le hbound)
  · exact hin.trans_le (hbound.trans htop)

theorem Unwrapped.meets {c : Call} {m : Memories} (h : Unwrapped symbol symbolOffset length c)
    (halign : (accessMemory symbol symbolOffset).Aligned (symbol.address + symbolOffset).toNat length.toNat)
    (hsize : (symbolOffset.toNat + length.toNat) % 2 ^ 64 ≤ symbol.size.toNat)
    (hfit : (checkedStart symbol symbolOffset c + checkedLength symbol symbolOffset length c) % 2 ^ 32 ≤
      m.capacity (accessMemory symbol symbolOffset)) :
    Meets symbol symbolOffset length m ((accessMemory symbol symbolOffset).range (startUnits symbol symbolOffset)
      (lengthUnits symbol symbolOffset length)) := by
  have hstart := startUnits_mul symbol symbolOffset length halign
  have hlength := lengthUnits_mul symbol symbolOffset length halign
  rw [checkedStart, checkedLength, Nat.mod_eq_of_lt h.start, Nat.mod_eq_of_lt h.size, Nat.mod_eq_of_lt h.range] at hfit
  rw [Nat.mod_eq_of_lt h.sum] at hsize
  have haddr : (symbol.address + symbolOffset).toNat = symbol.address.toNat + symbolOffset.toNat := by
    rw [UInt32.toNat_add, Nat.mod_eq_of_lt h.address]
  have hin := hfit.trans_lt (m.capacity_lt _)
  have hs := Nat.mod_eq_of_lt ((Nat.le_add_right _ _).trans_lt hin)
  have hl := Nat.mod_eq_of_lt ((Nat.le_add_left _ _).trans_lt hin)
  have hrange : (accessMemory symbol symbolOffset).range (startUnits symbol symbolOffset)
      (lengthUnits symbol symbolOffset length) = ⟨accessMemory symbol symbolOffset,
        startUnits symbol symbolOffset * (accessMemory symbol symbolOffset).unit, length.toNat⟩ := by
    rw [Memory.range, hs, hl, hlength]
  rw [hrange]
  refine ⟨hstart.trans haddr, rfl, ?_, ?_⟩
  · calc _ = symbol.address.toNat + symbolOffset.toNat + length.toNat := by rw [hstart.trans haddr]
      _ = symbol.address.toNat + (symbolOffset.toNat + length.toNat) := Nat.add_assoc _ _ _
      _ ≤ symbol.address.toNat + symbol.size.toNat := Nat.add_le_add_left hsize _
  · calc _ = (startUnits symbol symbolOffset + lengthUnits symbol symbolOffset length) *
          (accessMemory symbol symbolOffset).unit := by rw [Nat.add_mul, hlength]
      _ ≤ _ := Nat.mul_le_mul_right _ hfit

theorem asAsked_toOption (m : Memories) (x : Except DpuError (Option Access)) :
    AsAsked symbol symbolOffset length m x ↔ match x.toOption with
      | none => True
      | some none => length = 0
      | some (some r) => Meets symbol symbolOffset length m r := by
  rcases x with e | _ | r <;> rfl

/-- the checks of the symbol and of the call fail in three ways -/
theorem barred_of_refused {c : Call} {m : Memories} (h : ¬(c.admits (accessMemory symbol symbolOffset) = true ∧
    checkSymbol symbol symbolOffset length = .ok ())) : Barred symbol symbolOffset length c m := by
  rw [not_and_or, Bool.not_eq_true, checkSymbol_ok_iff, not_and_or, not_or, Nat.not_le] at h
  rcases h with h | h | ⟨-, h⟩
  · exact .guards h
  · exact .symbolSize h
  · exact .alignment h

/-- in MRAM the alignment is checked on what is left of start and length -/
theorem aligned_checked_iff (c : Call) (hmem : accessMemory symbol symbolOffset = .mram) :
    Memory.mram.Aligned (checkedStart symbol symbolOffset c) (checkedLength symbol symbolOffset length c) ↔
      (accessMemory symbol symbolOffset).Aligned (symbol.address + symbolOffset).toNat length.toNat := by
  have hlimit : c.limit .mram = 2 ^ 32 := by
    unfold Call.limit
    split
    · contradiction
    · rfl
  have hbase : (accessMemory symbol symbolOffset).base ≤ (symbol.address + symbolOffset).toNat := memorySwitch_base _
  have h8 : (8 : ℕ) ∣ 2 ^ 32 := by decide
  rw [hmem] at hbase
  simp only [checkedStart, checkedLength, startUnits, lengthUnits, hmem, hlimit, Memory.Aligned, Memory.unit,
    Memory.align, Memory.base, Nat.div_one, Nat.mod_mod_of_dvd _ h8] at hbase ⊢
  refine and_congr_left fun _ => ?_
  omega

/-- behind the guards and the check of the symbol only the memory can refuse -/
theorem Barred.of_checked {c : Call} {m : Memories} (h : Barred symbol symbolOffset length c m)
    (hguard : c.admits (accessMemory symbol symbolOffset) = true)
    (hsize : (symbolOffset.toNat + length.toNat) % 2 ^ 64 ≤ symbol.size.toNat) :
    ¬(accessMemory symbol symbolOffset).Aligned (symbol.address + symbolOffset).toNat length.toNat ∨
      (checkedLength symbol symbolOffset length c ≠ 0 ∨ accessMemory symbol symbolOffset = .mram) ∧
        ¬(checkedStart symbol symbolOffset c < m.capacity (accessMemory symbol symbolOffset) ∧
          (checkedStart symbol symbolOffset c + checkedLength symbol symbolOffset length c) % 2 ^ 32 ≤
            m.capacity (accessMemory symbol symbolOffset)) := by
  cases h with
  | guards h => exact absurd (h.symm.trans hguard) nofun
  | symbolSize h => exact absurd hsize (Nat.not_le.mpr h)
  | alignment h => exact Or.inl h
  | memorySize hlength h =>
    refine Or.inr ⟨hlength, fun hfit => ?_⟩
    rcases h with h | h
    · exact absurd hfit.1 (Nat.not_lt.mpr h)
    · exact absurd hfit.2 (Nat.not_le.mpr h)

/-- a symbol that ends below 2^32, and for a broadcast below the 2^16 instructions it can name, wraps nowhere -/
theorem unwrapped_of_inside (c : Call) (hsymbol : symbol.address.toNat + symbol.size.toNat < 2 ^ 32)
    (hlength : symbolOffset.toNat + length.toNat ≤ symbol.size.toNat)
    (hiram : accessMemory symbol symbolOffset = .iram → symbol.address.toNat + symbol.size.toNat < 2 ^ 31 + 2 ^ 19) :
    Unwrapped symbol symbolOffset length c := by
  have haddress : symbol.address.toNat + symbolOffset.toNat < 2 ^ 32 := by omega
  have haddr : (symbol.address + symbolOffset).toNat = symbol.address.toNat + symbolOffset.toNat := by
    rw [UInt32.toNat_add, Nat.mod_eq_of_lt haddress]
  have hbase : (accessMemory symbol symbolOffset).base ≤ (symbol.address + symbolOffset).toNat := memorySwitch_base _
  have hstart : startUnits symbol symbolOffset ≤
      symbol.address.toNat + symbolOffset.toNat - (accessMemory symbol symbolOffset).base := by
    rw [startUnits, haddr]
    exact Nat.div_le_self _ _
  have hunits : lengthUnits symbol symbolOffset length ≤ length.toNat := Nat.div_le_self _ _
  have hlimit : startUnits symbol symbolOffset < c.limit (accessMemory symbol symbolOffset) ∧
      lengthUnits symbol symbolOffset length < c.limit (accessMemory symbol symbolOffset) := by
    unfold Call.limit
    split
    · rename_i hmem
      rw [hmem] at hbase
      simp only [startUnits, lengthUnits, hmem, haddr, Memory.base, Memory.unit] at hbase ⊢
      have h := hiram hmem
      omega
    · omega
  exact ⟨haddress, by omega, hlimit.1, hlimit.2, by omega⟩

/-- **When an access is the one asked for.** For every call, symbol, offset and length: what the checks let through is
the range asked for, inside the symbol and its memory, if and only if no sum wraps and nothing is cut, or the length is
zero, or what is left is refused. -/
theorem accepted_as_asked_iff (c : Call) (m : Memories) (symbol : Symbol) (symbolOffset : UInt32) (length : UInt64) :
    AsAsked symbol symbolOffset length m (c.access m symbol symbolOffset length) ↔
      (length = 0 ∧ accessMemory symbol symbolOffset ≠ .mram) ∨ Unwrapped symbol symbolOffset length c ∨
        Barred symbol symbolOffset length c m := by
  rw [asAsked_toOption, access_eq]
  by_cases hguard : c.admits (accessMemory symbol symbolOffset) = true ∧ checkSymbol symbol symbolOffset length = .ok ()
  swap
  · rw [if_neg hguard]
    exact iff_of_true trivial (Or.inr (Or.inr (barred_of_refused hguard)))
  rw [if_pos hguard]
  obtain ⟨hsize, haligned⟩ := (checkSymbol_ok_iff symbol symbolOffset length).mp hguard.2
  unfold verified
  split_ifs with hnone hfit
  · -- nothing is left of the length
    have halign := haligned.resolve_left hnone.2
    refine ⟨fun h => Or.inl ⟨h, hnone.2⟩, ?_⟩
    rintro (h | h | h)
    · exact h.1
    · have hzero : lengthUnits symbol symbolOffset length = 0 := by
        rw [← Nat.mod_eq_of_lt h.size]
        exact hnone.1
      have hlength := lengthUnits_mul symbol symbolOffset length halign
      rw [hzero, Nat.zero_mul] at hlength
      exact UInt64.toNat_inj.mp hlength.symm
    · rcases h.of_checked hguard.1 hsize with h | ⟨h, -⟩
      · exact absurd halign h
      · exact absurd h (not_or.mpr ⟨not_not.mpr hnone.1, hnone.2⟩)
  · -- the memory takes what is left
    have halign : (accessMemory symbol symbolOffset).Aligned (symbol.address + symbolOffset).toNat length.toNat := by
      rcases haligned with hmram | h
      · have h := hfit.1 hmram
        rw [show accessMemory symbol symbolOffset = .mram from hmram] at h
        exact (aligned_checked_iff c hmram).mp h
      · exact h
    dsimp only
    rw [range_checked]
    constructor
    · exact fun h => Or.inr (Or.inl (h.unwrapped halign))
    · rintro (h | h | h)
      · have hzero : checkedLength symbol symbolOffset length c = 0 := by
          simp only [checkedLength, lengthUnits, h.1, UInt64.toNat_zero, Nat.zero_div, Nat.zero_mod]
        exact absurd ⟨hzero, h.2⟩ hnone
      · exact h.meets halign hsize hfit.2.2
      · rcases h.of_checked hguard.1 hsize with h | ⟨-, h⟩
        · exact absurd halign h
        · exact absurd hfit.2 h
  · -- the memory refuses
    refine iff_of_true trivial (Or.inr (Or.inr ?_))
    by_cases halign : (accessMemory symbol symbolOffset).Aligned (symbol.address + symbolOffset).toNat length.toNat
    swap
    · exact .alignment halign
    refine .memorySize ?_ ?_
    · by_contra h
      rw [not_or, not_not] at h
      exact hnone h
    · by_contra h
      rw [not_or, Nat.not_le, Nat.not_lt] at h
      refine hfit ⟨fun hmram => ?_, h⟩
      rw [hmram]
      exact (aligned_checked_iff c hmram).mpr halign

/-- a push of 2^64 - 8 bytes at offset 8 of a symbol of 64: `8 + length` is 0, the length is cut to 2^32 - 8, and the
end of the range, `8 + (2^32 - 8)`, is 0 again -/
theorem push_wraps : ¬∀ (c : Call) (m : Memories) (symbol : Symbol) (symbolOffset : UInt32) (length : UInt64),
    AsAsked symbol symbolOffset length m (c.access m symbol symbolOffset length) := by
  intro h
  have hrun : (Call.push .ranks .toDpu false).access chipMemories ⟨0x08000000, 64⟩ 8 0xFFFFFFFFFFFFFFF8 =
      .ok (some (mramAccess 8 0xFFFFFFF8)) := rfl
  have hbad := h (.push .ranks .toDpu false) chipMemories ⟨0x08000000, 64⟩ 8 0xFFFFFFFFFFFFFFF8
  rw [hrun] at hbad
  exact absurd hbad.length_eq (by decide)

end

end PimOfis.Api.AccessCheck
