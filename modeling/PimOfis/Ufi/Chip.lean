/-
The far side of the control interface: one PIM chip (a CI) with its eight DPUs, as `ufi.c` sees it.

A rank has eight control interfaces. The host talks to all of them at once with an array of eight 64-bit commands:
`CI_EMPTY` (the chip is not addressed), a structure write, or a frame. A structure write sets the chip's structure
register; a frame is decoded under the structure written before it and acts on the DPUs the chip has selected.

The 64-bit structure constants are the ones of `ufi_ci_commands.h`: the driver compares them (`structure_value !=
structure`), and several macros have the same value, so their numbers matter. A frame is kept as the macro that builds
it, with the macro's arguments: the driver only compares a frame with `CI_EMPTY`.

A frame sent under another structure than its own is not decoded: the chip ignores it.
-/
import Mathlib.Tactic
import PimOfis.Lib.Index

namespace PimOfis.Ufi

/-- a control interface of the rank (`DPU_MAX_NR_CIS`), and a DPU on it -/
abbrev Ci := Fin 8
abbrev Member := Fin 8

/-- a `u8` bit mask over the eight control interfaces, or over the eight DPUs of one -/
abbrev Mask8 := Fin 8 → Bool

/-- `mask & (1 << n)` for a `u8` mask: no bit from 8 on -/
def Mask8.bit (m : Mask8) (n : ℕ) : Bool := if h : n < 8 then m ⟨n, h⟩ else false

/-- `1 << n` stored in a `u8` -/
def Mask8.one (n : ℕ) : Mask8 := fun i => decide (i.val = n)

/-- `0b11111111` -/
def Mask8.all : Mask8 := fun _ => true

@[simp] theorem Mask8.bit_val (m : Mask8) (i : Fin 8) : m.bit i.val = m i := by simp [Mask8.bit]

theorem Mask8.bit_lt {m : Mask8} {n : ℕ} (h : n < 8) : m.bit n = m ⟨n, h⟩ := by simp [Mask8.bit, h]

/-! ## Commands -/

/-- the 48-bit store instruction a WRAM word write is encoded as (`sw` at the byte address `address << 2`) -/
def wramWriteInstr (address : ℕ) : ℕ :=
  let a := address <<< 2
  0x7c0044000000 ||| ((24 &&& 31) <<< 34) ||| ((a &&& 15) <<< 20) ||| (((a >>> 4) &&& 7) <<< 39) |||
    (((a >>> 7) &&& 1) <<< 24) ||| (((a >>> 8) &&& 1) <<< 15) ||| (((a >>> 9) &&& 1) <<< 14) |||
    (((a >>> 10) &&& 1) <<< 13) ||| (((a >>> 11) &&& 1) <<< 12) ||| ((a >>> 12) &&& 4095)

/-- byte `i` of a word -/
def byteOf (w i : ℕ) : ℕ := (w >>> (i <<< 3)) &&& 0xFF

def ciSelectDpuStruct : ℕ := 0x1100000000000000 ||| (0b10 <<< 0)
def ciSelectGroupStruct : ℕ := 0x1100000000000000 ||| (0b10 <<< 0)
def ciSelectAllStruct : ℕ := 0x1100000000000000 ||| (0b0 <<< 0)
def ciDmaCtrlWriteStruct : ℕ := 0x1100000000000000 ||| (0b111111 <<< 0) ||| (0xff <<< 16) ||| (0x2 <<< 24)
def ciDmaCtrlClearStruct : ℕ := 0x1100000000000000 ||| (0b111111 <<< 0) ||| (0xff <<< 16) ||| (0x2 <<< 24)
def ciThreadBootStruct : ℕ := 0x1100000000000000 ||| (0b111111 <<< 0) ||| (0x2 <<< 16)
def ciWramReadWordStruct : ℕ := 0x1100000000000000 ||| (0b111111 <<< 0) ||| (0x2 <<< 16)

/-- bytes 0, 1 and 3 of the store are in the structure, bytes 2, 4 and 5 in the frame: addresses of one 32-word page
share their structure -/
def ciWramWriteWordStruct (address : ℕ) : ℕ :=
  0x1100000000000000 ||| (0b11111111 <<< 0) ||| (0b11 <<< 8) ||| (byteOf (wramWriteInstr address) 0 <<< 16) |||
    (byteOf (wramWriteInstr address) 1 <<< 24) ||| (byteOf (wramWriteInstr address) 3 <<< 32) ||| (0x99 <<< 40)

/-- the frames of `ufi_ci_commands.h` the modelled functions send -/
inductive Frame where
  | selectDpu (dpuId : ℕ)
  | selectGroup (groupId : ℕ)
  | selectAll
  | wramWriteWord (data address : ℕ)
  | wramReadWord (address : ℕ)
  | threadBoot (threadId : ℕ)
  | dmaCtrlWrite (address data : ℕ)
  | dmaCtrlClear
deriving DecidableEq, Repr

/-- the structure under which a frame is decoded -/
def Frame.struct : Frame → ℕ
  | .selectDpu _ => ciSelectDpuStruct
  | .selectGroup _ => ciSelectGroupStruct
  | .selectAll => ciSelectAllStruct
  | .wramWriteWord _ a => ciWramWriteWordStruct a
  | .wramReadWord _ => ciWramReadWordStruct
  | .threadBoot _ => ciThreadBootStruct
  | .dmaCtrlWrite _ _ => ciDmaCtrlWriteStruct
  | .dmaCtrlClear => ciDmaCtrlClearStruct

/-- one 64-bit command of the array: `CI_EMPTY`, a structure (top byte 0x11) or a frame (top byte 0x33) -/
inductive Cmd where
  | empty
  | struct (value : ℕ)
  | frame (f : Frame)
deriving DecidableEq, Repr

/-! ## The chip -/

structure Chip where
  structureReg : ℕ
  selected : Mask8
  group : Member → ℕ
  /-- the WRAM of each DPU, by word address -/
  wram : Member → ℕ → ℕ
  /-- the DMA control (wavegen) registers; two neighbouring DPUs share them, as they share the MRAM mux -/
  wavegen : ℕ → ℕ → ℕ
  /-- how often each thread of each DPU was booted -/
  boots : Member → ℕ → ℕ

/-- the effect of a decoded frame on the selected DPUs -/
def Chip.exec (c : Chip) : Frame → Chip
  | .selectDpu d => { c with selected := Mask8.one d }
  | .selectGroup g => { c with selected := fun i => decide (c.group i = g) }
  | .selectAll => { c with selected := Mask8.all }
  | .wramWriteWord v a => { c with wram := fun i b => if c.selected i = true ∧ b = a then v else c.wram i b }
  | .wramReadWord _ => c
  | .threadBoot t => { c with boots := fun i u => if c.selected i = true ∧ u = t then c.boots i u + 1 else c.boots i u }
  | .dmaCtrlWrite a v =>
    { c with wavegen := fun p b =>
        if (∃ i : Member, i.val / 2 = p ∧ c.selected i = true) ∧ b = a then v else c.wavegen p b }
  | .dmaCtrlClear => c

/-- one command of the array at its chip -/
def Chip.run (c : Chip) : Cmd → Chip
  | .empty => c
  | .struct v => { c with structureReg := v }
  | .frame f => if c.structureReg = f.struct then c.exec f else c

/-- the 32-bit answer to a command: the addressed word of the selected DPU -/
def Chip.answer (c : Chip) : Cmd → ℕ
  | .frame (.wramReadWord a) =>
    if c.structureReg = ciWramReadWordStruct then
      match (List.finRange 8).find? c.selected with
      | some i => c.wram i a
      | none => 0
    else 0
  | _ => 0

/-- the MRAM of a DPU is on the host side: the mux registers of its pair hold 0 (`ufi_set_mram_mux` writes 0 for the
host and 1 for the DPUs) -/
def Chip.muxHost (c : Chip) (i : Member) : Bool :=
  c.wavegen (i.val / 2) 0x80 == 0 && c.wavegen (i.val / 2) 0x82 == 0 && c.wavegen (i.val / 2) 0x84 == 0

/-- a DPU's own store to its WRAM -/
structure DpuWrite where
  ci : Ci
  dpu : Member
  address : ℕ
  data : ℕ
deriving DecidableEq, Repr

def ownWrite (chips : Ci → Chip) (w : DpuWrite) : Ci → Chip := fun ci =>
  if ci = w.ci then
    { chips ci with wram := fun i a => if i = w.dpu ∧ a = w.address then w.data else (chips ci).wram i a }
  else chips ci

def ownWrites (chips : Ci → Chip) (ws : List DpuWrite) : Ci → Chip := ws.foldl ownWrite chips

/-! ## What a command leaves alone -/

@[simp] theorem Chip.run_empty (c : Chip) : c.run .empty = c := rfl

@[simp] theorem Chip.run_struct_selected (c : Chip) (v : ℕ) : (c.run (.struct v)).selected = c.selected := rfl
@[simp] theorem Chip.run_struct_reg (c : Chip) (v : ℕ) : (c.run (.struct v)).structureReg = v := rfl
@[simp] theorem Chip.run_struct_wram (c : Chip) (v : ℕ) : (c.run (.struct v)).wram = c.wram := rfl

@[simp] theorem Chip.exec_reg (c : Chip) (f : Frame) : (c.exec f).structureReg = c.structureReg := by
  cases f <;> rfl

@[simp] theorem Chip.exec_group (c : Chip) (f : Frame) : (c.exec f).group = c.group := by cases f <;> rfl

@[simp] theorem Chip.run_group (c : Chip) (x : Cmd) : (c.run x).group = c.group := by
  cases x with
  | empty => rfl
  | struct v => rfl
  | frame f => simp only [Chip.run]; split_ifs <;> simp

@[simp] theorem ownWrites_nil (chips : Ci → Chip) : ownWrites chips [] = chips := rfl

theorem ownWrites_append (chips : Ci → Chip) (a b : List DpuWrite) :
    ownWrites chips (a ++ b) = ownWrites (ownWrites chips a) b := by
  simp [ownWrites, List.foldl_append]

/-- own stores touch nothing but WRAM -/
theorem ownWrites_control (chips : Ci → Chip) (ws : List DpuWrite) (ci : Ci) :
    (ownWrites chips ws ci).structureReg = (chips ci).structureReg ∧
      (ownWrites chips ws ci).selected = (chips ci).selected ∧ (ownWrites chips ws ci).group = (chips ci).group ∧
      (ownWrites chips ws ci).wavegen = (chips ci).wavegen ∧ (ownWrites chips ws ci).boots = (chips ci).boots := by
  induction ws generalizing chips with
  | nil => simp
  | cons w ws ih =>
    obtain ⟨h1, h2, h3, h4, h5⟩ := ih (ownWrite chips w)
    have hw : (ownWrite chips w ci).structureReg = (chips ci).structureReg ∧
        (ownWrite chips w ci).selected = (chips ci).selected ∧ (ownWrite chips w ci).group = (chips ci).group ∧
        (ownWrite chips w ci).wavegen = (chips ci).wavegen ∧ (ownWrite chips w ci).boots = (chips ci).boots := by
      unfold ownWrite; split_ifs <;> simp
    exact ⟨h1.trans hw.1, h2.trans hw.2.1, h3.trans hw.2.2.1, h4.trans hw.2.2.2.1, h5.trans hw.2.2.2.2⟩

/-- own stores see of the chips only their WRAM: applied to chips with the same WRAM they leave the same WRAM -/
theorem ownWrites_wram_congr (a b : Ci → Chip) (ws : List DpuWrite) (h : ∀ ci, (a ci).wram = (b ci).wram) (ci : Ci) :
    (ownWrites a ws ci).wram = (ownWrites b ws ci).wram := by
  induction ws generalizing a b with
  | nil => exact h ci
  | cons w ws ih =>
    refine ih (ownWrite a w) (ownWrite b w) fun cj => ?_
    unfold ownWrite
    split_ifs
    · simp [h cj]
    · exact h cj

end PimOfis.Ufi
