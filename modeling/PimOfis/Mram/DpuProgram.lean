/-
One MRAM transfer of one DPU by way of a program on the DPU (`access_mram_using_dpu_program_individual` of `dpu_memory.c`).

The host saves IRAM and as much WRAM as it needs, loads the access program, patched for the direction, and lets it move one
block after the other between MRAM and a buffer in WRAM; then it restores what it saved.

The access program is not part of the sources (`accessMramFromDpu.bin`). It is a parameter here, and `Moves` says what the
host relies on: it moves the blocks it is asked for, at addresses and with sizes that are multiples of eight, and remembers
where it is in registers or in the first six words of the WRAM.

Results:
- `moveBlock_spec`: one block;
- `boot_spec`, `iterations_spec`, `lastBlock_spec`: the first block, the complete iterations and what is left;
- `individual_spec`: an aligned transfer of any size, in blocks that fit.
-/
import Mathlib.Tactic
import PimOfis.Lib.Bytes
import PimOfis.Mram.Mux

namespace PimOfis.Mram.DpuProgram

open Lib

/-! ## Model -/

/-- a DPU; `regs` is the state of its threads -/
structure Dpu (R : Type) where
  iram : ℕ → UInt64
  wram : ℕ → UInt8
  mram : ℕ → UInt8
  regs : R

/-- The access program, and what becomes of a DPU when the host boots thread 0, or resumes it, and waits for it to stop.
`none` is a fault. -/
structure AccessProgram (R : Type) where
  code : ℕ → UInt64
  nrInstructions : ℕ
  boot : Dpu R → Option (Dpu R)
  resume : Dpu R → Option (Dpu R)

/-- `SDMArri` and `LDMArri`, which differ in `op` -/
def dmarri (op ra rb immDma : UInt64) : UInt64 :=
  op ||| ((rb >>> 0) &&& 0x7) <<< 17 ||| ((rb >>> 3) &&& 0x3) <<< 32 ||| ((ra >>> 0) &&& 0x1f) <<< 34 |||
    ((immDma >>> 0) &&& 0xff) <<< 24

/-- the DMA instruction for a direction: `REG_R2` has the WRAM address, `REG_R0` the MRAM address -/
def dmaInstruction (type : TransferType) (length : UInt64) : UInt64 :=
  match type with
  | .toMram => dmarri 0x700000000002 2 0 length
  | .fromMram => dmarri 0x700000000000 2 0 length

/-- the program with its DMA accesses patched -/
def patch (type : TransferType) (code : ℕ → UInt64) : ℕ → UInt64 :=
  Function.update (Function.update code 11 (dmaInstruction type 255)) 19 (dmaInstruction type 0)

variable {R : Type}

def copyToIram (n : ℕ) (src : ℕ → UInt64) (d : Dpu R) : Dpu R := { d with iram := splice 0 n src d.iram }

/-- `dpu_copy_to_wram_for_dpu`: `n` words from word `lo` on -/
def copyToWram (lo n : ℕ) (src : ℕ → UInt8) (d : Dpu R) : Dpu R := { d with wram := splice (4 * lo) (4 * n) src d.wram }

/-- the state of a transfer: `ptrOffset` bytes of `buf` are done -/
structure Xfer (R : Type) where
  dpu : Dpu R
  buf : ℕ → UInt8
  ptrOffset : ℕ

/-- one block of `transferSize` words: the WRAM is loaded, `mark` writes the last transfer marker if it is time, the program
runs, and the WRAM is fetched -/
def moveBlock (type : TransferType) (go : Dpu R → Option (Dpu R)) (mark : Dpu R → Dpu R) (transferSize : ℕ) (x : Xfer R) :
    Option (Xfer R) :=
  let loaded := if type = .toMram then copyToWram 8 transferSize (view x.ptrOffset x.buf) x.dpu else x.dpu
  (go (mark loaded)).map fun d =>
    { dpu := d
      buf := if type = .fromMram then splice x.ptrOffset (4 * transferSize) (view 32 d.wram) x.buf else x.buf
      ptrOffset := x.ptrOffset + 4 * transferSize }

def lastTransferMarker (d : Dpu R) : Dpu R := copyToWram 7 1 (wordBytes [1]) d

/-- the loop over the complete iterations after the first -/
def iterations (type : TransferType) (P : AccessProgram R) (transferSize nrCompleteIterations remaining : ℕ) (x : Xfer R) :
    Option (Xfer R) :=
  (List.range' 1 (nrCompleteIterations - 1)).foldlM (fun x eachIteration =>
    moveBlock type P.resume
      (if eachIteration = nrCompleteIterations - 1 ∧ remaining = 0 then lastTransferMarker else id) transferSize x) x

/-- what is left, with a block size of its own -/
def lastBlock (type : TransferType) (P : AccessProgram R) (nrCompleteIterations remaining : ℕ) (x : Xfer R) :
    Option (Xfer R) :=
  if 0 < remaining ∧ 0 < nrCompleteIterations then
    moveBlock type P.resume id (remaining / 4) { x with dpu := copyToWram 6 2 (wordBytes [remaining, 1]) x.dpu }
  else some x

/-- `access_mram_using_dpu_program_individual`: what becomes of the DPU and of the bytes at `ptr[0]`. It fails if there is no
`ptr[0]`, if no WRAM is left for a block (a division by zero, or a block that the WRAM cannot have), or if the program
faults. -/
def accessMramUsingDpuProgramIndividual (P : AccessProgram R) (wramSize : ℕ) (type : TransferType) (offset size : ℕ)
    (ptr : Option (ℕ → UInt8)) (d : Dpu R) : Option (Dpu R × Option (ℕ → UInt8)) :=
  if size = 0 then some (d, ptr)
  else if wramSize ≤ 8 then none
  else ptr.bind fun buf =>
    let wramSaveSize := if size / 4 + 8 ≥ wramSize then wramSize else size / 4 + 8
    let transferSize := wramSaveSize - 8
    let nrCompleteIterations := size / (transferSize * 4)
    let remaining := size % (transferSize * 4)
    let loaded := copyToIram P.nrInstructions (patch type P.code) d
    let marker := if nrCompleteIterations = 0 ∨ nrCompleteIterations = 1 ∧ remaining = 0 then 1 else 0
    let context := copyToWram 5 3 (wordBytes [offset, transferSize * 4, marker]) loaded
    (moveBlock type P.boot id transferSize ⟨context, buf, 0⟩).bind fun x =>
      (iterations type P transferSize nrCompleteIterations remaining x).bind fun x =>
        (lastBlock type P nrCompleteIterations remaining x).map fun x =>
          ({ iram := splice 0 P.nrInstructions d.iram x.dpu.iram
             wram := splice 0 (4 * wramSaveSize) d.wram x.dpu.wram
             mram := x.dpu.mram
             regs := d.regs }, some x.buf)

/-! ## What the access program does -/

/-- the DPU has the program for this direction in its IRAM -/
def Loaded (P : AccessProgram R) (type : TransferType) (d : Dpu R) : Prop :=
  ∀ j < P.nrInstructions, d.iram j = patch type P.code j

/-- `n` bytes at `addr` were moved: the IRAM, the context and what lies behind the buffer are left alone -/
structure Moved (type : TransferType) (addr n : ℕ) (d d' : Dpu R) : Prop where
  iram : d'.iram = d.iram
  toMram : type = .toMram → d'.mram = splice addr n (view 32 d.wram) d.mram
  fromMram : type = .fromMram → d'.mram = d.mram ∧ ∀ k < n, d'.wram (32 + k) = d.mram (addr + k)
  context : ∀ b, 24 ≤ b → b < 32 → d'.wram b = d.wram b
  behind : ∀ b, 32 + n ≤ b → d'.wram b = d.wram b

/-- The access program moves the block it is asked for. Its context has the MRAM offset in word 5, the size of a block in
word 6 and the last transfer marker in word 7; without the marker it stops where the next block begins, and goes on from
there when it is resumed. -/
structure Moves (P : AccessProgram R) (stopped : TransferType → ℕ → Dpu R → Prop) : Prop where
  boot : ∀ type d addr n, Loaded P type d → word d.wram 5 = addr → word d.wram 6 = n → addr % 8 = 0 → n % 8 = 0 →
    ∃ d', P.boot d = some d' ∧ Moved type addr n d d' ∧ (word d.wram 7 = 0 → stopped type (addr + n) d')
  resume : ∀ type d addr n, Loaded P type d → stopped type addr d → word d.wram 6 = n → addr % 8 = 0 → n % 8 = 0 →
    ∃ d', P.resume d = some d' ∧ Moved type addr n d d' ∧ (word d.wram 7 = 0 → stopped type (addr + n) d')
  keeps : ∀ type addr d d', stopped type addr d → d'.iram = d.iram → d'.regs = d.regs →
    (∀ b < 24, d'.wram b = d.wram b) → stopped type addr d'

/-! ## Blocks -/

section Blocks

variable {P : AccessProgram R} {stopped : TransferType → ℕ → Dpu R → Prop} {type : TransferType} {offset save : ℕ}
  {d : Dpu R} {buf : ℕ → UInt8} {x : Xfer R}

/-- `c` bytes of a transfer are done; WRAM was saved up to word `save` -/
structure Done (P : AccessProgram R) (type : TransferType) (offset save : ℕ) (d : Dpu R) (buf : ℕ → UInt8) (c : ℕ)
    (x : Xfer R) : Prop where
  ptrOffset : x.ptrOffset = c
  iram : x.dpu.iram = splice 0 P.nrInstructions (patch type P.code) d.iram
  wram : ∀ b, 4 * save ≤ b → x.dpu.wram b = d.wram b
  toMram : type = .toMram → x.dpu.mram = splice offset c buf d.mram ∧ x.buf = buf
  fromMram : type = .fromMram → x.dpu.mram = d.mram ∧ x.buf = splice 0 c (view offset d.mram) buf

/-- the program waits to be resumed, for another block of `bytes` bytes -/
structure Waiting (stopped : TransferType → ℕ → Dpu R → Prop) (type : TransferType) (offset bytes c : ℕ) (x : Xfer R) : Prop where
  stopped : stopped type (offset + c) x.dpu
  size : word x.dpu.wram 6 = bytes
  marker : word x.dpu.wram 7 = 0

/-- writing the last transfer marker, or nothing -/
structure Marks (mark : Dpu R → Dpu R) (v : Option ℕ) : Prop where
  iram : ∀ d, (mark d).iram = d.iram
  mram : ∀ d, (mark d).mram = d.mram
  regs : ∀ d, (mark d).regs = d.regs
  wram : ∀ d b, ¬ (28 ≤ b ∧ b < 32) → (mark d).wram b = d.wram b
  marker : ∀ d, word (mark d).wram 7 = v.getD (word d.wram 7)

theorem marks_id : Marks (id : Dpu R → Dpu R) none := ⟨fun _ => rfl, fun _ => rfl, fun _ => rfl, fun _ _ _ => rfl, fun _ => rfl⟩

theorem marks_last : Marks (lastTransferMarker : Dpu R → Dpu R) (some 1) where
  iram _ := rfl
  mram _ := rfl
  regs _ := rfl
  wram d b hb := splice_of_not (by omega) _ _
  marker d := by
    have h : word (splice (4 * 7) (4 * [1].length) (wordBytes [1]) d.wram) 7 = 1 :=
      word_splice (by norm_num) (by norm_num) rfl (by norm_num) _
    exact h

theorem loaded_of_iram (h : x.dpu.iram = splice 0 P.nrInstructions (patch type P.code) d.iram) : Loaded P type x.dpu := by
  intro j hj
  have hat := splice_add hj 0 (patch type P.code) d.iram
  rw [Nat.zero_add] at hat
  rw [h, hat]

/-- the DPU when the program is started for a block -/
def prepared (type : TransferType) (mark : Dpu R → Dpu R) (transferSize : ℕ) (x : Xfer R) : Dpu R :=
  mark (if type = .toMram then copyToWram 8 transferSize (view x.ptrOffset x.buf) x.dpu else x.dpu)

theorem prepared_iram {mark : Dpu R → Dpu R} {v : Option ℕ} (hm : Marks mark v) (ts : ℕ) :
    (prepared type mark ts x).iram = x.dpu.iram := by
  unfold prepared
  rw [hm.iram]
  split_ifs <;> rfl

theorem prepared_mram {mark : Dpu R → Dpu R} {v : Option ℕ} (hm : Marks mark v) (ts : ℕ) :
    (prepared type mark ts x).mram = x.dpu.mram := by
  unfold prepared
  rw [hm.mram]
  split_ifs <;> rfl

theorem prepared_regs {mark : Dpu R → Dpu R} {v : Option ℕ} (hm : Marks mark v) (ts : ℕ) :
    (prepared type mark ts x).regs = x.dpu.regs := by
  unfold prepared
  rw [hm.regs]
  split_ifs <;> rfl

/-- outside the buffer and the marker -/
theorem prepared_wram {mark : Dpu R → Dpu R} {v : Option ℕ} (hm : Marks mark v) {ts b : ℕ} (hb : b < 28 ∨ 32 + 4 * ts ≤ b) :
    (prepared type mark ts x).wram b = x.dpu.wram b := by
  unfold prepared
  rw [hm.wram _ _ (by omega)]
  split_ifs
  · exact splice_of_not (by omega) _ _
  · rfl

theorem prepared_word {mark : Dpu R → Dpu R} {v : Option ℕ} (hm : Marks mark v) (ts : ℕ) {j : ℕ} (hj : j < 7) :
    word (prepared type mark ts x).wram j = word x.dpu.wram j :=
  word_congr fun b _ hb => prepared_wram hm (Or.inl (by omega))

theorem prepared_marker {mark : Dpu R → Dpu R} {v : Option ℕ} (hm : Marks mark v) (ts : ℕ) :
    word (prepared type mark ts x).wram 7 = v.getD (word x.dpu.wram 7) := by
  unfold prepared
  rw [hm.marker]
  by_cases htype : type = .toMram
  · have hword : word (splice (4 * 8) (4 * ts) (view x.ptrOffset x.buf) x.dpu.wram) 7 = word x.dpu.wram 7 :=
      word_splice_of_not (Or.inl (by norm_num)) _ _
    rw [if_pos htype, ← hword]
    rfl
  · rw [if_neg htype]

/-- **One block.** -/
theorem moveBlock_spec {c ts : ℕ} {go : Dpu R → Option (Dpu R)} {mark : Dpu R → Dpu R} {v : Option ℕ} {Q : Dpu R → Prop}
    (h : Done P type offset save d buf c x) (hm : Marks mark v) (hts : 8 + ts ≤ save)
    (hgo : ∃ d', go (prepared type mark ts x) = some d' ∧ Moved type (offset + c) (4 * ts) (prepared type mark ts x) d' ∧ Q d') :
    ∃ x', moveBlock type go mark ts x = some x' ∧ Done P type offset save d buf (c + 4 * ts) x' ∧ Q x'.dpu ∧
      ∀ j, 6 ≤ j → j < 8 → word x'.dpu.wram j = word (prepared type mark ts x).wram j := by
  obtain ⟨d', hd', hmoved, hQ⟩ := hgo
  refine ⟨_, congrArg (Option.map _) hd', ⟨?_, ?_, ?_, ?_, ?_⟩, hQ, ?_⟩
  · dsimp only
    rw [h.ptrOffset]
  · exact hmoved.iram.trans ((prepared_iram hm ts).trans h.iram)
  · intro b hb
    dsimp only
    rw [hmoved.behind b (by omega), prepared_wram hm (Or.inr (by omega))]
    exact h.wram b hb
  · intro htype
    obtain ⟨hmram, hbuf⟩ := h.toMram htype
    subst htype
    constructor
    · dsimp only
      rw [hmoved.toMram rfl, prepared_mram hm, hmram, ← splice_append]
      apply splice_congr
      intro k hk
      unfold view prepared
      rw [hm.wram _ _ (by omega), if_pos rfl]
      have hat := splice_add hk (4 * 8) (view x.ptrOffset x.buf) x.dpu.wram
      refine hat.trans ?_
      rw [h.ptrOffset, hbuf]
      rfl
    · exact hbuf
  · intro htype
    obtain ⟨hmram, hbuf⟩ := h.fromMram htype
    obtain ⟨hsame, hwram⟩ := hmoved.fromMram htype
    constructor
    · dsimp only
      rw [hsame, prepared_mram hm, hmram]
    · dsimp only
      rw [if_pos htype, hbuf, h.ptrOffset]
      have happ := splice_append 0 c (4 * ts) (view offset d.mram) buf
      rw [Nat.zero_add] at happ
      rw [← happ]
      apply splice_congr
      intro k hk
      refine (hwram k hk).trans ?_
      rw [prepared_mram hm, hmram, view_view]
      rfl
  · intro j hj hj'
    exact word_congr fun b hb hb' => hmoved.context b (by omega) (by omega)

end Blocks

/-! ## One DPU -/

section Individual

variable {P : AccessProgram R} {stopped : TransferType → ℕ → Dpu R → Prop} {type : TransferType}
  {offset size save bytes ts n remaining : ℕ} {d : Dpu R} {buf : ℕ → UInt8} {x : Xfer R}

/-- a block for a program that waits -/
theorem resume_spec (hP : Moves P stopped) {c bytes ts : ℕ} {mark : Dpu R → Dpu R} {v : Option ℕ}
    (h : Done P type offset save d buf c x) (hm : Marks mark v) (hts : 8 + ts ≤ save)
    (hstopped : stopped type (offset + c) x.dpu) (hsize : word x.dpu.wram 6 = bytes) (hbytes : 4 * ts = bytes)
    (haddr : (offset + c) % 8 = 0) (h8 : bytes % 8 = 0) :
    ∃ x', moveBlock type P.resume mark ts x = some x' ∧ Done P type offset save d buf (c + bytes) x' ∧
      (v.getD (word x.dpu.wram 7) = 0 → Waiting stopped type offset bytes (c + bytes) x') := by
  have hkeeps : stopped type (offset + c) (prepared type mark ts x) :=
    hP.keeps type _ x.dpu _ hstopped (prepared_iram hm ts) (prepared_regs hm ts) fun b hb =>
      prepared_wram hm (Or.inl (by omega))
  have hloaded : Loaded P type (prepared type mark ts x) := by
    intro j hj
    rw [prepared_iram hm]
    exact loaded_of_iram h.iram j hj
  have hword : word (prepared type mark ts x).wram 6 = bytes := (prepared_word hm ts (by norm_num)).trans hsize
  obtain ⟨d', hd', hmoved, hstop⟩ := hP.resume type _ _ _ hloaded hkeeps hword haddr h8
  rw [← hbytes] at hmoved
  obtain ⟨x', hx', hdone, ⟨hstop', hwords⟩⟩ := moveBlock_spec
    (Q := fun d' => word (prepared type mark ts x).wram 7 = 0 → stopped type (offset + c + bytes) d') h hm hts
    ⟨d', hd', hmoved, hstop⟩
  rw [hbytes] at hdone
  refine ⟨x', hx', hdone, fun hmarker => ?_⟩
  have hzero : word (prepared type mark ts x).wram 7 = 0 := (prepared_marker hm ts).trans hmarker
  refine ⟨?_, ?_, ?_⟩
  · rw [← Nat.add_assoc]
    exact hstop' hzero
  · exact (hwords 6 (by norm_num) (by norm_num)).trans hword
  · exact (hwords 7 (by norm_num) (by norm_num)).trans hzero

/-- the first block, for a program that is booted -/
theorem boot_spec (hP : Moves P stopped) (h : Done P type offset save d buf 0 x) (hts : 8 + ts ≤ save)
    (hcontext : word x.dpu.wram 5 = offset) (hsize : word x.dpu.wram 6 = bytes) (hbytes : 4 * ts = bytes)
    (haddr : offset % 8 = 0) (h8 : bytes % 8 = 0) :
    ∃ x', moveBlock type P.boot id ts x = some x' ∧ Done P type offset save d buf bytes x' ∧
      (word x.dpu.wram 7 = 0 → Waiting stopped type offset bytes bytes x') := by
  have hloaded : Loaded P type (prepared type id ts x) := by
    intro j hj
    rw [prepared_iram marks_id]
    exact loaded_of_iram h.iram j hj
  have hword : word (prepared type id ts x).wram 6 = bytes := (prepared_word marks_id ts (by norm_num)).trans hsize
  have hoffset : word (prepared type id ts x).wram 5 = offset := (prepared_word marks_id ts (by norm_num)).trans hcontext
  obtain ⟨d', hd', hmoved, hstop⟩ := hP.boot type _ _ _ hloaded hoffset hword haddr h8
  rw [← hbytes] at hmoved
  obtain ⟨x', hx', hdone, ⟨hstop', hwords⟩⟩ := moveBlock_spec
    (Q := fun d' => word (prepared type id ts x).wram 7 = 0 → stopped type (offset + bytes) d') h marks_id hts
    ⟨d', hd', hmoved, hstop⟩
  rw [hbytes, Nat.zero_add] at hdone
  refine ⟨x', hx', hdone, fun hmarker => ?_⟩
  have hzero : word (prepared type id ts x).wram 7 = 0 := (prepared_marker marks_id ts).trans hmarker
  exact ⟨hstop' hzero, (hwords 6 (by norm_num) (by norm_num)).trans hword,
    (hwords 7 (by norm_num) (by norm_num)).trans hzero⟩

/-- the iterations from the `k`-th on -/
theorem iterations_spec (remaining : ℕ) (hP : Moves P stopped) (hts : 8 + ts ≤ save) (hbytes : 4 * ts = bytes) (hoff : offset % 8 = 0)
    (h8 : bytes % 8 = 0) (m k : ℕ) (hk : k + m = n) (h : Done P type offset save d buf (k * bytes) x)
    (hwait : 0 < m ∨ 0 < remaining → Waiting stopped type offset bytes (k * bytes) x) :
    ∃ x', (List.range' k m).foldlM (fun x eachIteration =>
        moveBlock type P.resume (if eachIteration = n - 1 ∧ remaining = 0 then lastTransferMarker else id) ts x) x = some x' ∧
      Done P type offset save d buf (n * bytes) x' ∧
        (0 < remaining → Waiting stopped type offset bytes (n * bytes) x') := by
  induction m generalizing k x with
  | zero =>
    obtain rfl : k = n := hk
    exact ⟨x, rfl, h, fun hrem => hwait (Or.inr hrem)⟩
  | succ m ih =>
    have hw := hwait (Or.inl (Nat.succ_pos m))
    have haddr : (offset + k * bytes) % 8 = 0 := by
      rw [Nat.add_mod, Nat.mul_mod, h8, hoff]
      simp
    have hnext : k * bytes + bytes = (k + 1) * bytes := (Nat.succ_mul k bytes).symm
    rw [List.range'_succ, List.foldlM_cons]
    by_cases hlast : k = n - 1 ∧ remaining = 0
    · rw [if_pos hlast]
      obtain ⟨x', hx', hdone, _⟩ := resume_spec hP h marks_last hts hw.stopped hw.size hbytes haddr h8
      rw [hx', Option.bind_eq_bind, Option.bind_some]
      rw [hnext] at hdone
      exact ih (k + 1) (by omega) hdone fun hmore => absurd hmore (by omega)
    · rw [if_neg hlast]
      obtain ⟨x', hx', hdone, hwait'⟩ := resume_spec hP h marks_id hts hw.stopped hw.size hbytes haddr h8
      rw [hx', Option.bind_eq_bind, Option.bind_some]
      rw [hnext] at hdone hwait'
      exact ih (k + 1) (by omega) hdone fun _ => hwait' hw.marker

theorem lastBlock_spec (hP : Moves P stopped) (hts : 8 + ts ≤ save) (hbytes : 4 * ts = bytes) (hn : 0 < n)
    (hrem : remaining < bytes) (hlt : bytes < 2 ^ 32) (hoff : offset % 8 = 0) (h8 : bytes % 8 = 0) (hrem8 : remaining % 8 = 0)
    (h : Done P type offset save d buf (n * bytes) x)
    (hwait : 0 < remaining → Waiting stopped type offset bytes (n * bytes) x) :
    ∃ x', lastBlock type P n remaining x = some x' ∧ Done P type offset save d buf (n * bytes + remaining) x' := by
  unfold lastBlock
  split_ifs with hmore
  · have hw := hwait hmore.1
    have haddr : (offset + n * bytes) % 8 = 0 := by
      rw [Nat.add_mod, Nat.mul_mod, h8, hoff]
      simp
    have hdone : Done P type offset save d buf (n * bytes)
        { x with dpu := copyToWram 6 2 (wordBytes [remaining, 1]) x.dpu } := by
      refine ⟨h.ptrOffset, h.iram, fun b hb => ?_, h.toMram, h.fromMram⟩
      exact (splice_of_not (by omega) _ _).trans (h.wram b hb)
    have hstopped : stopped type (offset + n * bytes) (copyToWram 6 2 (wordBytes [remaining, 1]) x.dpu) :=
      hP.keeps type _ x.dpu _ hw.stopped rfl rfl fun b hb => splice_of_not (by omega) _ _
    have hsize : word (splice (4 * 6) (4 * [remaining, 1].length) (wordBytes [remaining, 1]) x.dpu.wram) 6 = remaining :=
      word_splice (by norm_num) (by norm_num) (show [remaining, 1].getD (6 - 6) 0 = remaining from rfl) (hrem.trans hlt) _
    have hblock : 4 * (remaining / 4) = remaining := by omega
    have hroom : 8 + remaining / 4 ≤ save := by omega
    obtain ⟨x', hx', hdone', _⟩ := resume_spec hP hdone marks_id hroom hstopped hsize hblock haddr hrem8
    exact ⟨x', hx', hdone'⟩
  · have hzero : remaining = 0 := by omega
    rw [hzero]
    exact ⟨x, rfl, h⟩

/-- how the first block divides a transfer -/
structure Divides (wramSize size save bytes : ℕ) : Prop where
  save_eq : save = if size / 4 + 8 ≥ wramSize then wramSize else size / 4 + 8
  bytes_eq : bytes = (save - 8) * 4
  room : 8 < save
  le : bytes ≤ size
  aligned : bytes % 8 = 0

theorem divides {wramSize : ℕ} (hpos : 0 < size) (h8 : size % 8 = 0) (hw : 8 < wramSize)
    (hfit : wramSize % 2 = 0 ∨ size / 4 + 8 ≤ wramSize) :
    Divides wramSize size (if size / 4 + 8 ≥ wramSize then wramSize else size / 4 + 8)
      (((if size / 4 + 8 ≥ wramSize then wramSize else size / 4 + 8) - 8) * 4) := by
  refine ⟨rfl, rfl, ?_, ?_, ?_⟩ <;> split_ifs <;> omega

/-- the DPU after a transfer -/
def transferred (type : TransferType) (offset size : ℕ) (buf : ℕ → UInt8) (d : Dpu R) : Dpu R × Option (ℕ → UInt8) :=
  match type with
  | .toMram => ({ d with mram := splice offset size buf d.mram }, some buf)
  | .fromMram => (d, some (splice 0 size (view offset d.mram) buf))

/-- **One transfer of one DPU.** Blocks of any size that fits, to the end, and everything but the range is as before. -/
theorem individual_spec (hP : Moves P stopped) {wramSize : ℕ} (hoff : offset % 8 = 0) (h8 : size % 8 = 0)
    (hlt : offset + size < 2 ^ 32)
    (hfit : size = 0 ∨ 8 < wramSize ∧ (wramSize % 2 = 0 ∨ size / 4 + 8 ≤ wramSize)) (buf : ℕ → UInt8) (d : Dpu R) :
    accessMramUsingDpuProgramIndividual P wramSize type offset size (some buf) d = some (transferred type offset size buf d) := by
  rcases Nat.eq_zero_or_pos size with rfl | hpos
  · unfold accessMramUsingDpuProgramIndividual transferred
    rw [if_pos rfl]
    cases type <;> simp only [splice_zero]
  obtain ⟨hw, hfit⟩ := hfit.resolve_left hpos.ne'
  unfold accessMramUsingDpuProgramIndividual
  rw [if_neg hpos.ne', if_neg (Nat.not_le.mpr hw), Option.bind_some]
  have hdiv := divides hpos h8 hw hfit
  dsimp only
  generalize hsave : (if size / 4 + 8 ≥ wramSize then wramSize else size / 4 + 8) = save at hdiv ⊢
  generalize hts : save - 8 = ts at hdiv ⊢
  generalize hbytes : ts * 4 = bytes at hdiv ⊢
  have hroom : 8 + ts ≤ save := by
    have hlt := hdiv.room
    omega
  have hbytes' : 4 * ts = bytes := (Nat.mul_comm 4 ts).trans hbytes
  have hbpos : 0 < bytes := by
    have hlt := hdiv.room
    omega
  have hle := hdiv.le
  have hn : 0 < size / bytes := Nat.div_pos hle hbpos
  have hrem : size % bytes < bytes := Nat.mod_lt _ hbpos
  have hrem8 : size % bytes % 8 = 0 := by
    rw [Nat.mod_mod_of_dvd _ (Nat.dvd_of_mod_eq_zero hdiv.aligned)]
    exact h8
  generalize hmarker : (if size / bytes = 0 ∨ size / bytes = 1 ∧ size % bytes = 0 then 1 else 0) = marker
  have hmarker_lt : marker < 2 ^ 32 := by
    rw [← hmarker]
    split_ifs <;> norm_num
  -- the context of the program
  set context := copyToWram 5 3 (wordBytes [offset, bytes, marker])
    (copyToIram P.nrInstructions (patch type P.code) d) with hcontext
  have hwords : ∀ j, 5 ≤ j → j < 8 → ∀ w, [offset, bytes, marker].getD (j - 5) 0 = w → w < 2 ^ 32 →
      word context.wram j = w := fun j hj hj' w hw hlt =>
    word_splice (show j < 5 + [offset, bytes, marker].length from hj') hj hw hlt _
  have hstart : Done P type offset save d buf 0 ⟨context, buf, 0⟩ := by
    refine ⟨rfl, rfl, fun b hb => splice_of_not (by omega) _ _, fun _ => ⟨?_, rfl⟩, fun _ => ⟨rfl, ?_⟩⟩
    · rw [splice_zero]
      rfl
    · rw [splice_zero]
  obtain ⟨x₁, hx₁, hdone₁, hwait₁⟩ := boot_spec hP hstart hroom (hwords 5 (by norm_num) (by norm_num) offset rfl (by omega))
    (hwords 6 (by norm_num) (by norm_num) bytes rfl (by omega)) hbytes' hoff hdiv.aligned
  rw [hx₁, Option.bind_some]
  -- the complete iterations
  obtain ⟨x₂, hx₂, hdone₂, hwait₂⟩ := iterations_spec (size % bytes) hP hroom hbytes' hoff hdiv.aligned
    (size / bytes - 1) 1 (Nat.add_sub_cancel' hn) (by rw [Nat.one_mul]; exact hdone₁) fun hmore => by
      rw [Nat.one_mul]
      apply hwait₁
      refine (hwords 7 (by norm_num) (by norm_num) marker rfl hmarker_lt).trans ?_
      rw [← hmarker]
      exact if_neg (by omega)
  unfold iterations
  rw [hx₂, Option.bind_some]
  -- what is left
  obtain ⟨x₃, hx₃, hdone₃⟩ := lastBlock_spec hP hroom hbytes' hn hrem (by omega) hoff hdiv.aligned hrem8 hdone₂ hwait₂
  rw [hx₃, Option.map_some]
  have htotal : size / bytes * bytes + size % bytes = size := Nat.div_add_mod' size bytes
  rw [htotal] at hdone₃
  have hiram : splice 0 P.nrInstructions d.iram x₃.dpu.iram = d.iram := by
    rw [hdone₃.iram]
    funext j
    unfold splice
    split_ifs
    · rfl
    · rfl
  have hwram : splice 0 (4 * save) d.wram x₃.dpu.wram = d.wram := by
    funext b
    unfold splice
    split_ifs with hb
    · rfl
    · exact hdone₃.wram b (by omega)
  rw [hiram, hwram]
  unfold transferred
  cases type with
  | toMram =>
    obtain ⟨hmram, hbuf⟩ := hdone₃.toMram rfl
    rw [hmram, hbuf]
  | fromMram =>
    obtain ⟨hmram, hbuf⟩ := hdone₃.fromMram rfl
    rw [hmram, hbuf]

end Individual


end PimOfis.Mram.DpuProgram
