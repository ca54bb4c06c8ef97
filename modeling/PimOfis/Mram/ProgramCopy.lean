/-
MRAM transfers of a whole matrix by way of a program on the DPUs (`copy_to_mrams_using_dpu_program` and
`copy_from_mrams_using_dpu_program` of `dpu_memory.c`).

The DPUs are served one after the other. A DPU whose buffer, offset or size is not aligned is served through a bounce
buffer: it is read into, or filled up with the first and the last eight bytes of the range before it is written.

What the code gets wrong:
- without a bounce buffer, the buffer of the first DPU of the matrix is used for every DPU;
- the last eight bytes of an unaligned write are read from an offset that is itself unaligned;
- with no more than eight words of WRAM no block has a size, and with an odd number blocks are not multiples of eight.

Results:
- `bounceTo_spec`: a write through the bounce buffer;
- `toAgrees_of_fits`, `fromAgrees_of_fits`: where everything fits, the transfers do what direct ones do;
- `dpuProgram_agrees_iff`: and only there, for a program that takes aligned blocks only.

An MRAM has `2 ^ 26` bytes, so that no sum of an offset and a size overflows. Allocations succeed.
-/
import Mathlib.Tactic
import PimOfis.Lib.Loops
import PimOfis.Mram.DpuProgram
import PimOfis.Mram.Reach

namespace PimOfis.Mram.DpuProgram

open Lib Hw

variable {R : Type}

/-! ## Model -/

/-- the rank and the transfer; buffers are given by their addresses in the memory of the host -/
structure Access where
  nrDpus : ℕ
  enabled : ℕ → Bool
  wramSize : ℕ
  matrix : TransferMatrix ℕ
  enabled_lt : ∀ i, enabled i = true → i < nrDpus
  fits : matrix.offset + matrix.size ≤ mramSize

/-- the size of the range filled up to multiples of eight at both ends -/
def Access.alignedSize (a : Access) : ℕ := (a.matrix.size + a.matrix.offset % 8 + 7) / 8 * 8

/-- the offset of that range -/
def Access.alignedOffset (a : Access) : ℕ := a.matrix.offset / 8 * 8

/-- a bounce buffer is needed -/
def Access.Unaligned (a : Access) (p : ℕ) : Prop := p % 4 ≠ 0 ∨ a.matrix.offset % 8 ≠ 0 ∨ a.matrix.size % 8 ≠ 0

instance (a : Access) (p : ℕ) : Decidable (a.Unaligned p) := inferInstanceAs (Decidable (_ ∨ _ ∨ _))

/-- the DPUs, the memory of the host and the bounce buffer -/
structure Machine (R : Type) where
  dpus : ℕ → Dpu R
  mem : ℕ → UInt8
  mramBuffer : ℕ → UInt8

def Access.individual (a : Access) (P : AccessProgram R) := accessMramUsingDpuProgramIndividual P a.wramSize

/-- the buffer of the first DPU of the matrix, which is what `individual` takes from a matrix -/
def Access.firstBuffer (a : Access) (mem : ℕ → UInt8) : Option (ℕ → UInt8) := (a.matrix.ptr 0).map fun p => view p mem

/-- a read of eight bytes into the bounce buffer from its byte `k` on -/
def Access.fetch (a : Access) (P : AccessProgram R) (offset k : ℕ) (d : Dpu R) (mramBuffer : ℕ → UInt8) :
    Option (Dpu R × (ℕ → UInt8)) :=
  (a.individual P .fromMram offset 8 (some (view k mramBuffer)) d).bind fun x =>
    x.2.map fun b => (x.1, fun j => if k ≤ j then b (j - k) else mramBuffer j)

/-- the write of one DPU through the bounce buffer -/
def Access.bounceTo (a : Access) (P : AccessProgram R) (p : ℕ) (mem : ℕ → UInt8) (d : Dpu R) (mramBuffer : ℕ → UInt8) :
    Option (Dpu R × (ℕ → UInt8)) :=
  (if a.matrix.offset % 8 ≠ 0 then a.fetch P a.alignedOffset 0 d mramBuffer else some (d, mramBuffer)).bind fun x =>
    (if (a.matrix.size + a.matrix.offset % 8) % 8 ≠ 0 then
        a.fetch P (a.matrix.offset + a.alignedSize - 8) (a.alignedSize - 8) x.1 x.2
      else some x).bind fun x =>
        let mramBuffer := splice (a.matrix.offset % 8) a.matrix.size (view p mem) x.2
        (a.individual P .toMram a.alignedOffset a.alignedSize (some mramBuffer) x.1).map fun y => (y.1, mramBuffer)

def Access.copyTo (a : Access) (P : AccessProgram R) (s : Machine R) (i : ℕ) : Option (Machine R) :=
  match a.matrix.ptr i with
  | none => some s
  | some p =>
    if a.enabled i = false then some s
    else if a.Unaligned p then
      (a.bounceTo P p s.mem (s.dpus i) s.mramBuffer).map fun x =>
        { s with dpus := Function.update s.dpus i x.1, mramBuffer := x.2 }
    else
      (a.individual P .toMram a.matrix.offset a.matrix.size (a.firstBuffer s.mem) (s.dpus i)).map fun x =>
        { s with dpus := Function.update s.dpus i x.1 }

def Access.copyFrom (a : Access) (P : AccessProgram R) (s : Machine R) (i : ℕ) : Option (Machine R) :=
  match a.matrix.ptr i with
  | none => some s
  | some p =>
    if a.enabled i = false then some s
    else if a.Unaligned p then
      (a.individual P .fromMram a.alignedOffset a.alignedSize (some s.mramBuffer) (s.dpus i)).bind fun x =>
        x.2.map fun mramBuffer =>
          { dpus := Function.update s.dpus i x.1
            mem := splice p a.matrix.size (view (a.matrix.offset % 8) mramBuffer) s.mem
            mramBuffer := mramBuffer }
    else
      (a.individual P .fromMram a.matrix.offset a.matrix.size (a.firstBuffer s.mem) (s.dpus i)).map fun x =>
        { s with
          dpus := Function.update s.dpus i x.1
          mem := match a.matrix.ptr 0, x.2 with
            | some q, some b => fun y => if q ≤ y then b (y - q) else s.mem y
            | _, _ => s.mem }

/-- the DPUs one after the other, in the order of the matrix -/
def copyToMramsUsingDpuProgram (a : Access) (P : AccessProgram R) (s : Machine R) : Option (Machine R) :=
  (List.range a.nrDpus).foldlM (a.copyTo P) s

def copyFromMramsUsingDpuProgram (a : Access) (P : AccessProgram R) (s : Machine R) : Option (Machine R) :=
  (List.range a.nrDpus).foldlM (a.copyFrom P) s

/-! ## What the transfers promise -/

/-- the DPUs after a direct write -/
def Access.writtenTo (a : Access) (s : Machine R) (i : ℕ) : Dpu R :=
  match a.matrix.ptr i with
  | none => s.dpus i
  | some p =>
    if a.enabled i = true then
      { s.dpus i with mram := overlay a.matrix.offset a.matrix.size (s.dpus i).mram (view p s.mem) }
    else s.dpus i

/-- with any program that moves blocks, on any contents, a write comes to an end and does what a direct one does -/
def ToAgrees (a : Access) : Prop :=
  ∀ (R : Type) (P : AccessProgram R) (stopped : TransferType → ℕ → Dpu R → Prop), Moves P stopped → ∀ s : Machine R,
    ∃ s', copyToMramsUsingDpuProgram a P s = some s' ∧ s'.dpus = a.writtenTo s ∧ s'.mem = s.mem

/-- the buffer of DPU `i`, an enabled one, is at `p` -/
def Access.Buffer (a : Access) (i p : ℕ) : Prop := a.enabled i = true ∧ a.matrix.ptr i = some p

/-- no byte of the host is in the buffers of two DPUs -/
def Access.Disjoint (a : Access) : Prop :=
  ∀ i j p q x, a.Buffer i p → a.Buffer j q → p ≤ x → x < p + a.matrix.size → q ≤ x → x < q + a.matrix.size → i = j

/-- a read comes to an end, fills the buffer of each DPU with its MRAM range, and changes nothing else -/
def FromAgrees (a : Access) : Prop :=
  ∀ (R : Type) (P : AccessProgram R) (stopped : TransferType → ℕ → Dpu R → Prop), Moves P stopped → ∀ s : Machine R,
    ∃ s', copyFromMramsUsingDpuProgram a P s = some s' ∧ s'.dpus = s.dpus ∧
      (∀ i p, a.Buffer i p → ∀ k < a.matrix.size, s'.mem (p + k) = (s.dpus i).mram (a.matrix.offset + k)) ∧
      ∀ y, (∀ i p, a.Buffer i p → ¬ (p ≤ y ∧ y < p + a.matrix.size)) → s'.mem y = s.mem y

/-- the WRAM has room for blocks, and their sizes are multiples of eight -/
def Access.BlocksFit (a : Access) : Prop :=
  a.alignedSize = 0 ∨ 8 < a.wramSize ∧ (a.wramSize % 2 = 0 ∨ a.alignedSize / 4 + 8 ≤ a.wramSize)

/-- the buffer of a DPU that needs no bounce buffer is the first of the matrix -/
def Access.BufferFits (a : Access) (p : ℕ) : Prop := ¬ a.Unaligned p → a.matrix.size = 0 ∨ a.matrix.ptr 0 = some p

/-- the end of the range is read at an aligned offset, if it is read at all -/
def Access.TailFits (a : Access) : Prop :=
  a.matrix.offset % 8 = 0 ∨ (a.matrix.size + a.matrix.offset % 8) % 8 = 0

def ToFits (a : Access) : Prop := ∀ i p, a.Buffer i p → a.BlocksFit ∧ a.BufferFits p ∧ a.TailFits

def FromFits (a : Access) : Prop := ∀ i p, a.Buffer i p → a.BlocksFit ∧ a.BufferFits p

/-! ## All DPUs -/

section Copy

variable {a : Access} {P : AccessProgram R} {stopped : TransferType → ℕ → Dpu R → Prop} {i p : ℕ}

theorem overlay_eq_splice (offset size : ℕ) (mram : ℕ → UInt8) (buffer : Buffer) :
    overlay offset size mram buffer = splice offset size buffer mram := rfl

theorem Access.offset_eq (a : Access) : a.alignedOffset + a.matrix.offset % 8 = a.matrix.offset := by
  unfold alignedOffset
  omega

theorem Access.size_le (a : Access) : a.matrix.offset % 8 + a.matrix.size ≤ a.alignedSize := by
  unfold alignedSize
  omega

theorem Access.aligned (a : Access) : a.alignedOffset % 8 = 0 ∧ a.alignedSize % 8 = 0 :=
  ⟨Nat.mul_mod_left _ _, Nat.mul_mod_left _ _⟩

theorem Access.lt (a : Access) : a.matrix.offset + a.alignedSize < 2 ^ 27 := by
  have hfits := a.fits
  unfold mramSize at hfits
  unfold alignedSize
  omega

theorem Access.BlocksFit.small (h : a.BlocksFit) (hpos : 0 < a.alignedSize) :
    8 = 0 ∨ 8 < a.wramSize ∧ (a.wramSize % 2 = 0 ∨ 8 / 4 + 8 ≤ a.wramSize) := by
  have hw := h.resolve_left hpos.ne'
  have h8 : 8 ≤ a.alignedSize := by
    unfold Access.alignedSize at hpos ⊢
    omega
  omega

/-- eight aligned bytes -/
theorem fetch_spec (hP : Moves P stopped) {offset : ℕ} (hoff : offset % 8 = 0) (hlt : offset < 2 ^ 28) (h : a.BlocksFit)
    (hpos : 0 < a.alignedSize) (k : ℕ) (d : Dpu R) (mramBuffer : ℕ → UInt8) :
    a.fetch P offset k d mramBuffer = some (d, splice k 8 (view offset d.mram) mramBuffer) := by
  unfold Access.fetch Access.individual
  rw [individual_spec hP hoff (by norm_num) (by omega) (h.small hpos)]
  unfold transferred
  rw [Option.bind_some, Option.map_some, splice_view]

/-- the write through the bounce buffer -/
theorem bounceTo_spec (hP : Moves P stopped) (h : a.BlocksFit) (htail : a.TailFits) (p : ℕ) (mem : ℕ → UInt8) (d : Dpu R)
    (mramBuffer : ℕ → UInt8) :
    ∃ b, a.bounceTo P p mem d mramBuffer =
      some ({ d with mram := overlay a.matrix.offset a.matrix.size d.mram (view p mem) }, b) := by
  have hlt := a.lt
  have hoffset := a.offset_eq
  have hsize := a.size_le
  have hA : a.alignedSize = (a.matrix.size + a.matrix.offset % 8 + 7) / 8 * 8 := rfl
  obtain ⟨hO, hA8⟩ := a.aligned
  -- the first eight bytes
  obtain ⟨b₁, hb₁, hhead⟩ : ∃ b₁, (if a.matrix.offset % 8 ≠ 0 then a.fetch P a.alignedOffset 0 d mramBuffer
      else some (d, mramBuffer)) = some (d, b₁) ∧ ∀ k < a.matrix.offset % 8, b₁ k = d.mram (a.alignedOffset + k) := by
    by_cases hr : a.matrix.offset % 8 ≠ 0
    · rw [if_pos hr, fetch_spec hP hO (by omega) h (by omega)]
      refine ⟨_, rfl, fun k hk => ?_⟩
      have hat := splice_add (show k < 8 by omega) 0 (view a.alignedOffset d.mram) mramBuffer
      rw [Nat.zero_add] at hat
      exact hat
    · rw [if_neg hr]
      exact ⟨_, rfl, fun k hk => absurd hk (by omega)⟩
  -- the last
  obtain ⟨b₂, hb₂, hhead₂, hlast⟩ : ∃ b₂, (if (a.matrix.size + a.matrix.offset % 8) % 8 ≠ 0 then
        a.fetch P (a.matrix.offset + a.alignedSize - 8) (a.alignedSize - 8) d b₁
      else some (d, b₁)) = some (d, b₂) ∧ (∀ k < a.matrix.offset % 8, b₂ k = d.mram (a.alignedOffset + k)) ∧
        ∀ k < a.alignedSize, a.matrix.offset % 8 + a.matrix.size ≤ k → b₂ k = d.mram (a.alignedOffset + k) := by
    by_cases hr : (a.matrix.size + a.matrix.offset % 8) % 8 ≠ 0
    · have hzero : a.matrix.offset % 8 = 0 := htail.resolve_right hr
      have hpos : 0 < a.alignedSize := by omega
      rw [if_pos hr, fetch_spec hP (by omega) (by omega) h hpos]
      refine ⟨_, rfl, fun k hk => absurd hk (by omega), fun k hk hle => ?_⟩
      have hat := splice_add (show k - (a.alignedSize - 8) < 8 by omega) (a.alignedSize - 8)
        (view (a.matrix.offset + a.alignedSize - 8) d.mram) b₁
      have hk' : a.alignedSize - 8 + (k - (a.alignedSize - 8)) = k := by omega
      rw [hk'] at hat
      rw [hat]
      unfold view
      congr 1
      omega
    · rw [if_neg hr]
      exact ⟨_, rfl, hhead, fun k hk hle => absurd hk (by omega)⟩
  unfold Access.bounceTo
  rw [hb₁, Option.bind_some]
  dsimp only
  rw [hb₂, Option.bind_some]
  dsimp only
  unfold Access.individual
  rw [individual_spec hP hO hA8 (by omega) h, Option.map_some]
  unfold transferred
  refine ⟨splice (a.matrix.offset % 8) a.matrix.size (view p mem) b₂, ?_⟩
  dsimp only
  -- what goes out is the range with the buffer in it
  have hrange : ∀ k < a.alignedSize, splice (a.matrix.offset % 8) a.matrix.size (view p mem) b₂ k =
      splice (a.matrix.offset % 8) a.matrix.size (view p mem) (view a.alignedOffset d.mram) k := by
    intro k hk
    unfold splice
    split_ifs with hin
    · rfl
    · rcases Nat.lt_or_ge k (a.matrix.offset % 8) with hlo | hhi
      · exact hhead₂ k hlo
      · exact hlast k hk (by omega)
  rw [splice_congr hrange, splice_splice hsize, hoffset]
  rfl

theorem copyTo_spec (hP : Moves P stopped) (s : Machine R)
    (h : ∀ p, a.Buffer i p → a.BlocksFit ∧ a.BufferFits p ∧ a.TailFits) :
    ∃ s', a.copyTo P s i = some s' ∧ s'.dpus = Function.update s.dpus i (a.writtenTo s i) ∧ s'.mem = s.mem := by
  unfold Access.copyTo Access.writtenTo
  cases hptr : a.matrix.ptr i with
  | none => exact ⟨s, rfl, (Function.update_eq_self i s.dpus).symm, rfl⟩
  | some p =>
    dsimp only
    by_cases hen : a.enabled i = false
    · rw [if_pos hen, if_neg (Bool.eq_false_iff.mp hen)]
      exact ⟨s, rfl, (Function.update_eq_self i s.dpus).symm, rfl⟩
    · have hen' : a.enabled i = true := Bool.eq_true_of_not_eq_false hen
      obtain ⟨hblocks, hbuffer, htail⟩ := h p ⟨hen', hptr⟩
      rw [if_neg hen, if_pos hen']
      by_cases hun : a.Unaligned p
      · obtain ⟨b, hb⟩ := bounceTo_spec hP hblocks htail p s.mem (s.dpus i) s.mramBuffer
        rw [if_pos hun, hb]
        exact ⟨_, rfl, rfl, rfl⟩
      · have hal : a.matrix.offset % 8 = 0 ∧ a.matrix.size % 8 = 0 := by
          unfold Access.Unaligned at hun
          omega
        have hlt := a.lt
        have hsize := a.size_le
        have hA : a.alignedSize = a.matrix.size := by
          unfold Access.alignedSize
          omega
        rw [if_neg hun]
        rcases hbuffer hun with hzero | hfirst
        · unfold Access.individual accessMramUsingDpuProgramIndividual
          rw [if_pos hzero, hzero, overlay_eq_splice, splice_zero]
          exact ⟨_, rfl, rfl, rfl⟩
        · unfold Access.individual Access.firstBuffer
          rw [hfirst, Option.map_some]
          have hfit : a.matrix.size = 0 ∨ 8 < a.wramSize ∧ (a.wramSize % 2 = 0 ∨ a.matrix.size / 4 + 8 ≤ a.wramSize) := by
            rw [← hA]
            exact hblocks
          rw [individual_spec hP hal.1 hal.2 (by omega) hfit]
          exact ⟨_, rfl, rfl, rfl⟩

/-- **Writes.** Where everything fits, what the DPUs end with is what direct writes leave. -/
theorem toAgrees_of_fits (h : ToFits a) : ToAgrees a := by
  intro R P stopped hP s
  obtain ⟨t, ht, hdpus, hmem⟩ := foldlM_range (a.copyTo P) a.nrDpus s
    (fun j t => t.dpus = (fun i => if i < j then a.writtenTo s i else s.dpus i) ∧ t.mem = s.mem)
    ⟨rfl, rfl⟩ fun i _ t ⟨hdpus, hmem⟩ => by
      obtain ⟨u, hu, hdpus', hmem'⟩ := copyTo_spec hP t fun p hp => h i p hp
      refine ⟨u, hu, ?_, hmem'.trans hmem⟩
      have hwritten : a.writtenTo t i = a.writtenTo s i := by
        unfold Access.writtenTo
        rw [hdpus, hmem]
        dsimp only
        rw [if_neg (lt_irrefl i)]
      rw [hdpus', hwritten, hdpus]
      funext j
      by_cases hj : j = i
      · rw [hj, Function.update_self, if_pos (Nat.lt_succ_self i)]
      · have hlt : j < i ↔ j < i + 1 := by omega
        rw [Function.update_of_ne hj]
        simp only [hlt]
  refine ⟨t, ht, ?_, hmem⟩
  rw [hdpus]
  funext i
  split_ifs with hi
  · rfl
  · have hen : a.enabled i = false := by
      rw [Bool.eq_false_iff]
      exact fun hen => hi (a.enabled_lt i hen)
    unfold Access.writtenTo
    cases a.matrix.ptr i with
    | none => rfl
    | some p =>
      dsimp only
      rw [if_neg (Bool.eq_false_iff.mp hen)]

/-- the memory of the host with the buffer of DPU `i` filled -/
def Access.readInto (a : Access) (dpus : ℕ → Dpu R) (i : ℕ) (mem : ℕ → UInt8) : ℕ → UInt8 :=
  match a.matrix.ptr i with
  | none => mem
  | some p =>
    if a.enabled i = true then splice p a.matrix.size (view a.matrix.offset (dpus i).mram) mem else mem

theorem copyFrom_spec (hP : Moves P stopped) (s : Machine R) (h : ∀ p, a.Buffer i p → a.BlocksFit ∧ a.BufferFits p) :
    ∃ s', a.copyFrom P s i = some s' ∧ s'.dpus = s.dpus ∧ s'.mem = a.readInto s.dpus i s.mem := by
  unfold Access.copyFrom Access.readInto
  cases hptr : a.matrix.ptr i with
  | none => exact ⟨s, rfl, rfl, rfl⟩
  | some p =>
    dsimp only
    by_cases hen : a.enabled i = false
    · rw [if_pos hen, if_neg (Bool.eq_false_iff.mp hen)]
      exact ⟨s, rfl, rfl, rfl⟩
    · have hen' : a.enabled i = true := Bool.eq_true_of_not_eq_false hen
      obtain ⟨hblocks, hbuffer⟩ := h p ⟨hen', hptr⟩
      have hlt := a.lt
      have hsize := a.size_le
      rw [if_neg hen, if_pos hen']
      by_cases hun : a.Unaligned p
      · have hO := a.offset_eq
        rw [if_pos hun]
        unfold Access.individual
        rw [individual_spec hP a.aligned.1 a.aligned.2 (by omega) hblocks]
        refine ⟨_, rfl, Function.update_eq_self i s.dpus, ?_⟩
        apply splice_congr
        intro k hk
        have hat := splice_add (show a.matrix.offset % 8 + k < a.alignedSize by omega) 0
          (view a.alignedOffset (s.dpus i).mram) s.mramBuffer
        rw [Nat.zero_add] at hat
        refine hat.trans ?_
        unfold view
        rw [← Nat.add_assoc, hO]
      · have hal : a.matrix.offset % 8 = 0 ∧ a.matrix.size % 8 = 0 := by
          unfold Access.Unaligned at hun
          omega
        have hA : a.alignedSize = a.matrix.size := by
          unfold Access.alignedSize
          omega
        rw [if_neg hun]
        rcases hbuffer hun with hzero | hfirst
        · unfold Access.individual accessMramUsingDpuProgramIndividual Access.firstBuffer
          rw [if_pos hzero, hzero, splice_zero]
          refine ⟨_, rfl, Function.update_eq_self i s.dpus, ?_⟩
          cases a.matrix.ptr 0 with
          | none => rfl
          | some q =>
            have hsame := splice_view q 0 s.mem s.mem
            rw [splice_zero, splice_zero] at hsame
            exact hsame
        · unfold Access.individual Access.firstBuffer
          rw [hfirst, Option.map_some]
          have hfit : a.matrix.size = 0 ∨ 8 < a.wramSize ∧ (a.wramSize % 2 = 0 ∨ a.matrix.size / 4 + 8 ≤ a.wramSize) := by
            rw [← hA]
            exact hblocks
          rw [individual_spec hP hal.1 hal.2 (by omega) hfit]
          exact ⟨_, rfl, Function.update_eq_self i s.dpus, splice_view _ _ _ _⟩

/-- **Reads.** Where everything fits, the buffers are filled and nothing else changes. -/
theorem fromAgrees_of_fits (hd : a.Disjoint) (h : FromFits a) : FromAgrees a := by
  intro R P stopped hP s
  obtain ⟨t, ht, hdpus, hfilled, hrest⟩ := foldlM_range (a.copyFrom P) a.nrDpus s
    (fun j t => t.dpus = s.dpus ∧
      (∀ i < j, ∀ p, a.Buffer i p → ∀ k < a.matrix.size, t.mem (p + k) = (s.dpus i).mram (a.matrix.offset + k)) ∧
        ∀ y, (∀ i < j, ∀ p, a.Buffer i p → ¬ (p ≤ y ∧ y < p + a.matrix.size)) → t.mem y = s.mem y)
    ⟨rfl, fun i hi => absurd hi (Nat.not_lt_zero i), fun _ _ => rfl⟩ fun j _ t ⟨hdpus, hfilled, hrest⟩ => by
      obtain ⟨u, hu, hdpus', hmem'⟩ := copyFrom_spec hP t fun p hp => h j p hp
      refine ⟨u, hu, hdpus'.trans hdpus, ?_, ?_⟩
      · intro i hi p hp k hk
        rw [hmem', hdpus]
        unfold Access.readInto
        rcases Nat.lt_succ_iff_lt_or_eq.mp hi with hlt | rfl
        · have hbefore := hfilled i hlt p hp k hk
          cases hptr : a.matrix.ptr j with
          | none => exact hbefore
          | some q =>
            dsimp only
            split_ifs with hen
            · rw [splice_of_not fun hin => hlt.ne (hd i j p q (p + k) hp ⟨hen, hptr⟩ (Nat.le_add_right _ _)
                (Nat.add_lt_add_left hk p) hin.1 hin.2)]
              exact hbefore
            · exact hbefore
        · rw [hp.2]
          dsimp only
          rw [if_pos hp.1, splice_add hk]
          rfl
      · intro y hy
        rw [hmem']
        have hbefore := hrest y fun i hi => hy i (Nat.lt_succ_of_lt hi)
        unfold Access.readInto
        cases hptr : a.matrix.ptr j with
        | none => exact hbefore
        | some q =>
          dsimp only
          split_ifs with hen
          · rw [splice_of_not (hy j (Nat.lt_succ_self j) q ⟨hen, hptr⟩)]
            exact hbefore
          · exact hbefore
  refine ⟨t, ht, hdpus, fun i p hp => hfilled i (a.enabled_lt i hp.1) p hp, fun y hy => ?_⟩
  exact hrest y fun i _ p hp => hy i p hp

end Copy

/-! ## A program that takes aligned blocks only -/

section Strict

variable {type : TransferType} {w offset size : ℕ}

/-- a block at `addr`, of the size in the context; anything unaligned is a fault -/
def strictMove (addr : ℕ) (d : Dpu ℕ) : Option (Dpu ℕ) :=
  if addr % 8 = 0 ∧ word d.wram 6 % 8 = 0 then
    if d.iram 11 = dmaInstruction .toMram 255 then
      some { d with mram := splice addr (word d.wram 6) (view 32 d.wram) d.mram, regs := addr + word d.wram 6 }
    else
      some { d with wram := splice 32 (word d.wram 6) (view addr d.mram) d.wram, regs := addr + word d.wram 6 }
  else none

/-- it keeps the MRAM address in a register -/
def strict : AccessProgram ℕ where
  code _ := 0
  nrInstructions := 24
  boot d := strictMove (word d.wram 5) d
  resume d := strictMove d.regs d

theorem strictMove_spec {d : Dpu ℕ} {addr n : ℕ} (hl : Loaded strict type d) (hn : word d.wram 6 = n) (haddr : addr % 8 = 0)
    (h8 : n % 8 = 0) : ∃ d', strictMove addr d = some d' ∧ Moved type addr n d d' ∧ d'.regs = addr + n := by
  have hcode : d.iram 11 = dmaInstruction type 255 := hl 11 (by norm_num [strict])
  unfold strictMove
  rw [hn, if_pos ⟨haddr, h8⟩, hcode]
  cases type with
  | toMram =>
    rw [if_pos rfl]
    exact ⟨_, rfl, ⟨rfl, fun _ => rfl, (fun h => by cases h), fun _ _ _ => rfl, fun _ _ => rfl⟩, rfl⟩
  | fromMram =>
    rw [if_neg (by decide)]
    refine ⟨_, rfl, ⟨rfl, (fun h => by cases h), fun _ => ⟨rfl, fun k hk => ?_⟩, fun b _ hb => ?_, fun b hb => ?_⟩, rfl⟩
    · exact splice_add hk _ _ _
    · exact splice_of_not (by omega) _ _
    · exact splice_of_not (by omega) _ _

theorem strict_moves : Moves strict fun _ addr d => d.regs = addr where
  boot type d addr n hl haddr hn h8 h8' := by
    obtain ⟨d', hd', hmoved, hregs⟩ := strictMove_spec hl hn h8 h8'
    refine ⟨d', ?_, hmoved, fun _ => hregs⟩
    rw [← hd', ← haddr]
    rfl
  resume type d addr n hl haddr hn h8 h8' := by
    obtain ⟨d', hd', hmoved, hregs⟩ := strictMove_spec hl hn h8 h8'
    refine ⟨d', ?_, hmoved, fun _ => hregs⟩
    rw [← hd', ← haddr]
    rfl
  keeps type addr d d' h _ hregs _ := hregs.trans h

/-- with it, a transfer that comes to its end was aligned, and so were its blocks -/
theorem individual_strict {ptr : Option (ℕ → UInt8)} {d : Dpu ℕ} {y : Dpu ℕ × Option (ℕ → UInt8)} (hpos : 0 < size)
    (h8 : size % 8 = 0) (hlt : offset + size < 2 ^ 32)
    (h : accessMramUsingDpuProgramIndividual strict w type offset size ptr d = some y) :
    ptr ≠ none ∧ offset % 8 = 0 ∧ 8 < w ∧ (w % 2 = 0 ∨ size / 4 + 8 ≤ w) := by
  unfold accessMramUsingDpuProgramIndividual at h
  have hw : ¬ w ≤ 8 := by
    intro hw
    rw [if_neg hpos.ne', if_pos hw] at h
    cases h
  rw [if_neg hpos.ne', if_neg hw] at h
  obtain ⟨buf, hptr, hbody⟩ := Option.bind_eq_some_iff.mp h
  dsimp only at hbody
  generalize hsave : (if size / 4 + 8 ≥ w then w else size / 4 + 8) = save at hbody
  generalize (if size / ((save - 8) * 4) = 0 ∨ size / ((save - 8) * 4) = 1 ∧ size % ((save - 8) * 4) = 0 then 1 else 0) =
    marker at hbody
  obtain ⟨x, hx, _⟩ := Option.bind_eq_some_iff.mp hbody
  obtain ⟨d', hd', _⟩ := Option.map_eq_some_iff.mp hx
  -- the DPU as the program finds it
  set x₀ : Xfer ℕ := ⟨copyToWram 5 3 (wordBytes [offset, (save - 8) * 4, marker])
    (copyToIram strict.nrInstructions (patch type strict.code) d), buf, 0⟩ with hx₀
  have hmove : strictMove (word (prepared type id (save - 8) x₀).wram 5) (prepared type id (save - 8) x₀) = some d' := hd'
  unfold strictMove at hmove
  obtain ⟨hoff, hbytes⟩ := (ite_ne_right_iff.mp fun hnone => by rw [hnone] at hmove; cases hmove).1
  rw [prepared_word marks_id _ (by norm_num)] at hoff hbytes
  have hwords : ∀ j, 5 ≤ j → j < 8 → ∀ v, [offset, (save - 8) * 4, marker].getD (j - 5) 0 = v → v < 2 ^ 32 →
      word (splice (4 * 5) (4 * 3) (wordBytes [offset, (save - 8) * 4, marker]) d.wram) j = v := fun j hj hj' v hv hlt =>
    word_splice (show j < 5 + [offset, (save - 8) * 4, marker].length from hj') hj hv hlt _
  have hle : (save - 8) * 4 ≤ size := by
    rw [← hsave]
    split_ifs <;> omega
  have hoff' := (congrArg (· % 8) (hwords 5 (by norm_num) (by norm_num) offset rfl (by omega))).symm.trans hoff
  have hbytes' := (congrArg (· % 8) (hwords 6 (by norm_num) (by norm_num) ((save - 8) * 4) rfl (by omega))).symm.trans hbytes
  refine ⟨?_, hoff', Nat.not_le.mp hw, ?_⟩
  · rw [hptr]
    exact Option.some_ne_none buf
  · by_cases hge : size / 4 + 8 ≥ w
    · rw [if_pos hge] at hsave
      omega
    · exact Or.inr (by omega)

end Strict

/-! ## Only then -/

section Converse

variable {a : Access} {i p : ℕ} {s t : Machine ℕ}

/-- what a step that came to its end says about the buffer -/
theorem access_strict {type : TransferType} {ptr : Option (ℕ → UInt8)} {d : Dpu ℕ} {y : Dpu ℕ × Option (ℕ → UInt8)}
    {offset : ℕ} (hoff : offset + a.alignedSize < 2 ^ 32)
    (h : a.individual strict type offset a.alignedSize ptr d = some y) : a.BlocksFit := by
  rcases Nat.eq_zero_or_pos a.alignedSize with hzero | hpos
  · exact Or.inl hzero
  · exact Or.inr (individual_strict hpos a.aligned.2 hoff h).2.2

/-- a buffer that needs no bounce buffer -/
theorem Access.aligned_of_not (hun : ¬ a.Unaligned p) :
    a.matrix.offset % 8 = 0 ∧ a.matrix.size % 8 = 0 ∧ a.alignedSize = a.matrix.size := by
  unfold Access.Unaligned at hun
  unfold Access.alignedSize
  omega

theorem copyTo_strict (hp : a.Buffer i p) (h : a.copyTo strict s i = some t) : a.BlocksFit ∧ a.TailFits := by
  have hlt := a.lt
  have hO := a.offset_eq
  unfold Access.copyTo at h
  rw [hp.2] at h
  dsimp only at h
  rw [if_neg (Bool.eq_false_iff.not.mpr (not_not.mpr hp.1))] at h
  by_cases hun : a.Unaligned p
  · rw [if_pos hun] at h
    obtain ⟨x, hx, _⟩ := Option.map_eq_some_iff.mp h
    unfold Access.bounceTo at hx
    obtain ⟨x₁, _, hx⟩ := Option.bind_eq_some_iff.mp hx
    obtain ⟨x₂, htail, hx⟩ := Option.bind_eq_some_iff.mp hx
    obtain ⟨y, hy, _⟩ := Option.map_eq_some_iff.mp hx
    refine ⟨access_strict (by omega) hy, ?_⟩
    by_contra hnot
    unfold Access.TailFits at hnot
    push Not at hnot
    rw [if_pos hnot.2] at htail
    unfold Access.fetch at htail
    obtain ⟨z, hz, _⟩ := Option.bind_eq_some_iff.mp htail
    have hoff := (individual_strict (by norm_num) (by norm_num) (by omega) hz).2.1
    have h8 := a.aligned.2
    have hsize := a.size_le
    omega
  · obtain ⟨hoff, _, hA⟩ := Access.aligned_of_not hun
    rw [if_neg hun] at h
    obtain ⟨x, hx, _⟩ := Option.map_eq_some_iff.mp h
    rw [← hA] at hx
    exact ⟨access_strict (by omega) hx, Or.inl hoff⟩

theorem copyFrom_strict (hp : a.Buffer i p) (h : a.copyFrom strict s i = some t) : a.BlocksFit := by
  have hlt := a.lt
  have hO := a.offset_eq
  unfold Access.copyFrom at h
  rw [hp.2] at h
  dsimp only at h
  rw [if_neg (Bool.eq_false_iff.not.mpr (not_not.mpr hp.1))] at h
  by_cases hun : a.Unaligned p
  · rw [if_pos hun] at h
    obtain ⟨x, hx, _⟩ := Option.bind_eq_some_iff.mp h
    exact access_strict (by omega) hx
  · obtain ⟨hoff, _, hA⟩ := Access.aligned_of_not hun
    rw [if_neg hun] at h
    obtain ⟨x, hx, _⟩ := Option.map_eq_some_iff.mp h
    rw [← hA] at hx
    exact access_strict (by omega) hx

/-- in a loop that came to its end, every step did -/
theorem step_of_copyTo (h : copyToMramsUsingDpuProgram a strict s = some t) (hi : i < a.nrDpus) :
    ∃ u v, a.copyTo strict u i = some v :=
  step_of_foldlM h (List.mem_range.mpr hi)

theorem step_of_copyFrom (h : copyFromMramsUsingDpuProgram a strict s = some t) (hi : i < a.nrDpus) :
    ∃ u v, a.copyFrom strict u i = some v :=
  step_of_foldlM h (List.mem_range.mpr hi)

/-- DPUs with empty memories -/
def blank (mram : UInt8) : ℕ → Dpu ℕ := fun _ => ⟨fun _ => 0, fun _ => 0, fun _ => mram, 0⟩

theorem copyTo_blocks (h : ToAgrees a) (hp : a.Buffer i p) : a.BlocksFit ∧ a.TailFits := by
  obtain ⟨t, ht, _⟩ := h ℕ strict _ strict_moves ⟨blank 0, fun _ => 0, fun _ => 0⟩
  obtain ⟨u, v, huv⟩ := step_of_copyTo ht (a.enabled_lt i hp.1)
  exact copyTo_strict hp huv

theorem copyFrom_blocks (h : FromAgrees a) (hp : a.Buffer i p) : a.BlocksFit := by
  obtain ⟨t, ht, _⟩ := h ℕ strict _ strict_moves ⟨blank 0, fun _ => 0, fun _ => 0⟩
  obtain ⟨u, v, huv⟩ := step_of_copyFrom ht (a.enabled_lt i hp.1)
  exact copyFrom_strict hp huv

/-- a transfer without a bounce buffer is one of the first buffer of the matrix -/
theorem individual_first {type : TransferType} {d : Dpu ℕ} {mem : ℕ → UInt8} {y : Dpu ℕ × Option (ℕ → UInt8)}
    (hblocks : a.BlocksFit) (hun : ¬ a.Unaligned p) (hpos : 0 < a.matrix.size)
    (h : a.individual strict type a.matrix.offset a.matrix.size (a.firstBuffer mem) d = some y) :
    ∃ q, a.matrix.ptr 0 = some q ∧ y = transferred type a.matrix.offset a.matrix.size (view q mem) d := by
  obtain ⟨hoff, h8, hA⟩ := Access.aligned_of_not hun
  have hlt := a.lt
  obtain ⟨hsome, _⟩ := individual_strict hpos h8 (by omega) h
  unfold Access.firstBuffer at hsome h
  cases hptr : a.matrix.ptr 0 with
  | none =>
    rw [hptr] at hsome
    exact absurd rfl hsome
  | some q =>
    rw [hptr, Option.map_some] at h
    unfold Access.individual at h
    unfold Access.BlocksFit at hblocks
    rw [hA] at hblocks
    rw [individual_spec strict_moves hoff h8 (by omega) hblocks] at h
    exact ⟨q, rfl, (Option.some.inj h).symm⟩

/-- one byte of the host is 1: it reaches the DPU only if its buffer is the first -/
theorem copyTo_buffer (h : ToAgrees a) (hp : a.Buffer i p) : a.BufferFits p := by
  intro hun
  by_contra hnot
  push Not at hnot
  obtain ⟨hsize, hfirst⟩ := hnot
  have hpos := Nat.pos_of_ne_zero hsize
  have hblocks := (copyTo_blocks h hp).1
  obtain ⟨t, ht, hdpus, _⟩ := h ℕ strict _ strict_moves ⟨blank 0, fun y => if y = p then 1 else 0, fun _ => 0⟩
  have hrun := foldlM_range_of_some
    (fun j (s : Machine ℕ) => s.mem = (fun y => if y = p then 1 else 0) ∧ (j ≤ i → s.dpus i = blank 0 i) ∧
      (i < j → (s.dpus i).mram a.matrix.offset = 0)) ⟨rfl, fun _ => rfl, fun hi => absurd hi (Nat.not_lt_zero i)⟩
    (fun j _ u v ⟨hmem, hbefore, hafter⟩ hstep => by
      unfold Access.copyTo at hstep
      by_cases hij : j = i
      · subst hij
        rw [hp.2] at hstep
        dsimp only at hstep
        rw [if_neg (Bool.eq_false_iff.not.mpr (not_not.mpr hp.1)), if_neg hun] at hstep
        obtain ⟨y, hy, rfl⟩ := Option.map_eq_some_iff.mp hstep
        obtain ⟨q, hq, rfl⟩ := individual_first hblocks hun hpos hy
        refine ⟨hmem, fun hle => absurd hle (by omega), fun _ => ?_⟩
        dsimp only
        rw [Function.update_self]
        unfold transferred
        have hat := splice_add hpos a.matrix.offset (view q u.mem) (u.dpus j).mram
        rw [Nat.add_zero] at hat
        refine hat.trans ?_
        have hne : q + 0 ≠ p := fun heq => hfirst (hq.trans (congrArg some heq))
        unfold view
        rw [hmem]
        exact if_neg hne
      · have hother : v.mem = u.mem ∧ v.dpus i = u.dpus i := by
          cases hptr : a.matrix.ptr j with
          | none =>
            rw [hptr] at hstep
            rw [← Option.some.inj hstep]
            exact ⟨rfl, rfl⟩
          | some q =>
            rw [hptr] at hstep
            dsimp only at hstep
            split_ifs at hstep with hen hunq
            · rw [← Option.some.inj hstep]
              exact ⟨rfl, rfl⟩
            · obtain ⟨y, _, rfl⟩ := Option.map_eq_some_iff.mp hstep
              exact ⟨rfl, Function.update_of_ne (Ne.symm hij) _ _⟩
            · obtain ⟨y, _, rfl⟩ := Option.map_eq_some_iff.mp hstep
              exact ⟨rfl, Function.update_of_ne (Ne.symm hij) _ _⟩
        rw [hother.1, hother.2]
        exact ⟨hmem, fun hle => hbefore (by omega), fun hlt => hafter (by omega)⟩) ht
  have hend := hrun.2.2 (a.enabled_lt i hp.1)
  rw [hdpus] at hend
  unfold Access.writtenTo at hend
  rw [hp.2] at hend
  dsimp only at hend
  rw [if_pos hp.1, overlay_eq_splice] at hend
  have hat := splice_add hpos a.matrix.offset (view p fun y => if y = p then (1 : UInt8) else 0) (blank 0 i).mram
  rw [Nat.add_zero] at hat
  have hone : (if p + 0 = p then (1 : UInt8) else 0) = 0 := hat.symm.trans hend
  rw [if_pos (Nat.add_zero p)] at hone
  exact absurd hone (by decide)

/-- of two ranges of one length, neither contains the other -/
theorem exists_outside {p q n : ℕ} (hne : q ≠ p) (hpos : 0 < n) : ∃ k < n, ¬ (q ≤ p + k ∧ p + k < q + n) := by
  rcases Nat.lt_or_gt_of_ne hne with hlt | hgt
  · exact ⟨n - 1, by omega, by omega⟩
  · exact ⟨0, hpos, by omega⟩

/-- all bytes of the MRAMs are 1: where the first buffer does not reach, none arrives -/
theorem copyFrom_buffer (hd : a.Disjoint) (h : FromAgrees a) (hp : a.Buffer i p) : a.BufferFits p := by
  intro hun
  by_contra hnot
  push Not at hnot
  obtain ⟨hsize, hfirst⟩ := hnot
  have hpos := Nat.pos_of_ne_zero hsize
  have hblocks := copyFrom_blocks h hp
  obtain ⟨t, ht, _, hfilled, _⟩ := h ℕ strict _ strict_moves ⟨blank 1, fun _ => 0, fun _ => 0⟩
  -- a byte of the buffer outside the first one
  obtain ⟨k, hk, hout⟩ : ∃ k < a.matrix.size, ∀ q, a.matrix.ptr 0 = some q → ¬ (q ≤ p + k ∧ p + k < q + a.matrix.size) := by
    cases hptr : a.matrix.ptr 0 with
    | none => exact ⟨0, hpos, fun q hq => by cases hq⟩
    | some q =>
      obtain ⟨k, hk, hout⟩ := exists_outside (fun heq => hfirst (hptr.trans (congrArg some heq)) : q ≠ p) hpos
      refine ⟨k, hk, fun q' hq' => ?_⟩
      rw [← Option.some.inj hq']
      exact hout
  have hrun := foldlM_range_of_some (fun _ (s : Machine ℕ) => s.mem (p + k) = 0) rfl
    (fun j _ u v hmem hstep => by
      unfold Access.copyFrom at hstep
      cases hptr : a.matrix.ptr j with
      | none =>
        rw [hptr] at hstep
        rw [← Option.some.inj hstep]
        exact hmem
      | some r =>
        rw [hptr] at hstep
        dsimp only at hstep
        split_ifs at hstep with hen hunr
        · rw [← Option.some.inj hstep]
          exact hmem
        · obtain ⟨y, _, hy⟩ := Option.bind_eq_some_iff.mp hstep
          obtain ⟨b, _, rfl⟩ := Option.map_eq_some_iff.mp hy
          have hbuf : a.Buffer j r := ⟨Bool.eq_true_of_not_eq_false hen, hptr⟩
          dsimp only
          rw [splice_of_not]
          · exact hmem
          · rintro ⟨hlo, hhi⟩
            obtain rfl := hd i j p r (p + k) hp hbuf (Nat.le_add_right _ _) (Nat.add_lt_add_left hk p) hlo hhi
            obtain rfl := Option.some.inj (hp.2.symm.trans hptr)
            exact hun hunr
        · obtain ⟨y, hy, rfl⟩ := Option.map_eq_some_iff.mp hstep
          obtain ⟨q, hq, rfl⟩ := individual_first hblocks hunr hpos hy
          dsimp only
          rw [hq]
          unfold transferred
          dsimp only
          rw [congrFun (splice_view q a.matrix.size (view a.matrix.offset (u.dpus j).mram) u.mem) (p + k),
            splice_of_not (hout q hq)]
          exact hmem) ht
  have hone : (0 : UInt8) = 1 := hrun.symm.trans (hfilled i p hp k hk)
  exact absurd hone (by decide)

theorem toAgrees_iff (a : Access) : ToAgrees a ↔ ToFits a :=
  ⟨fun h _ _ hp => ⟨(copyTo_blocks h hp).1, copyTo_buffer h hp, (copyTo_blocks h hp).2⟩, toAgrees_of_fits⟩

theorem fromAgrees_iff (hd : a.Disjoint) : FromAgrees a ↔ FromFits a :=
  ⟨fun h _ _ hp => ⟨copyFrom_blocks h hp, copyFrom_buffer hd h hp⟩, fromAgrees_of_fits hd⟩

/-- **When the DPU program does what direct transfers do.** A write, if and only if for every enabled DPU with a buffer: the
blocks fit into the WRAM, a buffer that goes out as it is is the first of the matrix, and an end that is not aligned comes
with an aligned offset. A read into buffers that do not overlap, if and only if the first two hold. -/
theorem dpuProgram_agrees_iff (a : Access) : (ToAgrees a ↔ ToFits a) ∧ (a.Disjoint → (FromAgrees a ↔ FromFits a)) :=
  ⟨toAgrees_iff a, fromAgrees_iff⟩

end Converse

theorem twoBuffers_enabled (i : ℕ) (h : decide (i < 2) = true) : i < 2 := of_decide_eq_true h

/-- eight bytes for each of two DPUs, with the WRAM they have -/
def twoBuffers : Access where
  nrDpus := 2
  enabled i := decide (i < 2)
  wramSize := 16384
  matrix := ⟨fun i => if i = 0 then some 0 else if i = 1 then some 8 else none, 0, 8⟩
  enabled_lt := twoBuffers_enabled
  fits := by norm_num [mramSize]

/-- the second gets what the first should get -/
theorem twoBuffers_swapped : ¬ ToAgrees twoBuffers := by
  intro h
  have hun : ¬ twoBuffers.Unaligned 8 := by decide
  rcases copyTo_buffer h (show twoBuffers.Buffer 1 8 from ⟨rfl, rfl⟩) hun with hsize | hptr
  · exact absurd hsize (by decide)
  · exact absurd hptr (by decide)

/-- an unaligned read of one DPU -/
def oneBuffer : Access where
  nrDpus := 1
  enabled i := decide (i < 1)
  wramSize := 16384
  matrix := ⟨fun i => if i = 0 then some 1 else none, 3, 10⟩
  enabled_lt i h := of_decide_eq_true h
  fits := by norm_num [mramSize]

theorem fromAgrees_oneBuffer : FromAgrees oneBuffer := by
  apply ((dpuProgram_agrees_iff oneBuffer).2 ?_).mpr
  · rintro i p ⟨hi, hp⟩
    have hi0 : i = 0 := Nat.lt_one_iff.mp (of_decide_eq_true hi)
    subst hi0
    exact ⟨Or.inr ⟨by decide, Or.inl (by decide)⟩, fun _ => Or.inr hp⟩
  · rintro i j p q x ⟨hi, _⟩ ⟨hj, _⟩ _ _ _ _
    rw [Nat.lt_one_iff.mp (of_decide_eq_true hi), Nat.lt_one_iff.mp (of_decide_eq_true hj)]

end PimOfis.Mram.DpuProgram
