/-
`dpu_copy_from_wram_fifo` (`dpu_memory.c`), `dpu_fifo_push_xfer` (`api/dpu_memory.c`) and the readers of `dpu_fifo.c`: the
output FIFOs of a rank, with DPUs that put elements in at any moment.

A flush fetches the pointers of all enabled DPUs, word by word; if some FIFO is not empty it copies the whole rings of the
prepared DPUs; it writes the fetched write pointers over the read pointers of all enabled DPUs. Then the host reads its
copies with `get_fifo_size` and `get_fifo_elem`. Every transfer to or from one DPU is a step of its own, and the DPUs may
take any number of steps between two of them; a DPU puts an element in by writing the slot first and the pointer after it.

What the code gets wrong:
- the read pointers of enabled DPUs without a buffer move too;
- `dpu_fifo_push_xfer` for a single DPU starts a push whatever the direction of the FIFO is, so that the host advances the
  write pointers of the DPUs;
- `get_fifo_elem` takes and computes element numbers of eight bits;
- a pointer that carries into its high word between the reads of its two words is read wrong.

Results:
- `cellStep_holds`, `step_holds`: each step of a host or a DPU keeps the accounts of the FIFOs;
- `run_exact`: in any run in which the above does not happen, what the host has read, what it holds in its buffer and what
  is in the FIFO are together what the DPU has put in, in order.

Both words of a read pointer are written at once: with only the low word written a DPU finds its FIFO fuller than it is.
-/
import Mathlib.Tactic
import PimOfis.Api.FifoPush

namespace PimOfis.Api.Flush

open Lib RingBuf Fifo

/-- the rank, and the parameters of the FIFO -/
structure Rank where
  nrDpus : ℕ
  enabled : ℕ → Bool
  ptrSize : UInt8
  maxRetries : UInt32
  enabled_lt : ∀ i, enabled i = true → i < nrDpus
  /-- `MAX_FIFO_PTR_SIZE` -/
  ptr_le : ptrSize.toNat ≤ 10

variable {E : Type}

/-! ## What the host computes -/

def getFifoSize (p : Pointers) : UInt16 := (p.wr - p.rd).toUInt16

/-- the number of the element in the buffer, an `uint8_t` -/
def getFifoElemIndex (p : Pointers) (ptrSize i : UInt8) : UInt8 := (maskFifoPtr (p.rd + i.toUInt64) ptrSize).toUInt8

def getFifoElem (p : Pointers) (ptrSize : UInt8) (buf : ℕ → E) (i : UInt8) : E := buf (getFifoElemIndex p ptrSize i).toNat

/-- what the host reads of a FIFO, one element after the other -/
def readAll (p : Pointers) (ptrSize : UInt8) (buf : ℕ → E) : List E :=
  (List.range (getFifoSize p).toNat).map fun m => getFifoElem p ptrSize buf (UInt8.ofNat m)

def getFifoMaxSize (r : Rank) (ptr : ℕ → Pointers) : UInt16 :=
  (List.range r.nrDpus).foldl (fun sz i =>
    if r.enabled i = false then sz else if getFifoSize (ptr i) > sz then getFifoSize (ptr i) else sz) 0

/-- `swap_fifo_rd_wr_ptr` -/
def swap (p : Pointers) : Pointers := ⟨p.wr, p.rd⟩

inductive SetKind where
  | ranks
  | dpu
deriving DecidableEq

inductive Direction where
  | input
  | output
deriving DecidableEq

inductive JobType where
  | fifoPush
  | fifoFlush
deriving DecidableEq

/-- the job that `dpu_fifo_push_xfer` starts -/
def pushXferJob : SetKind → Direction → JobType
  | .ranks, .output => .fifoFlush
  | .ranks, .input => .fifoPush
  | .dpu, _ => .fifoPush

/-! ## The machine -/

inductive Phase where
  | idle
  | fetching
  | copying
  | writing
deriving DecidableEq

/-- one DPU: its FIFO, what the host has of it, and the progress of the flush -/
structure Cell (E : Type) where
  ring : RingBuf E
  /-- an element in the slot of the write pointer that the pointer does not count yet -/
  pending : Option E
  /-- all the DPU has put in -/
  pushed : List E
  /-- all the host has read -/
  got : List E
  /-- the entries in `dpu_fifo_pointers` -/
  ptr : Pointers
  /-- the DPU is in the transfer matrix, with this buffer -/
  buffered : Bool
  buf : ℕ → E
  /-- the write pointer as it was when its low word was read -/
  low : Option UInt64
  fetched : Bool
  uncopied : Finset ℕ
  moved : Bool

structure St (E : Type) where
  phase : Phase
  cell : ℕ → Cell E

/-- steps at one DPU -/
inductive CellAct (E : Type) where
  | store (x : E)
  | publish
  | readLow
  | readHigh
  | copy (j : ℕ)
  | writeRd

inductive Act (E : Type) where
  | dpu (i : ℕ) (a : CellAct E)
  /-- `dpu_fifo_push_xfer` on the output FIFOs, with the DPUs that have a buffer -/
  | call (kind : SetKind) (prepared : ℕ → Bool)
  /-- all pointers are there -/
  | size
  /-- all rings are copied -/
  | copied
  /-- all pointers are written; the host reads its buffers -/
  | finish

/-- a pointer of which the low word was read when it was `p` and the high word now -/
def torn (p q : UInt64) : UInt64 := (q >>> 32) <<< 32 ||| p &&& 0xFFFFFFFF

def cellStep (ptrSize : UInt8) (phase : Phase) (d : Cell E) : CellAct E → Option (Cell E)
  | .store x =>
    if d.pending.isNone ∧ isFifoFull ⟨d.ring.rd, d.ring.wr⟩ ptrSize = false then
      some { d with ring := d.ring.store (maskFifoPtr d.ring.wr ptrSize).toNat x, pending := some x }
    else none
  | .publish =>
    match d.pending with
    | some x => some { d with ring := d.ring.setWr (d.ring.wr + 1), pending := none, pushed := d.pushed ++ [x] }
    | none => none
  | .readLow => if phase = .fetching ∧ d.low = none then some { d with low := some d.ring.wr } else none
  | .readHigh =>
    match d.low with
    | some p =>
      if phase = .fetching ∧ d.fetched = false then some { d with ptr := ⟨d.ring.rd, torn p d.ring.wr⟩, fetched := true }
      else none
    | none => none
  | .copy j =>
    if phase = .copying ∧ j ∈ d.uncopied then
      some { d with buf := Function.update d.buf j (d.ring.slot j), uncopied := d.uncopied.erase j }
    else none
  | .writeRd => if phase = .writing ∧ d.moved = false then some { d with ring := d.ring.setRd d.ptr.rd, moved := true } else none

/-- the push that a call on one DPU starts, with the DPUs at rest -/
def pushJob (r : Rank) (s : St E) (prepared : ℕ → Bool) : Option (St E) :=
  let job : PushJob :=
    { r with
      buffered := fun i => prepared i && r.enabled i
      buffered_enabled := fun _ h => (Bool.and_eq_true_iff.mp h).2 }
  (dpuCopyToWramFifo job (fun i => (s.cell i).buf 0) ⟨fun _ _ => 0, fun _ _ => 0⟩ fun i => (s.cell i).ring).map fun t =>
    { s with cell := fun i => { s.cell i with ring := t.1 i } }

def writeBack (s : St E) : St E := ⟨.writing, fun i => { s.cell i with ptr := swap (s.cell i).ptr, moved := false }⟩

def step (r : Rank) (s : St E) : Act E → Option (St E)
  | .dpu i a =>
    if r.enabled i = true then
      (cellStep r.ptrSize s.phase (s.cell i) a).map fun d => { s with cell := Function.update s.cell i d }
    else none
  | .call kind prepared =>
    if s.phase = .idle then
      match pushXferJob kind .output with
      | .fifoFlush => some ⟨.fetching, fun i =>
          { s.cell i with buffered := prepared i && r.enabled i, low := none, fetched := false }⟩
      | .fifoPush => pushJob r s prepared
    else none
  | .size =>
    if s.phase = .fetching ∧ ∀ i < r.nrDpus, r.enabled i = true → (s.cell i).fetched = true then
      if getFifoMaxSize r (fun i => (s.cell i).ptr) = 0 then some (writeBack s)
      else some ⟨.copying, fun i =>
        { s.cell i with uncopied := if (s.cell i).buffered = true then Finset.range (2 ^ r.ptrSize.toNat) else ∅ }⟩
    else none
  | .copied =>
    if s.phase = .copying ∧ ∀ i < r.nrDpus, r.enabled i = true → (s.cell i).uncopied = ∅ then some (writeBack s) else none
  | .finish =>
    if s.phase = .writing ∧ ∀ i < r.nrDpus, r.enabled i = true → (s.cell i).moved = true then
      some ⟨.idle, fun i =>
        { s.cell i with
          ptr := swap (s.cell i).ptr
          got := (s.cell i).got ++
            if (s.cell i).buffered = true then readAll (swap (s.cell i).ptr) r.ptrSize (s.cell i).buf else [] }⟩
    else none

def run (r : Rank) (s : St E) : List (Act E) → Option (St E)
  | [] => some s
  | a :: as => (step r s a).bind fun t => run r t as

/-- before the first call: the host has read nothing -/
def start (rings : ℕ → RingBuf E) (ptr : ℕ → Pointers) (buf : ℕ → ℕ → E) (ptrSize : UInt8) : St E where
  phase := .idle
  cell i := ⟨rings i, none, (rings i).contents ptrSize.toNat, [], ptr i, false, buf i, none, false, ∅, false⟩

/-- what the host has copied, and the read pointer has passed, but the host has not yet read -/
def Cell.held (phase : Phase) (ptrSize : UInt8) (d : Cell E) : List E :=
  if phase = .writing ∧ d.moved = true ∧ d.buffered = true then readAll (swap d.ptr) ptrSize d.buf else []

/-- **The accounts.** What the DPU has put in is what the host has read, what it is about to read, and what is in the FIFO;
the write pointer has moved once for each element. -/
structure Exact (r : Rank) (rings : ℕ → RingBuf E) (s : St E) : Prop where
  total : ∀ i, r.enabled i = true →
    (s.cell i).pushed = (s.cell i).got ++ (s.cell i).held s.phase r.ptrSize ++ (s.cell i).ring.contents r.ptrSize.toNat
  wr : ∀ i, r.enabled i = true → (s.cell i).ring.wr = (rings i).rd + UInt64.ofNat (s.cell i).pushed.length

/-- the elements between the pointers can be read: none of the numbers involved is cut off -/
def Readable (ptrSize : UInt8) (rd wr : UInt64) : Prop :=
  ∀ m < (wr - rd).toNat, m < 256 ∧ place ptrSize.toNat (rd + UInt64.ofNat m) < 256

/-- the pointers of the DPU are read in order: no carry between the two words, and what they enclose goes into a buffer -/
def FetchFits (ptrSize : UInt8) (d : Cell E) : Prop :=
  ∀ p ∈ d.low, p >>> 32 = d.ring.wr >>> 32 ∧ (p = d.ring.rd ∨ d.buffered = true ∧ Readable ptrSize d.ring.rd p)

/-- what the host has to see to: calls are for ranks, and pointers are read in order -/
def Fits (r : Rank) (s : St E) : Act E → Prop
  | .call kind _ => kind = .ranks
  | .dpu i .readHigh => FetchFits r.ptrSize (s.cell i)
  | _ => True

/-- a run in which every step fits -/
def RunFits (r : Rank) (s : St E) : List (Act E) → Prop
  | [] => True
  | a :: as => Fits r s a ∧ ∀ t ∈ step r s a, RunFits r t as

instance (ptrSize : UInt8) (rd wr : UInt64) : Decidable (Readable ptrSize rd wr) :=
  inferInstanceAs (Decidable (∀ m < (wr - rd).toNat, m < 256 ∧ place ptrSize.toNat (rd + UInt64.ofNat m) < 256))

instance (ptrSize : UInt8) (d : Cell E) : Decidable (FetchFits ptrSize d) :=
  @Option.decidableForallMem _ _ (fun _ => inferInstanceAs (Decidable (_ ∧ _))) d.low

instance (r : Rank) (s : St E) : (a : Act E) → Decidable (Fits r s a)
  | .call kind _ => inferInstanceAs (Decidable (kind = .ranks))
  | .dpu i .readHigh => inferInstanceAs (Decidable (FetchFits r.ptrSize (s.cell i)))
  | .dpu _ (.store _) => isTrue trivial
  | .dpu _ .publish => isTrue trivial
  | .dpu _ .readLow => isTrue trivial
  | .dpu _ (.copy _) => isTrue trivial
  | .dpu _ .writeRd => isTrue trivial
  | .size => isTrue trivial
  | .copied => isTrue trivial
  | .finish => isTrue trivial

instance RunFits.decidable (r : Rank) (s : St E) : (acts : List (Act E)) → Decidable (RunFits r s acts)
  | [] => isTrue trivial
  | a :: as =>
    have := fun t => RunFits.decidable r t as
    inferInstanceAs (Decidable (Fits r s a ∧ ∀ t ∈ step r s a, RunFits r t as))

/-! ## Pointers that were fetched -/

section Fetched

variable {ptrSize : UInt8} {d : Cell E} {p : Pointers}

/-- without a carry, the pointer is the one whose low word was read -/
theorem torn_eq {p q : UInt64} (h : p >>> 32 = q >>> 32) : torn p q = p := by
  unfold torn
  rw [← h]
  apply UInt64.eq_of_toBitVec_eq
  ext i hi
  have hall : ∀ i < 64, BitVec.getLsbD (0xFFFFFFFF#64) i = decide (i < 32) := by decide
  have hmask := hall i hi
  clear hall h
  by_cases h32 : i < 32
  · rw [decide_eq_true h32] at hmask
    simp_all
  · rw [decide_eq_false h32] at hmask
    simp_all

theorem toNat_add_sub {n : ℕ} (hn : n < 2 ^ 64) (rd : UInt64) : (rd + UInt64.ofNat n - rd).toNat = n := by
  have hsub : rd + UInt64.ofNat n - rd = UInt64.ofNat n := by grind
  rw [hsub]
  exact UInt64.toNat_ofNat_of_lt' hn

/-- the pointers enclose the first elements of the FIFO, and if there are any, they can be read -/
def FetchedAt (ptrSize : UInt8) (d : Cell E) (p : Pointers) : Prop :=
  ∃ n ≤ d.ring.count, p = ⟨d.ring.rd, d.ring.rd + UInt64.ofNat n⟩ ∧
    (n = 0 ∨ d.buffered = true ∧ Readable ptrSize d.ring.rd (d.ring.rd + UInt64.ofNat n))

/-- outside `todo` the buffer has what is in the slots of these elements -/
def CopiedAt (ptrSize : UInt8) (d : Cell E) (p : Pointers) (todo : Finset ℕ) : Prop :=
  ∀ m < (p.wr - p.rd).toNat, place ptrSize.toNat (p.rd + UInt64.ofNat m) ∉ todo →
    d.buf (place ptrSize.toNat (p.rd + UInt64.ofNat m)) = d.ring.slot (place ptrSize.toNat (p.rd + UInt64.ofNat m))

theorem FetchedAt.size_le (h : FetchedAt ptrSize d p) : (p.wr - p.rd).toNat ≤ d.ring.count := by
  obtain ⟨n, hn, rfl, _⟩ := h
  dsimp only
  rw [toNat_add_sub (hn.trans_lt d.ring.count_lt)]
  exact hn

theorem FetchedAt.rd_eq (h : FetchedAt ptrSize d p) : p.rd = d.ring.rd := by
  obtain ⟨n, _, rfl, _⟩ := h
  rfl

theorem FetchedAt.buffered (h : FetchedAt ptrSize d p) (hpos : 0 < (p.wr - p.rd).toNat) :
    d.buffered = true ∧ Readable ptrSize p.rd p.wr := by
  obtain ⟨n, hn, rfl, hzero | hbuf⟩ := h
  · dsimp only at hpos
    rw [toNat_add_sub (hn.trans_lt d.ring.count_lt)] at hpos
    omega
  · exact hbuf

/-- all that matters stays when the DPU puts something in -/
theorem FetchedAt.grow {d' : Cell E} (h : FetchedAt ptrSize d p) (hrd : d'.ring.rd = d.ring.rd)
    (hcount : d.ring.count ≤ d'.ring.count) (hbuf : d'.buffered = d.buffered) : FetchedAt ptrSize d' p := by
  obtain ⟨n, hn, hp, hread⟩ := h
  refine ⟨n, hn.trans hcount, ?_, ?_⟩
  · rw [hrd]
    exact hp
  · rw [hrd, hbuf]
    exact hread

theorem CopiedAt.grow {d' : Cell E} {todo : Finset ℕ} (h : CopiedAt ptrSize d p todo) (hf : FetchedAt ptrSize d p)
    (hslot : ∀ m < d.ring.count, d'.ring.slot (place ptrSize.toNat (d.ring.rd + UInt64.ofNat m)) =
      d.ring.slot (place ptrSize.toNat (d.ring.rd + UInt64.ofNat m)))
    (hbuf : d'.buf = d.buf) : CopiedAt ptrSize d' p todo := by
  intro m hm htodo
  have hm' := hslot m (hm.trans_le hf.size_le)
  rw [← hf.rd_eq] at hm'
  rw [hbuf, hm']
  exact h m hm htodo

theorem getFifoSize_toNat (hk : ptrSize.toNat ≤ 10) (hok : d.ring.Ok ptrSize.toNat) (h : FetchedAt ptrSize d p) :
    (getFifoSize p).toNat = (p.wr - p.rd).toNat := by
  have hpow : 2 ^ ptrSize.toNat ≤ 2 ^ 10 := Nat.pow_le_pow_right (by norm_num) hk
  have hle : d.ring.count ≤ 2 ^ ptrSize.toNat := hok
  have hsize := h.size_le
  unfold getFifoSize
  rw [UInt64.toNat_toUInt16]
  exact Nat.mod_eq_of_lt (by omega)

/-- the host reads the elements that the pointers enclose -/
theorem readAll_eq (hk : ptrSize.toNat ≤ 10) (hok : d.ring.Ok ptrSize.toNat) (h : FetchedAt ptrSize d p)
    (hcopied : CopiedAt ptrSize d p ∅) :
    readAll p ptrSize d.buf = (d.ring.contents ptrSize.toNat).take (p.wr - p.rd).toNat := by
  unfold readAll
  rw [getFifoSize_toNat hk hok h]
  apply List.ext_getElem
  · rw [List.length_map, List.length_range, List.length_take, length_contents, Nat.min_eq_left h.size_le]
  · intro m hm _
    rw [List.length_map, List.length_range] at hm
    obtain ⟨hbyte, hplace⟩ := (h.buffered (Nat.zero_lt_of_lt hm)).2 m hm
    have helem : (UInt8.ofNat m).toUInt64 = UInt64.ofNat m := by
      rw [← UInt64.toNat_inj, UInt8.toNat_toUInt64, UInt8.toNat_ofNat_of_lt' hbyte,
        UInt64.toNat_ofNat_of_lt' (hbyte.trans (by norm_num))]
    rw [List.getElem_map, List.getElem_range, List.getElem_take, getElem_contents]
    unfold getFifoElem getFifoElemIndex
    rw [UInt64.toNat_toUInt8, helem, maskFifoPtr_toNat hk, Nat.mod_eq_of_lt hplace, ← h.rd_eq]
    exact hcopied m hm (Finset.notMem_empty _)

/-- and the read pointer moves past these -/
theorem setRd_eq (h : FetchedAt ptrSize d p) : d.ring.setRd p.wr = d.ring.drain (p.wr - p.rd).toNat := by
  have hsize := h.size_le
  obtain ⟨n, hn, rfl, _⟩ := h
  dsimp only at hsize ⊢
  rw [toNat_add_sub (hn.trans_lt d.ring.count_lt)]
  unfold drain
  rw [Nat.min_eq_left hn]
  rfl

end Fetched

/-! ## What the steps keep -/

section Steps

variable {ptrSize : UInt8} {rd₀ : UInt64} {phase : Phase} {d : Cell E}

/-- what holds of a DPU at any moment -/
structure Holds (ptrSize : UInt8) (rd₀ : UInt64) (phase : Phase) (d : Cell E) : Prop where
  ok : d.ring.Ok ptrSize.toNat
  pending : ∀ x, d.pending = some x → d.ring.count < 2 ^ ptrSize.toNat ∧ d.ring.slot (place ptrSize.toNat d.ring.wr) = x
  wr : d.ring.wr = rd₀ + UInt64.ofNat d.pushed.length
  total : d.pushed = d.got ++ d.held phase ptrSize ++ d.ring.contents ptrSize.toNat
  low : phase = .fetching → ∀ p, d.low = some p → ∃ n ≤ d.ring.count, p = d.ring.rd + UInt64.ofNat n
  fetched : phase = .fetching → d.fetched = true → FetchedAt ptrSize d d.ptr
  copying : phase = .copying → FetchedAt ptrSize d d.ptr ∧ CopiedAt ptrSize d d.ptr d.uncopied
  writing : phase = .writing → d.moved = false → FetchedAt ptrSize d (swap d.ptr) ∧ CopiedAt ptrSize d (swap d.ptr) ∅

/-- The DPU at work: the elements in the FIFO stay where they are, and `l` comes after them. -/
theorem Holds.grow (h : Holds ptrSize rd₀ phase d) (ring : RingBuf E) (pending : Option E) (l : List E)
    (hrd : ring.rd = d.ring.rd) (hcount : d.ring.count ≤ ring.count)
    (hslot : ∀ m < d.ring.count, ring.slot (place ptrSize.toNat (d.ring.rd + UInt64.ofNat m)) =
      d.ring.slot (place ptrSize.toNat (d.ring.rd + UInt64.ofNat m)))
    (hok : ring.Ok ptrSize.toNat)
    (hpending : ∀ x, pending = some x → ring.count < 2 ^ ptrSize.toNat ∧ ring.slot (place ptrSize.toNat ring.wr) = x)
    (hwr : ring.wr = d.ring.wr + UInt64.ofNat l.length)
    (hcontents : ring.contents ptrSize.toNat = d.ring.contents ptrSize.toNat ++ l) :
    Holds ptrSize rd₀ phase { d with ring := ring, pending := pending, pushed := d.pushed ++ l } where
  ok := hok
  pending := hpending
  wr := by
    dsimp only
    rw [hwr, h.wr, List.length_append, UInt64.ofNat_add, UInt64.add_assoc]
  total := by
    dsimp only
    rw [hcontents, h.total, ← List.append_assoc]
    rfl
  low hph p hp := by
    obtain ⟨n, hn, heq⟩ := h.low hph p hp
    refine ⟨n, hn.trans hcount, ?_⟩
    dsimp only
    rw [hrd]
    exact heq
  fetched hph hf := (h.fetched hph hf).grow hrd hcount rfl
  copying hph := ⟨(h.copying hph).1.grow hrd hcount rfl, (h.copying hph).2.grow (h.copying hph).1 hslot rfl⟩
  writing hph hm := ⟨(h.writing hph hm).1.grow hrd hcount rfl, (h.writing hph hm).2.grow (h.writing hph hm).1 hslot rfl⟩

theorem Holds.store (h : Holds ptrSize rd₀ phase d) (hk : ptrSize.toNat ≤ 10) (x : E)
    (hroom : isFifoFull ⟨d.ring.rd, d.ring.wr⟩ ptrSize = false) :
    Holds ptrSize rd₀ phase { d with ring := d.ring.store (maskFifoPtr d.ring.wr ptrSize).toNat x, pending := some x } := by
  have hk' : ptrSize.toNat < 64 := hk.trans_lt (by norm_num)
  have hlt : d.ring.count < 2 ^ ptrSize.toNat := by
    have hiff := isFifoFull_iff hk h.ok
    rw [hroom] at hiff
    exact lt_of_le_of_ne h.ok fun heq => absurd (hiff.mpr heq) Bool.false_ne_true
  rw [maskFifoPtr_toNat hk]
  have hgrow := h.grow (d.ring.store (place ptrSize.toNat d.ring.wr) x) (some x) [] rfl le_rfl
    (fun m hm => slot_push hk' hlt x hm) h.ok
    (fun y hy => ⟨hlt, by rw [← Option.some.inj hy]; exact Function.update_self ..⟩)
    (UInt64.add_zero _).symm (by rw [contents_store hk' hlt, List.append_nil])
  rw [List.append_nil] at hgrow
  exact hgrow

theorem Holds.publish (h : Holds ptrSize rd₀ phase d) (hk : ptrSize.toNat ≤ 10) {x : E} (hx : d.pending = some x) :
    Holds ptrSize rd₀ phase
      { d with ring := d.ring.setWr (d.ring.wr + 1), pending := none, pushed := d.pushed ++ [x] } := by
  have hk' : ptrSize.toNat < 64 := hk.trans_lt (by norm_num)
  obtain ⟨hroom, hslot⟩ := h.pending x hx
  have hpush : d.ring.setWr (d.ring.wr + 1) = push ptrSize.toNat x d.ring := by
    unfold push RingBuf.store
    rw [← hslot, Function.update_eq_self]
  apply h.grow
  · rfl
  · rw [hpush, count_push hk' hroom]
    exact Nat.le_succ _
  · exact fun m _ => rfl
  · rw [hpush]
    exact push_ok hk' hroom x
  · intro y hy
    cases hy
  · rfl
  · rw [hpush, contents_push hk' hroom]

theorem Holds.readLow (h : Holds ptrSize rd₀ phase d) : Holds ptrSize rd₀ phase { d with low := some d.ring.wr } :=
  { h with
    low := fun _ p hp => ⟨d.ring.count, le_rfl, by rw [← Option.some.inj hp]; exact wr_eq d.ring⟩ }

theorem Holds.readHigh (h : Holds ptrSize rd₀ .fetching d) {p : UInt64} (hp : d.low = some p) (hfit : FetchFits ptrSize d) :
    Holds ptrSize rd₀ .fetching { d with ptr := ⟨d.ring.rd, torn p d.ring.wr⟩, fetched := true } := by
  obtain ⟨hcarry, hread⟩ := hfit p hp
  obtain ⟨n, hn, heq⟩ := h.low rfl p hp
  have hfetched : FetchedAt ptrSize d ⟨d.ring.rd, torn p d.ring.wr⟩ := by
    refine ⟨n, hn, by rw [torn_eq hcarry, heq], ?_⟩
    rw [← heq]
    refine hread.imp_left fun hempty => ?_
    have hsize := toNat_add_sub (hn.trans_lt d.ring.count_lt) d.ring.rd
    rw [← heq, hempty, UInt64.sub_self] at hsize
    exact hsize.symm
  exact
    { h with
      fetched := fun _ _ => hfetched
      copying := fun hph => by cases hph
      writing := fun hph => by cases hph }

theorem Holds.copy (h : Holds ptrSize rd₀ .copying d) (j : ℕ) :
    Holds ptrSize rd₀ .copying
      { d with buf := Function.update d.buf j (d.ring.slot j), uncopied := d.uncopied.erase j } := by
  obtain ⟨hf, hc⟩ := h.copying rfl
  refine
    { h with
      fetched := fun hph => by cases hph
      copying := fun _ => ⟨hf, fun m hm htodo => ?_⟩
      writing := fun hph => by cases hph }
  dsimp only at hm htodo ⊢
  by_cases hj : place ptrSize.toNat (d.ptr.rd + UInt64.ofNat m) = j
  · rw [hj, Function.update_self]
  · rw [Function.update_of_ne hj]
    exact hc m hm fun hmem => htodo (Finset.mem_erase.mpr ⟨hj, hmem⟩)

theorem Holds.writeRd (h : Holds ptrSize rd₀ .writing d) (hk : ptrSize.toNat ≤ 10) (hm : d.moved = false) :
    Holds ptrSize rd₀ .writing { d with ring := d.ring.setRd d.ptr.rd, moved := true } := by
  obtain ⟨hf, hc⟩ := h.writing rfl hm
  have hring : d.ring.setRd d.ptr.rd = d.ring.drain (d.ptr.rd - d.ptr.wr).toNat := setRd_eq hf
  have hcount : (d.ring.setRd d.ptr.rd).count ≤ d.ring.count := by
    rw [hring, count_drain]
    exact Nat.sub_le _ _
  have htotal := h.total
  unfold Cell.held at htotal
  rw [if_neg fun hcond => Bool.eq_false_iff.mp hm hcond.2.1, List.append_nil] at htotal
  constructor
  · rw [hring]
    exact drain_ok h.ok _
  · intro x hx
    exact ⟨hcount.trans_lt (h.pending x hx).1, (h.pending x hx).2⟩
  · exact h.wr
  · dsimp only
    rw [htotal, hring, contents_drain, List.append_assoc, List.append_cancel_left_eq]
    unfold Cell.held
    dsimp only
    split_ifs with hcond
    · rw [readAll_eq hk h.ok hf hc]
      exact (List.take_append_drop _ _).symm
    · have hzero : (d.ptr.rd - d.ptr.wr).toNat = 0 := by
        by_contra hne
        exact hcond ⟨rfl, rfl, (hf.buffered (Nat.pos_of_ne_zero hne)).1⟩
      rw [hzero]
      rfl
  · intro hph
    cases hph
  · intro hph
    cases hph
  · intro hph
    cases hph
  · intro _ hmoved
    cases hmoved

/-- **A step at a DPU** keeps all this. -/
theorem cellStep_holds (hk : ptrSize.toNat ≤ 10) (h : Holds ptrSize rd₀ phase d) {a : CellAct E} {d' : Cell E}
    (hfit : a = .readHigh → FetchFits ptrSize d) (hstep : cellStep ptrSize phase d a = some d') :
    Holds ptrSize rd₀ phase d' := by
  cases a with
  | store x =>
    dsimp only [cellStep] at hstep
    split_ifs at hstep with hcond
    rw [← Option.some.inj hstep]
    exact h.store hk x hcond.2
  | publish =>
    dsimp only [cellStep] at hstep
    split at hstep
    · rename_i x hx
      rw [← Option.some.inj hstep]
      exact h.publish hk hx
    · cases hstep
  | readLow =>
    dsimp only [cellStep] at hstep
    split_ifs at hstep with hcond
    rw [← Option.some.inj hstep]
    exact h.readLow
  | readHigh =>
    dsimp only [cellStep] at hstep
    split at hstep
    · rename_i p hp
      split_ifs at hstep with hcond
      rw [← Option.some.inj hstep]
      obtain ⟨rfl, _⟩ := hcond
      exact h.readHigh hp (hfit rfl)
    · cases hstep
  | copy j =>
    dsimp only [cellStep] at hstep
    split_ifs at hstep with hcond
    rw [← Option.some.inj hstep]
    obtain ⟨rfl, _⟩ := hcond
    exact h.copy j
  | writeRd =>
    dsimp only [cellStep] at hstep
    split_ifs at hstep with hcond
    rw [← Option.some.inj hstep]
    obtain ⟨rfl, hm⟩ := hcond
    exact h.writeRd hk hm

/-- the host starts to write pointers back -/
theorem Holds.writeBack (h : Holds ptrSize rd₀ phase d) (hph : phase = .fetching ∨ phase = .copying)
    (hf : FetchedAt ptrSize d d.ptr) (hc : CopiedAt ptrSize d d.ptr ∅) :
    Holds ptrSize rd₀ .writing { d with ptr := swap d.ptr, moved := false } where
  ok := h.ok
  pending := h.pending
  wr := h.wr
  total := by
    have htotal := h.total
    unfold Cell.held at htotal ⊢
    rw [if_neg fun hcond => by rcases hph with rfl | rfl <;> cases hcond.1] at htotal
    rw [if_neg fun hcond => Bool.false_ne_true hcond.2.1]
    exact htotal
  low hph := by cases hph
  fetched hph := by cases hph
  copying hph := by cases hph
  writing _ _ := ⟨hf, hc⟩

theorem Holds.call (h : Holds ptrSize rd₀ .idle d) (prepared : Bool) :
    Holds ptrSize rd₀ .fetching { d with buffered := prepared, low := none, fetched := false } where
  ok := h.ok
  pending := h.pending
  wr := h.wr
  total := h.total
  low _ p hp := by cases hp
  fetched _ hf := by cases hf
  copying hph := by cases hph
  writing hph := by cases hph

/-- a FIFO without a buffer has nothing to copy -/
theorem Holds.startCopy (h : Holds ptrSize rd₀ .fetching d) (hf : FetchedAt ptrSize d d.ptr) :
    Holds ptrSize rd₀ .copying
      { d with uncopied := if d.buffered = true then Finset.range (2 ^ ptrSize.toNat) else ∅ } where
  ok := h.ok
  pending := h.pending
  wr := h.wr
  total := h.total
  low hph := by cases hph
  fetched hph := by cases hph
  copying _ := by
    refine ⟨hf, fun m hm htodo => ?_⟩
    have hbuf := (hf.buffered (Nat.zero_lt_of_lt hm)).1
    dsimp only at htodo
    rw [if_pos hbuf, Finset.mem_range] at htodo
    exact absurd (Nat.mod_lt _ (Nat.two_pow_pos _)) htodo
  writing hph := by cases hph

theorem Holds.finish (h : Holds ptrSize rd₀ .writing d) (hm : d.moved = true) :
    Holds ptrSize rd₀ .idle { d with
      ptr := swap d.ptr
      got := d.got ++ if d.buffered = true then readAll (swap d.ptr) ptrSize d.buf else [] } where
  ok := h.ok
  pending := h.pending
  wr := h.wr
  total := by
    rw [h.total]
    unfold Cell.held
    by_cases hbuf : d.buffered = true
    · rw [if_pos ⟨rfl, hm, hbuf⟩]
      simp [hbuf]
    · rw [if_neg fun hcond => hbuf hcond.2.2]
      simp [hbuf]
  low hph := by cases hph
  fetched hph := by cases hph
  copying hph := by cases hph
  writing hph := by cases hph

/-- no FIFO is longer than the longest -/
theorem le_getFifoMaxSize (r : Rank) (ptr : ℕ → Pointers) {i : ℕ} (hi : r.enabled i = true) :
    (getFifoSize (ptr i)).toNat ≤ (getFifoMaxSize r ptr).toNat := by
  have hrange : ∀ n, ∀ i < n, r.enabled i = true → (getFifoSize (ptr i)).toNat ≤
      ((List.range n).foldl (fun sz i => if r.enabled i = false then sz
        else if getFifoSize (ptr i) > sz then getFifoSize (ptr i) else sz) 0).toNat := by
    intro n
    induction n with
    | zero => exact fun i hi => absurd hi (Nat.not_lt_zero i)
    | succ n ih =>
      intro i hin hi
      rw [List.range_succ, List.foldl_append, List.foldl_cons, List.foldl_nil]
      rcases Nat.lt_succ_iff_lt_or_eq.mp hin with hlt | rfl
      · have hle := ih i hlt hi
        split_ifs with hen hgt
        · exact hle
        · exact hle.trans (UInt16.lt_iff_toNat_lt.mp hgt).le
        · exact hle
      · rw [if_neg (Bool.eq_false_iff.not.mpr (not_not.mpr hi))]
        split_ifs with hgt
        · exact le_rfl
        · exact Nat.not_lt.mp (mt UInt16.lt_iff_toNat_lt.mpr hgt)
  exact hrange r.nrDpus i (r.enabled_lt i hi) hi

/-- **A step of the machine** keeps the accounts of all DPUs. -/
theorem step_holds (r : Rank) {rd : ℕ → UInt64} {s t : St E} {a : Act E}
    (h : ∀ i, r.enabled i = true → Holds r.ptrSize (rd i) s.phase (s.cell i)) (hfit : Fits r s a)
    (hstep : step r s a = some t) :
    ∀ i, r.enabled i = true → Holds r.ptrSize (rd i) t.phase (t.cell i) := by
  intro i hi
  have hi' := h i hi
  cases a with
  | dpu j a =>
    dsimp only [step] at hstep
    split_ifs at hstep with hj
    obtain ⟨d, hd, rfl⟩ := Option.map_eq_some_iff.mp hstep
    have hcell := cellStep_holds r.ptr_le (h j hj) (fun ha => by rw [ha] at hfit; exact hfit) hd
    dsimp only
    by_cases hij : i = j
    · rw [hij, Function.update_self]
      exact hcell
    · rw [Function.update_of_ne hij]
      exact hi'
  | call kind prepared =>
    obtain rfl : kind = .ranks := hfit
    dsimp only [step, pushXferJob] at hstep
    split_ifs at hstep with hph
    rw [hph] at hi'
    rw [← Option.some.inj hstep]
    exact hi'.call _
  | size =>
    dsimp only [step] at hstep
    split_ifs at hstep with hcond hzero
    · rw [← Option.some.inj hstep]
      have hf := hi'.fetched hcond.1 (hcond.2 i (r.enabled_lt i hi) hi)
      refine hi'.writeBack (Or.inl hcond.1) hf fun m hm _ => ?_
      have hle := le_getFifoMaxSize r (fun i => (s.cell i).ptr) hi
      rw [hzero, getFifoSize_toNat r.ptr_le hi'.ok hf] at hle
      exact absurd (hm.trans_le hle) (Nat.not_lt_zero m)
    · rw [← Option.some.inj hstep]
      have hf := hi'.fetched hcond.1 (hcond.2 i (r.enabled_lt i hi) hi)
      rw [hcond.1] at hi'
      exact hi'.startCopy hf
  | copied =>
    dsimp only [step] at hstep
    split_ifs at hstep with hcond
    rw [← Option.some.inj hstep]
    obtain ⟨hf, hc⟩ := hi'.copying hcond.1
    rw [hcond.2 i (r.enabled_lt i hi) hi] at hc
    exact hi'.writeBack (Or.inr hcond.1) hf hc
  | finish =>
    dsimp only [step] at hstep
    split_ifs at hstep with hcond
    rw [← Option.some.inj hstep]
    rw [hcond.1] at hi'
    exact hi'.finish (hcond.2 i (r.enabled_lt i hi) hi)

end Steps

/-! ## Runs -/

theorem start_holds {rings : ℕ → RingBuf E} {ptrSize : UInt8} (hok : ∀ i, (rings i).Ok ptrSize.toNat) (ptr : ℕ → Pointers)
    (buf : ℕ → ℕ → E) (i : ℕ) :
    Holds ptrSize (rings i).rd (start rings ptr buf ptrSize).phase ((start rings ptr buf ptrSize).cell i) where
  ok := hok i
  pending x hx := by cases hx
  wr := by
    change _ = _ + UInt64.ofNat ((rings i).contents ptrSize.toNat).length
    rw [length_contents]
    exact wr_eq (rings i)
  total := rfl
  low hph := by cases hph
  fetched hph := by cases hph
  copying hph := by cases hph
  writing hph := by cases hph

theorem run_holds (r : Rank) {rd : ℕ → UInt64} (acts : List (Act E)) {s t : St E}
    (h : ∀ i, r.enabled i = true → Holds r.ptrSize (rd i) s.phase (s.cell i)) (hfits : RunFits r s acts)
    (hrun : run r s acts = some t) : ∀ i, r.enabled i = true → Holds r.ptrSize (rd i) t.phase (t.cell i) := by
  induction acts generalizing s with
  | nil =>
    rw [← Option.some.inj hrun]
    exact h
  | cons a acts ih =>
    obtain ⟨u, hu, hrun⟩ := Option.bind_eq_some_iff.mp hrun
    exact ih (step_holds r h hfits.1 hu) (hfits.2 u hu) hrun

/-- **Flushes neither lose nor duplicate elements.** Start with any FIFOs, any pointers on the host and any buffers, and let
the host make any calls and the DPUs put in elements at any moment. As long as the calls are for ranks and each pair of
pointers is read in order, the accounts balance for every enabled DPU in every state that is reached. -/
theorem run_exact (r : Rank) (rings : ℕ → RingBuf E) (ptr : ℕ → Pointers) (buf : ℕ → ℕ → E) (acts : List (Act E)) (t : St E)
    (hok : ∀ i, (rings i).Ok r.ptrSize.toNat) (hfits : RunFits r (start rings ptr buf r.ptrSize) acts)
    (hrun : run r (start rings ptr buf r.ptrSize) acts = some t) : Exact r rings t := by
  have h := run_holds r acts (fun i _ => start_holds hok ptr buf i) hfits hrun
  exact ⟨fun i hi => (h i hi).total, fun i hi => (h i hi).wr⟩

/-- a rank with one DPU, which has a FIFO of four elements -/
def oneDpu : Rank where
  nrDpus := 1
  enabled i := decide (i = 0)
  ptrSize := 2
  maxRetries := 1000
  enabled_lt i h := by
    rw [of_decide_eq_true h]
    exact Nat.one_pos
  ptr_le := Fifo.two_le_ten

def emptyRings : ℕ → RingBuf ℕ := fun _ => ⟨0, 0, fun _ => 0⟩

/-- a flush, with another element put in between the reads of the pointers and the copies -/
def oneFlush (prepared : Bool) : List (Act ℕ) :=
  [.dpu 0 (.store 7), .dpu 0 .publish, .call .ranks fun _ => prepared, .dpu 0 .readLow, .dpu 0 .readHigh,
    .dpu 0 (.store 8), .dpu 0 .publish, .size] ++
  (if prepared then (List.range 4).map fun j => .dpu 0 (.copy j) else []) ++ [.copied, .dpu 0 .writeRd, .finish]

/-- with a buffer, the host gets the first element, and the second stays in the FIFO -/
theorem run_exact_oneFlush :
    ∃ t, run oneDpu (start emptyRings (fun _ => ⟨0, 0⟩) (fun _ _ => 0) 2) (oneFlush true) = some t ∧
      Exact oneDpu emptyRings t := by
  have hsome : (run oneDpu (start emptyRings (fun _ => ⟨0, 0⟩) (fun _ _ => 0) 2) (oneFlush true)).isSome = true := by
    decide +kernel
  obtain ⟨t, ht⟩ := Option.isSome_iff_exists.mp hsome
  have hok : ∀ i, (emptyRings i).Ok oneDpu.ptrSize.toNat := by
    intro i
    change ((0 : UInt64) - 0).toNat ≤ 2 ^ 2
    decide
  exact ⟨t, ht, run_exact oneDpu emptyRings _ _ _ t hok (by decide +kernel) ht⟩

/-- without a buffer the first element is lost: the read pointer moves, and no one has the element -/
theorem oneFlush_loses :
    ¬ ∀ (acts : List (Act ℕ)) (t : St ℕ),
      run oneDpu (start emptyRings (fun _ => ⟨0, 0⟩) (fun _ _ => 0) 2) acts = some t → Exact oneDpu emptyRings t := by
  intro h
  have hrun : (run oneDpu (start emptyRings (fun _ => ⟨0, 0⟩) (fun _ _ => 0) 2) (oneFlush false)).map
      (fun t => ((t.cell 0).pushed, (t.cell 0).got ++ (t.cell 0).held t.phase 2 ++ (t.cell 0).ring.contents 2)) =
        some ([7, 8], [8]) := by decide +kernel
  obtain ⟨t, ht, hlists⟩ := Option.map_eq_some_iff.mp hrun
  obtain ⟨hpushed, hrest⟩ := Prod.mk.inj hlists
  have htotal := (h _ t ht).total 0 rfl
  change _ = _ ++ (t.cell 0).held t.phase 2 ++ (t.cell 0).ring.contents 2 at htotal
  rw [hpushed, hrest] at htotal
  exact absurd htotal (by decide)

end PimOfis.Api.Flush
