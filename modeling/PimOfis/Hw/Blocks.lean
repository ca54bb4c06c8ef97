/-
The iterator of the scatter/gather transfers over a list of host blocks (`xeon_sp_translation.c`).

The blocks of a DPU are read, or written, as one stream of bytes, eight at a time. Beyond the last block the arrays of a
`struct sg_xfer_buffer` have room for one entry more, where `init_sg_xfer_buffer_iterator` puts the static block `zeros`
of 4096 bytes; its bytes come again and again. `write_next_eight_bytes` stores nothing once the iterator is there, but the
word in which the blocks end is stored in full. `uint32_t` sums are taken modulo `2 ^ 32`.

Results:
- `placeAt_eq`: the stream is the addresses of the blocks in order, then `zeros`;
- `getNextEightBytes_spec`, `writeNextEightBytes_spec`: eight places further in the stream, whatever the lengths.
-/
import Mathlib.Tactic

namespace PimOfis.Hw

/-! ## Model -/

/-- one entry of `blocks_addr` and `blocks_length` -/
structure Block where
  addr : ℕ
  length : ℕ
deriving DecidableEq, Repr

/-- where a byte of the stream lies -/
inductive Place where
  | host (addr : ℕ)
  | zeros (i : ℕ)
deriving DecidableEq, Repr

/-- `struct sg_xfer_buffer_iterator`: the blocks from the current one on, and none at the block of zeros -/
structure Iterator where
  blocks : List Block
  currentBlockIndex : ℕ
deriving Repr

def Iterator.currentBlockLength (sgIt : Iterator) : ℕ :=
  match sgIt.blocks with
  | block :: _ => block.length
  | [] => 4096

/-- the address of `current_block_addr[i]` -/
def Iterator.currentBlockAddr (sgIt : Iterator) (i : ℕ) : Place :=
  match sgIt.blocks with
  | block :: _ => .host (block.addr + i)
  | [] => .zeros i

def initSgXferBufferIterator (sgBuff : List Block) : Iterator := ⟨sgBuff, 0⟩

def goToNextBlock (sgIt : Iterator) : Iterator := ⟨sgIt.blocks.tail, 0⟩

def getNextByte (sgIt : Iterator) : Place × Iterator :=
  let index := (sgIt.currentBlockIndex + 1) % 2 ^ 32
  (sgIt.currentBlockAddr sgIt.currentBlockIndex,
    if index = sgIt.currentBlockLength then
      if sgIt.blocks ≠ [] then goToNextBlock sgIt else { sgIt with currentBlockIndex := 0 }
    else { sgIt with currentBlockIndex := index })

/-- the loop of `get_next_eight_bytes` and `write_next_eight_bytes` over single bytes -/
def getNextBytes : ℕ → Iterator → List Place × Iterator
  | 0, sgIt => ([], sgIt)
  | n + 1, sgIt =>
    let byte := getNextByte sgIt
    let bytes := getNextBytes n byte.2
    (byte.1 :: bytes.1, bytes.2)

/-- `get_next_eight_bytes`: the places that are read -/
def getNextEightBytes (sgIt : Iterator) : List Place × Iterator :=
  let length := sgIt.currentBlockLength
  let current := sgIt.currentBlockIndex
  let word := (List.range 8).map fun i => sgIt.currentBlockAddr (current + i)
  if (8 + current) % 2 ^ 32 < length then (word, { sgIt with currentBlockIndex := (current + 8) % 2 ^ 32 })
  else if length = (8 + current) % 2 ^ 32 then (word, goToNextBlock sgIt)
  else getNextBytes 8 sgIt

/-- `write_next_eight_bytes`: the places that are stored to, the same ones -/
def writeNextEightBytes (sgIt : Iterator) : List Place × Iterator :=
  if sgIt.blocks = [] then ([], sgIt) else getNextEightBytes sgIt

/-! ## The stream -/

/-- the addresses of the bytes of the blocks, in order -/
def addresses (blocks : List Block) : List ℕ :=
  blocks.flatMap fun block => (List.range block.length).map fun i => block.addr + i

/-- place `n` of the stream -/
def placeAt : List Block → ℕ → Place
  | [], n => .zeros (n % 4096)
  | block :: blocks, n => if n < block.length then .host (block.addr + n) else placeAt blocks (n - block.length)

theorem addresses_cons (block : Block) (blocks : List Block) :
    addresses (block :: blocks) = ((List.range block.length).map fun i => block.addr + i) ++ addresses blocks := List.flatMap_cons

theorem length_addresses_cons (block : Block) (blocks : List Block) :
    (addresses (block :: blocks)).length = block.length + (addresses blocks).length := by
  rw [addresses_cons, List.length_append, List.length_map, List.length_range]

/-- **The stream** is the addresses of the blocks, then the block of zeros again and again. -/
theorem placeAt_eq (blocks : List Block) (n : ℕ) :
    placeAt blocks n =
      match (addresses blocks)[n]? with
      | some addr => .host addr
      | none => .zeros ((n - (addresses blocks).length) % 4096) := by
  induction blocks generalizing n with
  | nil => rfl
  | cons block blocks ih =>
    have hlen : ((List.range block.length).map fun i => block.addr + i).length = block.length := by
      rw [List.length_map, List.length_range]
    rw [placeAt, length_addresses_cons, addresses_cons]
    by_cases hn : n < block.length
    · rw [if_pos hn, List.getElem?_append_left (by rw [hlen]; exact hn), List.getElem?_map, List.getElem?_range hn]
      rfl
    · rw [if_neg hn, ih, List.getElem?_append_right (by rw [hlen]; exact Nat.le_of_not_lt hn), hlen, Nat.sub_add_eq]

theorem placeAt_of_lt {blocks : List Block} {n : ℕ} (h : n < (addresses blocks).length) :
    placeAt blocks n = .host ((addresses blocks)[n]) := by
  rw [placeAt_eq, List.getElem?_eq_getElem h]

/-- empty blocks add nothing to the stream -/
theorem addresses_filter (blocks : List Block) : addresses (blocks.filter fun block => block.length ≠ 0) = addresses blocks := by
  induction blocks with
  | nil => rfl
  | cons block blocks ih =>
    by_cases hb : block.length = 0
    · rw [List.filter_cons_of_neg (by simp [hb]), ih, addresses_cons, hb]
      rfl
    · rw [List.filter_cons_of_pos (by simp [hb]), addresses_cons, addresses_cons, ih]

/-! ## The iterator -/

/-- the iterator has come to place `n` of the stream -/
structure At (blocks : List Block) (n : ℕ) (sgIt : Iterator) : Prop where
  stream : ∀ j, placeAt blocks (n + j) = placeAt sgIt.blocks (sgIt.currentBlockIndex + j)
  index : sgIt.currentBlockIndex < sgIt.currentBlockLength
  filled : ∀ block ∈ sgIt.blocks, 0 < block.length
  left : (addresses blocks).length - n = (addresses sgIt.blocks).length - sgIt.currentBlockIndex
  le : sgIt.currentBlockIndex ≤ n

theorem at_init {blocks : List Block} (h : ∀ block ∈ blocks, 0 < block.length) : At blocks 0 (initSgXferBufferIterator blocks) := by
  refine ⟨fun j => rfl, ?_, h, rfl, le_rfl⟩
  cases blocks with
  | nil => exact Nat.succ_pos 4095
  | cons block blocks => exact h block List.mem_cons_self

variable {blocks : List Block} {n k : ℕ} {sgIt : Iterator}

/-- inside the current block -/
theorem At.addr (h : At blocks n sgIt) (hk : sgIt.currentBlockIndex + k < sgIt.currentBlockLength) :
    sgIt.currentBlockAddr (sgIt.currentBlockIndex + k) = placeAt blocks (n + k) := by
  rw [h.stream]
  cases hb : sgIt.blocks with
  | nil =>
    simp only [Iterator.currentBlockLength, hb] at hk
    simp only [Iterator.currentBlockAddr, hb, placeAt, Nat.mod_eq_of_lt hk]
  | cons block rest =>
    simp only [Iterator.currentBlockLength, hb] at hk
    simp only [Iterator.currentBlockAddr, hb, placeAt, if_pos hk]

/-- further in the current block -/
theorem At.forward (h : At blocks n sgIt) (hk : sgIt.currentBlockIndex + k < sgIt.currentBlockLength) :
    At blocks (n + k) { sgIt with currentBlockIndex := sgIt.currentBlockIndex + k } := by
  refine ⟨fun j => ?_, hk, h.filled, ?_, Nat.add_le_add_right h.le k⟩
  · rw [Nat.add_assoc, h.stream, Nat.add_assoc]
  · have hleft := h.left
    simp only
    omega

/-- at the end of the current block -/
theorem At.next (h : At blocks n sgIt) (hk : sgIt.currentBlockIndex + k = sgIt.currentBlockLength) :
    At blocks (n + k) (goToNextBlock sgIt) := by
  have hstream := h.stream
  have hleft := h.left
  have hfilled := h.filled
  obtain ⟨rest, i⟩ := sgIt
  cases rest with
  | nil =>
    simp only [Iterator.currentBlockLength] at hk
    refine ⟨fun j => ?_, Nat.succ_pos 4095, hfilled, ?_, Nat.zero_le _⟩
    · rw [Nat.add_assoc, hstream]
      simp only [goToNextBlock, List.tail_nil, placeAt]
      rw [← Nat.add_assoc, hk, Nat.add_mod_left, Nat.zero_add]
    · simp only [goToNextBlock, List.tail_nil, addresses, List.flatMap_nil, List.length_nil] at hleft ⊢
      omega
  | cons block rest =>
    simp only [Iterator.currentBlockLength] at hk
    refine ⟨fun j => ?_, ?_, fun b hb => hfilled b (List.mem_cons_of_mem block hb), ?_, Nat.zero_le _⟩
    · rw [Nat.add_assoc, hstream]
      simp only [goToNextBlock, List.tail_cons, placeAt]
      rw [← Nat.add_assoc, hk, if_neg (Nat.not_lt.mpr (Nat.le_add_right _ j)), Nat.add_sub_cancel_left, Nat.zero_add]
    · cases rest with
      | nil => exact Nat.succ_pos 4095
      | cons b rest => exact hfilled b (List.mem_cons_of_mem block List.mem_cons_self)
    · simp only [goToNextBlock, List.tail_cons] at hleft ⊢
      rw [length_addresses_cons] at hleft
      omega

theorem getNextByte_spec (h : At blocks n sgIt) (hn : n + 1 < 2 ^ 32) :
    (getNextByte sgIt).1 = placeAt blocks n ∧ At blocks (n + 1) (getNextByte sgIt).2 := by
  have hindex := h.index
  have hmod : (sgIt.currentBlockIndex + 1) % 2 ^ 32 = sgIt.currentBlockIndex + 1 :=
    Nat.mod_eq_of_lt (lt_of_le_of_lt (Nat.succ_le_succ h.le) hn)
  refine ⟨h.addr (k := 0) hindex, ?_⟩
  simp only [getNextByte, hmod]
  split_ifs with hend hblocks
  · exact h.next hend
  · have hnext := h.next hend
    rw [goToNextBlock, not_not.mp hblocks] at hnext
    rw [not_not.mp hblocks]
    exact hnext
  · exact h.forward (lt_of_le_of_ne hindex hend)

theorem getNextBytes_spec (k : ℕ) (h : At blocks n sgIt) (hn : n + k < 2 ^ 32) :
    (getNextBytes k sgIt).1 = (List.range k).map (fun i => placeAt blocks (n + i)) ∧
      At blocks (n + k) (getNextBytes k sgIt).2 := by
  induction k generalizing n sgIt with
  | zero => exact ⟨rfl, h⟩
  | succ k ih =>
    have hone := getNextByte_spec h (by omega)
    have hrest := ih hone.2 (by omega)
    simp only [getNextBytes]
    constructor
    · rw [hone.1, hrest.1, List.range_succ_eq_map, List.map_cons, List.map_map, Nat.add_zero]
      refine congrArg (placeAt blocks n :: ·) (List.map_congr_left fun i _ => congrArg (placeAt blocks) ?_)
      simp only [Nat.succ_eq_add_one]
      omega
    · rw [← Nat.add_assoc, Nat.add_right_comm]
      exact hrest.2

/-- **Eight bytes** of the stream, wherever the blocks end. -/
theorem getNextEightBytes_spec (h : At blocks n sgIt) (hn : n + 8 < 2 ^ 32) :
    (getNextEightBytes sgIt).1 = (List.range 8).map (fun i => placeAt blocks (n + i)) ∧
      At blocks (n + 8) (getNextEightBytes sgIt).2 := by
  have hle := h.le
  have hmod : (8 + sgIt.currentBlockIndex) % 2 ^ 32 = sgIt.currentBlockIndex + 8 := by omega
  have hmod' : (sgIt.currentBlockIndex + 8) % 2 ^ 32 = sgIt.currentBlockIndex + 8 := by omega
  have hword : sgIt.currentBlockIndex + 8 ≤ sgIt.currentBlockLength →
      (List.range 8).map (fun i => sgIt.currentBlockAddr (sgIt.currentBlockIndex + i)) =
        (List.range 8).map fun i => placeAt blocks (n + i) := by
    intro hlength
    refine List.map_congr_left fun i hi => h.addr ?_
    exact lt_of_lt_of_le (Nat.add_lt_add_left (List.mem_range.mp hi) _) hlength
  simp only [getNextEightBytes, hmod, hmod']
  split_ifs with hlt heq
  · exact ⟨hword hlt.le, h.forward hlt⟩
  · exact ⟨hword heq.ge, h.next heq.symm⟩
  · exact getNextBytes_spec 8 h hn

theorem At.blocks_ne_nil (h : At blocks n sgIt) : sgIt.blocks ≠ [] ↔ n < (addresses blocks).length := by
  have hleft := h.left
  have hindex := h.index
  cases hb : sgIt.blocks with
  | nil =>
    rw [hb] at hleft
    have hzero : (addresses blocks).length - n = 0 := hleft.trans (Nat.zero_sub _)
    exact ⟨fun hne => absurd rfl hne, fun hlt => absurd hlt (Nat.not_lt.mpr (Nat.sub_eq_zero_iff_le.mp hzero))⟩
  | cons block rest =>
    rw [hb, length_addresses_cons] at hleft
    simp only [Iterator.currentBlockLength, hb] at hindex
    exact ⟨fun _ => by omega, fun _ => List.cons_ne_nil block rest⟩

/-- what is kept while words are stored: beyond the blocks the iterator stays where it is -/
def WriteAt (blocks : List Block) (n : ℕ) (sgIt : Iterator) : Prop :=
  if n < (addresses blocks).length then At blocks n sgIt else sgIt.blocks = []

theorem At.writeAt (h : At blocks n sgIt) : WriteAt blocks n sgIt := by
  unfold WriteAt
  split_ifs with hn
  · exact h
  · exact not_not.mp (mt h.blocks_ne_nil.mp hn)

/-- **Eight bytes stored**, up to the word in which the blocks end. -/
theorem writeNextEightBytes_spec (h : WriteAt blocks n sgIt) (hn : n + 8 < 2 ^ 32) :
    (writeNextEightBytes sgIt).1 =
        (if n < (addresses blocks).length then (List.range 8).map (fun i => placeAt blocks (n + i)) else []) ∧
      WriteAt blocks (n + 8) (writeNextEightBytes sgIt).2 := by
  unfold WriteAt at h
  split_ifs at h with hlt
  · rw [writeNextEightBytes, if_neg (h.blocks_ne_nil.mpr hlt), if_pos hlt]
    have height := getNextEightBytes_spec h hn
    exact ⟨height.1, height.2.writeAt⟩
  · rw [writeNextEightBytes, if_pos h, if_neg hlt]
    refine ⟨rfl, ?_⟩
    rw [WriteAt, if_neg (by omega)]
    exact h

end PimOfis.Hw
