/-
Scatter/gather transfers of a rank: `sg_xfer_rank_handler` of `dpu_memory.c` and the scatter/gather branches of
`threads_write_to_rank` and `threads_read_from_rank` (`xeon_sp_translation.c`).

Instead of a buffer, a DPU has a list of host blocks. A thread starts an iterator at the first block for each DPU of a line,
and takes eight bytes of it for each word of its range; when two threads share a line, the second one starts at the first
block too. Bytes beyond the blocks come from the static block `zeros`, and a read stores there the rest of the word in
which the blocks end. The stores of the threads, to the region and to host memory, are taken in any order. A run is any
sequence of accepted transfers of any ranks; in between programs may change MRAMs and host memory, and only `zeros`, which
no other function knows, stays. The checks that reject a request (too many blocks, a sum of lengths that is not the length
of the transfer, unless that check is disabled) are left out.

Results:
- `sgPoolStores_eq`: with a thread for each line, a write is a default write of the streams;
- `mem_sgPoolHostStores`: what a read stores, and where;
- `transfers_as_claimed`: runs in which no two threads share a line, no DPU is without bytes in a write, and no read ends in
  the middle of a word before its range does.
-/
import Mathlib.Tactic
import PimOfis.Hw.Blocks
import PimOfis.Hw.Transfer
import PimOfis.Lib.Index

namespace PimOfis.Hw

/-! ## Model -/

/-- what the host sees: its memory, and the static block `zeros` -/
structure Memory where
  host : ℕ → UInt8
  zeros : ℕ → UInt8

def Memory.read (mem : Memory) : Place → UInt8
  | .host addr => mem.host addr
  | .zeros i => mem.zeros i

/-- a store of one byte -/
structure HostStore where
  place : Place
  byte : UInt8
deriving DecidableEq

def Memory.write (mem : Memory) (s : HostStore) : Memory :=
  match s.place with
  | .host addr => { mem with host := Function.update mem.host addr s.byte }
  | .zeros i => { mem with zeros := Function.update mem.zeros i s.byte }

/-- the matrix that `sg_xfer_rank_handler` makes of the blocks of each DPU: empty blocks are dropped, and a DPU without bytes
has no entry -/
def sgXferRankHandler (request : TransferMatrix (List Block)) : TransferMatrix (List Block) :=
  { request with ptr := fun k =>
      (request.ptr k).bind fun blocks =>
        let blocks := blocks.filter fun block => block.length ≠ 0
        if blocks = [] then none else some blocks }

/-- the iterators of the DPUs of a line -/
def initIterators (m : TransferMatrix (List Block)) (dpuId : ℕ) : ℕ → Iterator := fun ciId =>
  initSgXferBufferIterator ((m.ptr (dpuId * 8 + ciId)).getD [])

/-- the loop of `threads_write_to_rank` over the words of a line -/
def sgWriteLine (mem : Memory) (m : TransferMatrix (List Block)) (dpuId : ℕ) :
    List ℕ → (ℕ → Iterator) → CacheLine → List Store × CacheLine
  | [], _, cacheLine => ([], cacheLine)
  | i :: is, sgIt, cacheLine =>
    let cacheLine : CacheLine := fun b =>
      match m.ptr (dpuId * 8 + b.val / 8) with
      | some _ => mem.read ((getNextEightBytes (sgIt (b.val / 8))).1.getD (b.val % 8) (.zeros 0))
      | none => cacheLine b
    let rest := sgWriteLine mem m dpuId is (fun ciId => (getNextEightBytes (sgIt ciId)).2) cacheLine
    (⟨xferLine m dpuId i, byteInterleaveAvx512 cacheLine⟩ :: rest.1, rest.2)

/-- the loop over the lines of a thread -/
def sgWriteLines (mem : Memory) (m : TransferMatrix (List Block)) (words : List ℕ) : List ℕ → CacheLine → List Store
  | [], _ => []
  | dpuId :: dpuIds, cacheLine =>
    if m.lineInXfer dpuId then
      let line := sgWriteLine mem m dpuId words (initIterators m dpuId) cacheLine
      line.1 ++ sgWriteLines mem m words dpuIds line.2
    else sgWriteLines mem m words dpuIds cacheLine

/-- the stores of all threads of a write -/
def sgPoolStores (mem : Memory) (m : TransferMatrix (List Block)) (nbThreadsForXfer : ℕ) (cacheLine : ℕ → CacheLine) : List Store :=
  (List.range nbThreadsForXfer).flatMap fun threadId =>
    match threadDoMramXfer m nbThreadsForXfer threadId with
    | some r =>
      sgWriteLines mem m (wordRange m r) (List.range' r.dpuIdStart (r.dpuIdStop - r.dpuIdStart)) (cacheLine threadId)
    | none => []

/-- the loop of `threads_read_from_rank` over the words of a line: what is stored to the host -/
def sgReadLine (region : Region) (m : TransferMatrix (List Block)) (dpuId : ℕ) : List ℕ → (ℕ → Iterator) → List HostStore
  | [], _ => []
  | i :: is, sgIt =>
    let cacheLineInterleave := byteInterleaveAvx512 (load region (xferLine m dpuId i))
    let stores := (List.range 8).flatMap fun ciId =>
      match m.ptr (dpuId * 8 + ciId) with
      | some _ =>
        (writeNextEightBytes (sgIt ciId)).1.zipIdx.map fun x => ⟨x.1, cacheLineInterleave (Fin.ofNat 64 (ciId * 8 + x.2))⟩
      | none => []
    stores ++ sgReadLine region m dpuId is fun ciId => (writeNextEightBytes (sgIt ciId)).2

/-- the stores of all threads of a read -/
def sgPoolHostStores (region : Region) (m : TransferMatrix (List Block)) (nbThreadsForXfer : ℕ) : List HostStore :=
  (List.range nbThreadsForXfer).flatMap fun threadId =>
    match threadDoMramXfer m nbThreadsForXfer threadId with
    | some r =>
      (List.range' r.dpuIdStart (r.dpuIdStop - r.dpuIdStart)).flatMap fun dpuId =>
        if m.lineInXfer dpuId then sgReadLine region m dpuId (wordRange m r) (initIterators m dpuId) else []
    | none => []

structure St where
  regions : ℕ → Region
  memory : Memory

/-- `static uint8_t zeros[4096] = { 0 }` -/
def St.init (regions : ℕ → Region) (host : ℕ → UInt8) : St := ⟨regions, ⟨host, fun _ => 0⟩⟩

/-- a transfer of a rank, by the threads of its pool, or anything else -/
inductive Act where
  | write (rank : ℕ) (request : TransferMatrix (List Block)) (nbThreadsForXfer : ℕ)
  | read (rank : ℕ) (request : TransferMatrix (List Block)) (nbThreadsForXfer : ℕ)
  | other

inductive Step (s : St) : Act → St → Prop
  | write {r : ℕ} {request : TransferMatrix (List Block)} {T : ℕ} {c : ℕ → CacheLine} {stores : List Store}
      (threads : 1 ≤ T) (accepted : XferOk request)
      (perm : stores.Perm (sgPoolStores s.memory (sgXferRankHandler request) T c)) :
      Step s (.write r request T) { s with regions := Function.update s.regions r (stores.foldl store (s.regions r)) }
  | read {r : ℕ} {request : TransferMatrix (List Block)} {T : ℕ} {stores : List HostStore}
      (threads : 1 ≤ T) (accepted : XferOk request)
      (perm : stores.Perm (sgPoolHostStores (s.regions r) (sgXferRankHandler request) T)) :
      Step s (.read r request T) { s with memory := stores.foldl Memory.write s.memory }
  | other (regions : ℕ → Region) (host : ℕ → UInt8) : Step s .other ⟨regions, { s.memory with host := host }⟩

/-- the steps of a run, the last one first, with the states before and after -/
inductive Run : List (St × Act × St) → St → Prop
  | init (regions : ℕ → Region) (host : ℕ → UInt8) : Run [] (St.init regions host)
  | step {trace : List (St × Act × St)} {s s' : St} {a : Act} (run : Run trace s) (step : Step s a s') :
      Run ((s, a, s') :: trace) s'

/-! ## Statement -/

theorem lineByte_lt (k addr : ℕ) : k % 8 * 8 + addr % 8 < 64 := by omega

/-- the byte of a DPU's MRAM at an address, as the mapped region holds it -/
def mramByte (region : Region) (k addr : ℕ) : UInt8 :=
  byteInterleaveAvx512 (load region (lineOffset (k / 8) (addr / 8 * 8))) ⟨k % 8 * 8 + addr % 8, lineByte_lt k addr⟩

/-- byte `j` of the range of DPU `k` belongs at this host address -/
def BelongsAt (request : TransferMatrix (List Block)) (k j addr : ℕ) : Prop :=
  k < 64 ∧ j < request.size ∧ ∃ blocks, request.ptr k = some blocks ∧ (addresses blocks)[j]? = some addr

/-- what is claimed of a step. Where blocks overlap, a read leaves one of the bytes that belong there. -/
def AsClaimed (s : St) (a : Act) (s' : St) : Prop :=
  match a with
  | .write rank request _ =>
    s'.memory = s.memory ∧ ∀ k < 64, ∀ blocks, request.ptr k = some blocks → ∀ j < request.size,
      mramByte (s'.regions rank) k (request.offset + j) = ((addresses blocks).map s.memory.host).getD j 0
  | .read rank request _ =>
    s'.regions = s.regions ∧
    (∀ addr, (∀ k j, ¬BelongsAt request k j addr) → s'.memory.host addr = s.memory.host addr) ∧
    ∀ k j addr, BelongsAt request k j addr → ∃ k' j', BelongsAt request k' j' addr ∧
      s'.memory.host addr = mramByte (s.regions rank) k' (request.offset + j')
  | .other => True

/-- the condition: no two threads share a line; in a write no DPU of the set is without bytes; in a read the blocks of each
DPU hold the whole range, or end at the end of a word -/
def Safe : Act → Prop
  | .write _ request T =>
    (∀ l < 8, (sgXferRankHandler request).lineInXfer l = true → nbThreadsPerLine (sgXferRankHandler request) T = 1) ∧
    ∀ k < 64, ∀ blocks, request.ptr k = some blocks → addresses blocks = [] → request.size = 0
  | .read _ request T =>
    (∀ l < 8, (sgXferRankHandler request).lineInXfer l = true → nbThreadsPerLine (sgXferRankHandler request) T = 1) ∧
    ∀ k < 64, ∀ blocks, request.ptr k = some blocks →
      request.size ≤ (addresses blocks).length ∨ 8 ∣ (addresses blocks).length
  | .other => True

/-! ## A write is a default write of the streams -/

/-- a matrix with other entries in the same places -/
def TransferMatrix.map {α β : Type} (f : α → β) (m : TransferMatrix α) : TransferMatrix β :=
  { ptr := fun k => (m.ptr k).map f, offset := m.offset, size := m.size }

/-- the default matrix whose buffers are the streams -/
def streamMatrix (mem : Memory) (m : TransferMatrix (List Block)) : TransferMatrix Buffer :=
  m.map fun blocks j => mem.read (placeAt blocks j)

theorem lineInXfer_map {α β : Type} (f : α → β) (m : TransferMatrix α) : (m.map f).lineInXfer = m.lineInXfer := by
  funext line
  simp only [TransferMatrix.lineInXfer, TransferMatrix.map, Option.isSome_map]

theorem nbLinesInXfer_map {α β : Type} (f : α → β) (m : TransferMatrix α) : (m.map f).nbLinesInXfer = m.nbLinesInXfer := by
  rw [TransferMatrix.nbLinesInXfer, TransferMatrix.nbLinesInXfer, lineInXfer_map]

theorem threadDoMramXfer_map {α β : Type} (f : α → β) (m : TransferMatrix α) (T t : ℕ) :
    threadDoMramXfer (m.map f) T t = threadDoMramXfer m T t := by
  have hsize : (m.map f).size = m.size := rfl
  simp only [threadDoMramXfer, nbThreadsPerLine, nbLinesInXfer_map, lineInXfer_map, hsize]
  rfl

theorem XferOk.map {α β : Type} {m : TransferMatrix α} (h : XferOk m) (f : α → β) : XferOk (m.map f) :=
  ⟨h.offset, h.size, h.fits⟩

/-- no block of the matrix is empty -/
def NoEmptyBlock (m : TransferMatrix (List Block)) : Prop :=
  ∀ k blocks, m.ptr k = some blocks → ∀ block ∈ blocks, 0 < block.length

theorem noEmptyBlock_handler (request : TransferMatrix (List Block)) : NoEmptyBlock (sgXferRankHandler request) := by
  intro k blocks hk block hblock
  obtain ⟨listed, -, hlisted⟩ := Option.bind_eq_some_iff.mp hk
  simp only at hlisted
  split_ifs at hlisted
  obtain rfl := Option.some.inj hlisted
  exact Nat.pos_of_ne_zero (by simpa using (List.mem_filter.mp hblock).2)

variable {mem : Memory} {m : TransferMatrix (List Block)}

theorem at_initIterators (h : NoEmptyBlock m) (dpuId ciId : ℕ) {blocks : List Block} (hk : m.ptr (dpuId * 8 + ciId) = some blocks) :
    At blocks 0 (initIterators m dpuId ciId) := by
  rw [initIterators, hk]
  exact at_init (h _ _ hk)

theorem writeWords_append (m : TransferMatrix Buffer) (xs ys : List (ℕ × ℕ)) (cacheLine : CacheLine) :
    writeWords m (xs ++ ys) cacheLine =
      writeWords m xs cacheLine ++
        writeWords m ys (xs.foldl (fun cacheLine x => fillCacheLine m x.1 x.2 cacheLine) cacheLine) := by
  induction xs generalizing cacheLine with
  | nil => rfl
  | cons x xs ih =>
    obtain ⟨dpuId, i⟩ := x
    simp only [List.cons_append, writeWords, List.foldl_cons]
    rw [ih]

/-- the words of a line, from word `i` on -/
theorem sgWriteLine_eq (mem : Memory) (dpuId n i : ℕ) (sgIt : ℕ → Iterator) (cacheLine : CacheLine)
    (hat : ∀ ciId blocks, m.ptr (dpuId * 8 + ciId) = some blocks → At blocks (i * 8) (sgIt ciId)) (hn : (i + n) * 8 < 2 ^ 32) :
    sgWriteLine mem m dpuId (List.range' i n) sgIt cacheLine =
      (writeWords (streamMatrix mem m) ((List.range' i n).map (Prod.mk dpuId)) cacheLine,
        ((List.range' i n).map (Prod.mk dpuId)).foldl (fun cacheLine x => fillCacheLine (streamMatrix mem m) x.1 x.2 cacheLine)
          cacheLine) := by
  induction n generalizing i sgIt cacheLine with
  | zero => rfl
  | succ n ih =>
    have hword : ∀ ciId blocks, m.ptr (dpuId * 8 + ciId) = some blocks →
        (getNextEightBytes (sgIt ciId)).1 = (List.range 8).map (fun j => placeAt blocks (i * 8 + j)) ∧
          At blocks ((i + 1) * 8) (getNextEightBytes (sgIt ciId)).2 := by
      intro ciId blocks hk
      have height := getNextEightBytes_spec (hat ciId blocks hk) (by omega)
      rw [show i * 8 + 8 = (i + 1) * 8 by omega] at height
      exact height
    have hfill : (fun b : Fin 64 => match m.ptr (dpuId * 8 + b.val / 8) with
        | some _ => mem.read ((getNextEightBytes (sgIt (b.val / 8))).1.getD (b.val % 8) (.zeros 0))
        | none => cacheLine b) = fillCacheLine (streamMatrix mem m) dpuId i cacheLine := by
      funext b
      simp only [fillCacheLine, streamMatrix, TransferMatrix.map]
      cases hk : m.ptr (dpuId * 8 + b.val / 8) with
      | none => rfl
      | some blocks =>
        have hb : b.val % 8 < 8 := Nat.mod_lt _ (by decide)
        rw [(hword _ _ hk).1]
        simp only [Option.map_some, List.getD_eq_getElem?_getD, List.getElem?_map, List.getElem?_range hb, Option.getD_some]
    rw [List.range'_succ, sgWriteLine, List.map_cons, writeWords, List.foldl_cons, hfill]
    simp only
    rw [ih (i + 1) _ _ (fun ciId blocks hk => (hword ciId blocks hk).2) (by omega)]
    rfl

/-- the lines of a thread that starts at the first word of each -/
theorem sgWriteLines_eq (h : NoEmptyBlock m) {n : ℕ} (hn : n * 8 < 2 ^ 32) (dpuIds : List ℕ) (cacheLine : CacheLine) :
    sgWriteLines mem m (List.range' 0 n) dpuIds cacheLine =
      writeWords (streamMatrix mem m)
        (dpuIds.flatMap fun dpuId => if m.lineInXfer dpuId then (List.range' 0 n).map (Prod.mk dpuId) else []) cacheLine := by
  induction dpuIds generalizing cacheLine with
  | nil => rfl
  | cons dpuId dpuIds ih =>
    rw [sgWriteLines, List.flatMap_cons, writeWords_append]
    split_ifs with hline
    · have hwords := sgWriteLine_eq mem dpuId n 0 (initIterators m dpuId) cacheLine
        (fun ciId blocks hk => at_initIterators h dpuId ciId hk) (by rw [Nat.zero_add]; exact hn)
      simp only [hwords, ih]
    · exact ih cacheLine

/-- without a second thread on a line, each thread has all words of its lines -/
theorem wordRange_of_one {T t : ℕ} {r : Ranges} (hone : nbThreadsPerLine m T = 1) (hr : threadDoMramXfer m T t = some r) :
    wordRange m r = List.range' 0 (m.size / 8) := by
  have hT : t < T := by
    by_contra hn
    simp [threadDoMramXfer, hn] at hr
  by_cases hL : m.nbLinesInXfer ≤ T
  · have hids := getDpuAndDataIds_spec m.lineInXfer (t := t) (Or.inl rfl) 8 0 0 rfl le_rfl
      (fun l _ hl => absurd hl (Nat.not_lt_zero l)) (by simp [linesBefore])
    rw [show linesBefore m.lineInXfer 0 = 0 from rfl, ← List.range_eq_range'] at hids
    have hstart : (getDpuAndDataIds m.lineInXfer t 1 (List.range 8) 0 0).dataIdStart = 0 := Nat.lt_one_iff.mp hids.dataLt
    rw [threadDoMramXfer, if_neg (not_not.mpr hT), if_pos hL] at hr
    obtain rfl := Option.some.inj hr
    simp only [wordRange, hone, hstart, Nat.zero_mul, Nat.zero_add, Nat.div_one, Nat.sub_zero, Nat.zero_div, ite_self]
  · rw [threadDoMramXfer, if_neg (not_not.mpr hT), if_neg hL] at hr
    obtain rfl := Option.some.inj hr
    simp only [wordRange, Nat.zero_div, ne_eq, not_true_eq_false, if_false]

/-- a line in use has a thread of its own -/
def OneThreadPerLine (m : TransferMatrix (List Block)) (T : ℕ) : Prop :=
  ∀ l < 8, m.lineInXfer l = true → nbThreadsPerLine m T = 1

variable {T : ℕ}

/-- the lines in use of a thread, or none -/
theorem thread_cases (hT : 1 ≤ T) (hx : XferOk m) (hone : OneThreadPerLine m T) {t : ℕ} {r : Ranges}
    (hr : threadDoMramXfer m T t = some r) :
    wordRange m r = List.range' 0 (m.size / 8) ∨
      ∀ dpuId ∈ List.range' r.dpuIdStart (r.dpuIdStop - r.dpuIdStart), m.lineInXfer dpuId = false := by
  by_cases hused : ∃ l < 8, m.lineInXfer l = true
  · obtain ⟨l, hl, hline⟩ := hused
    exact Or.inl (wordRange_of_one (hone l hl hline) hr)
  · refine Or.inr fun dpuId hdpu => ?_
    have hstop := (ranges_ok hx.size hx.lt hT hr).stop
    rw [List.mem_range'_1] at hdpu
    by_contra hline
    exact hused ⟨dpuId, by omega, by simpa using hline⟩

theorem sgWriteLines_of_unused {words : List ℕ} {dpuIds : List ℕ} (h : ∀ dpuId ∈ dpuIds, m.lineInXfer dpuId = false)
    (cacheLine : CacheLine) : sgWriteLines mem m words dpuIds cacheLine = [] := by
  induction dpuIds with
  | nil => rfl
  | cons dpuId dpuIds ih =>
    rw [sgWriteLines, h dpuId List.mem_cons_self]
    exact ih fun d hd => h d (List.mem_cons_of_mem dpuId hd)

/-- **A write** of blocks, with a thread for each line, is a default write of their streams. -/
theorem sgPoolStores_eq (hT : 1 ≤ T) (hx : XferOk m) (hfilled : NoEmptyBlock m) (hone : OneThreadPerLine m T)
    (cacheLine : ℕ → CacheLine) : sgPoolStores mem m T cacheLine = poolStores (streamMatrix mem m) T cacheLine := by
  have hfits := hx.fits
  have hsize : m.size / 8 * 8 < 2 ^ 32 := lt_of_le_of_lt (Nat.div_mul_le_self _ _) hx.lt
  refine List.flatMap_congr fun t _ => ?_
  rw [streamMatrix, threadDoMramXfer_map]
  cases hr : threadDoMramXfer m T t with
  | none => rfl
  | some r =>
    simp only [threadWords, lineInXfer_map]
    rcases thread_cases hT hx hone hr with hwords | hunused
    · have hwords' : wordRange (m.map fun blocks j => mem.read (placeAt blocks j)) r = List.range' 0 (m.size / 8) := hwords
      rw [hwords, hwords']
      exact sgWriteLines_eq hfilled hsize _ _
    · rw [sgWriteLines_of_unused hunused, List.flatMap_eq_nil_iff.mpr]
      · rfl
      · intro dpuId hdpu
        rw [hunused dpuId hdpu]
        rfl

/-- the word that a line holds, byte by byte -/
theorem mramByte_eq {region : Region} (hx : XferOk m) (k j : ℕ) :
    mramByte region k (m.offset + j) =
      byteInterleaveAvx512 (load region (xferLine m (k / 8) (j / 8))) ⟨k % 8 * 8 + j % 8, lineByte_lt k j⟩ := by
  obtain ⟨w, hw⟩ := hx.offset
  have hline : (m.offset + j) / 8 * 8 = j / 8 * 8 + m.offset := by omega
  have hbyte : (m.offset + j) % 8 = j % 8 := by omega
  simp only [mramByte, xferLine, hline, hbyte]

/-- a byte of the stream, while the block of zeros is all zero -/
theorem read_placeAt (hzeros : ∀ i, mem.zeros i = 0) (blocks : List Block) (j : ℕ) :
    mem.read (placeAt blocks j) = ((addresses blocks).map mem.host).getD j 0 := by
  rw [placeAt_eq, List.getD_eq_getElem?_getD, List.getElem?_map]
  cases (addresses blocks)[j]? with
  | some addr => rfl
  | none => exact hzeros _

theorem handler_ptr {request : TransferMatrix (List Block)} {k : ℕ} {blocks : List Block} (hk : request.ptr k = some blocks)
    (hbytes : addresses blocks ≠ []) :
    (sgXferRankHandler request).ptr k = some (blocks.filter fun block => block.length ≠ 0) := by
  have hfilter : blocks.filter (fun block => block.length ≠ 0) ≠ [] := by
    intro hnil
    rw [← addresses_filter, hnil] at hbytes
    exact hbytes rfl
  simp only [sgXferRankHandler, hk, Option.bind_some, if_neg hfilter]

theorem ptr_of_handler {request : TransferMatrix (List Block)} {k : ℕ} {blocks : List Block}
    (hk : (sgXferRankHandler request).ptr k = some blocks) :
    ∃ listed, request.ptr k = some listed ∧ addresses blocks = addresses listed := by
  obtain ⟨listed, hlisted, hfilter⟩ := Option.bind_eq_some_iff.mp hk
  simp only at hfilter
  split_ifs at hfilter
  obtain rfl := Option.some.inj hfilter
  exact ⟨listed, hlisted, addresses_filter listed⟩

/-- what a write leaves in the MRAMs -/
theorem write_spec {request : TransferMatrix (List Block)} (hT : 1 ≤ T) (hx : XferOk request)
    (hone : OneThreadPerLine (sgXferRankHandler request) T) (hzeros : ∀ i, mem.zeros i = 0) {cacheLine : ℕ → CacheLine}
    {stores : List Store} (hperm : stores.Perm (sgPoolStores mem (sgXferRankHandler request) T cacheLine)) (region : Region)
    {k : ℕ} {blocks : List Block} (hk : k < 64) (hblocks : request.ptr k = some blocks) (hbytes : addresses blocks ≠ [])
    {j : ℕ} (hj : j < request.size) :
    mramByte (stores.foldl store region) k (request.offset + j) = ((addresses blocks).map mem.host).getD j 0 := by
  have hx' : XferOk (sgXferRankHandler request) := ⟨hx.offset, hx.size, hx.fits⟩
  have hstream : (streamMatrix mem (sgXferRankHandler request)).ptr k =
      some fun a => mem.read (placeAt (blocks.filter fun block => block.length ≠ 0) a) := by
    change ((sgXferRankHandler request).ptr k).map _ = _
    rw [handler_ptr hblocks hbytes]
    rfl
  rw [sgPoolStores_eq hT hx' (noEmptyBlock_handler request) hone] at hperm
  have hload := load_written hT (hx'.map fun blocks j => mem.read (placeAt blocks j)) cacheLine hperm region hk hstream hj
  rw [read_placeAt hzeros, addresses_filter] at hload
  rw [← hload]
  exact mramByte_eq hx' k j

/-! ## What a read stores -/

/-- what a word of a DPU stores -/
def wordStores (region : Region) (m : TransferMatrix (List Block)) (dpuId w ciId : ℕ) : List HostStore :=
  match m.ptr (dpuId * 8 + ciId) with
  | some blocks =>
    if w * 8 < (addresses blocks).length then
      (List.range 8).map fun j => ⟨placeAt blocks (w * 8 + j),
        byteInterleaveAvx512 (load region (xferLine m dpuId w)) (Fin.ofNat 64 (ciId * 8 + j))⟩
    else []
  | none => []

/-- the stores of a line, from word `i` on -/
theorem sgReadLine_eq (region : Region) (dpuId n i : ℕ) (sgIt : ℕ → Iterator)
    (hat : ∀ ciId blocks, m.ptr (dpuId * 8 + ciId) = some blocks → WriteAt blocks (i * 8) (sgIt ciId))
    (hn : (i + n) * 8 < 2 ^ 32) :
    sgReadLine region m dpuId (List.range' i n) sgIt =
      (List.range' i n).flatMap fun w => (List.range 8).flatMap fun ciId => wordStores region m dpuId w ciId := by
  induction n generalizing i sgIt with
  | zero => rfl
  | succ n ih =>
    have hword : ∀ ciId blocks, m.ptr (dpuId * 8 + ciId) = some blocks →
        (writeNextEightBytes (sgIt ciId)).1 =
            (if i * 8 < (addresses blocks).length then (List.range 8).map (fun j => placeAt blocks (i * 8 + j)) else []) ∧
          WriteAt blocks ((i + 1) * 8) (writeNextEightBytes (sgIt ciId)).2 := by
      intro ciId blocks hk
      have height := writeNextEightBytes_spec (hat ciId blocks hk) (by omega)
      rw [show i * 8 + 8 = (i + 1) * 8 by omega] at height
      exact height
    rw [List.range'_succ, sgReadLine, List.flatMap_cons, ih (i + 1) _ (fun ciId blocks hk => (hword ciId blocks hk).2) (by omega)]
    congr 1
    refine List.flatMap_congr fun ciId _ => ?_
    unfold wordStores
    cases hk : m.ptr (dpuId * 8 + ciId) with
    | none => rfl
    | some blocks =>
      simp only [(hword ciId blocks hk).1]
      split_ifs <;> rfl

theorem sgPoolHostStores_eq (hT : 1 ≤ T) (hx : XferOk m) (hfilled : NoEmptyBlock m) (hone : OneThreadPerLine m T)
    (region : Region) :
    sgPoolHostStores region m T =
      (poolWords m T).flatMap fun x => (List.range 8).flatMap fun ciId => wordStores region m x.1 x.2 ciId := by
  have hsize : m.size / 8 * 8 < 2 ^ 32 := lt_of_le_of_lt (Nat.div_mul_le_self _ _) hx.lt
  rw [sgPoolHostStores, poolWords, List.flatMap_assoc]
  refine List.flatMap_congr fun t _ => ?_
  cases hr : threadDoMramXfer m T t with
  | none => rfl
  | some r =>
    simp only [threadWords]
    rw [List.flatMap_assoc]
    refine List.flatMap_congr fun dpuId hdpu => ?_
    split_ifs with hline
    · rcases thread_cases hT hx hone hr with hwords | hunused
      · rw [hwords, List.flatMap_map]
        exact sgReadLine_eq region dpuId _ 0 _ (fun ciId blocks hk => (at_initIterators hfilled dpuId ciId hk).writeAt)
          (by rw [Nat.zero_add]; exact hsize)
      · rw [hunused dpuId hdpu] at hline
        cases hline
    · rfl

/-- **What a read stores**, with a thread for each line: the bytes of each DPU in the places of its stream, up to the word in
which the blocks end. -/
theorem mem_sgPoolHostStores (hT : 1 ≤ T) (hx : XferOk m) (hfilled : NoEmptyBlock m) (hone : OneThreadPerLine m T)
    (region : Region) (s : HostStore) :
    s ∈ sgPoolHostStores region m T ↔
      ∃ k < 64, ∃ blocks, m.ptr k = some blocks ∧ ∃ j < m.size, j / 8 * 8 < (addresses blocks).length ∧
        s = ⟨placeAt blocks j, mramByte region k (m.offset + j)⟩ := by
  have h8 := hx.size
  have hwords := (xfer_exactly_once m T hT hx.size hx.lt).2.1
  rw [sgPoolHostStores_eq hT hx hfilled hone]
  simp only [List.mem_flatMap, List.mem_range, Prod.exists, hwords]
  constructor
  · rintro ⟨l, w, ⟨hl, -, hw⟩, ciId, hci, hs⟩
    unfold wordStores at hs
    cases hk : m.ptr (l * 8 + ciId) with
    | none =>
      rw [hk] at hs
      exact absurd hs List.not_mem_nil
    | some blocks =>
      simp only [hk] at hs
      split_ifs at hs with hlen
      · obtain ⟨j, hj, rfl⟩ := List.mem_map.mp hs
        rw [List.mem_range] at hj
        refine ⟨l * 8 + ciId, by omega, blocks, hk, w * 8 + j, by omega, by omega, ?_⟩
        rw [mramByte_eq hx]
        have hline : (l * 8 + ciId) / 8 = l := by omega
        have hword : (w * 8 + j) / 8 = w := by omega
        simp only [hline, hword]
        refine congrArg (HostStore.mk _) (congrArg _ (Fin.ext ?_))
        simp only [Fin.ofNat]
        omega
      · exact absurd hs List.not_mem_nil
  · rintro ⟨k, hk, blocks, hblocks, j, hj, hlen, rfl⟩
    have hline : m.lineInXfer (k / 8) = true := by
      refine List.any_eq_true.mpr ⟨k % 8, List.mem_range.mpr (Nat.mod_lt k (by decide)), ?_⟩
      rw [Nat.div_add_mod', hblocks]
      rfl
    refine ⟨k / 8, j / 8, ⟨by omega, hline, by omega⟩, k % 8, Nat.mod_lt k (by decide), ?_⟩
    simp only [wordStores, Nat.div_add_mod', hblocks, if_pos hlen]
    refine List.mem_map.mpr ⟨j % 8, List.mem_range.mpr (Nat.mod_lt j (by decide)), ?_⟩
    rw [mramByte_eq hx, Nat.div_add_mod']
    refine congrArg (HostStore.mk _) (congrArg _ (Fin.ext ?_))
    simp only [Fin.ofNat]
    omega

/-- host memory after some stores: each byte is as it was, or as one of them left it -/
theorem foldl_write_host (stores : List HostStore) (mem : Memory) (addr : ℕ) :
    ((∀ s ∈ stores, s.place ≠ .host addr) ∧ (stores.foldl Memory.write mem).host addr = mem.host addr) ∨
      ∃ s ∈ stores, s.place = .host addr ∧ (stores.foldl Memory.write mem).host addr = s.byte := by
  induction stores using List.reverseRecOn with
  | nil => exact Or.inl ⟨fun s hs => absurd hs List.not_mem_nil, rfl⟩
  | append_singleton stores last ih =>
    rw [List.foldl_append, List.foldl_cons, List.foldl_nil]
    by_cases hlast : last.place = .host addr
    · refine Or.inr ⟨last, List.mem_append_right _ (List.mem_singleton.mpr rfl), hlast, ?_⟩
      simp only [Memory.write, hlast, Function.update_self]
    · have hkeep : ((stores.foldl Memory.write mem).write last).host addr = (stores.foldl Memory.write mem).host addr := by
        unfold Memory.write
        cases hp : last.place with
        | host a =>
          rw [hp] at hlast
          exact Function.update_of_ne (fun heq => hlast (congrArg Place.host heq.symm)) _ _
        | zeros i => rfl
      rw [hkeep]
      rcases ih with ⟨hnone, heq⟩ | ⟨s, hs, hplace, heq⟩
      · refine Or.inl ⟨fun s hs => ?_, heq⟩
        rcases List.mem_append.mp hs with hs | hs
        · exact hnone s hs
        · rw [List.mem_singleton.mp hs]
          exact hlast
      · exact Or.inr ⟨s, List.mem_append_left _ hs, hplace, heq⟩

/-- stores to host blocks leave the block of zeros alone -/
theorem foldl_write_zeros {stores : List HostStore} (h : ∀ s ∈ stores, ∃ addr, s.place = .host addr) (mem : Memory) :
    (stores.foldl Memory.write mem).zeros = mem.zeros := by
  induction stores generalizing mem with
  | nil => rfl
  | cons s stores ih =>
    obtain ⟨addr, haddr⟩ := h s List.mem_cons_self
    rw [List.foldl_cons, ih fun s' hs' => h s' (List.mem_cons_of_mem s hs')]
    simp only [Memory.write, haddr]

/-- what a read leaves in host memory -/
theorem read_spec {request : TransferMatrix (List Block)} (hT : 1 ≤ T) (hx : XferOk request)
    (hone : OneThreadPerLine (sgXferRankHandler request) T)
    (hends : ∀ k < 64, ∀ blocks, request.ptr k = some blocks →
      request.size ≤ (addresses blocks).length ∨ 8 ∣ (addresses blocks).length)
    (region : Region) {stores : List HostStore} (hperm : stores.Perm (sgPoolHostStores region (sgXferRankHandler request) T)) :
    (stores.foldl Memory.write mem).zeros = mem.zeros ∧
    (∀ addr, (∀ k j, ¬BelongsAt request k j addr) → (stores.foldl Memory.write mem).host addr = mem.host addr) ∧
    ∀ k j addr, BelongsAt request k j addr → ∃ k' j', BelongsAt request k' j' addr ∧
      (stores.foldl Memory.write mem).host addr = mramByte region k' (request.offset + j') := by
  have hx' : XferOk (sgXferRankHandler request) := ⟨hx.offset, hx.size, hx.fits⟩
  have hmem := fun s => (hperm.mem_iff (a := s)).trans
    (mem_sgPoolHostStores hT hx' (noEmptyBlock_handler request) hone region s)
  -- every store is of a byte to where it belongs
  have hstore : ∀ s ∈ stores, ∃ k j addr, BelongsAt request k j addr ∧
      s = ⟨.host addr, mramByte region k (request.offset + j)⟩ := by
    intro s hs
    obtain ⟨k, hk, blocks, hblocks, j, hj, hlen, rfl⟩ := (hmem s).mp hs
    obtain ⟨listed, hlisted, haddresses⟩ := ptr_of_handler hblocks
    have hlt : j < (addresses blocks).length := by
      have h8 := hx.size
      rcases hends k hk listed hlisted with h | h
      · rw [haddresses]
        exact lt_of_lt_of_le hj h
      · rw [← haddresses] at h
        omega
    refine ⟨k, j, (addresses blocks)[j], ⟨hk, hj, listed, hlisted, ?_⟩, ?_⟩
    · rw [← haddresses]
      exact List.getElem?_eq_getElem hlt
    · rw [placeAt_of_lt hlt]
      rfl
  refine ⟨foldl_write_zeros (fun s hs => ?_) mem, fun addr hnone => ?_, fun k j addr hbelongs => ?_⟩
  · obtain ⟨k, j, addr, -, rfl⟩ := hstore s hs
    exact ⟨addr, rfl⟩
  · rcases foldl_write_host stores mem addr with ⟨-, hkeep⟩ | ⟨s, hs, hplace, -⟩
    · exact hkeep
    · obtain ⟨k, j, addr', hbelongs, rfl⟩ := hstore s hs
      obtain rfl := Place.host.inj hplace
      exact absurd hbelongs (hnone k j)
  · rcases foldl_write_host stores mem addr with ⟨hnone, -⟩ | ⟨s, hs, hplace, hbyte⟩
    · obtain ⟨hk, hj, blocks, hblocks, hat⟩ := hbelongs
      have hlt : j < (addresses blocks).length := (List.getElem?_eq_some_iff.mp hat).1
      have hbytes : addresses blocks ≠ [] := List.ne_nil_of_length_pos (Nat.zero_lt_of_lt hlt)
      have hplace : placeAt (blocks.filter fun block => block.length ≠ 0) j = .host addr := by
        rw [placeAt_eq, addresses_filter, hat]
      have hin : (⟨.host addr, mramByte region k (request.offset + j)⟩ : HostStore) ∈ stores := by
        refine (hmem _).mpr ⟨k, hk, _, handler_ptr hblocks hbytes, j, hj, ?_, ?_⟩
        · rw [addresses_filter]
          exact lt_of_le_of_lt (Nat.div_mul_le_self j 8) hlt
        · rw [hplace]
          rfl
      exact absurd rfl (hnone _ hin)
    · obtain ⟨k', j', addr', hbelongs', rfl⟩ := hstore s hs
      obtain rfl := Place.host.inj hplace
      exact ⟨k', j', hbelongs', hbyte⟩

/-! ## Runs -/

theorem step_as_claimed {s s' : St} {a : Act} (h : Step s a s') (safe : Safe a) (hzeros : ∀ i, s.memory.zeros i = 0) :
    (∀ i, s'.memory.zeros i = 0) ∧ AsClaimed s a s' := by
  cases h with
  | write threads accepted perm =>
    refine ⟨hzeros, rfl, fun k hk blocks hblocks j hj => ?_⟩
    have hbytes : addresses blocks ≠ [] := by
      intro hnil
      rw [safe.2 k hk blocks hblocks hnil] at hj
      exact absurd hj (Nat.not_lt_zero j)
    simp only [Function.update_self]
    exact write_spec threads accepted safe.1 hzeros perm _ hk hblocks hbytes hj
  | read threads accepted perm =>
    obtain ⟨hkeep, hothers, hbytes⟩ := read_spec threads accepted safe.1 safe.2 _ perm
    refine ⟨fun i => ?_, rfl, hothers, hbytes⟩
    simp only [hkeep]
    exact hzeros i
  | other regions host => exact ⟨hzeros, trivial⟩

/-- **Scatter/gather transfers.** In every run whose transfers meet the condition, a write puts the blocks of each DPU of the
set into its MRAM, followed by zeros, a read puts the MRAM back into the blocks and changes nothing else in host memory, and
the block of zeros is all zero in every state: for any lists of blocks, sizes, numbers of threads and orders of the stores. -/
theorem transfers_as_claimed {trace : List (St × Act × St)} {s : St} (run : Run trace s) (safe : ∀ x ∈ trace, Safe x.2.1) :
    (∀ i, s.memory.zeros i = 0) ∧ ∀ x ∈ trace, AsClaimed x.1 x.2.1 x.2.2 := by
  induction run with
  | init regions host => exact ⟨fun i => rfl, fun x hx => absurd hx List.not_mem_nil⟩
  | step run step ih =>
    obtain ⟨hzeros, hclaimed⟩ := ih fun x hx => safe x (List.mem_cons_of_mem _ hx)
    have hstep := step_as_claimed step (safe _ List.mem_cons_self) hzeros
    refine ⟨hstep.1, fun x hx => ?_⟩
    rcases List.mem_cons.mp hx with rfl | hx
    · exact hstep.2
    · exact hclaimed x hx

/-- one DPU with these blocks, and `size` bytes at the start of its MRAM -/
def oneDpu (blocks : List Block) (size : ℕ) : TransferMatrix (List Block) := ⟨fun k => if k = 0 then some blocks else none, 0, size⟩

theorem oneDpu_accepted (blocks : List Block) (size : ℕ) (h8 : 8 ∣ size) (hfits : size ≤ mramSize) : XferOk (oneDpu blocks size) :=
  ⟨Nat.dvd_zero 8, h8, by rw [oneDpu, Nat.zero_add]; exact hfits⟩

/-- blocks of 3, 0 and 9 bytes written as two words, and read back into a block of 8 bytes, by one thread -/
theorem transfers_as_claimed_three_blocks :
    ∃ trace s, Run trace s ∧ trace.length = 2 ∧ (∀ i, s.memory.zeros i = 0) ∧ ∀ x ∈ trace, AsClaimed x.1 x.2.1 x.2.2 := by
  have hsafe : ∀ a ∈ [Act.read 0 (oneDpu [⟨40, 8⟩] 16) 1, Act.write 0 (oneDpu [⟨0, 3⟩, ⟨7, 0⟩, ⟨20, 9⟩] 16) 1], Safe a := by
    intro a ha
    have hline : ∀ request : TransferMatrix (List Block), OneThreadPerLine (sgXferRankHandler request) 1 := by
      intro request l hl hused
      refine if_neg fun h => ?_
      have hbefore := linesBefore_lt _ hused hl
      rw [← nbLinesInXfer_eq] at hbefore
      exact absurd (lt_of_lt_of_le hbefore h.1) (Nat.not_lt_zero _)
    have hlist : ∀ blocks listed size k, (oneDpu blocks size).ptr k = some listed → listed = blocks := by
      intro blocks listed size k hk
      simp only [oneDpu] at hk
      split_ifs at hk
      exact (Option.some.inj hk).symm
    rcases List.mem_cons.mp ha with rfl | ha
    · refine ⟨hline _, fun k _ blocks hk => Or.inr ?_⟩
      rw [hlist _ _ _ _ hk]
      decide
    · rw [List.mem_singleton.mp ha]
      refine ⟨hline _, fun k _ blocks hk hnil => ?_⟩
      rw [hlist _ _ _ _ hk] at hnil
      exact absurd hnil (by decide)
  have hrun := Run.step (Run.step (Run.init (fun _ _ => 0) UInt8.ofNat)
      (Step.write (r := 0) (c := fun _ _ => 0) le_rfl (oneDpu_accepted [⟨0, 3⟩, ⟨7, 0⟩, ⟨20, 9⟩] 16 (by decide) (by decide))
        (List.Perm.refl (sgPoolStores _ _ 1 _))))
      (Step.read (r := 0) le_rfl (oneDpu_accepted [⟨40, 8⟩] 16 (by decide) (by decide)) (List.Perm.refl (sgPoolHostStores _ _ 1)))
  refine ⟨_, _, hrun, rfl, transfers_as_claimed hrun fun x hx => ?_⟩
  rcases List.mem_cons.mp hx with rfl | hx
  · exact hsafe _ List.mem_cons_self
  · rw [List.mem_singleton.mp hx]
    exact hsafe _ (List.mem_cons_of_mem _ List.mem_cons_self)

/-- sixteen bytes and two threads: the second word of the MRAM is the first word of the block; and a block of one byte, and a
word to read: the other seven bytes go into the block of zeros -/
theorem transfers_go_wrong :
    (¬∀ trace s, Run trace s → ∀ x ∈ trace, AsClaimed x.1 x.2.1 x.2.2) ∧
      ¬∀ trace s, Run trace s → ∀ i, s.memory.zeros i = 0 := by
  constructor
  · intro h
    have hrun := Run.step (Run.init (fun _ _ => 0) UInt8.ofNat)
      (Step.write (r := 0) (c := fun _ _ => 0) one_le_two (oneDpu_accepted [⟨0, 16⟩] 16 (by decide) (by decide))
        (List.Perm.refl (sgPoolStores _ _ 2 _)))
    have hbyte := (h _ _ hrun _ List.mem_cons_self).2 0 (by decide) [⟨0, 16⟩] rfl 8 (by decide)
    exact absurd hbyte (by decide +kernel)
  · intro h
    have hrun := Run.step (Run.init (fun _ _ => 1) UInt8.ofNat)
      (Step.read (r := 0) le_rfl (oneDpu_accepted [⟨0, 1⟩] 8 (by decide) (by decide)) (List.Perm.refl (sgPoolHostStores _ _ 1)))
    exact absurd (h _ _ hrun 0) (by decide +kernel)

end PimOfis.Hw
