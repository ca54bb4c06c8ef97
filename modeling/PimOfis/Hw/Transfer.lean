/-
MRAM transfers of a rank through its mapped region (`threads_write_to_rank` and `threads_read_from_rank` of
`xeon_sp_translation.c`), for default matrices.

A write gathers one 64-bit word for each of the eight chips of a line into `cache_line`, transposes the 8x8 bytes and
stores the 64 bytes at the line's offset; a read does the converse. `cache_line` is not cleared: a chip without a buffer
gets what is left there. The threads of the pool run side by side; their stores, and their loads, are taken in any order.

Results:
- `byteInterleaveAvx512_eq`: the AVX-512 code is the transpose of the 8x8 bytes, its own inverse;
- `foldl_store`: stores to lines apart from each other do not disturb one another;
- `mram_transfers`: lines do not alias, and what is written to a DPU is read back.
-/
import Mathlib.Tactic
import PimOfis.Hw.Address
import PimOfis.Hw.Threads
import PimOfis.Lib.Index

namespace PimOfis.Hw

/-! ## Model -/

/-- 64 bytes, or a 512-bit register -/
abbrev CacheLine := Fin 64 → UInt8

/-- `_mm512_permutexvar_epi32` -/
def permutexvarEpi32 (idx : Fin 16 → ℕ) (a : CacheLine) : CacheLine := fun i =>
  a ⟨4 * (idx ⟨i.val / 4, by omega⟩ % 16) + i.val % 4, by omega⟩

/-- `_mm512_shuffle_epi8`, inside each 128-bit lane -/
def shuffleEpi8 (a b : CacheLine) : CacheLine := fun i =>
  if (b i).toNat.testBit 7 = true then 0 else a ⟨i.val / 16 * 16 + (b i).toNat % 16, by omega⟩

/-- the bytes of `_mm512_set_epi64`, whose words alternate between two values -/
def setEpi64 (even odd : ℕ) : CacheLine := fun i =>
  UInt8.ofNat ((if i.val / 8 % 2 = 0 then even else odd) >>> (8 * (i.val % 8)))

/-- `byte_interleave_avx512` -/
def byteInterleaveAvx512 (input : CacheLine) : CacheLine :=
  let gathered := permutexvarEpi32 ![0, 2, 4, 6, 8, 10, 12, 14, 1, 3, 5, 7, 9, 11, 13, 15] input
  let transpose := shuffleEpi8 gathered (setEpi64 0x0d0905010c080400 0x0f0b07030e0a0602)
  permutexvarEpi32 ![0, 4, 1, 5, 2, 6, 3, 7, 8, 12, 9, 13, 10, 14, 11, 15] transpose

/-- a host buffer -/
abbrev Buffer := ℕ → UInt8

/-- the mapped region of a rank -/
abbrev Region := ℕ → UInt8

/-- a store of 64 bytes -/
structure Store where
  addr : ℕ
  line : CacheLine

def store (region : Region) (s : Store) : Region := fun a =>
  if h : s.addr ≤ a ∧ a < s.addr + 64 then s.line ⟨a - s.addr, by omega⟩ else region a

def load (region : Region) (addr : ℕ) : CacheLine := fun i => region (addr + i.val)

/-- the line of the region for word `i` of a transfer -/
def xferLine {α : Type} (m : TransferMatrix α) (dpuId i : ℕ) : ℕ := lineOffset dpuId (i * 8 + m.offset)

/-- word `i` of each buffer of the line goes into `cache_line` -/
def fillCacheLine (m : TransferMatrix Buffer) (dpuId i : ℕ) (cacheLine : CacheLine) : CacheLine := fun b =>
  match m.ptr (dpuId * 8 + b.val / 8) with
  | some buffer => buffer (i * 8 + b.val % 8)
  | none => cacheLine b

/-- the stores of `threads_write_to_rank` for these lines and words -/
def writeWords (m : TransferMatrix Buffer) : List (ℕ × ℕ) → CacheLine → List Store
  | [], _ => []
  | (dpuId, i) :: ws, cacheLine =>
    let cacheLine := fillCacheLine m dpuId i cacheLine
    ⟨xferLine m dpuId i, byteInterleaveAvx512 cacheLine⟩ :: writeWords m ws cacheLine

/-- the stores of all threads; `cache_line` is not initialised -/
def poolStores (m : TransferMatrix Buffer) (nbThreadsForXfer : ℕ) (cacheLine : ℕ → CacheLine) : List Store :=
  (List.range nbThreadsForXfer).flatMap fun threadId =>
    match threadDoMramXfer m nbThreadsForXfer threadId with
    | some r => writeWords m (threadWords m r) (cacheLine threadId)
    | none => []

/-- one word of a line in `threads_read_from_rank` -/
def readWord (region : Region) (m : TransferMatrix Buffer) (x : ℕ × ℕ) : TransferMatrix Buffer :=
  let cacheLineInterleave := byteInterleaveAvx512 (load region (xferLine m x.1 x.2))
  { m with ptr := fun k =>
      if k / 8 = x.1 then
        (m.ptr k).map fun buffer a =>
          if a / 8 = x.2 then cacheLineInterleave ⟨k % 8 * 8 + a % 8, by omega⟩ else buffer a
      else m.ptr k }

/-! ## The transpose -/

theorem transpose_lt (b : Fin 64) : b.val % 8 * 8 + b.val / 8 < 64 := by omega

/-- `byte_interleave`: byte `j` of output word `i` is byte `i` of input word `j` -/
def byteInterleave (input : CacheLine) : CacheLine := fun b => input ⟨b.val % 8 * 8 + b.val / 8, transpose_lt b⟩

theorem byteInterleave_involutive (input : CacheLine) : byteInterleave (byteInterleave input) = input := by
  funext b
  exact congrArg input (Fin.ext (by simp only; omega))

/-- the constants of `byte_interleave_avx512` -/
theorem interleave_indexes (b : Fin 64) :
    let i : Fin 64 := ⟨4 * ((![0, 4, 1, 5, 2, 6, 3, 7, 8, 12, 9, 13, 10, 14, 11, 15] : Fin 16 → ℕ) ⟨b.val / 4, by omega⟩ % 16) +
      b.val % 4, by omega⟩
    let mask := (setEpi64 0x0d0905010c080400 0x0f0b07030e0a0602 i).toNat
    let j : Fin 64 := ⟨i.val / 16 * 16 + mask % 16, by omega⟩
    mask.testBit 7 = false ∧
      4 * ((![0, 2, 4, 6, 8, 10, 12, 14, 1, 3, 5, 7, 9, 11, 13, 15] : Fin 16 → ℕ) ⟨j.val / 4, by omega⟩ % 16) + j.val % 4 =
        b.val % 8 * 8 + b.val / 8 := by
  revert b
  decide +kernel

/-- **The AVX-512 code** is the transpose. -/
theorem byteInterleaveAvx512_eq (input : CacheLine) : byteInterleaveAvx512 input = byteInterleave input := by
  funext b
  obtain ⟨hmask, hindex⟩ := interleave_indexes b
  simp only [byteInterleaveAvx512, byteInterleave, permutexvarEpi32, shuffleEpi8, hmask, Bool.false_eq_true, if_false]
  exact congrArg input (Fin.ext hindex)

/-! ## Stores -/

theorem store_of_apart {region : Region} {s : Store} {addr : ℕ} (h : Apart s.addr addr) :
    load (store region s) addr = load region addr := by
  funext i
  have hi := i.isLt
  exact dif_neg (by rintro ⟨hge, hlt⟩; rcases h with h | h <;> omega)

theorem store_self (region : Region) (s : Store) : load (store region s) s.addr = s.line := by
  funext i
  have hi := i.isLt
  rw [load, store, dif_pos ⟨by omega, by omega⟩]
  exact congrArg s.line (Fin.ext (by simp only; omega))

theorem foldl_store_of_apart {stores : List Store} {addr : ℕ} (h : ∀ s ∈ stores, Apart s.addr addr) (region : Region) :
    load (stores.foldl store region) addr = load region addr := by
  induction stores generalizing region with
  | nil => rfl
  | cons s stores ih =>
    rw [List.foldl_cons, ih fun s' hs' => h s' (List.mem_cons_of_mem s hs')]
    exact store_of_apart (h s List.mem_cons_self)

/-- **Stores apart.** Each line holds what its own store put there. -/
theorem foldl_store {stores : List Store} (h : stores.Pairwise fun s s' => Apart s.addr s'.addr) (region : Region) {s : Store}
    (hs : s ∈ stores) : load (stores.foldl store region) s.addr = s.line := by
  induction stores generalizing region with
  | nil => exact absurd hs List.not_mem_nil
  | cons t stores ih =>
    obtain ⟨ht, hrest⟩ := List.pairwise_cons.mp h
    rw [List.foldl_cons]
    rcases List.mem_cons.mp hs with rfl | hs
    · rw [foldl_store_of_apart fun s' hs' => (ht s' hs').symm, store_self]
    · exact ih hrest _ hs

/-! ## What a pool stores -/

theorem writeWords_addr (m : TransferMatrix Buffer) (ws : List (ℕ × ℕ)) (cacheLine : CacheLine) :
    (writeWords m ws cacheLine).map Store.addr = ws.map fun x => xferLine m x.1 x.2 := by
  induction ws generalizing cacheLine with
  | nil => rfl
  | cons x ws ih =>
    simp only [writeWords, List.map_cons]
    rw [ih]

theorem mem_writeWords (m : TransferMatrix Buffer) {ws : List (ℕ × ℕ)} (cacheLine : CacheLine) {x : ℕ × ℕ} (hx : x ∈ ws) :
    ∃ s ∈ writeWords m ws cacheLine, s.addr = xferLine m x.1 x.2 ∧
      ∃ old, s.line = byteInterleaveAvx512 (fillCacheLine m x.1 x.2 old) := by
  induction ws generalizing cacheLine with
  | nil => exact absurd hx List.not_mem_nil
  | cons y ws ih =>
    simp only [writeWords]
    rcases List.mem_cons.mp hx with rfl | hx
    · exact ⟨_, List.mem_cons_self, rfl, cacheLine, rfl⟩
    · obtain ⟨s, hs, h⟩ := ih (fillCacheLine m y.1 y.2 cacheLine) hx
      exact ⟨s, List.mem_cons_of_mem _ hs, h⟩

theorem poolStores_addr (m : TransferMatrix Buffer) (T : ℕ) (cacheLine : ℕ → CacheLine) :
    (poolStores m T cacheLine).map Store.addr = (poolWords m T).map fun x => xferLine m x.1 x.2 := by
  rw [poolStores, poolWords, List.map_flatMap, List.map_flatMap]
  apply List.flatMap_congr
  intro t _
  cases threadDoMramXfer m T t with
  | some r => exact writeWords_addr m (threadWords m r) (cacheLine t)
  | none => rfl

theorem mem_poolStores {m : TransferMatrix Buffer} {T : ℕ} (cacheLine : ℕ → CacheLine) {x : ℕ × ℕ} (hx : x ∈ poolWords m T) :
    ∃ s ∈ poolStores m T cacheLine, s.addr = xferLine m x.1 x.2 ∧
      ∃ old, s.line = byteInterleaveAvx512 (fillCacheLine m x.1 x.2 old) := by
  obtain ⟨t, ht, hmem⟩ := List.mem_flatMap.mp hx
  cases hr : threadDoMramXfer m T t with
  | none =>
    rw [hr] at hmem
    simp at hmem
  | some r =>
    rw [hr] at hmem
    obtain ⟨s, hs, h⟩ := mem_writeWords m (cacheLine t) hmem
    refine ⟨s, List.mem_flatMap.mpr ⟨t, ht, ?_⟩, h⟩
    rw [hr]
    exact hs

theorem writeWords_mem (m : TransferMatrix Buffer) {ws : List (ℕ × ℕ)} (cacheLine : CacheLine) {s : Store}
    (hs : s ∈ writeWords m ws cacheLine) : ∃ x ∈ ws, s.addr = xferLine m x.1 x.2 ∧
      ∃ old, s.line = byteInterleaveAvx512 (fillCacheLine m x.1 x.2 old) := by
  induction ws generalizing cacheLine with
  | nil => exact absurd hs List.not_mem_nil
  | cons y ws ih =>
    simp only [writeWords] at hs
    rcases List.mem_cons.mp hs with rfl | hs
    · exact ⟨y, List.mem_cons_self, rfl, cacheLine, rfl⟩
    · obtain ⟨x, hx, h⟩ := ih _ hs
      exact ⟨x, List.mem_cons_of_mem _ hx, h⟩

/-- every store of the pool is one of its words -/
theorem poolStores_mem {m : TransferMatrix Buffer} {T : ℕ} (cacheLine : ℕ → CacheLine) {s : Store}
    (hs : s ∈ poolStores m T cacheLine) : ∃ x ∈ poolWords m T, s.addr = xferLine m x.1 x.2 ∧
      ∃ old, s.line = byteInterleaveAvx512 (fillCacheLine m x.1 x.2 old) := by
  obtain ⟨t, ht, hmem⟩ := List.mem_flatMap.mp hs
  cases hr : threadDoMramXfer m T t with
  | none =>
    rw [hr] at hmem
    simp at hmem
  | some r =>
    rw [hr] at hmem
    obtain ⟨x, hx, h⟩ := writeWords_mem m (cacheLine t) hmem
    refine ⟨x, List.mem_flatMap.mpr ⟨t, ht, ?_⟩, h⟩
    rw [hr]
    exact hx

/-- a transfer within the MRAM -/
structure XferOk {α : Type} (m : TransferMatrix α) : Prop where
  offset : 8 ∣ m.offset
  size : 8 ∣ m.size
  fits : m.offset + m.size ≤ mramSize

theorem XferOk.lt {α : Type} {m : TransferMatrix α} (h : XferOk m) : m.size < 2 ^ 32 :=
  calc m.size ≤ m.offset + m.size := Nat.le_add_left _ _
    _ ≤ mramSize := h.fits
    _ < 2 ^ 32 := by decide

theorem poolStores_apart {m : TransferMatrix Buffer} {T : ℕ} (hT : 1 ≤ T) (h : XferOk m) (cacheLine : ℕ → CacheLine) :
    (poolStores m T cacheLine).Pairwise fun s s' => Apart s.addr s'.addr := by
  obtain ⟨hnodup, hmem, -⟩ := xfer_exactly_once m T hT h.size h.lt
  have hlines : ((poolWords m T).map fun x => xferLine m x.1 x.2).Pairwise Apart := by
    rw [List.pairwise_map]
    refine hnodup.pairwise_of_forall_ne fun x hx y hy hne => ?_
    obtain ⟨hx8, -, hxw⟩ := (hmem x.1 x.2).mp hx
    obtain ⟨hy8, -, hyw⟩ := (hmem y.1 y.2).mp hy
    have hoff := h.offset
    have hsize := h.size
    have hfits := h.fits
    by_contra hapart
    obtain ⟨h1, h2⟩ := lineOffset_injective hx8 hy8 (by omega) (by omega) (by omega) (by omega) hapart
    exact hne (Prod.ext h1 (by omega))
  rw [← poolStores_addr m T cacheLine] at hlines
  exact List.pairwise_map.mp hlines

/-! ## What a pool reads -/

theorem foldl_readWord (region : Region) (m : TransferMatrix Buffer) (xs : List (ℕ × ℕ)) :
    (xs.foldl (readWord region) m).offset = m.offset ∧ ∀ k, (xs.foldl (readWord region) m).ptr k =
      (m.ptr k).map fun buffer a =>
        if (k / 8, a / 8) ∈ xs then
          byteInterleaveAvx512 (load region (xferLine m (k / 8) (a / 8))) ⟨k % 8 * 8 + a % 8, by omega⟩
        else buffer a := by
  induction xs using List.reverseRecOn with
  | nil => exact ⟨rfl, fun k => by simp⟩
  | append_singleton xs x ih =>
    obtain ⟨hoff, hptr⟩ := ih
    rw [List.foldl_append]
    refine ⟨hoff, fun k => ?_⟩
    have hline : xferLine (xs.foldl (readWord region) m) x.1 x.2 = xferLine m x.1 x.2 := by simp only [xferLine, hoff]
    simp only [List.foldl_cons, List.foldl_nil, readWord, hline, hptr]
    cases m.ptr k with
    | none => simp
    | some buffer =>
      have hmem : ∀ a, (k / 8, a / 8) ∈ xs ++ [x] ↔ (k / 8, a / 8) ∈ xs ∨ (k / 8 = x.1 ∧ a / 8 = x.2) := fun a => by
        simp [Prod.ext_iff]
      simp only [Option.map_some, hmem]
      by_cases hk : k / 8 = x.1
      · rw [if_pos hk]
        refine congrArg some (funext fun a => ?_)
        by_cases ha : a / 8 = x.2
        · simp only [hk, ha, and_self, or_true, if_true]
        · simp only [ha, and_false, or_false, if_false]
      · simp only [hk, false_and, or_false, if_false]

/-! ## Write, then read -/

/-- the line that holds word `i` of a line in use, after the write -/
theorem load_written {m : TransferMatrix Buffer} {T : ℕ} (hT : 1 ≤ T) (h : XferOk m) (cacheLine : ℕ → CacheLine)
    {stores : List Store} (hstores : stores.Perm (poolStores m T cacheLine)) (region : Region) {k : ℕ} {buffer : Buffer}
    (hk : k < 64) (hbuf : m.ptr k = some buffer) {a : ℕ} (ha : a < m.size) :
    byteInterleaveAvx512 (load (stores.foldl store region) (xferLine m (k / 8) (a / 8))) ⟨k % 8 * 8 + a % 8, by omega⟩ =
      buffer a := by
  have hline : m.lineInXfer (k / 8) = true := by
    refine List.any_eq_true.mpr ⟨k % 8, List.mem_range.mpr (Nat.mod_lt k (by decide)), ?_⟩
    rw [Nat.div_add_mod', hbuf]
    rfl
  have hsize := h.size
  have hmem : (k / 8, a / 8) ∈ poolWords m T :=
    ((xfer_exactly_once m T hT h.size h.lt).2.1 _ _).mpr ⟨by omega, hline, by omega⟩
  obtain ⟨s, hs, haddr, old, hval⟩ := mem_poolStores cacheLine hmem
  have hapart := (hstores.pairwise_iff fun {s s'} (h : Apart s.addr s'.addr) => h.symm).mpr (poolStores_apart hT h cacheLine)
  have hload := foldl_store hapart region (hstores.mem_iff.mpr hs)
  rw [haddr] at hload
  rw [hload, hval, byteInterleaveAvx512_eq, byteInterleaveAvx512_eq, byteInterleave_involutive]
  simp only [fillCacheLine]
  rw [show k / 8 * 8 + (k % 8 * 8 + a % 8) / 8 = k by omega, hbuf]
  simp only
  exact congrArg buffer (by omega)

/-- what a pool of `Tw` threads writes from `w`, a pool of `Tr` threads reads back through `r`, in whatever order the
stores and the loads come and whatever memory and the threads' `cache_line` held before -/
def RoundTrip (w r : TransferMatrix Buffer) (Tw Tr : ℕ) : Prop :=
  ∀ (cacheLine : ℕ → CacheLine) (region : Region) (stores : List Store) (loads : List (ℕ × ℕ)),
    stores.Perm (poolStores w Tw cacheLine) → loads.Perm (poolWords r Tr) →
    ∀ k < 64, ∀ written old, w.ptr k = some written → r.ptr k = some old →
      ∃ buffer, (loads.foldl (readWord (stores.foldl store region)) r).ptr k = some buffer ∧ ∀ a < w.size, buffer a = written a

theorem roundTrip_of_xferOk {w r : TransferMatrix Buffer} {Tw Tr : ℕ} (hTw : 1 ≤ Tw) (hTr : 1 ≤ Tr) (hw : XferOk w)
    (hoffset : r.offset = w.offset) (hsize : r.size = w.size) : RoundTrip w r Tw Tr := by
  intro cacheLine region stores loads hstores hloads k hk written old hwk hrk
  have hr : XferOk r := ⟨hoffset ▸ hw.offset, hsize ▸ hw.size, by rw [hoffset, hsize]; exact hw.fits⟩
  have hline : r.lineInXfer (k / 8) = true := by
    refine List.any_eq_true.mpr ⟨k % 8, List.mem_range.mpr (Nat.mod_lt k (by decide)), ?_⟩
    rw [Nat.div_add_mod', hrk]
    rfl
  refine ⟨_, by rw [(foldl_readWord _ r loads).2 k, hrk, Option.map_some], fun a ha => ?_⟩
  have hmem : (k / 8, a / 8) ∈ loads := by
    have h8 := hr.size
    exact hloads.mem_iff.mpr (((xfer_exactly_once r Tr hTr hr.size hr.lt).2.1 _ _).mpr ⟨by omega, hline, by omega⟩)
  have hxfer : xferLine r (k / 8) (a / 8) = xferLine w (k / 8) (a / 8) := by simp only [xferLine, hoffset]
  rw [if_pos hmem, hxfer]
  exact load_written hTw hw cacheLine hstores region hk hwk ha

/-- different words, or words of different lines of DPUs, have no byte in common with each other or with the lines of the
control interfaces -/
def NoAliasing : Prop :=
  (∀ d < 8, ∀ d' < 8, ∀ x < mramSize, ∀ x' < mramSize, 8 ∣ x → 8 ∣ x' → (d, x) ≠ (d', x') →
    Apart (lineOffset d x) (lineOffset d' x')) ∧
  ∀ d < 8, ∀ x < mramSize, Apart (lineOffset d x) ciWriteLine ∧ Apart (lineOffset d x) ciReadLine

/-- **MRAM transfers** do not alias, and a write is read back, for any default matrices within the MRAM. -/
theorem mram_transfers (w r : TransferMatrix Buffer) (Tw Tr : ℕ) (hTw : 1 ≤ Tw) (hTr : 1 ≤ Tr) (hw : XferOk w)
    (hoffset : r.offset = w.offset) (hsize : r.size = w.size) : NoAliasing ∧ RoundTrip w r Tw Tr := by
  refine ⟨⟨fun d hd d' hd' x hx x' hx' h8 h8' hne => ?_, fun d _ x _ => lineOffset_controlInterface d x⟩,
    roundTrip_of_xferOk hTw hTr hw hoffset hsize⟩
  by_contra hapart
  obtain ⟨rfl, rfl⟩ := lineOffset_injective hd hd' hx hx' h8 h8' hapart
  exact hne rfl

/-- two DPUs of different lines, 32 bytes at the end of the MRAM, two threads to write and eight to read -/
theorem mram_transfers_two_lines :
    let w : TransferMatrix Buffer := ⟨fun k => if k = 3 ∨ k = 12 then some fun a => UInt8.ofNat (k + a) else none, 2 ^ 26 - 32, 32⟩
    NoAliasing ∧ RoundTrip w w 2 8 :=
  mram_transfers _ _ 2 8 (by decide) (by decide) ⟨by decide, by decide, by decide⟩ rfl rfl

end PimOfis.Hw
