/-
Which bytes of the MRAM a transfer writes (`threads_write_to_rank` of `xeon_sp_translation.c`, seen from the DPUs).

A line of the mapped region holds a word of the same DPU of all eight chips, byte by byte, and a store to it reaches the
chips whose mux is on the host side. On a chip without a buffer `cache_line` holds whatever was left there, so only its mux
keeps the chip's MRAM as it is.

Results:
- `hostStores_spec`: under muxes that guard a matrix the stores of the pool write its buffers and nothing else;
- `carryAll_spec`: so do the matrices of a push together.
-/
import Mathlib.Tactic
import PimOfis.Hw.Transfer
import PimOfis.Mram.Split

namespace PimOfis.Mram

open PimOfis.Ufi PimOfis.Hw

/-! ## Model -/

/-- the MRAM of the DPUs of a rank -/
abbrev Memory := Ci → Member → ℕ → UInt8

/-- a store to a line: byte `j` of the word of chip `ci` is byte `8 * j + ci` -/
def hostStore (mux : Muxes) (mram : Memory) (s : Store) : Memory := fun ci i x =>
  if x < mramSize ∧ s.addr = lineOffset i.val (x / 8 * 8) ∧ mux ci (pairOf i) = true then
    s.line ⟨x % 8 * 8 + ci.val, by omega⟩
  else mram ci i x

/-- the threads of a transfer pool, what their `cache_line`s hold at first, and the order their stores come in -/
structure Pool where
  threads : ℕ
  pos : 1 ≤ threads
  cacheLine : ℕ → CacheLine
  order : List Store → List Store
  perm : ∀ l, (order l).Perm l

/-- the backend carries out what it was handed; a read leaves the MRAM as it is -/
def carry (p : Pool) (mram : Memory) (s : Sent Buffer) : Memory :=
  match s.type with
  | .toMram => (p.order (poolStores s.matrix p.threads p.cacheLine)).foldl (hostStore s.mux) mram
  | .fromMram => mram

/-- one matrix after another -/
def carryAll (pools : ℕ → Pool) : ℕ → List (Sent Buffer) → Memory → Memory
  | _, [], mram => mram
  | n, s :: ss, mram => carryAll pools (n + 1) ss (carry (pools n) mram s)

/-- the MRAM of a DPU with the bytes from `offset` on overwritten -/
def overlay (offset size : ℕ) (mram : ℕ → UInt8) (buffer : Buffer) : ℕ → UInt8 := fun x =>
  if offset ≤ x ∧ x < offset + size then buffer (x - offset) else mram x

/-- the buffers of a matrix, and nothing else, written -/
def written (m : TransferMatrix Buffer) (mram : Memory) : Memory := fun ci i =>
  match buf m ci i with
  | some buffer => overlay m.offset m.size (mram ci i) buffer
  | none => mram ci i

/-! ## Stores -/

theorem foldl_hostStore_of_missed {mux : Muxes} {stores : List Store} {ci : Ci} {i : Member} {x : ℕ}
    (h : ∀ s ∈ stores, ¬(x < mramSize ∧ s.addr = lineOffset i.val (x / 8 * 8) ∧ mux ci (pairOf i) = true)) (mram : Memory) :
    (stores.foldl (hostStore mux) mram) ci i x = mram ci i x := by
  induction stores generalizing mram with
  | nil => rfl
  | cons s stores ih =>
    rw [List.foldl_cons, ih fun s' hs' => h s' (List.mem_cons_of_mem s hs')]
    exact if_neg (h s List.mem_cons_self)

/-- all stores to a word bring one value -/
theorem foldl_hostStore_of_hit {mux : Muxes} {stores : List Store} {ci : Ci} {i : Member} {x : ℕ} {v : UInt8}
    (hx : x < mramSize) (hmux : mux ci (pairOf i) = true)
    (hall : ∀ s ∈ stores, s.addr = lineOffset i.val (x / 8 * 8) → s.line ⟨x % 8 * 8 + ci.val, by omega⟩ = v)
    (hsome : ∃ s ∈ stores, s.addr = lineOffset i.val (x / 8 * 8)) (mram : Memory) :
    (stores.foldl (hostStore mux) mram) ci i x = v := by
  induction stores using List.reverseRecOn with
  | nil => exact absurd hsome (by simp)
  | append_singleton stores s ih =>
    rw [List.foldl_append, List.foldl_cons, List.foldl_nil]
    by_cases hs : s.addr = lineOffset i.val (x / 8 * 8)
    · rw [hostStore, if_pos ⟨hx, hs, hmux⟩]
      exact hall s (by simp) hs
    · rw [hostStore, if_neg fun h => hs h.2.1]
      refine ih (fun s' hs' => hall s' (List.mem_append_left _ hs')) ?_
      obtain ⟨s', hs', haddr⟩ := hsome
      rcases List.mem_append.mp hs' with hs' | hs'
      · exact ⟨s', hs', haddr⟩
      · rw [List.mem_singleton.mp hs'] at haddr
        exact absurd haddr hs

/-- **A guarded matrix.** Whatever the threads' `cache_line`s hold and in whatever order their stores come, the buffers of
the matrix are written, and nothing else. -/
theorem hostStores_spec {mux : Muxes} {m : TransferMatrix Buffer} (hg : Guards mux m) (hm : XferOk m) {T : ℕ} (hT : 1 ≤ T)
    (cacheLine : ℕ → CacheLine) {stores : List Store} (hstores : stores.Perm (poolStores m T cacheLine)) (mram : Memory) :
    stores.foldl (hostStore mux) mram = written m mram := by
  obtain ⟨-, hwords, -⟩ := xfer_exactly_once m T hT hm.size hm.lt
  have h8 := hm.offset
  have h8' := hm.size
  have hfits := hm.fits
  -- a store that reaches a byte is that of the word the byte is in
  have hword : ∀ (i : Member) (x : ℕ), x < mramSize → ∀ s ∈ stores, s.addr = lineOffset i.val (x / 8 * 8) →
      m.lineInXfer i.val = true ∧ m.offset ≤ x ∧ x < m.offset + m.size ∧
        ∃ old, s.line = byteInterleaveAvx512 (fillCacheLine m i.val ((x - m.offset) / 8) old) := by
    intro i x hx s hs haddr
    obtain ⟨⟨l, w⟩, hlw, hsaddr, old, hline⟩ := poolStores_mem cacheLine (hstores.mem_iff.mp hs)
    obtain ⟨hl, hin, hw⟩ := (hwords l w).mp hlw
    have hsame : ¬ Apart (lineOffset l (w * 8 + m.offset)) (lineOffset i.val (x / 8 * 8)) := by
      rw [← haddr, hsaddr]
      intro hapart
      simp only [Apart, xferLine] at hapart
      omega
    obtain ⟨rfl, hoff⟩ := lineOffset_injective hl i.isLt (by omega) (by omega) (by omega) (by omega) hsame
    refine ⟨hin, by omega, by omega, old, ?_⟩
    rw [hline]
    congr 2
    omega
  funext ci i x
  unfold written
  cases hbuf : buf m ci i with
  | none =>
    refine foldl_hostStore_of_missed (fun s hs hhit => ?_) mram
    obtain ⟨hin, -⟩ := hword i x hhit.1 s hs hhit.2.1
    have hdpu := hg.dpu ci i hin (by rw [hbuf]; rfl)
    exact absurd (hhit.2.2.symm.trans hdpu) (by decide)
  | some buffer =>
    simp only [overlay]
    have hhost : mux ci (pairOf i) = true := hg.host ci i (by rw [hbuf]; rfl)
    have hline : m.lineInXfer i.val = true := (lineInXfer_iff m i).mpr ⟨ci, by rw [hbuf]; rfl⟩
    split_ifs with hx
    · have hlt : x < mramSize := by omega
      refine foldl_hostStore_of_hit hlt hhost (fun s hs haddr => ?_) ?_ mram
      · obtain ⟨-, -, -, old, hval⟩ := hword i x hlt s hs haddr
        have hidx : i.val * 8 + (ci.val * 8 + x % 8) / 8 = i.val * 8 + ci.val := by omega
        rw [hval, byteInterleaveAvx512_eq]
        simp only [byteInterleave, fillCacheLine, show (x % 8 * 8 + ci.val) % 8 = ci.val by omega,
          show (x % 8 * 8 + ci.val) / 8 = x % 8 by omega, hidx]
        rw [show m.ptr (i.val * 8 + ci.val) = some buffer from hbuf]
        simp only
        congr 1
        omega
      · have hmem : (i.val, (x - m.offset) / 8) ∈ poolWords m T := (hwords _ _).mpr ⟨i.isLt, hline, by omega⟩
        obtain ⟨s, hs, haddr, -⟩ := mem_poolStores cacheLine hmem
        refine ⟨s, hstores.mem_iff.mpr hs, ?_⟩
        rw [haddr, xferLine]
        congr 1
        omega
    · refine foldl_hostStore_of_missed (fun s hs hhit => hx ?_) mram
      obtain ⟨-, h1, h2, -⟩ := hword i x hhit.1 s hs hhit.2.1
      exact ⟨h1, h2⟩

/-! ## The matrices of a push -/

theorem carryAll_fromMram {pools : ℕ → Pool} {ss : List (Sent Buffer)} (h : ∀ s ∈ ss, s.type = .fromMram) (n : ℕ)
    (mram : Memory) : carryAll pools n ss mram = mram := by
  induction ss generalizing n mram with
  | nil => rfl
  | cons s ss ih =>
    have hs : carry (pools n) mram s = mram := by
      unfold carry
      rw [h s List.mem_cons_self]
    rw [carryAll, hs]
    exact ih (fun s' hs' => h s' (List.mem_cons_of_mem s hs')) (n + 1) mram

/-- the matrices are guarded, and cover the same bytes -/
structure Covers (offset size : ℕ) (s : Sent Buffer) : Prop where
  type : s.type = .toMram
  offset : s.matrix.offset = offset
  size : s.matrix.size = size
  guards : Guards s.mux s.matrix

theorem carryAll_foldl {offset size : ℕ} (hm : 8 ∣ offset ∧ 8 ∣ size ∧ offset + size ≤ mramSize) {pools : ℕ → Pool}
    {ss : List (Sent Buffer)} (h : ∀ s ∈ ss, Covers offset size s) (n : ℕ) (mram : Memory) (ci : Ci) (i : Member) :
    carryAll pools n ss mram ci i = (ss.filterMap fun s => buf s.matrix ci i).foldl (overlay offset size) (mram ci i) := by
  induction ss generalizing n mram with
  | nil => rfl
  | cons s ss ih =>
    obtain ⟨htype, hoff, hsize, hg⟩ := h s List.mem_cons_self
    have hok : XferOk s.matrix := ⟨hoff ▸ hm.1, hsize ▸ hm.2.1, by rw [hoff, hsize]; exact hm.2.2⟩
    have hs : carry (pools n) mram s = written s.matrix mram := by
      unfold carry
      rw [htype]
      exact hostStores_spec hg hok (pools n).pos (pools n).cacheLine ((pools n).perm _) mram
    rw [carryAll, hs, ih (fun s' hs' => h s' (List.mem_cons_of_mem s hs'))]
    cases hb : buf s.matrix ci i with
    | none =>
      have hfm : ((s :: ss).filterMap fun s => buf s.matrix ci i) = ss.filterMap fun s => buf s.matrix ci i :=
        List.filterMap_cons_none hb
      rw [hfm]
      simp only [written, hb]
    | some buffer =>
      have hfm : ((s :: ss).filterMap fun s => buf s.matrix ci i) = buffer :: ss.filterMap fun s => buf s.matrix ci i :=
        List.filterMap_cons_some hb
      rw [hfm, List.foldl_cons]
      simp only [written, hb, hoff, hsize]

/-- **A push.** Matrices that together hold each buffer of `m` once write `m`. -/
theorem carryAll_spec {m : TransferMatrix Buffer} (hm : XferOk m) {pools : ℕ → Pool} {ss : List (Sent Buffer)}
    (h : ∀ s ∈ ss, Covers m.offset m.size s)
    (honce : ∀ ci i, (ss.filterMap fun s => buf s.matrix ci i) = (buf m ci i).toList) (n : ℕ) (mram : Memory) :
    carryAll pools n ss mram = written m mram := by
  funext ci i
  rw [carryAll_foldl ⟨hm.offset, hm.size, hm.fits⟩ h, honce]
  unfold written
  cases buf m ci i with
  | none => rfl
  | some buffer => rfl

end PimOfis.Mram
