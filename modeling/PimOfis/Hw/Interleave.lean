/-
The byte interleavers of `xeon_sp_translation.c`: the scalar loops, and the versions for SSE4.1, AVX2, AVX-512 and
AVX-512 VBMI. (`byteInterleaveAvx512`, which the transfers use, is in `Hw.Transfer`.) They read 64 bytes and store 64 bytes;
`use_stream` only chooses the kind of the store.

`byte_interleave_avx512vbmi` takes the constant of `byte_interleave_avx512`, whose numbers are places inside a 128-bit lane,
as places in the whole register: each of its four lanes gets the first 16 bytes of the input, with their words of four
bytes transposed.

Results:
- `byteInterleaveSse41_eq`, `byteInterleaveAvx2_eq`, `byteInterleaveStores_eq`: three more ways to the transpose;
- `vbmi_eq_iff`: the VBMI code gets there if all bytes of the input are the same, and only then;
- `interleavers_agree_iff`: the interleavers together.
-/
import Mathlib.Data.UInt
import Mathlib.Tactic
import PimOfis.Hw.Transfer
import PimOfis.Lib.Lanes

namespace PimOfis.Hw

open Lib.Lanes

/-! ## Model -/

/-- the loops of `byte_interleave`: byte `j` of `output[i]` becomes byte `i` of `input[j]` -/
def byteInterleaveStores (input output : CacheLine) : CacheLine :=
  (List.range 8 ×ˢ List.range 8).foldl
    (fun output x => Function.update output (Fin.ofNat 64 (x.1 * 8 + x.2)) (input (Fin.ofNat 64 (x.2 * 8 + x.1)))) output

section Programs

variable (α : Type) [Zero α]

/-- `byte_interleave_sse4_1` -/
def sse41 (input : Fin 64 → α) : Fin 64 → α :=
  let pshufbcnst0 := set [15, 7, 11, 3, 13, 5, 9, 1, 14, 6, 10, 2, 12, 4, 8, 0]
  let pshufbcnst1 := set [13, 5, 9, 1, 15, 7, 11, 3, 12, 4, 8, 0, 14, 6, 10, 2]
  let pshufbcnst2 := set [11, 3, 15, 7, 9, 1, 13, 5, 10, 2, 14, 6, 8, 0, 12, 4]
  let pshufbcnst3 := set [9, 1, 13, 5, 11, 3, 15, 7, 8, 0, 12, 4, 10, 2, 14, 6]
  let b0 := loadu 16 input 0
  let b1 := loadu 16 input 16
  let b2 := loadu 16 input 32
  let b3 := loadu 16 input 48
  let b1 := shufflePs b1 b1 0b10110001
  let b3 := shufflePs b3 b3 0b10110001
  let t0 := blendPs b0 b1 0b1010
  let t1 := blendPs b2 b3 0b1010
  let t2 := blendPs b0 b1 0b0101
  let t3 := blendPs b2 b3 0b0101
  let b0 := Lib.Lanes.shuffleEpi8 t0 pshufbcnst0
  let b1 := Lib.Lanes.shuffleEpi8 t1 pshufbcnst1
  let b2 := Lib.Lanes.shuffleEpi8 t2 pshufbcnst2
  let b3 := Lib.Lanes.shuffleEpi8 t3 pshufbcnst3
  let t0 := blendPs b0 b1 0b1010
  let t1 := blendPs b0 b1 0b0101
  let t2 := blendPs b2 b3 0b1010
  let t3 := blendPs b2 b3 0b0101
  let t1 := shufflePs t1 t1 0b10110001
  let t3 := shufflePs t3 t3 0b10110001
  storeu 4 ![t0, t1, t2, t3]

/-- `byte_interleave_avx2` -/
def avx2 (input : Fin 64 → α) : Fin 64 → α :=
  let tm := set [15, 11, 7, 3, 14, 10, 6, 2, 13, 9, 5, 1, 12, 8, 4, 0, 15, 11, 7, 3, 14, 10, 6, 2, 13, 9, 5, 1, 12, 8, 4, 0]
  let vindex := setr [0, 8, 16, 24, 32, 40, 48, 56]
  let perm := setr [0, 4, 1, 5, 2, 6, 3, 7]
  let load0 := i32gatherEpi32 input 0 vindex 1
  let load1 := i32gatherEpi32 input 4 vindex 1
  let transpose0 := Lib.Lanes.shuffleEpi8 load0 tm
  let transpose1 := Lib.Lanes.shuffleEpi8 load1 tm
  let final0 := permutevar8x32Epi32 transpose0 perm
  let final1 := permutevar8x32Epi32 transpose1 perm
  storeu 2 ![final0, final1]

end Programs

def byteInterleaveSse41 (input : CacheLine) : CacheLine := sse41 UInt8 input

def byteInterleaveAvx2 (input : CacheLine) : CacheLine := avx2 UInt8 input

/-- `_mm512_permutexvar_epi8` -/
def permutexvarEpi8 (idx a : CacheLine) : CacheLine := fun i => a (Fin.ofNat 64 ((idx i).toNat % 64))

/-- `byte_interleave_avx512vbmi` -/
def byteInterleaveAvx512vbmi (src : CacheLine) : CacheLine :=
  let trans8x8shuf := setEpi64 0x0d0905010c080400 0x0f0b07030e0a0602
  permutexvarEpi8 trans8x8shuf src

/-! ## Statement -/

/-- what is claimed of some of the versions for one input: each agrees with `byte_interleave`, and undoes itself -/
def Agree (versions : List (CacheLine → CacheLine)) (input : CacheLine) : Prop :=
  ∀ version ∈ versions, (∀ output, version input = byteInterleaveStores input output) ∧ version (version input) = input

/-! ## The versions that transpose -/

/-- the byte of the input at a place of the transpose -/
def transposed (b : Fin 64) : Fin 64 := ⟨b.val % 8 * 8 + b.val / 8, transpose_lt b⟩

theorem byteInterleaveStores_eq (input output : CacheLine) : byteInterleaveStores input output = byteInterleave input := by
  funext b
  have hwant : ∀ x ∈ List.range 8 ×ˢ List.range 8,
      input (Fin.ofNat 64 (x.2 * 8 + x.1)) = byteInterleave input (Fin.ofNat 64 (x.1 * 8 + x.2)) := by
    intro x hx
    obtain ⟨hi, hj⟩ := List.mem_product.mp hx
    rw [List.mem_range] at hi hj
    have hto : (x.1 * 8 + x.2) % 64 = x.1 * 8 + x.2 := Nat.mod_eq_of_lt (by omega)
    have hfrom : (x.2 * 8 + x.1) % 64 = x.2 * 8 + x.1 := Nat.mod_eq_of_lt (by omega)
    refine congrArg input (Fin.ext ?_)
    simp only [Fin.ofNat, hto, hfrom]
    omega
  rw [byteInterleaveStores, foldl_update hwant]
  refine if_pos (List.mem_map.mpr ⟨(b.val / 8, b.val % 8), ?_, ?_⟩)
  · exact List.mem_product.mpr ⟨List.mem_range.mpr (by omega), List.mem_range.mpr (by omega)⟩
  · apply Fin.ext
    simp only [Fin.ofNat]
    omega

theorem sse41_moves : Moves sse41 := by
  intro α β _ _ f h0 a
  simp only [sse41, loadu_comp, shufflePs_comp, blendPs_comp, shuffleEpi8_comp h0]
  rw [← storeu_comp]
  congr 1
  funext j
  fin_cases j <;> rfl

theorem avx2_moves : Moves avx2 := by
  intro α β _ _ f h0 a
  simp only [avx2, i32gatherEpi32_comp, shuffleEpi8_comp h0, permutevar8x32Epi32_comp]
  rw [← storeu_comp]
  congr 1
  funext j
  fin_cases j <;> rfl

theorem byteInterleaveSse41_eq (input : CacheLine) : byteInterleaveSse41 input = byteInterleave input := by
  have hplaces : sse41 (WithZero (Fin 64)) (fun i : Fin 64 => (i : WithZero (Fin 64))) =
      fun i => (transposed i : WithZero (Fin 64)) := by
    funext b
    revert b
    decide +kernel
  exact eq_of_places sse41_moves hplaces input

theorem byteInterleaveAvx2_eq (input : CacheLine) : byteInterleaveAvx2 input = byteInterleave input := by
  have hplaces : avx2 (WithZero (Fin 64)) (fun i : Fin 64 => (i : WithZero (Fin 64))) =
      fun i => (transposed i : WithZero (Fin 64)) := by
    funext b
    revert b
    decide +kernel
  exact eq_of_places avx2_moves hplaces input

/-! ## The version that does not -/

/-- the byte of the source at a place of what the VBMI code stores -/
def vbmiPlace (b : Fin 64) : Fin 64 := ⟨4 * (b.val % 4) + b.val / 4 % 4, by omega⟩

theorem byteInterleaveAvx512vbmi_apply (src : CacheLine) (b : Fin 64) :
    byteInterleaveAvx512vbmi src b = src (vbmiPlace b) := by
  have hidx : ∀ b : Fin 64, Fin.ofNat 64 ((setEpi64 0x0d0905010c080400 0x0f0b07030e0a0602 b).toNat % 64) = vbmiPlace b := by
    decide +kernel
  exact congrArg src (hidx b)

/-- where the VBMI code takes what belongs at the place to which the transpose moves byte `p` -/
def takenFor (p : Fin 64) : Fin 64 := vbmiPlace (transposed p)

theorem takenFor_third (p : Fin 64) : takenFor (takenFor (takenFor p)) = 0 := by
  revert p
  decide +kernel

theorem transposed_transposed (b : Fin 64) : transposed (transposed b) = b := by
  apply Fin.ext
  simp only [transposed]
  omega

theorem vbmi_of_same {src : CacheLine} (h : ∀ b, src b = src 0) : byteInterleaveAvx512vbmi src = src := by
  funext b
  rw [byteInterleaveAvx512vbmi_apply, h, h b]

/-- **The VBMI code transposes** an input if all its bytes are the same, and only then. -/
theorem vbmi_eq_iff (src : CacheLine) : byteInterleaveAvx512vbmi src = byteInterleave src ↔ ∀ b, src b = src 0 := by
  constructor
  · intro h p
    have htaken : ∀ p, src p = src (takenFor p) := by
      intro p
      have hp := congrFun h (transposed p)
      rw [byteInterleaveAvx512vbmi_apply] at hp
      change _ = src (transposed (transposed p)) at hp
      rw [transposed_transposed] at hp
      exact hp.symm
    -- three steps lead from every byte to the first
    calc src p = src (takenFor p) := htaken p
      _ = src (takenFor (takenFor p)) := htaken _
      _ = src (takenFor (takenFor (takenFor p))) := htaken _
      _ = src 0 := by rw [takenFor_third]
  · intro h
    rw [vbmi_of_same h]
    funext b
    exact (h b).trans (h (transposed b)).symm

/-! ## All of them -/

/-- a version that transposes is as claimed -/
theorem agree_of_eq {version : CacheLine → CacheLine} (h : ∀ input, version input = byteInterleave input) (input : CacheLine) :
    (∀ output, version input = byteInterleaveStores input output) ∧ version (version input) = input := by
  refine ⟨fun output => (h input).trans (byteInterleaveStores_eq input output).symm, ?_⟩
  rw [h, h, byteInterleave_involutive]

theorem agree_vbmi_iff (input : CacheLine) : Agree [byteInterleaveAvx512vbmi] input ↔ ∀ b, input b = input 0 := by
  constructor
  · intro h
    have hsame := (h _ List.mem_cons_self).1 input
    rw [byteInterleaveStores_eq] at hsame
    exact (vbmi_eq_iff input).mp hsame
  · intro h version hversion
    rw [List.mem_singleton.mp hversion]
    refine ⟨fun output => ?_, ?_⟩
    · rw [byteInterleaveStores_eq]
      exact (vbmi_eq_iff input).mpr h
    · rw [vbmi_of_same h, vbmi_of_same h]

theorem agree_others (input : CacheLine) :
    Agree [byteInterleaveSse41, byteInterleaveAvx2, byteInterleaveAvx512] input := by
  intro version hversion
  refine agree_of_eq (fun input => ?_) input
  rcases List.mem_cons.mp hversion with rfl | hversion
  · exact byteInterleaveSse41_eq input
  rcases List.mem_cons.mp hversion with rfl | hversion
  · exact byteInterleaveAvx2_eq input
  · rw [List.mem_singleton.mp hversion]
    exact byteInterleaveAvx512_eq input

/-- **The interleavers.** The loops of `byte_interleave` undo themselves, whatever is in the output buffers before; the
SSE4.1, AVX2 and AVX-512 versions agree with them and undo themselves; and so does the VBMI version for exactly the
inputs whose bytes are all the same. -/
theorem interleavers_agree_iff (input : CacheLine) :
    (∀ output output', byteInterleaveStores (byteInterleaveStores input output) output' = input) ∧
    (Agree [byteInterleaveSse41, byteInterleaveAvx2, byteInterleaveAvx512, byteInterleaveAvx512vbmi] input ↔
      ∀ b, input b = input 0) := by
  refine ⟨fun output output' => ?_, fun h => ?_, fun h version hversion => ?_⟩
  · rw [byteInterleaveStores_eq, byteInterleaveStores_eq, byteInterleave_involutive]
  · refine (agree_vbmi_iff input).mp fun version hversion => h version ?_
    exact List.mem_append_right [byteInterleaveSse41, byteInterleaveAvx2, byteInterleaveAvx512] hversion
  · rcases List.mem_append.mp (show version ∈ [byteInterleaveSse41, byteInterleaveAvx2, byteInterleaveAvx512] ++
      [byteInterleaveAvx512vbmi] from hversion) with hversion | hversion
    · exact agree_others input version hversion
    · exact (agree_vbmi_iff input).mpr h version hversion

/-- the bytes 0, 1, 2, ..., 63: the second byte the VBMI code stores is 4, and should be 8 -/
theorem vbmi_scrambles :
    ¬ ∀ input, Agree [byteInterleaveSse41, byteInterleaveAvx2, byteInterleaveAvx512, byteInterleaveAvx512vbmi] input := by
  intro h
  have hsame := (h (fun b => UInt8.ofNat b.val) byteInterleaveAvx512vbmi (by simp)).1 fun _ => 0
  rw [byteInterleaveStores_eq] at hsame
  have hsecond := congrFun hsame 1
  rw [byteInterleaveAvx512vbmi_apply] at hsecond
  exact absurd hsecond (by decide)

end PimOfis.Hw
