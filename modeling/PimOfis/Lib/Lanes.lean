/-
Vector registers as functions from their bytes, and the instructions that move bytes about: loads, stores, shuffles,
blends, gathers and permutations.

An instruction of this kind does not look at the bytes it moves, except that a byte shuffle may put in a zero. So it
commutes with every map of bytes that keeps zero (`shufflePs_comp` and the like), and a program made of such instructions
is known by what it does with the places of its input.

- `eq_of_places`: a program that moves bytes, from its run on the places;
- `foldl_update`: stores of which each writes what is wanted at its place.
-/
import Mathlib.Tactic
import PimOfis.Lib.Index

namespace PimOfis.Lib.Lanes

variable {α β : Type} {m n : ℕ}

/-! ## Instructions -/

section Instructions

/-- a load of `n` bytes from the place `off` on -/
def loadu (n : ℕ) [NeZero m] (mem : Fin m → α) (off : ℕ) : Fin n → α := fun i => mem (Fin.ofNat m (off + i.val))

/-- stores of registers of `n` bytes, one behind the other -/
def storeu (k : ℕ) [NeZero k] [NeZero n] (regs : Fin k → Fin n → α) : Fin (k * n) → α := fun i =>
  regs (Fin.ofNat k (i.val / n)) (Fin.ofNat n i.val)

/-- `_mm_shuffle_ps`: two words of `a`, then two of `b` -/
def shufflePs (a b : Fin 16 → α) (imm : ℕ) : Fin 16 → α := fun i =>
  (if i.val / 4 < 2 then a else b) (Fin.ofNat 16 (4 * ((imm >>> (2 * (i.val / 4))) % 4) + i.val % 4))

/-- `_mm_blend_ps`: the words of `b` where the mask has a bit -/
def blendPs (a b : Fin 16 → α) (imm : ℕ) : Fin 16 → α := fun i => if imm.testBit (i.val / 4) = true then b i else a i

/-- `_mm_shuffle_epi8`, `_mm256_shuffle_epi8`: inside each 128-bit lane -/
def shuffleEpi8 [NeZero n] [Zero α] (a : Fin n → α) (b : ℕ → ℕ) : Fin n → α := fun i =>
  if (b i.val).testBit 7 = true then 0 else a (Fin.ofNat n (i.val / 16 * 16 + b i.val % 16))

/-- `_mm256_i32gather_epi32`, from the place `off` on -/
def i32gatherEpi32 [NeZero m] (mem : Fin m → α) (off : ℕ) (vindex : ℕ → ℕ) (scale : ℕ) : Fin 32 → α := fun i =>
  mem (Fin.ofNat m (off + vindex (i.val / 4) * scale + i.val % 4))

/-- `_mm256_permutevar8x32_epi32` -/
def permutevar8x32Epi32 (a : Fin 32 → α) (idx : ℕ → ℕ) : Fin 32 → α := fun i =>
  a (Fin.ofNat 32 (4 * (idx (i.val / 4) % 8) + i.val % 4))

/-- a constant with its elements listed from the lowest on, as in `_mm256_setr_epi32` -/
def setr (es : List ℕ) : ℕ → ℕ := fun i => es.getD i 0

/-- a constant with its elements listed from the highest on, as in `_mm_set_epi8` -/
def set (es : List ℕ) : ℕ → ℕ := setr es.reverse

end Instructions

/-! ## Instructions and maps of bytes -/

section Maps

variable (f : α → β)

theorem loadu_comp [NeZero m] (mem : Fin m → α) (off : ℕ) : loadu n (f ∘ mem) off = f ∘ loadu n mem off := rfl

theorem storeu_comp (k : ℕ) [NeZero k] [NeZero n] (regs : Fin k → Fin n → α) :
    storeu k (fun j => f ∘ regs j) = f ∘ storeu k regs := rfl

theorem shufflePs_comp (a b : Fin 16 → α) (imm : ℕ) : shufflePs (f ∘ a) (f ∘ b) imm = f ∘ shufflePs a b imm := by
  funext i
  simp only [shufflePs, Function.comp_apply]
  split_ifs
  · rfl
  · rfl

theorem blendPs_comp (a b : Fin 16 → α) (imm : ℕ) : blendPs (f ∘ a) (f ∘ b) imm = f ∘ blendPs a b imm := by
  funext i
  simp only [blendPs, Function.comp_apply]
  split_ifs
  · rfl
  · rfl

theorem shuffleEpi8_comp [NeZero n] [Zero α] [Zero β] {f : α → β} (h0 : f 0 = 0) (a : Fin n → α) (b : ℕ → ℕ) :
    shuffleEpi8 (f ∘ a) b = f ∘ shuffleEpi8 a b := by
  funext i
  simp only [shuffleEpi8, Function.comp_apply]
  split_ifs
  · exact h0.symm
  · rfl

theorem i32gatherEpi32_comp [NeZero m] (mem : Fin m → α) (off : ℕ) (vindex : ℕ → ℕ) (scale : ℕ) :
    i32gatherEpi32 (f ∘ mem) off vindex scale = f ∘ i32gatherEpi32 mem off vindex scale := rfl

theorem permutevar8x32Epi32_comp (a : Fin 32 → α) (idx : ℕ → ℕ) :
    permutevar8x32Epi32 (f ∘ a) idx = f ∘ permutevar8x32Epi32 a idx := rfl

end Maps

/-! ## Programs -/

/-- a program on bytes that commutes with the maps of bytes that keep zero -/
def Moves (prog : ∀ (α : Type) [Zero α], (Fin m → α) → Fin n → α) : Prop :=
  ∀ (α β : Type) [Zero α] [Zero β] (f : α → β), f 0 = 0 → ∀ a, prog β (f ∘ a) = f ∘ prog α a

/-- **A program that moves bytes** is known by its run on the places of its input. -/
theorem eq_of_places {prog : ∀ (α : Type) [Zero α], (Fin m → α) → Fin n → α} (h : Moves prog) {place : Fin n → Fin m}
    (hplaces : prog (WithZero (Fin m)) (fun i : Fin m => (i : WithZero (Fin m))) = fun i => (place i : WithZero (Fin m)))
    [Zero β] (input : Fin m → β) : prog β input = fun i => input (place i) := by
  -- the bytes of the input as a map from the places, with zero for the place that is none
  let bytes : WithZero (Fin m) → β := fun x => Option.elim x 0 input
  have hinput : input = bytes ∘ fun i : Fin m => (i : WithZero (Fin m)) := rfl
  calc prog β input = bytes ∘ prog (WithZero (Fin m)) fun i : Fin m => (i : WithZero (Fin m)) := by
        rw [hinput]
        exact h _ _ bytes rfl _
    _ = bytes ∘ fun i => (place i : WithZero (Fin m)) := by rw [hplaces]
    _ = fun i => input (place i) := rfl

/-! ## Stores -/

section Stores

variable {ι κ : Type} [DecidableEq κ]

/-- when every store writes what `want` says, so does the memory where there was a store -/
theorem foldl_update {xs : List ι} {place : ι → κ} {value : ι → α} {want : κ → α} (h : ∀ x ∈ xs, value x = want (place x))
    (mem : κ → α) (k : κ) :
    xs.foldl (fun mem x => Function.update mem (place x) (value x)) mem k =
      if k ∈ xs.map place then want k else mem k := by
  induction xs using List.reverseRecOn with
  | nil => rfl
  | append_singleton xs x ih =>
    have ih := ih fun y hy => h y (List.mem_append_left _ hy)
    have hx := h x (List.mem_append_right _ List.mem_cons_self)
    rw [List.foldl_append, List.foldl_cons, List.foldl_nil, List.map_append, List.map_singleton]
    by_cases hk : k = place x
    · rw [if_pos (List.mem_append_right _ (List.mem_singleton.mpr hk)), hk, Function.update_self, hx]
    · rw [Function.update_of_ne hk, ih]
      refine if_congr ?_ rfl rfl
      rw [List.mem_append, List.mem_singleton]
      exact (or_iff_left hk).symm

end Stores

end PimOfis.Lib.Lanes
