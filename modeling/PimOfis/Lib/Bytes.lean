/-
Memories as functions from addresses to what lies there, and blocks copied between them.

- `splice_append`: copying one block behind another is copying both at once;
- `word_splice`: a word reads as what was written, least significant byte first.
-/
import Mathlib.Tactic

namespace PimOfis.Lib

variable {α : Type}

/-- the memory `f` with `n` places from `lo` on copied from `src` -/
def splice (lo n : ℕ) (src f : ℕ → α) : ℕ → α := fun x => if lo ≤ x ∧ x < lo + n then src (x - lo) else f x

/-- the memory seen from address `p` on -/
def view (p : ℕ) (f : ℕ → α) : ℕ → α := fun k => f (p + k)

@[simp] theorem view_zero (f : ℕ → α) : view 0 f = f := by
  funext k
  exact congrArg f (Nat.zero_add k)

theorem view_view (p q : ℕ) (f : ℕ → α) : view q (view p f) = view (p + q) f := by
  funext k
  exact congrArg f (Nat.add_assoc p q k).symm

/-! ## Blocks -/

section Splice

variable {lo n : ℕ} {src f : ℕ → α}

theorem splice_add {k : ℕ} (hk : k < n) (lo : ℕ) (src f : ℕ → α) : splice lo n src f (lo + k) = src k := by
  unfold splice
  rw [if_pos ⟨Nat.le_add_right _ _, Nat.add_lt_add_left hk _⟩, Nat.add_sub_cancel_left]

theorem splice_of_not {x : ℕ} (hx : ¬ (lo ≤ x ∧ x < lo + n)) (src f : ℕ → α) : splice lo n src f x = f x := if_neg hx

@[simp] theorem splice_zero (lo : ℕ) (src f : ℕ → α) : splice lo 0 src f = f := by
  funext x
  exact splice_of_not (fun h => absurd (h.1.trans_lt h.2) (lt_irrefl _)) src f

theorem splice_congr {src' : ℕ → α} (h : ∀ k < n, src k = src' k) (lo : ℕ) (f : ℕ → α) :
    splice lo n src f = splice lo n src' f := by
  funext x
  unfold splice
  split_ifs with hx
  · exact h _ (by omega)
  · rfl

/-- **Block after block.** -/
theorem splice_append (lo n m : ℕ) (src f : ℕ → α) :
    splice (lo + n) m (view n src) (splice lo n src f) = splice lo (n + m) src f := by
  funext x
  unfold splice view
  split_ifs with h1 h2 h3 h2 h3
  · congr 1
    omega
  · omega
  · rfl
  · omega
  · omega
  · rfl

/-- a block written through a pointer -/
theorem splice_view (p n : ℕ) (src f : ℕ → α) :
    (fun x => if p ≤ x then splice 0 n src (view p f) (x - p) else f x) = splice p n src f := by
  funext x
  unfold splice view
  split_ifs with h1 h2 h3 h3 h3
  · congr 1
  · omega
  · omega
  · congr 1
    omega
  · omega
  · rfl

/-- a block copied into a larger one that is otherwise unchanged -/
theorem splice_splice {r k : ℕ} (hr : r + k ≤ n) (lo : ℕ) (src f : ℕ → α) :
    splice lo n (splice r k src (view lo f)) f = splice (lo + r) k src f := by
  funext x
  unfold splice view
  split_ifs with h1 h2 h3 h2 h3
  · congr 1
    omega
  · omega
  · omega
  · congr 1
    omega
  · omega
  · rfl

end Splice

/-! ## Words of four bytes -/

/-- word number `i` of a memory of bytes -/
def word (f : ℕ → UInt8) (i : ℕ) : ℕ :=
  (f (4 * i)).toNat + 256 * (f (4 * i + 1)).toNat + 65536 * (f (4 * i + 2)).toNat + 16777216 * (f (4 * i + 3)).toNat

/-- the bytes of a list of words -/
def wordBytes (ws : List ℕ) : ℕ → UInt8 := fun b => UInt8.ofNat (ws.getD (b / 4) 0 / 256 ^ (b % 4))

theorem word_congr {f g : ℕ → UInt8} {i : ℕ} (h : ∀ b, 4 * i ≤ b → b < 4 * (i + 1) → f b = g b) : word f i = word g i := by
  unfold word
  rw [h (4 * i) (by omega) (by omega), h (4 * i + 1) (by omega) (by omega), h (4 * i + 2) (by omega) (by omega),
    h (4 * i + 3) (by omega) (by omega)]

theorem word_wordBytes {ws : List ℕ} {i w : ℕ} (hw : ws.getD i 0 = w) (hlt : w < 2 ^ 32) : word (wordBytes ws) i = w := by
  have hbyte : ∀ k < 4, (wordBytes ws (4 * i + k)).toNat = w / 256 ^ k % 256 := by
    intro k hk
    unfold wordBytes
    have hdiv : (4 * i + k) / 4 = i := by omega
    have hmod : (4 * i + k) % 4 = k := by omega
    rw [hdiv, hmod, hw, UInt8.toNat_ofNat']
  have h0 := hbyte 0 (by norm_num)
  have h1 := hbyte 1 (by norm_num)
  have h2 := hbyte 2 (by norm_num)
  have h3 := hbyte 3 (by norm_num)
  rw [Nat.add_zero] at h0
  unfold word
  rw [h0, h1, h2, h3]
  omega

/-- a word that was written -/
theorem word_splice {ws : List ℕ} {j i w : ℕ} (hj : j < i + ws.length) (hi : i ≤ j) (hw : ws.getD (j - i) 0 = w)
    (hlt : w < 2 ^ 32) (f : ℕ → UInt8) : word (splice (4 * i) (4 * ws.length) (wordBytes ws) f) j = w := by
  rw [← word_wordBytes hw hlt]
  unfold word
  have hat : ∀ k < 4, splice (4 * i) (4 * ws.length) (wordBytes ws) f (4 * j + k) = wordBytes ws (4 * (j - i) + k) := by
    intro k hk
    have hsum : 4 * j + k = 4 * i + (4 * (j - i) + k) := by omega
    rw [hsum, splice_add (by omega)]
  have h0 := hat 0 (by norm_num)
  rw [Nat.add_zero, Nat.add_zero] at h0
  rw [h0, hat 1 (by norm_num), hat 2 (by norm_num), hat 3 (by norm_num)]

/-- a word that was not -/
theorem word_splice_of_not {lo n i : ℕ} (h : 4 * (i + 1) ≤ lo ∨ lo + n ≤ 4 * i) (src f : ℕ → UInt8) :
    word (splice lo n src f) i = word f i :=
  word_congr fun b hb hb' => splice_of_not (by omega) src f

end PimOfis.Lib
