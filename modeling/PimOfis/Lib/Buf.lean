/-
Arrays with a size, where an access outside the array ends the run, and arrays of machine words in which a loop counts
or adds up.

- `Buf.write_holds`, `Buf.incr_holds`, `Buf.read_holds`: what one access does to an array of known content;
- `Buf.runningSum_spec`, `Buf.exclusiveSum_spec`: the two kinds of prefix sums of a block, in place;
- `Buf.sweep_spec`, `Buf.sweep_blockSum`: a loop over blocks in which every turn keeps to its own.
-/
import Mathlib.Tactic

namespace PimOfis.Lib

/-- words that count modulo some size -/
class Word (γ : Type) [Add γ] where
  ofNat : ℕ → γ
  toNat : γ → ℕ
  card : ℕ
  ofNat_add : ∀ a b, ofNat (a + b) = ofNat a + ofNat b
  toNat_ofNat : ∀ n, n < card → toNat (ofNat n) = n

instance : Word UInt32 where
  ofNat := UInt32.ofNat
  toNat := UInt32.toNat
  card := 2 ^ 32
  ofNat_add := UInt32.ofNat_add
  toNat_ofNat _ h := UInt32.toNat_ofNat_of_lt' h

instance : Word UInt64 where
  ofNat := UInt64.ofNat
  toNat := UInt64.toNat
  card := 2 ^ 64
  ofNat_add := UInt64.ofNat_add
  toNat_ofNat _ h := UInt64.toNat_ofNat_of_lt' h

/-- an array -/
structure Buf (β : Type) where
  size : ℕ
  cell : ℕ → β

namespace Buf

variable {β γ : Type} [Add γ] [Word γ]

def read (b : Buf β) (i : ℕ) : Option β := if i < b.size then some (b.cell i) else none

def write (b : Buf β) (i : ℕ) (v : β) : Option (Buf β) :=
  if i < b.size then some ⟨b.size, Function.update b.cell i v⟩ else none

/-- `b[i]++` -/
def incr (b : Buf γ) (i : ℕ) : Option (Buf γ) := do
  let v ← b.read i
  b.write i (v + Word.ofNat 1)

/-- `calloc` -/
def zeros (size : ℕ) : Buf γ := ⟨size, fun _ => Word.ofNat 0⟩

/-- the array has `size` elements, and holds the numbers `n` -/
def Holds (b : Buf γ) (size : ℕ) (n : ℕ → ℕ) : Prop := b.size = size ∧ ∀ i < size, b.cell i = Word.ofNat (n i)

variable {b : Buf γ} {size : ℕ} {n : ℕ → ℕ}

theorem zeros_holds (size : ℕ) : (zeros size : Buf γ).Holds size fun _ => 0 := ⟨rfl, fun _ _ => rfl⟩

theorem read_holds (h : b.Holds size n) {i : ℕ} (hi : i < size) : b.read i = some (Word.ofNat (n i)) := by
  unfold read
  rw [h.1, if_pos hi, h.2 i hi]

theorem write_holds (h : b.Holds size n) {i : ℕ} (hi : i < size) (v : ℕ) :
    ∃ b', b.write i (Word.ofNat v) = some b' ∧ b'.Holds size (Function.update n i v) := by
  refine ⟨⟨b.size, Function.update b.cell i (Word.ofNat v)⟩, ?_, h.1, ?_⟩
  · unfold write
    rw [h.1, if_pos hi]
  · intro j hj
    by_cases hji : j = i
    · rw [hji, Function.update_self]
      exact Function.update_self ..
    · rw [Function.update_of_ne hji, ← h.2 j hj]
      exact Function.update_of_ne hji _ _

theorem incr_holds (h : b.Holds size n) {i : ℕ} (hi : i < size) :
    ∃ b', b.incr i = some b' ∧ b'.Holds size (Function.update n i (n i + 1)) := by
  obtain ⟨b', hb', hholds⟩ := write_holds h hi (n i + 1)
  refine ⟨b', ?_, hholds⟩
  unfold incr
  rw [read_holds h hi, ← hb', Word.ofNat_add]
  rfl

theorem size_of_write {β : Type} {b b' : Buf β} {i : ℕ} {v : β} (h : b.write i v = some b') : b'.size = b.size := by
  unfold write at h
  split_ifs at h
  cases h
  rfl

theorem lt_of_write {β : Type} {b b' : Buf β} {i : ℕ} {v : β} (h : b.write i v = some b') : i < b.size := by
  unfold write at h
  split_ifs at h with hi
  exact hi

theorem size_of_incr {b' : Buf γ} {i : ℕ} (h : b.incr i = some b') : b'.size = b.size := by
  obtain ⟨v, -, h⟩ := Option.bind_eq_some_iff.mp h
  exact size_of_write h

theorem lt_of_incr {b' : Buf γ} {i : ℕ} (h : b.incr i = some b') : i < b.size := by
  obtain ⟨v, -, h⟩ := Option.bind_eq_some_iff.mp h
  exact lt_of_write h

theorem Holds.congr {n' : ℕ → ℕ} (h : b.Holds size n) (hn : ∀ i < size, n i = n' i) : b.Holds size n' :=
  ⟨h.1, fun i hi => (h.2 i hi).trans (congrArg Word.ofNat (hn i hi))⟩

/-! ## Prefix sums -/

/-- `v = b[base + j]; b[base + j] = out acc v; acc += v` for `j` from 0 to `len - 1` -/
def scan (out : γ → γ → γ) (base len : ℕ) (b : Buf γ) : Option (γ × Buf γ) :=
  (List.range len).foldlM (fun (s : γ × Buf γ) j => do
    let v ← s.2.read (base + j)
    let b ← s.2.write (base + j) (out s.1 v)
    pure (s.1 + v, b)) (Word.ofNat 0, b)

/-- `acc += b[base + j]; b[base + j] = acc` for `j` from 0 to `len - 1` -/
def runningSum (base len : ℕ) (b : Buf γ) : Option (Buf γ) := do
  let s ← scan (fun acc v => acc + v) base len b
  pure s.2

/-- `before = next; next += b[base + j]; b[base + j] = before` for `j` from 0 to `len - 1`, and `b[base + len] = next` -/
def exclusiveSum (base len : ℕ) (b : Buf γ) : Option (Buf γ) := do
  let s ← scan (fun acc _ => acc) base len b
  s.2.write (base + len) s.1

/-- the numbers of a block up to, but not with, number `q` -/
def blockSum (n : ℕ → ℕ) (base q : ℕ) : ℕ := ∑ k ∈ Finset.range q, n (base + k)

theorem blockSum_succ (n : ℕ → ℕ) (base q : ℕ) : blockSum n base (q + 1) = blockSum n base q + n (base + q) :=
  Finset.sum_range_succ ..

/-- a scan that stores at `j` the sum of the first `j + d` numbers -/
theorem scan_spec (out : γ → γ → γ) {d base len : ℕ} (h : b.Holds size n)
    (hout : ∀ q < len, out (Word.ofNat (blockSum n base q)) (Word.ofNat (n (base + q))) = Word.ofNat (blockSum n base (q + d)))
    (hlen : base + len ≤ size) : ∃ b', scan out base len b = some (Word.ofNat (blockSum n base len), b') ∧
      b'.Holds size fun i => if base ≤ i ∧ i < base + len then blockSum n base (i - base + d) else n i := by
  have key : ∀ q ≤ len, ∃ b', scan out base q b = some (Word.ofNat (blockSum n base q), b') ∧
      b'.Holds size fun i => if base ≤ i ∧ i < base + q then blockSum n base (i - base + d) else n i := by
    intro q hq
    induction q with
    | zero =>
      refine ⟨b, rfl, h.congr fun i _ => ?_⟩
      rw [if_neg (by omega)]
    | succ q ih =>
      obtain ⟨b₁, hrun, hholds⟩ := ih (Nat.le_of_succ_le hq)
      have hread := read_holds hholds (i := base + q) (by omega)
      rw [if_neg (by omega)] at hread
      obtain ⟨b₂, hwrite, hholds₂⟩ := write_holds hholds (i := base + q) (by omega) (blockSum n base (q + d))
      refine ⟨b₂, ?_, hholds₂.congr fun i _ => ?_⟩
      · unfold scan at hrun ⊢
        rw [List.range_succ, List.foldlM_append, hrun]
        simp only [Option.bind_eq_bind, Option.bind_some, List.foldlM_cons, List.foldlM_nil, hread, ← Word.ofNat_add,
          ← blockSum_succ, hout q hq, hwrite]
        rfl
      · by_cases hi : i = base + q
        · rw [hi, Function.update_self, if_pos (by omega), Nat.add_sub_cancel_left]
        · rw [Function.update_of_ne hi]
          exact if_congr (by omega) rfl rfl
  exact key len le_rfl

theorem runningSum_spec (h : b.Holds size n) {base len : ℕ} (hlen : base + len ≤ size) :
    ∃ b', runningSum base len b = some b' ∧
      b'.Holds size fun i => if base ≤ i ∧ i < base + len then blockSum n base (i - base + 1) else n i := by
  obtain ⟨b', hrun, hholds⟩ := scan_spec (fun acc v => acc + v) h (d := 1)
    (fun q _ => by rw [← Word.ofNat_add, blockSum_succ]) hlen
  refine ⟨b', ?_, hholds⟩
  unfold runningSum
  rw [hrun]
  rfl

theorem exclusiveSum_spec (h : b.Holds size n) {base len : ℕ} (hlen : base + (len + 1) ≤ size) :
    ∃ b', exclusiveSum base len b = some b' ∧
      b'.Holds size fun i => if base ≤ i ∧ i < base + (len + 1) then blockSum n base (i - base + 0) else n i := by
  obtain ⟨b₁, hrun, hholds⟩ := scan_spec (fun acc _ => acc) h (d := 0) (fun q _ => rfl) (Nat.le_of_succ_le hlen)
  obtain ⟨b₂, hwrite, hholds₂⟩ := write_holds hholds (i := base + len) hlen (blockSum n base len)
  refine ⟨b₂, ?_, hholds₂.congr fun i _ => ?_⟩
  · unfold exclusiveSum
    rw [hrun]
    exact hwrite
  · by_cases hi : i = base + len
    · rw [hi, Function.update_self, if_pos (by omega), Nat.add_sub_cancel_left]
      rfl
    · rw [Function.update_of_ne hi]
      exact if_congr (by omega) rfl rfl

/-- a scan that comes through has its block inside the array -/
theorem le_of_scan {out : γ → γ → γ} {base len : ℕ} {s : γ × Buf γ} (h : scan out base len b = some s) :
    s.2.size = b.size ∧ ∀ j < len, base + j < b.size := by
  induction len generalizing s with
  | zero =>
    cases h
    exact ⟨rfl, fun j hj => absurd hj (Nat.not_lt_zero j)⟩
  | succ len ih =>
    unfold scan at h
    rw [List.range_succ, List.foldlM_append] at h
    obtain ⟨t, ht, h⟩ := Option.bind_eq_some_iff.mp h
    rw [List.foldlM_cons] at h
    obtain ⟨u, hu, h⟩ := Option.bind_eq_some_iff.mp h
    obtain rfl : u = s := Option.some.inj h
    obtain ⟨hsize, hbefore⟩ := ih ht
    obtain ⟨x, -, hu⟩ := Option.bind_eq_some_iff.mp hu
    obtain ⟨b₁, hwrite, hu⟩ := Option.bind_eq_some_iff.mp hu
    cases hu
    refine ⟨(size_of_write hwrite).trans hsize, fun j hj => ?_⟩
    rcases Nat.lt_succ_iff_lt_or_eq.mp hj with hlt | rfl
    · exact hbefore j hlt
    · exact hsize ▸ lt_of_write hwrite

theorem runningSum_bounds {base len : ℕ} {b' : Buf γ} (h : runningSum base len b = some b') :
    b'.size = b.size ∧ ∀ j < len, base + j < b.size := by
  obtain ⟨s, hscan, h⟩ := Option.bind_eq_some_iff.mp h
  obtain rfl : s.2 = b' := Option.some.inj h
  exact le_of_scan hscan

/-! ## Loops over blocks -/

/-- **A loop over blocks** of width `w`, where each turn changes its own block as `G` says and reads no other. -/
theorem sweep_spec {f : Buf γ → ℕ → Option (Buf γ)} {w P : ℕ} {G : (ℕ → ℕ) → ℕ → ℕ}
    (hG : ∀ n n' i, (∀ j, j / w = i / w → n j = n' j) → G n i = G n' i)
    (hf : ∀ p < P, ∀ b n, b.Holds size n → ∃ b', f b p = some b' ∧ b'.Holds size fun i => if i / w = p then G n i else n i)
    (h : b.Holds size n) : ∃ b', (List.range P).foldlM f b = some b' ∧
      b'.Holds size fun i => if i / w < P then G n i else n i := by
  induction P with
  | zero => exact ⟨b, rfl, h.congr fun i _ => (if_neg (Nat.not_lt_zero _)).symm⟩
  | succ P ih =>
    obtain ⟨b₁, hrun, hholds⟩ := ih fun p hp => hf p (hp.trans (Nat.lt_succ_self P))
    obtain ⟨b₂, hstep, hholds₂⟩ := hf P (Nat.lt_succ_self P) _ _ hholds
    refine ⟨b₂, ?_, hholds₂.congr fun i _ => ?_⟩
    · rw [List.range_succ, List.foldlM_append, hrun]
      simp only [Option.bind_eq_bind, Option.bind_some, List.foldlM_cons, List.foldlM_nil, hstep]
      rfl
    · rcases lt_trichotomy (i / w) P with hlt | heq | hlt
      · rw [if_neg hlt.ne, if_pos hlt, if_pos (hlt.trans (Nat.lt_succ_self P))]
      · rw [if_pos heq, if_pos (heq ▸ Nat.lt_succ_self P)]
        apply hG
        intro j hj
        rw [hj, if_neg (by omega)]
      · rw [if_neg hlt.ne', if_neg hlt.not_gt, if_neg (by omega)]

/-- **Prefix sums of all blocks**: a loop that leaves, at place `k` of every block, the sum of its first `k + d` numbers. -/
theorem sweep_blockSum {f : Buf γ → ℕ → Option (Buf γ)} {w P d : ℕ} (hw : 0 < w) (hd : d ≤ 1)
    (hf : ∀ p < P, ∀ b n, b.Holds size n → ∃ b', f b p = some b' ∧
      b'.Holds size fun i => if p * w ≤ i ∧ i < p * w + w then blockSum n (p * w) (i - p * w + d) else n i)
    (h : b.Holds size n) : ∃ b', (List.range P).foldlM f b = some b' ∧
      b'.Holds size fun i => if i / w < P then blockSum n (i / w * w) (i % w + d) else n i := by
  apply sweep_spec (G := fun n i => blockSum n (i / w * w) (i % w + d)) _ _ h
  · intro n n' i hn
    apply Finset.sum_congr rfl
    intro k hk
    have hlt : k < w := by
      have hmod := Nat.mod_lt i hw
      have hk' := Finset.mem_range.mp hk
      omega
    apply hn
    rw [Nat.mul_comm, Nat.mul_add_div hw, Nat.div_eq_of_lt hlt, Nat.add_zero]
  · intro p hp b n hb
    obtain ⟨b', hrun, hholds⟩ := hf p hp b n hb
    refine ⟨b', hrun, hholds.congr fun i _ => ?_⟩
    have hsplit := Nat.div_add_mod' i w
    have hmod := Nat.mod_lt i hw
    by_cases hi : i / w = p
    · rw [if_pos hi, ← hi, if_pos (by omega)]
      congr 2
      omega
    · rw [if_neg hi, if_neg]
      rintro ⟨hlo, hhi⟩
      apply hi
      exact (Nat.div_eq_iff hw).mpr ⟨hlo, Nat.le_sub_one_of_lt hhi⟩

end Buf

end PimOfis.Lib
