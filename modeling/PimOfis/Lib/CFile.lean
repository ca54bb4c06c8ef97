/-
Binary files: arrays written by `fwrite`, and a reader that takes them back with `fread` in the same order.

`Reads r bytes P` says that a reader takes exactly `bytes` from the front of any file that starts with them, and gets a
result with `P`. It is proved along the program of the reader, one chunk of the file for each of its reads.

- `reads_enc`, `reads_fwrite`: a value and an array come back as they were written;
- `Reads.cons`, `Reads.done`: the rules for a sequence of reads, and for its end;
- `Buf.SameOn`: what an array that was read has in common with the one that was written.
-/
import Mathlib.Tactic
import PimOfis.Lib.Buf

namespace PimOfis.Lib

variable {β γ : Type}

/-! ## Values and arrays -/

/-- how the values of a type lie in memory and in a file: `size` bytes for each, from which it is known -/
structure Rep (β : Type) where
  size : ℕ
  enc : β → List UInt8
  dec : List UInt8 → β
  length_enc : ∀ x, (enc x).length = size
  dec_enc : ∀ x, dec (enc x) = x

/-- a 32-bit word, least significant byte first -/
def Rep.word : Rep UInt32 where
  size := 4
  enc x := (List.range 4).map fun k => UInt8.ofNat (x.toNat / 256 ^ k)
  dec bytes := UInt32.ofNat ((bytes.getD 0 0).toNat + 256 * (bytes.getD 1 0).toNat + 65536 * (bytes.getD 2 0).toNat +
    16777216 * (bytes.getD 3 0).toNat)
  length_enc _ := rfl
  dec_enc x := by
    have hx := x.toNat_lt
    apply UInt32.toNat_inj.mp
    simp only [List.range, List.range.loop, List.map_cons, List.map_nil, List.getD_cons_zero, List.getD_cons_succ,
      UInt8.toNat_ofNat', UInt32.toNat_ofNat']
    omega

/-- a program that reads from the front of a file; no result, if the file ends before or an array is left -/
abbrev Reader (β : Type) := StateT (List UInt8) Option β

namespace Rep

variable (r : Rep β)

/-- `fread(&x, sizeof(x), 1, fp)` -/
def fread : Reader β := fun file =>
  if r.size ≤ file.length then some (r.dec (file.take r.size), file.drop r.size) else none

/-- `b` with its first `n` elements from the front of a file -/
def filled (b : Buf β) (n : ℕ) (file : List UInt8) : Buf β :=
  ⟨b.size, fun i => if i < n then r.dec ((file.drop (i * r.size)).take r.size) else b.cell i⟩

/-- `fread(b, sizeof(*b), n, fp)` -/
def freadArray (b : Buf β) (n : ℕ) : Reader (Buf β) := fun file =>
  if n ≤ b.size ∧ n * r.size ≤ file.length then some (r.filled b n file, file.drop (n * r.size)) else none

/-- `fwrite(b, sizeof(*b), n, fp)`, the bytes that it appends -/
def fwrite (b : Buf β) (n : ℕ) : Option (List UInt8) :=
  if n ≤ b.size then some ((List.range n).flatMap fun i => r.enc (b.cell i)) else none

end Rep

/-- `b` has `n` elements, and they are the first `n` of `a` -/
structure Buf.SameOn (n : ℕ) (a b : Buf β) : Prop where
  inside : n ≤ a.size
  size : b.size = n
  cell : ∀ i < n, b.cell i = a.cell i

theorem Buf.SameOn.read {n i : ℕ} {a b : Buf β} (h : Buf.SameOn n a b) (hi : i < n) :
    ∃ x, a.read i = some x ∧ b.read i = some x := by
  refine ⟨a.cell i, if_pos (hi.trans_le h.inside), ?_⟩
  rw [← h.cell i hi]
  exact if_pos (h.size.symm ▸ hi)

/-! ## Readers -/

/-- the reader takes `bytes`, and gets a result with `P` -/
def Reads (r : Reader β) (bytes : List UInt8) (P : β → Prop) : Prop :=
  ∀ rest, ∃ x, r (bytes ++ rest) = some (x, rest) ∧ P x

/-- a read, and what follows it -/
theorem Reads.cons {r : Reader β} {f : β → Reader γ} {bytes : List UInt8} {chunks : List (List UInt8)} {P : β → Prop}
    {Q : γ → Prop} (hr : Reads r bytes P) (hf : ∀ x, P x → Reads (f x) chunks.flatten Q) :
    Reads (r >>= f) (bytes :: chunks).flatten Q := by
  intro rest
  obtain ⟨x, hx, hP⟩ := hr (chunks.flatten ++ rest)
  obtain ⟨y, hy, hQ⟩ := hf x hP rest
  refine ⟨y, ?_, hQ⟩
  rw [List.flatten_cons, List.append_assoc]
  change (r (bytes ++ (chunks.flatten ++ rest))).bind (fun s => f s.1 s.2) = some (y, rest)
  rw [hx]
  exact hy

theorem Reads.done {x : γ} {Q : γ → Prop} (h : Q x) : Reads (pure x : Reader γ) [].flatten Q := fun _ => ⟨x, rfl, h⟩

/-- what is read from a whole file -/
theorem Reads.whole {r : Reader β} {bytes : List UInt8} {P : β → Prop} (h : Reads r bytes P) :
    ∃ x, r bytes = some (x, []) ∧ P x := by
  obtain ⟨x, hx, hP⟩ := h []
  rw [List.append_nil] at hx
  exact ⟨x, hx, hP⟩

section Arrays

variable (r : Rep β)

theorem reads_enc (x : β) : Reads r.fread (r.enc x) (· = x) := by
  intro rest
  have hlen := r.length_enc x
  refine ⟨x, ?_, rfl⟩
  unfold Rep.fread
  rw [if_pos (by rw [List.length_append, hlen]; exact Nat.le_add_right _ _), ← hlen, List.take_left, List.drop_left,
    r.dec_enc]

/-- the bytes of the elements -/
theorem length_elems (f : ℕ → β) (n : ℕ) : ((List.range n).flatMap fun i => r.enc (f i)).length = n * r.size := by
  induction n with
  | zero => rw [Nat.zero_mul]; rfl
  | succ n ih =>
    rw [List.range_succ, List.flatMap_append, List.length_append, ih, List.flatMap_singleton, r.length_enc, Nat.succ_mul]

/-- where an element lies -/
theorem elem_bytes (f : ℕ → β) {n i : ℕ} (hi : i < n) (rest : List UInt8) :
    ((((List.range n).flatMap fun i => r.enc (f i)) ++ rest).drop (i * r.size)).take r.size = r.enc (f i) := by
  obtain ⟨k, rfl⟩ := Nat.exists_eq_add_of_lt hi
  have hsplit : List.range (i + k + 1) = List.range i ++ i :: (List.range k).map (fun j => i + (j + 1)) := by
    rw [Nat.add_assoc, List.range_add, List.range_succ_eq_map, List.map_cons, List.map_map]
    rfl
  rw [hsplit, List.flatMap_append, List.append_assoc, ← length_elems r f i, List.drop_left, List.flatMap_cons,
    List.append_assoc, ← r.length_enc (f i), List.take_left]

theorem fwrite_of_le {b : Buf β} {n : ℕ} (h : n ≤ b.size) : ∃ bytes, r.fwrite b n = some bytes := ⟨_, if_pos h⟩

/-- only the elements that are written matter -/
theorem fwrite_congr {a b : Buf β} {n : ℕ} (ha : n ≤ a.size) (hb : n ≤ b.size) (h : ∀ i < n, a.cell i = b.cell i) :
    r.fwrite a n = r.fwrite b n := by
  unfold Rep.fwrite
  rw [if_pos ha, if_pos hb]
  congr 1
  apply List.flatMap_congr
  intro i hi
  rw [h i (List.mem_range.mp hi)]

theorem reads_fwrite {a b : Buf β} {n : ℕ} {bytes : List UInt8} (h : r.fwrite a n = some bytes) (hb : b.size = n) :
    Reads (r.freadArray b n) bytes (Buf.SameOn n a) := by
  intro rest
  unfold Rep.fwrite at h
  split_ifs at h with hn
  obtain rfl := Option.some.inj h
  have hlen := length_elems r a.cell n
  refine ⟨r.filled b n (((List.range n).flatMap fun i => r.enc (a.cell i)) ++ rest), ?_, hn, hb, fun i hi => ?_⟩
  · unfold Rep.freadArray
    rw [if_pos ⟨hb.ge, by rw [List.length_append, hlen]; exact Nat.le_add_right _ _⟩, ← hlen, List.drop_left]
  · unfold Rep.filled
    dsimp only
    rw [if_pos hi, elem_bytes r a.cell hi, r.dec_enc]

end Arrays

end PimOfis.Lib
