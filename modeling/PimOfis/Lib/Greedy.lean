/-
Greedy cutting: places are scanned in order, and the open piece is closed at the first place at which it may be closed.

`close a b` says that a piece from `a` may be closed at `b`. Where a piece that starts earlier may be closed at least as
soon (`Grows`), the scan stays ahead of every other way to cut, so the number of its pieces is the largest possible.

Results:
- `Scan.step_inv`, `scan_inv`: what the scan has cut after every place;
- `Inv.ahead`: the scan's `m`-th cut comes no later than that of any chain of `m` pieces;
- `le_count_iff`: the scan cuts `m` pieces or more if and only if there is a chain of `m` pieces.
-/
import Mathlib.Tactic

namespace PimOfis.Lib.Greedy

variable (close : ℕ → ℕ → Prop)

/-- the pieces closed so far: their number, and where each ends -/
structure Scan where
  count : ℕ
  cut : ℕ → ℕ

/-- where the open piece starts -/
def Scan.last (s : Scan) : ℕ := s.cut s.count

/-- the open piece is closed at `b` -/
def Scan.shut (s : Scan) (b : ℕ) : Scan := ⟨s.count + 1, Function.update s.cut (s.count + 1) b⟩

/-- one place is scanned -/
def Scan.step [DecidableRel close] (s : Scan) (b : ℕ) : Scan := if close s.last b then s.shut b else s

/-- the places `1, ..., n` are scanned -/
def scan [DecidableRel close] : ℕ → Scan
  | 0 => ⟨0, fun _ => 0⟩
  | n + 1 => (scan n).step close (n + 1)

/-- `m` pieces that may all be closed, the first from 0, the last within `n` places -/
def Chain (n m : ℕ) (c : ℕ → ℕ) : Prop :=
  c 0 = 0 ∧ (∀ i < m, c i < c (i + 1) ∧ close (c i) (c (i + 1))) ∧ c m ≤ n

/-- within `n` places, a piece that starts earlier may be closed wherever a later one may -/
def Grows (n : ℕ) : Prop := ∀ a a' b, a' ≤ a → a < b → b ≤ n → close a b → close a' b

/-- what holds after `n` places -/
structure Inv (n : ℕ) (s : Scan) : Prop where
  zero : s.cut 0 = 0
  mono : ∀ i < s.count, s.cut i < s.cut (i + 1)
  last_le : s.last ≤ n
  closed : ∀ i < s.count, close (s.cut i) (s.cut (i + 1))
  /-- no piece could have been closed earlier -/
  first : ∀ i < s.count, ∀ b, s.cut i < b → b < s.cut (i + 1) → ¬ close (s.cut i) b
  /-- nor the open one up to now -/
  unclosed : ∀ b, s.last < b → b ≤ n → ¬ close s.last b

variable {close}

section Step

variable [DecidableRel close] {n : ℕ} {s : Scan}

@[simp] theorem Scan.shut_count (s : Scan) (b : ℕ) : (s.shut b).count = s.count + 1 := rfl

theorem Scan.shut_old (s : Scan) (b : ℕ) {i : ℕ} (hi : i ≤ s.count) : (s.shut b).cut i = s.cut i :=
  Function.update_of_ne (Nat.lt_succ_of_le hi).ne _ _

@[simp] theorem Scan.shut_new (s : Scan) (b : ℕ) : (s.shut b).cut (s.count + 1) = b := Function.update_self ..

@[simp] theorem Scan.shut_last (s : Scan) (b : ℕ) : (s.shut b).last = b := Function.update_self ..

theorem Scan.step_closed {b : ℕ} (h : close s.last b) : s.step close b = s.shut b := if_pos h

theorem Scan.step_open {b : ℕ} (h : ¬ close s.last b) : s.step close b = s := if_neg h

/-- what holds of every closed piece and of the new one holds of every piece after closing -/
theorem Scan.shut_pieces {P : ℕ → ℕ → Prop} {b : ℕ} (hold : ∀ i < s.count, P (s.cut i) (s.cut (i + 1))) (hnew : P s.last b) :
    ∀ i < (s.shut b).count, P ((s.shut b).cut i) ((s.shut b).cut (i + 1)) := by
  intro i hi
  rcases Nat.lt_succ_iff_lt_or_eq.mp hi with hlt | rfl
  · rw [s.shut_old b hlt.le, s.shut_old b hlt]
    exact hold i hlt
  · rw [s.shut_old b le_rfl, s.shut_new]
    exact hnew

theorem Scan.step_inv (hi : Inv close n s) : Inv close (n + 1) (s.step close (n + 1)) := by
  by_cases h : close s.last (n + 1)
  · rw [Scan.step_closed h]
    refine ⟨?_, ?_, ?_, ?_, ?_, ?_⟩
    · rw [s.shut_old _ (Nat.zero_le _)]
      exact hi.zero
    · exact Scan.shut_pieces (P := fun a b => a < b) hi.mono (Nat.lt_succ_of_le hi.last_le)
    · rw [s.shut_last]
    · exact Scan.shut_pieces hi.closed h
    · apply Scan.shut_pieces (P := fun a b => ∀ x, a < x → x < b → ¬ close a x) hi.first
      intro x hx hx'
      exact hi.unclosed x hx (Nat.lt_succ_iff.mp hx')
    · intro b hb hb'
      rw [s.shut_last] at hb
      exact absurd hb' (not_le.mpr hb)
  · rw [Scan.step_open h]
    refine ⟨hi.zero, hi.mono, hi.last_le.trans (Nat.le_succ n), hi.closed, hi.first, ?_⟩
    intro b hb hb'
    rcases Nat.le_succ_iff.mp hb' with hle | rfl
    · exact hi.unclosed b hb hle
    · exact h

theorem scan_inv (n : ℕ) : Inv close n (scan close n) := by
  induction n with
  | zero =>
    refine ⟨rfl, ?_, le_rfl, ?_, ?_, ?_⟩
    · intro i hi
      exact absurd hi (Nat.not_lt_zero i)
    · intro i hi
      exact absurd hi (Nat.not_lt_zero i)
    · intro i hi
      exact absurd hi (Nat.not_lt_zero i)
    · intro b hb hb'
      exact absurd (lt_of_lt_of_le hb hb') (lt_irrefl 0)
  | succ n ih => exact Scan.step_inv ih

end Step

namespace Inv

variable {n : ℕ} {s : Scan}

theorem count_le_last (hi : Inv close n s) : ∀ i ≤ s.count, i ≤ s.cut i := by
  intro i hle
  induction i with
  | zero => exact Nat.zero_le _
  | succ i ih => exact Nat.succ_le_of_lt ((ih (Nat.le_of_succ_le hle)).trans_lt (hi.mono i hle))

theorem count_le (hi : Inv close n s) : s.count ≤ n := (hi.count_le_last s.count le_rfl).trans hi.last_le

theorem cut_mono (hi : Inv close n s) {i j : ℕ} (hij : i ≤ j) (hj : j ≤ s.count) : s.cut i ≤ s.cut j := by
  induction j, hij using Nat.le_induction with
  | base => exact le_refl _
  | succ j _ ih => exact (ih (Nat.le_of_succ_le hj)).trans (hi.mono j hj).le

/-- the pieces of the scan are a chain -/
theorem chain (hi : Inv close n s) {m : ℕ} (hm : m ≤ s.count) : Chain close n m s.cut := by
  refine ⟨hi.zero, fun i hlt => ?_, (hi.cut_mono hm le_rfl).trans hi.last_le⟩
  exact ⟨hi.mono i (hlt.trans_le hm), hi.closed i (hlt.trans_le hm)⟩

/-- **The scan stays ahead.** -/
theorem ahead (hi : Inv close n s) (hgrows : Grows close n) {m : ℕ} {c : ℕ → ℕ} (hc : Chain close n m c) :
    m ≤ s.count ∧ s.cut m ≤ c m := by
  induction m with
  | zero => exact ⟨Nat.zero_le _, by rw [hi.zero]; exact Nat.zero_le _⟩
  | succ m ih =>
    obtain ⟨hzero, hpieces, hend⟩ := hc
    obtain ⟨hlt, hclose⟩ := hpieces m (Nat.lt_succ_self m)
    have hprefix : Chain close n m c := ⟨hzero, fun i him => hpieces i (him.trans (Nat.lt_succ_self m)), hlt.le.trans hend⟩
    obtain ⟨hcount, hcut⟩ := ih hprefix
    have hclose' : close (s.cut m) (c (m + 1)) := hgrows _ _ _ hcut hlt hend hclose
    rcases Nat.lt_or_eq_of_le hcount with hmore | heq
    · refine ⟨hmore, ?_⟩
      by_contra hlate
      exact hi.first m hmore _ (hcut.trans_lt hlt) (not_le.mp hlate) hclose'
    · have hlast : s.last = s.cut m := by rw [Scan.last, heq]
      rw [← hlast] at hclose' hcut
      exact absurd hclose' (hi.unclosed _ (hcut.trans_lt hlt) hend)

end Inv

/-- **The scan cuts as many pieces as can be cut.** -/
theorem le_count_iff [DecidableRel close] {n : ℕ} (hgrows : Grows close n) (m : ℕ) :
    m ≤ (scan close n).count ↔ ∃ c, Chain close n m c := by
  constructor
  · intro hm
    exact ⟨_, (scan_inv n).chain hm⟩
  · rintro ⟨c, hc⟩
    exact ((scan_inv n).ahead hgrows hc).1

end PimOfis.Lib.Greedy
