/-
What a poll of the host loops reports: the bit maps and the sum that `OFIS_get_finished_dpu`, `OFIS_get_finished_ig` and
`OFIS_get_finished_rank` compute from the 64 words they read, as sets of the 64 DPUs of a rank.

The host loops count with what the functions return (`p_count += 8 * nr_finish_ig`), the model with the size of the set:
`card_collectDpu` and `card_collectIg` say that these agree.

Results:
- `mem_collectDpu`, `mem_collectIg`: which DPUs are reported;
- `collect_getFinished`: on a rank with all DPUs enabled these are the bits that the API functions return.
-/
import Mathlib.Tactic
import PimOfis.Api.Finished
import PimOfis.Schedule.Machine

namespace PimOfis.Schedule

open Lib Ufi Api

/-! ## Model -/

def slot (ci : Ci) (d : Member) : Slot := ⟨8 * ci.val + d.val, by omega⟩

def slotCi (i : Slot) : Ci := ⟨i.val / 8, by omega⟩

def slotMember (i : Slot) : Member := ⟨i.val % 8, by omega⟩

/-- the words of round `d` of a poll -/
def lineWords (w : Slot → ℕ) (d : ℕ) (ci : Ci) : ℕ := if h : d < 8 then w (slot ci ⟨d, h⟩) else 0

/-- count and bit map of `OFIS_get_finished_dpu` -/
def dpuBits (w : Slot → ℕ) : ℕ × ℕ :=
  ((List.range 8).flatMap fun ci => [8 * ci + 0, 8 * ci + 2, 8 * ci + 4, 8 * ci + 6]).foldl
    (collectPair ((List.range 8).foldl (fun b d => finishBitDpu b d (lineWords w d)) 0)) (0, 0)

/-- count and bit map of `OFIS_get_finished_ig` -/
def igBits (w : Slot → ℕ) : ℕ × ℕ :=
  [0, 2, 4, 6].foldl (collectPair ((List.range 8).foldl (fun b d => finishBitIg b d (lineWords w d)) 0)) (0, 0)

def rankSum (w : Slot → ℕ) : ℕ := (List.range 8).foldl (fun sum d => finishSum sum d (lineWords w d)) 0

/-- the DPUs with their bit set -/
def collectDpu (w : Slot → ℕ) : Finset Slot := Finset.univ.filter fun i => (dpuBits w).2.testBit i.val = true

/-- the DPUs of the IGs with their bit set -/
def collectIg (w : Slot → ℕ) : Finset Slot := Finset.univ.filter fun i => (igBits w).2.testBit (i.val % 8) = true

/-- the rank, if it is counted -/
def collectRank (w : Slot → ℕ) : Finset Slot := if rankSum w = 64 then Finset.univ else ∅

/-! ## Which DPUs are reported -/

theorem slot_ci_member (i : Slot) : slot (slotCi i) (slotMember i) = i := Fin.ext (by simp [slot, slotCi, slotMember]; omega)

/-- both DPUs of a chip that share a mux hold 1 -/
def PairOne (w : Slot → ℕ) (ci : Ci) (k : Fin 4) : Prop :=
  w (slot ci ⟨2 * k.val, by omega⟩) = 1 ∧ w (slot ci ⟨2 * k.val + 1, by omega⟩) = 1

def pair (i : Slot) : Fin 4 := ⟨i.val % 8 / 2, by omega⟩

theorem pairOne_iff (w : Slot → ℕ) (ci : Ci) (k : Fin 4) :
    lineWords w (2 * k.val) ci = 1 ∧ lineWords w (2 * k.val + 1) ci = 1 ↔ PairOne w ci k := by
  simp [lineWords, PairOne, show 2 * k.val < 8 by omega, show 2 * k.val + 1 < 8 by omega]

theorem mem_collectDpu (w : Slot → ℕ) (i : Slot) : i ∈ collectDpu w ↔ PairOne w (slotCi i) (pair i) := by
  have hi : i.val = 8 * (slotCi i).val + (slotMember i).val := by
    simp only [slotCi, slotMember]
    omega
  simp only [collectDpu, Finset.mem_filter, Finset.mem_univ, true_and]
  rw [hi, dpuBits, collectDpuPairs_testBit (lineWords w) (slotCi i) (slotMember i)]
  exact pairOne_iff w (slotCi i) (pair i)

theorem mem_collectIg (w : Slot → ℕ) (i : Slot) : i ∈ collectIg w ↔ ∀ ci, PairOne w ci (pair i) := by
  simp only [collectIg, Finset.mem_filter, Finset.mem_univ, true_and]
  exact (collectIgPairs_testBit (lineWords w) (slotMember i)).trans (forall_congr' fun ci => pairOne_iff w ci (pair i))

theorem PairOne.one {w : Slot → ℕ} {i : Slot} (h : PairOne w (slotCi i) (pair i)) : w i = 1 := by
  have hi := slot_ci_member i
  rcases Nat.mod_two_eq_zero_or_one (i.val % 8) with hpar | hpar
  · rw [← hi, show slotMember i = ⟨2 * (pair i).val, by omega⟩ from Fin.ext (by simp [slotMember, pair]; omega)]
    exact h.1
  · rw [← hi, show slotMember i = ⟨2 * (pair i).val + 1, by omega⟩ from Fin.ext (by simp [slotMember, pair]; omega)]
    exact h.2

theorem collectIg_of_group {w : Slot → ℕ} {i j : Slot} (hi : i ∈ collectIg w) (hij : i.val % 8 = j.val % 8) :
    j ∈ collectIg w := by
  rw [mem_collectIg] at hi ⊢
  have hpair : pair j = pair i := Fin.ext (by simp [pair, hij])
  rwa [hpair]

/-! ## Their number -/

theorem bitCount_eq_card (width b : ℕ) :
    bitCount width b = (Finset.univ.filter fun i : Fin width => b.testBit i.val = true).card := by
  have hmap : (Finset.range width).filter (fun i => b.testBit i = true) =
      (Finset.univ.filter fun i : Fin width => b.testBit i.val = true).map Fin.valEmbedding := by
    ext i
    simp only [Finset.mem_filter, Finset.mem_range, Finset.mem_map, Finset.mem_univ, true_and, Fin.valEmbedding_apply]
    exact ⟨fun ⟨hi, hb⟩ => ⟨⟨i, hi⟩, hb, rfl⟩, fun ⟨j, hb, hj⟩ => hj ▸ ⟨j.isLt, hb⟩⟩
  rw [bitCount, hmap, Finset.card_map]

theorem card_collectDpu (w : Slot → ℕ) : (collectDpu w).card = (dpuBits w).1 := by
  have hcount := (collectPairs_counted ((List.range 8).foldl (fun b d => finishBitDpu b d (lineWords w d)) 0) 64
    ((List.range 8).flatMap fun ci => [8 * ci + 0, 8 * ci + 2, 8 * ci + 4, 8 * ci + 6])
    (by decide) (by decide) (by decide) 0 (Rank.reset (fun _ => Mask8.all) fun _ _ _ => 0)).count
  exact (bitCount_eq_card 64 _).symm.trans hcount.symm

/-- the DPUs of a rank, chip by chip -/
def slotEquiv : Ci × Member ≃ Slot where
  toFun x := slot x.1 x.2
  invFun i := (slotCi i, slotMember i)
  left_inv x := Prod.ext (Fin.ext (by simp [slot, slotCi]; omega)) (Fin.ext (by simp [slot, slotMember]))
  right_inv := slot_ci_member

theorem card_collectIg (w : Slot → ℕ) : (collectIg w).card = 8 * (igBits w).1 := by
  have hcount := (collectPairs_counted ((List.range 8).foldl (fun b d => finishBitIg b d (lineWords w d)) 0) 8
    [0, 2, 4, 6] (by decide) (by decide) (by decide) 0 (Rank.reset (fun _ => Mask8.all) fun _ _ _ => 0)).count
  have hset : collectIg w = ((Finset.univ : Finset Ci) ×ˢ
      Finset.univ.filter fun d : Member => (igBits w).2.testBit d.val = true).map slotEquiv.toEmbedding := by
    ext i
    rw [Finset.mem_map_equiv]
    simp [collectIg, slotEquiv, slotMember]
  rw [hset, Finset.card_map, Finset.card_product, Finset.card_univ, Fintype.card_fin, ← bitCount_eq_card]
  exact congrArg (8 * ·) hcount.symm

/-! ## The API functions -/

theorem foldl_congr_range {α : Type} (f g : α → ℕ → α) (a : α) (n : ℕ) (h : ∀ b, ∀ d < n, f b d = g b d) :
    (List.range n).foldl f a = (List.range n).foldl g a := by
  induction n with
  | zero => rfl
  | succ n ih =>
    rw [List.range_succ, List.foldl_append, List.foldl_append, ih fun b d hd => h b d (by omega)]
    exact h _ n (by omega)

/-- **The polls of a rank.** With all DPUs enabled, the counts and bit maps of the API are those of the 64 words. -/
theorem collect_getFinished (p : Program) {stateVar : ℕ} (hv : StateVarOk p stateVar) {r : Rank} (h : Idle r)
    (hall : ∀ ci d, d < 8 → enabled r ci d = true) :
    let w : Slot → ℕ := fun i => word r (ofisInitSetVar p) (slotCi i) (slotMember i).val
    ((ofisGetFinishedDpu p stateVar r).count, (ofisGetFinishedDpu p stateVar r).bitmap) = dpuBits w ∧
      ((ofisGetFinishedIg p stateVar r).count, (ofisGetFinishedIg p stateVar r).bitmap) = igBits w := by
  intro w
  have hwords : ∀ d < 8, (fun ci => lastWord (enabled r ci) (word r (ofisInitSetVar p) ci) d) = lineWords w d := by
    intro d hd
    funext ci
    have hslot : slotCi (slot ci ⟨d, hd⟩) = ci := congrArg Prod.fst (slotEquiv.left_inv (ci, ⟨d, hd⟩))
    have hmem : slotMember (slot ci ⟨d, hd⟩) = ⟨d, hd⟩ := congrArg Prod.snd (slotEquiv.left_inv (ci, ⟨d, hd⟩))
    rw [lastWord_of_enabled _ fun j hj => hall ci j (by omega)]
    simp only [lineWords, hd, dif_pos, w, hslot, hmem]
  constructor
  · rw [ofisGetFinishedDpu]
    simp only [polled_words p hv h, dpuBits]
    rw [foldl_congr_range _ _ 0 8 fun b d hd => congrArg (finishBitDpu b d) (hwords d hd)]
  · rw [ofisGetFinishedIg]
    simp only [polled_words p hv h, igBits]
    rw [foldl_congr_range _ _ 0 8 fun b d hd => congrArg (finishBitIg b d) (hwords d hd)]

end PimOfis.Schedule
