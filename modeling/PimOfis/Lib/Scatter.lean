/-
Three passes that put a list of entries into parts: count the entries of each part (and of each cell of some finer
array), add the counts up to where each part starts, and store the entries part by part, each part in the order of the
list.

- `count_spec`, `starts_spec`: the first two passes;
- `fill_spec`: the third pass puts entry number `k` of part `p` at `k` behind the start of `p`;
- `fill_bounds`: it leaves no array shorter than the list behind;
- `blockSum_count`: sums over the finer array are row pointers of the parts;
- `blocks_perm`: reading the parts back gives the list.
-/
import Mathlib.Tactic
import PimOfis.Lib.Buf
import PimOfis.Lib.Csr
import PimOfis.Lib.Cuts

namespace PimOfis.Lib.Scatter

open Buf

variable {ε β₁ β₂ γ δ : Type} [Add γ] [Word γ] [Add δ] [Word δ]

/-- `n[part e]++; r[cell e]++` for every entry -/
def count (part cell : ε → ℕ) (A : List ε) (s : Buf γ × Buf γ) : Option (Buf γ × Buf γ) :=
  A.foldlM (fun (s : Buf γ × Buf γ) e => do
    let n ← s.1.incr (part e)
    let r ← s.2.incr (cell e)
    pure (n, r)) s

/-- `start[i] = acc; acc += n[i]` for the first `P` parts -/
def starts (conv : γ → δ) (n : Buf γ) (P : ℕ) : Option (Buf δ) := do
  let s ← (List.range P).foldlM (fun (s : δ × Buf δ) i => do
    let b ← s.2.write i s.1
    let v ← n.read i
    pure (s.1 + conv v, b)) (Word.ofNat 0, zeros P)
  pure s.2

/-- `c[start[part e] + loc[part e]] = f e; v[start[part e] + loc[part e]] = g e; loc[part e]++` -/
def put (part : ε → ℕ) (f : ε → β₁) (g : ε → β₂) (start : Buf δ) (s : Buf δ × Buf β₁ × Buf β₂) (e : ε) :
    Option (Buf δ × Buf β₁ × Buf β₂) := do
  let k ← start.read (part e)
  let l ← s.1.read (part e)
  let c ← s.2.1.write (Word.toNat (k + l)) (f e)
  let v ← s.2.2.write (Word.toNat (k + l)) (g e)
  let loc ← s.1.incr (part e)
  pure (loc, c, v)

def fill (part : ε → ℕ) (f : ε → β₁) (g : ε → β₂) (start : Buf δ) (A : List ε) (s : Buf δ × Buf β₁ × Buf β₂) :
    Option (Buf δ × Buf β₁ × Buf β₂) := A.foldlM (put part f g start) s

/-- how many entries part `p` has -/
def sizeOf (part : ε → ℕ) (A : List ε) (p : ℕ) : ℕ := A.countP fun e => decide (part e = p)

/-- where part `p` starts -/
def startOf (part : ε → ℕ) (A : List ε) (p : ℕ) : ℕ := ∑ q ∈ Finset.range p, sizeOf part A q

/-- the entries of part `p` -/
def block (part : ε → ℕ) (A : List ε) (p : ℕ) : List ε := A.filter fun e => decide (part e = p)

section Sizes

variable {part : ε → ℕ} {A : List ε} {p : ℕ}

theorem length_block (part : ε → ℕ) (A : List ε) (p : ℕ) : (block part A p).length = sizeOf part A p :=
  List.countP_eq_length_filter.symm

theorem mem_block {e : ε} : e ∈ block part A p ↔ e ∈ A ∧ part e = p := by
  rw [block, List.mem_filter, decide_eq_true_eq]

theorem sizeOf_cons (part : ε → ℕ) (e : ε) (A : List ε) (p : ℕ) :
    sizeOf part (e :: A) p = sizeOf part A p + if part e = p then 1 else 0 := by
  simp [sizeOf, List.countP_cons]

theorem sizeOf_concat (part : ε → ℕ) (e : ε) (A : List ε) (p : ℕ) :
    sizeOf part (A ++ [e]) p = sizeOf part A p + if part e = p then 1 else 0 := by
  simp [sizeOf, List.countP_append, List.countP_cons]

theorem sizeOf_prefix (part : ε → ℕ) {T : List ε} (h : A <+: T) (p : ℕ) : sizeOf part A p ≤ sizeOf part T p :=
  h.sublist.countP_le

/-- the parts cut the list -/
theorem starts_cuts {P : ℕ} (hP : ∀ e ∈ A, part e < P) : Cuts (startOf part A) P 0 A.length where
  first := Finset.sum_range_zero _
  last := by
    refine (Csr.sum_count part A P).trans ?_
    apply List.countP_eq_length.mpr
    intro e he
    exact decide_eq_true (hP e he)
  mono p _ := by
    unfold startOf
    rw [Finset.sum_range_succ]
    exact Nat.le_add_right _ _

theorem startOf_succ (part : ε → ℕ) (A : List ε) (p : ℕ) : startOf part A (p + 1) = startOf part A p + sizeOf part A p :=
  Finset.sum_range_succ ..

end Sizes

/-! ## Counting -/

section Count

variable {part cell : ε → ℕ} {A : List ε} {P R : ℕ}

theorem count_spec (hP : ∀ e ∈ A, part e < P) (hR : ∀ e ∈ A, cell e < R) {s : Buf γ × Buf γ} {n r : ℕ → ℕ}
    (hn : s.1.Holds P n) (hr : s.2.Holds R r) :
    ∃ s', count part cell A s = some s' ∧ s'.1.Holds P (fun p => n p + sizeOf part A p) ∧
      s'.2.Holds R fun i => r i + sizeOf cell A i := by
  induction A generalizing s n r with
  | nil => exact ⟨s, rfl, hn, hr⟩
  | cons e A ih =>
    obtain ⟨n₁, hn₁, hholds₁⟩ := incr_holds hn (hP e List.mem_cons_self)
    obtain ⟨r₁, hr₁, hholds₂⟩ := incr_holds hr (hR e List.mem_cons_self)
    obtain ⟨s', hrun, hn', hr'⟩ := ih (fun a ha => hP a (List.mem_cons_of_mem e ha))
      (fun a ha => hR a (List.mem_cons_of_mem e ha)) (s := (n₁, r₁)) hholds₁ hholds₂
    refine ⟨s', ?_, hn'.congr fun p _ => ?_, hr'.congr fun i _ => ?_⟩
    · unfold count
      simp only [List.foldlM_cons, hn₁, hr₁, Option.bind_eq_bind, Option.bind_some]
      exact hrun
    · rw [sizeOf_cons]
      by_cases hp : p = part e
      · rw [hp, Function.update_self, if_pos rfl]
        ring
      · rw [Function.update_of_ne hp, if_neg (Ne.symm hp), Nat.add_zero]
    · rw [sizeOf_cons]
      by_cases hi : i = cell e
      · rw [hi, Function.update_self, if_pos rfl]
        ring
      · rw [Function.update_of_ne hi, if_neg (Ne.symm hi), Nat.add_zero]

/-- the arrays keep their sizes -/
theorem count_sizes {s s' : Buf γ × Buf γ} (h : count part cell A s = some s') :
    s'.1.size = s.1.size ∧ s'.2.size = s.2.size := by
  induction A generalizing s with
  | nil =>
    obtain rfl : s = s' := Option.some.inj h
    exact ⟨rfl, rfl⟩
  | cons e A ih =>
    unfold count at h
    rw [List.foldlM_cons] at h
    obtain ⟨t, ht, h⟩ := Option.bind_eq_some_iff.mp h
    obtain ⟨n, hn, ht⟩ := Option.bind_eq_some_iff.mp ht
    obtain ⟨r, hr, ht⟩ := Option.bind_eq_some_iff.mp ht
    obtain rfl : (n, r) = t := Option.some.inj ht
    obtain ⟨h₁, h₂⟩ := ih h
    exact ⟨h₁.trans (size_of_incr hn), h₂.trans (size_of_incr hr)⟩

/-- a pass that comes through counts inside its arrays -/
theorem count_bounds {s s' : Buf γ × Buf γ} (h : count part cell A s = some s') :
    ∀ e ∈ A, part e < s.1.size ∧ cell e < s.2.size := by
  induction A generalizing s with
  | nil => exact fun e he => absurd he List.not_mem_nil
  | cons e A ih =>
    unfold count at h
    rw [List.foldlM_cons] at h
    obtain ⟨t, ht, h⟩ := Option.bind_eq_some_iff.mp h
    obtain ⟨n, hn, ht⟩ := Option.bind_eq_some_iff.mp ht
    obtain ⟨r, hr, ht⟩ := Option.bind_eq_some_iff.mp ht
    obtain rfl : (n, r) = t := Option.some.inj ht
    intro a ha
    rcases List.mem_cons.mp ha with rfl | ha
    · exact ⟨lt_of_incr hn, lt_of_incr hr⟩
    · rw [← size_of_incr hn, ← size_of_incr hr]
      exact ih h a ha

theorem starts_spec (conv : γ → δ) {n : Buf γ} {c : ℕ → ℕ} (hn : n.Holds P c)
    (hconv : ∀ p < P, conv (Word.ofNat (c p)) = Word.ofNat (c p)) :
    ∃ b, starts conv n P = some b ∧ b.Holds P fun p => ∑ q ∈ Finset.range p, c q := by
  have key : ∀ m ≤ P, ∃ b, (List.range m).foldlM (fun (s : δ × Buf δ) i => do
      let b ← s.2.write i s.1
      let v ← n.read i
      pure (s.1 + conv v, b)) (Word.ofNat 0, zeros P) = some (Word.ofNat (∑ q ∈ Finset.range m, c q), b) ∧
      b.Holds P fun p => if p < m then ∑ q ∈ Finset.range p, c q else 0 := by
    intro m hm
    induction m with
    | zero => exact ⟨zeros P, rfl, (zeros_holds P).congr fun p _ => (if_neg (Nat.not_lt_zero p)).symm⟩
    | succ m ih =>
      obtain ⟨b₁, hrun, hholds⟩ := ih (Nat.le_of_succ_le hm)
      obtain ⟨b₂, hwrite, hholds₂⟩ := write_holds hholds (i := m) hm (∑ q ∈ Finset.range m, c q)
      refine ⟨b₂, ?_, hholds₂.congr fun p _ => ?_⟩
      · rw [List.range_succ, List.foldlM_append, hrun]
        simp only [Option.bind_eq_bind, Option.bind_some, List.foldlM_cons, List.foldlM_nil, hwrite, read_holds hn hm,
          hconv m hm, ← Word.ofNat_add, ← Finset.sum_range_succ]
        rfl
      · by_cases hp : p = m
        · rw [hp, Function.update_self, if_pos (Nat.lt_succ_self m)]
        · rw [Function.update_of_ne hp]
          exact if_congr (by omega) rfl rfl
  obtain ⟨b, hrun, hholds⟩ := key P le_rfl
  refine ⟨b, ?_, hholds.congr fun p hp => if_pos hp⟩
  unfold starts
  rw [hrun]
  rfl

/-- **Row pointers.** A block of the finer array that has a cell for each row of a part: its sums count the entries of the
part below a row. -/
theorem blockSum_count (part loc : ε → ℕ) {w : ℕ} (hloc : ∀ e ∈ A, loc e < w) (hcell : ∀ e ∈ A, cell e = part e * w + loc e)
    {p r : ℕ} (hr : r ≤ w) : blockSum (sizeOf cell A) (p * w) r = Csr.below loc (block part A p) r := by
  induction r with
  | zero => rw [Csr.below_zero]; rfl
  | succ r ih =>
    rw [blockSum_succ, ih (Nat.le_of_succ_le hr), Csr.below_succ]
    congr 1
    rw [block, List.countP_filter]
    apply List.countP_congr
    intro e he
    rw [hcell e he, decide_eq_true_eq, Bool.and_eq_true, decide_eq_true_eq, decide_eq_true_eq]
    constructor
    · intro heq
      have hw : 0 < w := by omega
      have hdiv := congrArg (· / w) heq
      have hmod := congrArg (· % w) heq
      simp only [Nat.mul_comm _ w, Nat.mul_add_div hw, Nat.mul_add_mod, Nat.div_eq_of_lt (hloc e he),
        Nat.div_eq_of_lt (Nat.lt_of_succ_le hr), Nat.mod_eq_of_lt (hloc e he), Nat.mod_eq_of_lt (Nat.lt_of_succ_le hr),
        Nat.add_zero] at hdiv hmod
      exact ⟨hmod, hdiv⟩
    · rintro ⟨h₁, h₂⟩
      rw [h₁, h₂]

end Count

/-! ## Storing -/

section Fill

variable {part : ε → ℕ} {f : ε → β₁} {g : ε → β₂} {start : Buf δ} {P : ℕ} {T A : List ε} {c : Buf β₁} {v : Buf β₂}

/-- the entries `A`, the first of the list `T`, are stored -/
structure Filled (part : ε → ℕ) (f : ε → β₁) (g : ε → β₂) (P : ℕ) (T : List ε) (c : Buf β₁) (v : Buf β₂) (A : List ε)
    (s : Buf δ × Buf β₁ × Buf β₂) : Prop where
  loc : s.1.Holds P (sizeOf part A)
  size₁ : s.2.1.size = c.size
  size₂ : s.2.2.size = v.size
  stored : ∀ p < P, ∀ k (hk : k < (block part A p).length),
    s.2.1.cell (startOf part T p + k) = f (block part A p)[k] ∧ s.2.2.cell (startOf part T p + k) = g (block part A p)[k]

/-- where the entry behind `A` goes -/
def placeOf (part : ε → ℕ) (T A : List ε) (e : ε) : ℕ := startOf part T (part e) + sizeOf part A (part e)

theorem placeOf_lt (hP : ∀ e ∈ T, part e < P) {e : ε} (h : A ++ [e] <+: T) : placeOf part T A e < T.length := by
  have hpart := hP e (h.subset (List.mem_append_right A List.mem_cons_self))
  have hsize := sizeOf_prefix part h (part e)
  rw [sizeOf_concat, if_pos rfl] at hsize
  have hle := (starts_cuts hP).le_hi (i := part e + 1) hpart
  rw [startOf_succ] at hle
  unfold placeOf
  omega

/-- a place that is taken is another one -/
theorem placeOf_ne (hP : ∀ e ∈ T, part e < P) {e : ε} (h : A ++ [e] <+: T) {p k : ℕ} (hp : p < P)
    (hk : k < sizeOf part A p) : startOf part T p + k ≠ placeOf part T A e := by
  intro heq
  have hpart := hP e (h.subset (List.mem_append_right A List.mem_cons_self))
  have hsize := sizeOf_prefix part h
  have hthis : startOf part T p ≤ startOf part T p + k ∧ startOf part T p + k < startOf part T (p + 1) := by
    have hle := hsize p
    rw [sizeOf_concat] at hle
    rw [startOf_succ]
    omega
  have hthat : startOf part T (part e) ≤ startOf part T p + k ∧ startOf part T p + k < startOf part T (part e + 1) := by
    have hle := hsize (part e)
    rw [sizeOf_concat, if_pos rfl] at hle
    rw [startOf_succ, heq]
    unfold placeOf
    omega
  have hpe := (starts_cuts hP).piece_unique hp hpart hthis hthat
  unfold placeOf at heq
  rw [← hpe] at heq
  omega

theorem Filled.put (hP : ∀ e ∈ T, part e < P) (hcard : T.length ≤ Word.card δ) (hstart : start.Holds P (startOf part T))
    {s : Buf δ × Buf β₁ × Buf β₂} (hs : Filled part f g P T c v A s) {e : ε} (h : A ++ [e] <+: T)
    (hc : placeOf part T A e < c.size) (hv : placeOf part T A e < v.size) :
    ∃ s', Scatter.put part f g start s e = some s' ∧ Filled part f g P T c v (A ++ [e]) s' := by
  have hpart := hP e (h.subset (List.mem_append_right A List.mem_cons_self))
  obtain ⟨loc, hloc, hholds⟩ := incr_holds hs.loc hpart
  have hplace : Word.toNat ((Word.ofNat (startOf part T (part e)) : δ) + Word.ofNat (sizeOf part A (part e))) =
      placeOf part T A e := by
    rw [← Word.ofNat_add]
    exact Word.toNat_ofNat _ ((placeOf_lt hP h).trans_le hcard)
  refine ⟨(loc, ⟨s.2.1.size, Function.update s.2.1.cell (placeOf part T A e) (f e)⟩,
    ⟨s.2.2.size, Function.update s.2.2.cell (placeOf part T A e) (g e)⟩), ?_, ?_, hs.size₁, hs.size₂, ?_⟩
  · unfold Scatter.put
    simp only [read_holds hstart hpart, read_holds hs.loc hpart, Option.bind_eq_bind, Option.bind_some, hplace]
    unfold write
    rw [hs.size₁, hs.size₂, if_pos hc, if_pos hv, hloc]
    rfl
  · refine hholds.congr fun p _ => ?_
    rw [sizeOf_concat]
    by_cases hp : p = part e
    · rw [hp, Function.update_self, if_pos rfl]
    · rw [Function.update_of_ne hp, if_neg (Ne.symm hp), Nat.add_zero]
  · intro p hp k hk
    have hblock : block part (A ++ [e]) p = block part A p ++ if part e = p then [e] else [] := by
      unfold block
      rw [List.filter_append]
      by_cases hpe : part e = p <;> simp [hpe]
    by_cases hold : k < (block part A p).length
    · have hother := placeOf_ne hP h hp (length_block part A p ▸ hold)
      simp only [hblock, List.getElem_append_left hold, Function.update_of_ne hother]
      exact hs.stored p hp k hold
    · -- the new entry, the last of its part
      have hpe : part e = p := by
        by_contra hpe
        rw [hblock, if_neg hpe, List.append_nil] at hk
        exact hold hk
      have hk' : k = sizeOf part A p := by
        rw [hblock, if_pos hpe, List.length_append, length_block] at hk
        rw [length_block] at hold
        simp only [List.length_singleton] at hk
        omega
      have hplace' : startOf part T p + k = placeOf part T A e := by rw [hk', placeOf, hpe]
      simp only [hblock, if_pos hpe, hplace', Function.update_self]
      rw [List.getElem_append_right (not_lt.mp hold)]
      simp only [List.getElem_singleton, and_self]

/-- **The third pass** puts every part behind its start, in the order of the list. -/
theorem fill_spec (hP : ∀ e ∈ T, part e < P) (hcard : T.length ≤ Word.card δ) (hstart : start.Holds P (startOf part T))
    (hc : T.length ≤ c.size) (hv : T.length ≤ v.size) :
    ∃ s', fill part f g start T (zeros P, c, v) = some s' ∧ Filled part f g P T c v T s' := by
  have key : ∀ A, A <+: T → ∃ s', fill part f g start A (zeros P, c, v) = some s' ∧ Filled part f g P T c v A s' := by
    intro A
    induction A using List.reverseRecOn with
    | nil =>
      intro _
      exact ⟨_, rfl, zeros_holds P, rfl, rfl, fun p _ k hk => absurd hk (Nat.not_lt_zero k)⟩
    | append_singleton A e ih =>
      intro h
      obtain ⟨s, hrun, hs⟩ := ih ((List.prefix_append A [e]).trans h)
      have hlt := placeOf_lt hP h
      obtain ⟨s', hput, hs'⟩ := hs.put hP hcard hstart h (hlt.trans_le hc) (hlt.trans_le hv)
      refine ⟨s', ?_, hs'⟩
      unfold fill at hrun ⊢
      rw [List.foldlM_append, hrun]
      simp only [Option.bind_eq_bind, Option.bind_some, List.foldlM_cons, List.foldlM_nil, hput]
      rfl
  exact key T (List.prefix_refl T)

/-- the arrays keep their sizes -/
theorem fill_sizes {s s' : Buf δ × Buf β₁ × Buf β₂} (h : fill part f g start A s = some s') :
    s'.2.1.size = s.2.1.size ∧ s'.2.2.size = s.2.2.size := by
  induction A generalizing s with
  | nil =>
    obtain rfl : s = s' := Option.some.inj h
    exact ⟨rfl, rfl⟩
  | cons e A ih =>
    unfold fill at h
    rw [List.foldlM_cons] at h
    obtain ⟨t, ht, h⟩ := Option.bind_eq_some_iff.mp h
    obtain ⟨h₁, h₂⟩ := ih h
    unfold Scatter.put at ht
    simp only [Option.bind_eq_bind, Option.bind_eq_some_iff, Option.pure_def, Option.some.injEq] at ht
    obtain ⟨k, -, l, -, c', hc, v', hv, loc, -, rfl⟩ := ht
    exact ⟨h₁.trans (size_of_write hc), h₂.trans (size_of_write hv)⟩

/-- **An array that is too short** ends the pass. -/
theorem fill_bounds (hP : ∀ e ∈ T, part e < P) (hcard : T.length ≤ Word.card δ) (hstart : start.Holds P (startOf part T))
    {s' : Buf δ × Buf β₁ × Buf β₂} (h : fill part f g start T (zeros P, c, v) = some s') :
    T.length ≤ c.size ∧ T.length ≤ v.size := by
  have key : ∀ A, A <+: T → ∀ s', fill part f g start A (zeros P, c, v) = some s' → Filled part f g P T c v A s' ∧
      ∀ p < P, ∀ k < sizeOf part A p, startOf part T p + k < c.size ∧ startOf part T p + k < v.size := by
    intro A
    induction A using List.reverseRecOn with
    | nil =>
      intro _ s' h
      cases h
      exact ⟨⟨zeros_holds P, rfl, rfl, fun p _ k hk => absurd hk (Nat.not_lt_zero k)⟩,
        fun p _ k hk => absurd hk (Nat.not_lt_zero k)⟩
    | append_singleton A e ih =>
      intro hpre s' h
      unfold fill at h
      rw [List.foldlM_append] at h
      obtain ⟨s, hrun, h⟩ := Option.bind_eq_some_iff.mp h
      rw [List.foldlM_cons] at h
      obtain ⟨t, hput, h⟩ := Option.bind_eq_some_iff.mp h
      obtain rfl : t = s' := Option.some.inj h
      obtain ⟨hs, hbefore⟩ := ih ((List.prefix_append A [e]).trans hpre) s hrun
      have hpart := hP e (hpre.subset (List.mem_append_right A List.mem_cons_self))
      have hplace : Word.toNat ((Word.ofNat (startOf part T (part e)) : δ) + Word.ofNat (sizeOf part A (part e))) =
          placeOf part T A e := by
        rw [← Word.ofNat_add]
        exact Word.toNat_ofNat _ ((placeOf_lt hP hpre).trans_le hcard)
      have hlt : placeOf part T A e < c.size ∧ placeOf part T A e < v.size := by
        unfold put at hput
        simp only [read_holds hstart hpart, read_holds hs.loc hpart, Option.bind_eq_bind, Option.bind_some, hplace] at hput
        obtain ⟨c', hc', hput⟩ := Option.bind_eq_some_iff.mp hput
        obtain ⟨v', hv', -⟩ := Option.bind_eq_some_iff.mp hput
        exact ⟨hs.size₁ ▸ lt_of_write hc', hs.size₂ ▸ lt_of_write hv'⟩
      obtain ⟨s'', hput', hs''⟩ := hs.put hP hcard hstart hpre hlt.1 hlt.2
      obtain rfl : s'' = t := Option.some.inj (hput'.symm.trans hput)
      refine ⟨hs'', ?_⟩
      intro p hp k hk
      rw [sizeOf_concat] at hk
      by_cases hold : k < sizeOf part A p
      · exact hbefore p hp k hold
      · have hpe : part e = p := by
          by_contra hpe
          rw [if_neg hpe] at hk
          exact hold hk
        have hk' : startOf part T p + k = placeOf part T A e := by
          rw [if_pos hpe] at hk
          unfold placeOf
          rw [hpe]
          omega
        rwa [hk']
  obtain ⟨-, hall⟩ := key T (List.prefix_refl T) s' h
  by_contra hshort
  have hpos : 0 < T.length := by
    by_contra hzero
    exact hshort (by omega)
  -- the last place of the list is a place of some part
  obtain ⟨p, ⟨hp, hlo, hhi⟩, -⟩ := (starts_cuts hP).existsUnique (r := T.length - 1) (Nat.zero_le _) (by omega)
  rw [startOf_succ] at hhi
  have hlast := hall p hp (T.length - 1 - startOf part T p) (by omega)
  omega

end Fill

/-! ## Reading back -/

/-- **Counted, summed and stored, the parts are the list.** `back p` makes an entry of a row and of what part `p` has stored
for it. -/
theorem blocks_perm {β τ : Type} (part : ε → ℕ) {A : List ε} {P h : ℕ} {r : ε → ℕ} {g : ε → β} {ptr : ℕ → ℕ → ℕ}
    {entry : ℕ → ℕ → β} {back : ℕ → ℕ × β → τ} {t : ε → τ} (hP : ∀ e ∈ A, part e < P) (hr : ∀ e ∈ A, r e < h)
    (hs : ∀ p < P, (block part A p).Pairwise fun a b => r a ≤ r b)
    (hptr : ∀ p < P, ∀ j ≤ h, ptr p j = Csr.below r (block part A p) j)
    (hentry : ∀ p < P, ∀ k (hk : k < (block part A p).length), entry p k = g (block part A p)[k])
    (hback : ∀ e ∈ A, back (part e) (r e, g e) = t e) :
    ((List.range P).flatMap fun p => (Csr.decode (ptr p) h (entry p)).map (back p)).Perm (A.map t) := by
  have hpart : ∀ p < P, (Csr.decode (ptr p) h (entry p)).map (back p) = (block part A p).map t := by
    intro p hp
    have hdecode : Csr.decode (ptr p) h (entry p) = Csr.decode (Csr.below r (block part A p)) h (entry p) := by
      unfold Csr.decode
      apply List.flatMap_congr
      intro j hj
      have hlt := List.mem_range.mp hj
      rw [hptr p hp j hlt.le, hptr p hp (j + 1) hlt]
    rw [hdecode, Csr.decode_of_sorted (fun e he => hr e (mem_block.mp he).1) (hs p hp) (hentry p hp), List.map_map]
    apply List.map_congr_left
    intro e he
    obtain ⟨hmem, hpe⟩ := mem_block.mp he
    rw [← hback e hmem, hpe]
    rfl
  have hall : (A.filter fun e => decide (part e < P)) = A := by
    apply List.filter_eq_self.mpr
    intro e he
    exact decide_eq_true (hP e he)
  have hblocks := Csr.flatMap_filter_perm part A P
  rw [hall] at hblocks
  refine List.Perm.trans (List.Perm.of_eq ?_) (hblocks.map t)
  rw [List.map_flatMap]
  apply List.flatMap_congr
  intro p hp
  exact hpart p (List.mem_range.mp hp)

end PimOfis.Lib.Scatter
