/-
Text as C programs read it: `fgets`, `strtok`, `atoi`, `strtoull` and the `%d` of `sscanf`, on lists of characters.

A number that an `int` does not hold makes `atoi` and `%d` undefined; such a call is `none` here.

- `chunks_flatten`: a file is read back in the lines it was made of, where all are shorter than the buffer;
- `scanInt_numeral`: blanks, digits and anything else: the number is the digits';
- `strtok_token`, `strtok_last`: the next token of a line whose tokens are parted by the delimiter;
- `sscanfInts_cons`: one `%d` of a format.
-/
import Mathlib.Tactic

namespace PimOfis.Lib.CText

/-! ## Functions of the C library -/

/-- `isspace` -/
def isSpace (c : Char) : Bool :=
  c = ' ' || c = '\t' || c = '\n' || c = '\r' || c.toNat = 11 || c.toNat = 12

/-- at most `k` characters, up to a newline -/
def takeLine : ℕ → List Char → List Char × List Char
  | 0, s => ([], s)
  | _ + 1, [] => ([], [])
  | k + 1, c :: s =>
    if c = '\n' then ([c], s)
    else let p := takeLine k s
      (c :: p.1, p.2)

/-- `fgets` into a buffer of `size` characters, one of them for the end of the string -/
def fgets (size : ℕ) (s : List Char) : Option (List Char × List Char) :=
  if s = [] then none else some (takeLine (size - 1) s)

/-- what `while (fgets(…) != NULL)` reads, `fuel` times at most -/
def chunksAux (size : ℕ) : ℕ → List Char → List (List Char)
  | 0, _ => []
  | fuel + 1, s => match fgets size s with
    | none => []
    | some (l, rest) => l :: chunksAux size fuel rest

def chunks (size : ℕ) (s : List Char) : List (List Char) := chunksAux size s.length s

/-- `strtok`: the token and what is left behind its delimiter, `none` for `NULL` -/
def strtok (delim : Char) (s : List Char) : Option (List Char × List Char) :=
  match s.dropWhile (· = delim) with
  | [] => none
  | c :: s => some ((c :: s).takeWhile (· ≠ delim), ((c :: s).dropWhile (· ≠ delim)).tail)

def digitsValue (ds : List Char) : ℕ := ds.foldl (fun n d => 10 * n + (d.toNat - '0'.toNat)) 0

/-- an optional sign -/
def takeSign : List Char → ℤ × List Char
  | '-' :: s => (-1, s)
  | '+' :: s => (1, s)
  | s => (1, s)

/-- white space, a sign, digits: the number and what is behind it, `none` without a digit -/
def scanInt (s : List Char) : Option (ℤ × List Char) :=
  let p := takeSign (s.dropWhile isSpace)
  let ds := p.2.takeWhile Char.isDigit
  if ds = [] then none else some (p.1 * digitsValue ds, p.2.dropWhile Char.isDigit)

/-- the number as an `int` -/
def toInt (n : ℤ) : Option ℤ := if -2 ^ 31 ≤ n ∧ n < 2 ^ 31 then some n else none

/-- `atoi`: 0 without a number -/
def atoi (s : List Char) : Option ℤ :=
  match scanInt s with
  | none => some 0
  | some (n, _) => toInt n

/-- `strtoull` with base 10: the greatest number where the text has a greater one -/
def strtoull (s : List Char) : UInt64 :=
  match scanInt s with
  | none => 0
  | some (n, _) => if n.natAbs < 2 ^ 64 then UInt64.ofInt n else UInt64.ofNat (2 ^ 64 - 1)

/-- `sscanf` with `k` times `%d`: the numbers it stores until one does not match -/
def sscanfInts : ℕ → List Char → Option (List ℤ)
  | 0, _ => some []
  | k + 1, s => match scanInt s with
    | none => some []
    | some (n, rest) => do
      let n ← toInt n
      let ns ← sscanfInts k rest
      pure (n :: ns)

/-! ## Lines -/

/-- a piece of a file that one `fgets` reads: a line with its newline, or the last one without -/
inductive IsChunk (size : ℕ) : List Char → List Char → Prop
  | newline (l rest : List Char) (hl : '\n' ∉ l) (hlen : l.length + 1 < size) : IsChunk size (l ++ ['\n']) rest
  | last (l : List Char) (hl : '\n' ∉ l) (hne : l ≠ []) (hlen : l.length < size) : IsChunk size l []

theorem takeLine_newline {k : ℕ} {l : List Char} (rest : List Char) (hl : '\n' ∉ l) (hlen : l.length < k) :
    takeLine k (l ++ '\n' :: rest) = (l ++ ['\n'], rest) := by
  induction l generalizing k with
  | nil =>
    cases k with
    | zero => exact absurd hlen (Nat.not_lt_zero _)
    | succ k => rfl
  | cons c l ih =>
    cases k with
    | zero => exact absurd hlen (Nat.not_lt_zero _)
    | succ k =>
      rw [List.mem_cons, not_or] at hl
      simp only [List.cons_append, takeLine, if_neg (Ne.symm hl.1), ih hl.2 (Nat.lt_of_succ_lt_succ hlen)]

theorem takeLine_last {k : ℕ} {l : List Char} (hl : '\n' ∉ l) (hlen : l.length ≤ k) : takeLine k l = (l, []) := by
  induction l generalizing k with
  | nil => cases k <;> rfl
  | cons c l ih =>
    cases k with
    | zero => exact absurd hlen (Nat.not_succ_le_zero _)
    | succ k =>
      rw [List.mem_cons, not_or] at hl
      simp only [takeLine, if_neg (Ne.symm hl.1), ih hl.2 (Nat.le_of_succ_le_succ hlen)]

theorem IsChunk.fgets {size : ℕ} {c rest : List Char} (h : IsChunk size c rest) :
    fgets size (c ++ rest) = some (c, rest) := by
  unfold CText.fgets
  cases h with
  | newline l rest hl hlen =>
    rw [if_neg (by simp), List.append_assoc]
    exact congrArg some (takeLine_newline rest hl (Nat.lt_sub_of_add_lt hlen))
  | last l hl hne hlen =>
    rw [List.append_nil, if_neg hne]
    exact congrArg some (takeLine_last hl (Nat.le_sub_one_of_lt hlen))

theorem IsChunk.length_pos {size : ℕ} {c rest : List Char} (h : IsChunk size c rest) : 0 < c.length := by
  cases h with
  | newline l rest hl hlen => simp
  | last l hl hne hlen => exact List.length_pos_of_ne_nil hne

/-- every piece of the list is read in one go, with what follows it in the file -/
def AllChunks (size : ℕ) : List (List Char) → Prop
  | [] => True
  | c :: cs => IsChunk size c cs.flatten ∧ AllChunks size cs

theorem chunksAux_flatten {size : ℕ} {cs : List (List Char)} (h : AllChunks size cs) {fuel : ℕ}
    (hfuel : cs.flatten.length ≤ fuel) : chunksAux size fuel cs.flatten = cs := by
  induction cs generalizing fuel with
  | nil => cases fuel <;> rfl
  | cons c cs ih =>
    have hpos := h.1.length_pos
    rw [List.flatten_cons, List.length_append] at hfuel
    obtain ⟨fuel, rfl⟩ := Nat.exists_eq_succ_of_ne_zero (n := fuel) (by omega)
    rw [List.flatten_cons, chunksAux, h.1.fgets]
    have hfuel' : cs.flatten.length ≤ fuel := by omega
    simp only [ih h.2 hfuel']

/-- **A file of lines** that fit the buffer is read line by line. -/
theorem chunks_flatten {size : ℕ} {cs : List (List Char)} (h : AllChunks size cs) : chunks size cs.flatten = cs :=
  chunksAux_flatten h le_rfl

/-! ## Numbers and tokens -/

/-- a number as it is written: digits, one at least -/
structure Numeral where
  digits : List Char
  ne : digits ≠ []
  isDigit : ∀ c ∈ digits, c.isDigit = true

/-- a number of one digit -/
def Numeral.single (c : Char) (h : c.isDigit = true) : Numeral where
  digits := [c]
  ne := List.cons_ne_nil c []
  isDigit d hd := by
    rw [List.mem_singleton.mp hd]
    exact h

def Numeral.value (n : Numeral) : ℕ := digitsValue n.digits

/-- the text does not go on with a digit -/
def NoDigit (s : List Char) : Prop := ∀ c ∈ s.head?, c.isDigit = false

theorem takeWhile_digits (n : Numeral) {s : List Char} (hs : NoDigit s) :
    (n.digits ++ s).takeWhile Char.isDigit = n.digits ∧ (n.digits ++ s).dropWhile Char.isDigit = s := by
  constructor
  · rw [List.takeWhile_append_of_pos n.isDigit]
    cases s with
    | nil => simp
    | cons c s => simp [hs c rfl]
  · rw [List.dropWhile_append_of_pos n.isDigit]
    cases s with
    | nil => rfl
    | cons c s => simp [hs c rfl]

/-- a digit is no blank and no sign -/
theorem digit_ne {c d : Char} (hc : c.isDigit = true) (hd : d.isDigit = false) : c ≠ d := by
  rintro rfl
  rw [hc] at hd
  cases hd

theorem isSpace_digit {c : Char} (hc : c.isDigit = true) : isSpace c = false := by
  have hnum : 48 ≤ c.toNat := by
    simp only [Char.isDigit, Bool.and_eq_true, decide_eq_true_eq] at hc
    exact hc.1
  simp only [isSpace, Bool.or_eq_false_iff, decide_eq_false_iff_not]
  refine ⟨⟨⟨⟨⟨digit_ne hc rfl, digit_ne hc rfl⟩, digit_ne hc rfl⟩, digit_ne hc rfl⟩, ?_⟩, ?_⟩ <;> omega

theorem takeSign_digits (n : Numeral) (s : List Char) : takeSign (n.digits ++ s) = (1, n.digits ++ s) := by
  rcases n with ⟨_ | ⟨c, ds⟩, hne, hdigit⟩
  · exact absurd rfl hne
  · have hc : c.isDigit = true := hdigit c List.mem_cons_self
    simp only [List.cons_append]
    unfold takeSign
    split
    · rename_i h
      exact absurd (List.head_eq_of_cons_eq h) (digit_ne hc rfl)
    · rename_i h
      exact absurd (List.head_eq_of_cons_eq h) (digit_ne hc rfl)
    · rfl

theorem dropWhile_blanks {p : Char → Bool} {b s : List Char} (hb : ∀ c ∈ b, p c = true) (hs : ∀ c ∈ s.head?, p c = false) :
    (b ++ s).dropWhile p = s := by
  rw [List.dropWhile_append_of_pos hb]
  cases s with
  | nil => rfl
  | cons c s => simp [hs c rfl]

theorem Numeral.head_digit (n : Numeral) (s : List Char) : ∀ c ∈ (n.digits ++ s).head?, c.isDigit = true := by
  rcases n with ⟨_ | ⟨d, ds⟩, hne, hdigit⟩
  · exact absurd rfl hne
  · intro c hc
    cases hc
    exact hdigit _ List.mem_cons_self

/-- **A number** behind blanks, up to something that is not a digit. -/
theorem scanInt_numeral {b : List Char} (hb : ∀ c ∈ b, isSpace c = true) (n : Numeral) {s : List Char} (hs : NoDigit s) :
    scanInt (b ++ (n.digits ++ s)) = some ((n.value : ℤ), s) := by
  have hdrop : (b ++ (n.digits ++ s)).dropWhile isSpace = n.digits ++ s :=
    dropWhile_blanks hb fun c hc => isSpace_digit (n.head_digit s c hc)
  unfold scanInt
  simp only [hdrop, takeSign_digits, takeWhile_digits n hs, if_neg n.ne, one_mul]
  rfl

theorem atoi_numeral {b : List Char} (hb : ∀ c ∈ b, isSpace c = true) (n : Numeral) {s : List Char} (hs : NoDigit s) :
    atoi (b ++ (n.digits ++ s)) = toInt n.value := by
  unfold atoi
  rw [scanInt_numeral hb n hs]

theorem strtoull_numeral {b : List Char} (hb : ∀ c ∈ b, isSpace c = true) (n : Numeral) {s : List Char} (hs : NoDigit s)
    (hn : n.value < 2 ^ 64) : strtoull (b ++ (n.digits ++ s)) = UInt64.ofNat n.value := by
  unfold strtoull
  rw [scanInt_numeral hb n hs]
  simp only [Int.natAbs_natCast, if_pos hn]
  rw [UInt64.ofInt, Int.emod_eq_of_lt (Int.natCast_nonneg _) (by exact_mod_cast hn), Int.toNat_natCast]

/-- **One `%d`** of a format, and the rest of it. -/
theorem sscanfInts_cons (k : ℕ) {b : List Char} (hb : ∀ c ∈ b, isSpace c = true) (n : Numeral) {s : List Char}
    (hs : NoDigit s) : sscanfInts (k + 1) (b ++ (n.digits ++ s)) =
      (toInt n.value).bind fun n => (sscanfInts k s).bind fun ns => some (n :: ns) := by
  rw [sscanfInts, scanInt_numeral hb n hs]
  rfl

theorem toInt_natCast {n : ℕ} : toInt (n : ℤ) = if n < 2 ^ 31 then some (n : ℤ) else none := by
  unfold toInt
  exact if_congr (by omega) rfl rfl

/-- **A token** that its delimiter ends. -/
theorem strtok_token {delim : Char} {b t : List Char} (hb : ∀ c ∈ b, c = delim) (hne : t ≠ []) (ht : delim ∉ t)
    (s : List Char) : strtok delim (b ++ (t ++ delim :: s)) = some (t, s) := by
  have hp : ∀ c ∈ t, (decide (c ≠ delim)) = true := fun c hc => decide_eq_true fun h => ht (h ▸ hc)
  have hdrop : (b ++ (t ++ delim :: s)).dropWhile (· = delim) = t ++ delim :: s := by
    apply dropWhile_blanks fun c hc => decide_eq_true (hb c hc)
    intro c hc
    cases t with
    | nil => exact absurd rfl hne
    | cons d t =>
      cases hc
      exact decide_eq_false fun h => ht (h ▸ List.mem_cons_self)
  unfold strtok
  rw [hdrop]
  cases t with
  | nil => exact absurd rfl hne
  | cons d t =>
    simp only [List.cons_append]
    rw [← List.cons_append, List.takeWhile_append_of_pos hp, List.dropWhile_append_of_pos hp]
    simp

/-- the last token, or one of which only the beginning is known -/
theorem strtok_last {delim : Char} {b t : List Char} (hb : ∀ c ∈ b, c = delim) (hne : t ≠ []) (ht : delim ∉ t)
    (s : List Char) : ∃ rest, strtok delim (b ++ (t ++ s)) = some (t ++ s.takeWhile (· ≠ delim), rest) := by
  have hp : ∀ c ∈ t, (decide (c ≠ delim)) = true := fun c hc => decide_eq_true fun h => ht (h ▸ hc)
  have hdrop : (b ++ (t ++ s)).dropWhile (· = delim) = t ++ s := by
    apply dropWhile_blanks fun c hc => decide_eq_true (hb c hc)
    intro c hc
    cases t with
    | nil => exact absurd rfl hne
    | cons d t =>
      cases hc
      exact decide_eq_false fun h => ht (h ▸ List.mem_cons_self)
  unfold strtok
  rw [hdrop]
  cases t with
  | nil => exact absurd rfl hne
  | cons d t =>
    refine ⟨((d :: t ++ s).dropWhile (· ≠ delim)).tail, ?_⟩
    simp only [List.cons_append]
    rw [← List.cons_append, List.takeWhile_append_of_pos hp]
    rfl

end PimOfis.Lib.CText
