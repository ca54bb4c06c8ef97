/-
The loaders of Matrix Market files: `get_COO_matrix_rev` of SpMV_OFIS and `readCOOMatrix` of SparseP_EW, character by
character as they read the file.

Both take the first field of an entry as its column and the second as its row, so they read the transposed matrix.
`get_COO_matrix_rev` takes the fields of the size line in the same order. `readCOOMatrix` takes the first as the number of
rows: for a matrix that is not square, numbers of rows and columns do not fit the entries.

A file is comments, one size line and the entries it announces, on lines of fields with blanks between them. Numbers an
`int` does not hold are undefined for `%d` and `atoi`. A line that is longer than the loaders' buffer is read in pieces.

Results:
- `getCooMatrixRev_eq`, `readCooMatrix_eq`: what each loader makes of a file whose lines fit the buffer;
- `loaders_agree_iff`: on these files they agree if and only if both numbers are the same after padding.
-/
import Mathlib.Tactic
import PimOfis.Lib.CText
import PimOfis.SpMV.Coo

namespace PimOfis.SpMV.MatrixMarket

open Lib Lib.CText

/-! ## Model -/

/-- the conversions between `val_dt` and integers, of which the numbers 1 to 4 come through -/
structure ValConv (α : Type) where
  zero : α
  ofNat : ℕ → α
  toInt32 : α → Int32
  ofInt32 : Int32 → α
  small : ∀ n < 4, ofInt32 (toInt32 (ofNat (n + 1))) = ofNat (n + 1)

def ValConv.int32 : ValConv Int32 where
  zero := 0
  ofNat := Int32.ofNat
  toInt32 := id
  ofInt32 := id
  small _ _ := rfl

variable {α : Type}

/-- `struct COO_format` and `struct COOMatrix`, but for the counts of the rows, which both loaders leave 0 -/
structure Loaded (α : Type) where
  nrRows : UInt32
  nrCols : UInt32
  nnz : UInt32
  elems : Buf (Elem α)

/-- a loader between two lines; there is no matrix before the size line (`info_flag`, `done`) -/
structure Reading (α ι : Type) where
  coo : Option (Loaded α)
  idx : ι

/-- `calloc` of entries -/
def callocElems (v : ValConv α) (n : ℕ) : Buf (Elem α) := ⟨n, fun _ => ⟨0, 0, v.zero⟩⟩

/-- both loaders read into `char [1000]` -/
def lineSize : ℕ := 1000

/-- `if(n % 2 != 0) n += 1` -/
def padEven (n : UInt32) : UInt32 := if n % 2 ≠ 0 then n + 1 else n

/-- one line in `get_COO_matrix_rev` -/
def revLine (v : ValConv α) (s : Reading α UInt32) (line : List Char) : Option (Reading α UInt32) :=
  if line.head? = some '%' then some s
  else match s.coo with
    | none => do
      let fields ← sscanfInts 3 line
      match fields with
      | [nrCols, nrRows, nnz] => some { s with coo := some {
          nrRows := padEven (UInt32.ofInt nrRows)
          nrCols := padEven (UInt32.ofInt nrCols)
          nnz := UInt32.ofInt nnz
          elems := callocElems v (UInt32.ofInt nnz).toNat } }
      | _ => some s
    | some coo => do
      let fields ← sscanfInts 2 line
      match fields with
      | [colIdx, rowIdx] => do
        -- the index starts from 0
        let elems ← coo.elems.write s.idx.toNat
          ⟨UInt32.ofInt rowIdx - 1, UInt32.ofInt colIdx - 1, v.ofNat (s.idx % 4 + 1).toNat⟩
        some ⟨some { coo with elems := elems }, s.idx + 1⟩
      | _ => some s

/-- `get_COO_matrix_rev`; without a size line the matrix it returns is not initialised -/
def getCooMatrixRev (v : ValConv α) (file : List Char) : Option (Loaded α) := do
  let s ← (chunks lineSize file).foldlM (revLine v) ⟨none, 0⟩
  s.coo

/-- bytes of `val_dt` -/
def byteDt : UInt32 := 4

/-- `if((n % (8 / byte_dt)) != 0) n += ((8 / byte_dt) - (n % (8 / byte_dt)))` -/
def padWords (n : UInt32) : UInt32 := if n % (8 / byteDt) ≠ 0 then n + (8 / byteDt - n % (8 / byteDt)) else n

/-- one line in `readCOOMatrix`; a token that is `NULL` is undefined for what is done with it -/
def cooLine (v : ValConv α) (s : Reading α UInt64) (line : List Char) : Option (Reading α UInt64) := do
  let (token, rest) ← strtok ' ' line
  if token.head? = some '%' then some s
  else match s.coo with
    | none => do
      let nrows ← atoi token
      let (token, rest) ← strtok ' ' rest
      let ncols ← atoi token
      let (token, _) ← strtok ' ' rest
      let nnz := (strtoull token).toUInt32
      some { s with coo := some {
        nrRows := padWords (UInt32.ofInt nrows)
        nrCols := padWords (UInt32.ofInt ncols)
        nnz := nnz
        elems := callocElems v (nnz + 8).toNat } }
    | some coo => do
      let colindx ← atoi token
      let (token, _) ← strtok ' ' rest
      let rowindx ← atoi token
      let val := v.toInt32 (v.ofNat (s.idx % 4 + 1).toNat)
      let elems ← coo.elems.write s.idx.toNat
        ⟨UInt32.ofInt rowindx - 1, UInt32.ofInt colindx - 1, v.ofInt32 val⟩
      some ⟨some { coo with elems := elems }, s.idx + 1⟩

/-- `readCOOMatrix` -/
def readCooMatrix (v : ValConv α) (file : List Char) : Option (Loaded α) := do
  let s ← (chunks lineSize file).foldlM (cooLine v) ⟨none, 0⟩
  s.coo

/-! ## Matrix Market files -/

/-- `gap + 1` blanks part two fields, and any number stands before the first -/
structure SizeLine where
  lead : ℕ
  rows : Numeral
  gap₁ : ℕ
  cols : Numeral
  gap₂ : ℕ
  nnz : Numeral
  trail : List Char
  trail_space : ∀ c ∈ trail, isSpace c = true ∧ c ≠ '\n'

/-- an entry: its row, its column, and a value or nothing -/
structure EntryLine where
  lead : ℕ
  row : Numeral
  gap : ℕ
  col : Numeral
  rest : List Char
  rest_space : ∀ c ∈ rest.head?, isSpace c = true
  rest_line : '\n' ∉ rest

def blanks (n : ℕ) : List Char := List.replicate n ' '

def SizeLine.text (l : SizeLine) : List Char :=
  blanks l.lead ++ (l.rows.digits ++ (blanks (l.gap₁ + 1) ++ (l.cols.digits ++ (blanks (l.gap₂ + 1) ++
    (l.nnz.digits ++ l.trail)))))

def EntryLine.text (l : EntryLine) : List Char :=
  blanks l.lead ++ (l.row.digits ++ (blanks (l.gap + 1) ++ (l.col.digits ++ l.rest)))

/-- a well-formed coordinate file -/
structure File where
  comments : List (List Char)
  comments_line : ∀ c ∈ comments, '\n' ∉ c
  size : SizeLine
  entries : List EntryLine
  announced : entries.length = size.nnz.value
  row_in : ∀ e ∈ entries, 1 ≤ e.row.value ∧ e.row.value ≤ size.rows.value
  col_in : ∀ e ∈ entries, 1 ≤ e.col.value ∧ e.col.value ≤ size.cols.value
  /-- the last line ends with a newline too -/
  terminated : Bool

def File.lines (f : File) : List (List Char) :=
  f.comments.map (fun c => '%' :: c) ++ f.size.text :: f.entries.map EntryLine.text

/-- lines with their newlines, the last one with `last` -/
def withNewlines (last : List Char) : List (List Char) → List (List Char)
  | [] => []
  | [l] => [l ++ last]
  | l :: l' :: ls => (l ++ ['\n']) :: withNewlines last (l' :: ls)

def File.pieces (f : File) : List (List Char) := withNewlines (if f.terminated then ['\n'] else []) f.lines

def File.text (f : File) : List Char := f.pieces.flatten

/-- every line and its newline fit the buffer -/
def File.Fits (f : File) : Prop := ∀ l ∈ f.lines, l.length + 1 < lineSize

/-! ## The lines of a file -/

theorem mem_blanks {n : ℕ} {c : Char} (hc : c ∈ blanks n) : c = ' ' := List.eq_of_mem_replicate hc

theorem isSpace_blanks {n : ℕ} : ∀ c ∈ blanks n, isSpace c = true := by
  intro c hc
  rw [mem_blanks hc]
  rfl

theorem isSpace_not_digit {c : Char} (h : isSpace c = true) : c.isDigit = false := by
  by_contra hd
  rw [Bool.not_eq_false] at hd
  rw [isSpace_digit hd] at h
  cases h

theorem noDigit_blanks (n : ℕ) (s : List Char) : NoDigit (blanks (n + 1) ++ s) := by
  intro c hc
  cases hc
  rfl

theorem digits_no_delim (n : Numeral) {d : Char} (hd : d.isDigit = false) : d ∉ n.digits := by
  intro h
  rw [n.isDigit d h] at hd
  cases hd

/-- the size line with any text behind its numbers -/
def SizeLine.textWith (l : SizeLine) (u : List Char) : List Char :=
  blanks l.lead ++ (l.rows.digits ++ (blanks (l.gap₁ + 1) ++ (l.cols.digits ++ (blanks (l.gap₂ + 1) ++
    (l.nnz.digits ++ u)))))

/-- an entry with any text behind its numbers -/
def EntryLine.textWith (l : EntryLine) (u : List Char) : List Char :=
  blanks l.lead ++ (l.row.digits ++ (blanks (l.gap + 1) ++ (l.col.digits ++ u)))

/-- a line that begins with blanks and a number is no comment -/
theorem head_ne_percent (n : ℕ) (k : Numeral) (s : List Char) : (blanks n ++ (k.digits ++ s)).head? ≠ some '%' := by
  intro h
  cases n with
  | zero =>
    have hdigit := k.head_digit s '%' (by simpa [blanks] using h)
    cases hdigit
  | succ n => cases h

theorem newline_not_mem_comment {c : List Char} (hc : '\n' ∉ c) : '\n' ∉ '%' :: c := by
  rw [List.mem_cons, not_or]
  exact ⟨by decide, hc⟩

theorem newline_not_mem_blanks (n : ℕ) : '\n' ∉ blanks n := fun h => absurd (mem_blanks h) (by decide)

theorem SizeLine.newline_not_mem (l : SizeLine) : '\n' ∉ l.text := by
  have hdigits : ∀ n : Numeral, '\n' ∉ n.digits := fun n => digits_no_delim n rfl
  simp only [SizeLine.text, List.mem_append, not_or]
  exact ⟨newline_not_mem_blanks _, hdigits _, newline_not_mem_blanks _, hdigits _, newline_not_mem_blanks _, hdigits _,
    fun h => (l.trail_space _ h).2 rfl⟩

theorem EntryLine.newline_not_mem (l : EntryLine) : '\n' ∉ l.text := by
  have hdigits : ∀ n : Numeral, '\n' ∉ n.digits := fun n => digits_no_delim n rfl
  simp only [EntryLine.text, List.mem_append, not_or]
  exact ⟨newline_not_mem_blanks _, hdigits _, newline_not_mem_blanks _, hdigits _, l.rest_line⟩

theorem File.newline_not_mem (f : File) : ∀ l ∈ f.lines, '\n' ∉ l := by
  intro l hl
  rw [File.lines, List.mem_append, List.mem_map, List.mem_cons, List.mem_map] at hl
  rcases hl with ⟨c, hc, rfl⟩ | rfl | ⟨e, _, rfl⟩
  · exact newline_not_mem_comment (f.comments_line c hc)
  · exact f.size.newline_not_mem
  · exact e.newline_not_mem

theorem File.line_ne_nil (f : File) : ∀ l ∈ f.lines, l ≠ [] := by
  intro l hl
  rw [File.lines, List.mem_append, List.mem_map, List.mem_cons, List.mem_map] at hl
  rcases hl with ⟨c, hc, rfl⟩ | rfl | ⟨e, _, rfl⟩
  · exact List.cons_ne_nil _ _
  · simp [SizeLine.text, f.size.rows.ne]
  · simp [EntryLine.text, e.row.ne]

theorem allChunks_withNewlines {last : List Char} (hlast : last = [] ∨ last = ['\n']) {ls : List (List Char)}
    (hline : ∀ l ∈ ls, '\n' ∉ l) (hne : ∀ l ∈ ls, l ≠ []) (hfits : ∀ l ∈ ls, l.length + 1 < lineSize) :
    AllChunks lineSize (withNewlines last ls) := by
  induction ls with
  | nil => trivial
  | cons l ls ih =>
    have hmem : l ∈ l :: ls := List.mem_cons_self
    have htail : ∀ a ∈ ls, a ∈ l :: ls := fun a ha => List.mem_cons_of_mem l ha
    cases ls with
    | nil =>
      rcases hlast with rfl | rfl
      · refine ⟨?_, trivial⟩
        rw [List.append_nil]
        exact .last l (hline l hmem) (hne l hmem) (Nat.lt_of_succ_lt (hfits l hmem))
      · exact ⟨.newline l _ (hline l hmem) (hfits l hmem), trivial⟩
    | cons l' ls =>
      exact ⟨.newline l _ (hline l hmem) (hfits l hmem),
        ih (fun a ha => hline a (htail a ha)) (fun a ha => hne a (htail a ha)) fun a ha => hfits a (htail a ha)⟩

theorem File.chunks_text (f : File) (hfits : f.Fits) : chunks lineSize f.text = f.pieces := by
  refine chunks_flatten (allChunks_withNewlines ?_ f.newline_not_mem f.line_ne_nil hfits)
  split
  · exact Or.inr rfl
  · exact Or.inl rfl

/-- what stands behind a line -/
def IsEnd (t : List Char) : Prop := t = [] ∨ t = ['\n']

theorem withNewlines_cons {last : List Char} (hlast : IsEnd last) (l : List Char) (ls : List (List Char)) :
    ∃ t, IsEnd t ∧ withNewlines last (l :: ls) = (l ++ t) :: withNewlines last ls := by
  cases ls with
  | nil => exact ⟨last, hlast, rfl⟩
  | cons l' ls => exact ⟨['\n'], Or.inr rfl, rfl⟩

theorem File.pieces_eq (f : File) : ∃ last, IsEnd last ∧ f.pieces = withNewlines last f.lines := by
  refine ⟨_, ?_, rfl⟩
  split
  · exact Or.inr rfl
  · exact Or.inl rfl

theorem IsEnd.noDigit {t : List Char} (ht : IsEnd t) : NoDigit t := by
  rcases ht with rfl | rfl
  · nofun
  · intro c hc
    cases hc
    rfl

/-- blanks and the end of the line, behind a number -/
theorem noDigit_append {u t : List Char} (hu : ∀ c ∈ u.head?, isSpace c = true) (ht : IsEnd t) : NoDigit (u ++ t) := by
  cases u with
  | nil => exact ht.noDigit
  | cons c u =>
    intro d hd
    cases hd
    exact isSpace_not_digit (hu _ rfl)

/-! ## One line -/

theorem ofInt_natCast {n : ℕ} (hn : n < 2 ^ 32) : UInt32.ofInt (n : ℤ) = UInt32.ofNat n := by
  rw [UInt32.ofInt, Int.emod_eq_of_lt (Int.natCast_nonneg _) (by exact_mod_cast hn), Int.toNat_natCast]

theorem padWords_eq (n : UInt32) : padWords n = padEven n := by
  have htwo : 8 / byteDt = 2 := rfl
  unfold padWords padEven
  rw [htwo]
  split_ifs with hodd
  · have hone : n % 2 = 1 := by
      rw [ne_eq, ← UInt32.toNat_inj, UInt32.toNat_mod] at hodd
      rw [← UInt32.toNat_inj, UInt32.toNat_mod]
      exact Nat.mod_two_ne_zero.mp hodd
    rw [hone]
    rfl
  · rfl

/-- the numbers of the size line fit an `int` -/
def SizeLine.Small (l : SizeLine) : Prop := l.rows.value < 2 ^ 31 ∧ l.cols.value < 2 ^ 31 ∧ l.nnz.value < 2 ^ 31

section
variable (v : ValConv α)

/-- the matrix of `get_COO_matrix_rev` behind the size line -/
def revHeader (l : SizeLine) : Loaded α where
  nrRows := padEven (UInt32.ofNat l.cols.value)
  nrCols := padEven (UInt32.ofNat l.rows.value)
  nnz := UInt32.ofNat l.nnz.value
  elems := callocElems v l.nnz.value

/-- the matrix of `readCOOMatrix` behind the size line -/
def cooHeader (l : SizeLine) : Loaded α where
  nrRows := padEven (UInt32.ofNat l.rows.value)
  nrCols := padEven (UInt32.ofNat l.cols.value)
  nnz := UInt32.ofNat l.nnz.value
  elems := callocElems v (l.nnz.value + 8)

/-- entry number `k`, as both loaders store it: rows and columns exchanged -/
def EntryLine.elem (l : EntryLine) (k : ℕ) : Elem α :=
  ⟨UInt32.ofNat l.col.value - 1, UInt32.ofNat l.row.value - 1, v.ofNat (k % 4 + 1)⟩

def Loaded.put (coo : Loaded α) (i : ℕ) (e : Elem α) : Option (Loaded α) :=
  (coo.elems.write i e).map fun elems => { coo with elems := elems }

theorem sscanf_size (l : SizeLine) {u : List Char} (hu : NoDigit u) : sscanfInts 3 (l.textWith u) =
    (toInt l.rows.value).bind fun rows => (toInt l.cols.value).bind fun cols => (toInt l.nnz.value).bind fun nnz =>
      some [rows, cols, nnz] := by
  unfold SizeLine.textWith
  rw [sscanfInts_cons 2 isSpace_blanks l.rows (noDigit_blanks _ _),
    sscanfInts_cons 1 isSpace_blanks l.cols (noDigit_blanks _ _), sscanfInts_cons 0 isSpace_blanks l.nnz hu, sscanfInts]
  cases toInt l.rows.value <;> cases toInt l.cols.value <;> cases toInt l.nnz.value <;> rfl

theorem revLine_size (l : SizeLine) {u : List Char} (hu : NoDigit u) (hsmall : l.Small) (idx : UInt32) :
    revLine v ⟨none, idx⟩ (l.textWith u) = some ⟨some (revHeader v l), idx⟩ := by
  have hlt : ∀ {n : ℕ}, n < 2 ^ 31 → UInt32.ofInt (n : ℤ) = UInt32.ofNat n := fun h => ofInt_natCast (h.trans (by decide))
  have hnnz : (UInt32.ofNat l.nnz.value).toNat = l.nnz.value :=
    UInt32.toNat_ofNat_of_lt' (hsmall.2.2.trans (by decide))
  have hhead : (l.textWith u).head? ≠ some '%' := head_ne_percent _ _ _
  unfold revLine
  rw [if_neg hhead]
  simp only [sscanf_size l hu, toInt_natCast, if_pos hsmall.1, if_pos hsmall.2.1, if_pos hsmall.2.2, Option.bind_some,
    Option.bind_eq_bind, hlt hsmall.1, hlt hsmall.2.1, hlt hsmall.2.2, hnnz]
  rfl

/-- numbers that are too great are undefined -/
theorem revLine_size_none (l : SizeLine) {u : List Char} (hu : NoDigit u) (hsmall : ¬l.Small) (idx : UInt32) :
    revLine v ⟨none, idx⟩ (l.textWith u) = none := by
  have hhead : (l.textWith u).head? ≠ some '%' := head_ne_percent _ _ _
  unfold revLine
  rw [if_neg hhead]
  simp only [sscanf_size l hu, toInt_natCast, Option.bind_eq_bind]
  by_cases hrows : l.rows.value < 2 ^ 31
  · by_cases hcols : l.cols.value < 2 ^ 31
    · have hnnz : ¬l.nnz.value < 2 ^ 31 := fun h => hsmall ⟨hrows, hcols, h⟩
      rw [if_pos hrows, if_pos hcols, if_neg hnnz]
      rfl
    · rw [if_pos hrows, if_neg hcols]
      rfl
  · rw [if_neg hrows]
    rfl

theorem noDigit_takeWhile {u : List Char} (hu : NoDigit u) (p : Char → Bool) : NoDigit (u.takeWhile p) := by
  cases u with
  | nil => exact hu
  | cons c u =>
    intro d hd
    rw [List.takeWhile_cons] at hd
    split at hd
    · exact hu d hd
    · cases hd

theorem atoi_token (n : Numeral) {u : List Char} (hu : NoDigit u) : atoi (n.digits ++ u) = toInt n.value :=
  atoi_numeral (b := []) (fun _ h => absurd h List.not_mem_nil) n hu

theorem atoi_digits (n : Numeral) : atoi n.digits = toInt n.value := by
  have h := atoi_token n (u := []) nofun
  rwa [List.append_nil] at h

/-- a number and the blank behind it -/
theorem strtok_numeral (k : ℕ) (n : Numeral) (g : ℕ) (s : List Char) :
    strtok ' ' (blanks k ++ (n.digits ++ (blanks (g + 1) ++ s))) = some (n.digits, blanks g ++ s) :=
  strtok_token (fun _ h => mem_blanks h) n.ne (digits_no_delim n rfl) (blanks g ++ s)

theorem strtok_numeral_last (k : ℕ) (n : Numeral) (s : List Char) :
    ∃ rest, strtok ' ' (blanks k ++ (n.digits ++ s)) = some (n.digits ++ s.takeWhile (· ≠ ' '), rest) :=
  strtok_last (fun _ h => mem_blanks h) n.ne (digits_no_delim n rfl) s

theorem digits_head_ne_percent (n : Numeral) : n.digits.head? ≠ some '%' := by
  have h := head_ne_percent 0 n []
  rwa [List.append_nil] at h

theorem cooLine_size (l : SizeLine) {u : List Char} (hu : NoDigit u) (hsmall : l.Small) (idx : UInt64) :
    cooLine v ⟨none, idx⟩ (l.textWith u) = some ⟨some (cooHeader v l), idx⟩ := by
  have hlt : ∀ {n : ℕ}, n < 2 ^ 31 → UInt32.ofInt (n : ℤ) = UInt32.ofNat n := fun h => ofInt_natCast (h.trans (by decide))
  have hnnz : l.nnz.value < 2 ^ 64 := hsmall.2.2.trans (by decide)
  have hcut : (UInt64.ofNat l.nnz.value).toUInt32 = UInt32.ofNat l.nnz.value := by
    rw [← UInt32.toNat_inj, UInt64.toNat_toUInt32, UInt64.toNat_ofNat_of_lt' hnnz, UInt32.toNat_ofNat']
  have hroom : (UInt32.ofNat l.nnz.value + 8).toNat = l.nnz.value + 8 := by
    have h := hsmall.2.2
    rw [UInt32.toNat_add, UInt32.toNat_ofNat_of_lt' (h.trans (by decide))]
    exact Nat.mod_eq_of_lt (by change l.nnz.value + 8 < 2 ^ 32; omega)
  obtain ⟨rest, hlast⟩ := strtok_numeral_last l.gap₂ l.nnz u
  have hfirst : strtok ' ' (l.textWith u) = some (l.rows.digits, _) := strtok_numeral _ _ _ _
  have hull : strtoull (l.nnz.digits ++ u.takeWhile (· ≠ ' ')) = UInt64.ofNat l.nnz.value :=
    strtoull_numeral (b := []) (fun _ h => absurd h List.not_mem_nil) l.nnz (noDigit_takeWhile hu _) hnnz
  unfold cooLine
  simp only [hfirst, Option.bind_eq_bind, Option.bind_some, if_neg (digits_head_ne_percent _), strtok_numeral, hlast,
    atoi_digits, toInt_natCast, if_pos hsmall.1, if_pos hsmall.2.1, hull, hcut, hroom, hlt hsmall.1, hlt hsmall.2.1,
    padWords_eq]
  rfl

/-- the numbers of an entry fit an `int` -/
def EntryLine.Small (l : EntryLine) : Prop := l.row.value < 2 ^ 31 ∧ l.col.value < 2 ^ 31

theorem revLine_entry (l : EntryLine) {u : List Char} (hu : NoDigit u) (hsmall : l.Small) (coo : Loaded α)
    (idx : UInt32) : revLine v ⟨some coo, idx⟩ (l.textWith u) =
      (coo.put idx.toNat (l.elem v idx.toNat)).map fun coo => ⟨some coo, idx + 1⟩ := by
  have hlt : ∀ {n : ℕ}, n < 2 ^ 31 → UInt32.ofInt (n : ℤ) = UInt32.ofNat n := fun h => ofInt_natCast (h.trans (by decide))
  have hhead : (l.textWith u).head? ≠ some '%' := head_ne_percent _ _ _
  have hval : (idx % 4 + 1).toNat = idx.toNat % 4 + 1 := by
    rw [UInt32.toNat_add, UInt32.toNat_mod]
    change (idx.toNat % 4 + 1) % 2 ^ 32 = _
    omega
  have hscan : sscanfInts 2 (l.textWith u) = some [(l.row.value : ℤ), (l.col.value : ℤ)] := by
    unfold EntryLine.textWith
    rw [sscanfInts_cons 1 isSpace_blanks l.row (noDigit_blanks _ _), sscanfInts_cons 0 isSpace_blanks l.col hu,
      toInt_natCast, toInt_natCast, if_pos hsmall.1, if_pos hsmall.2]
    rfl
  unfold revLine
  rw [if_neg hhead]
  simp only [hscan, Option.bind_eq_bind, Option.bind_some, hlt hsmall.1, hlt hsmall.2, hval, Loaded.put, EntryLine.elem,
    Option.map_map]
  cases coo.elems.write idx.toNat _ <;> rfl

theorem cooLine_entry (l : EntryLine) {u : List Char} (hu : NoDigit u) (hsmall : l.Small) (coo : Loaded α)
    (idx : UInt64) : cooLine v ⟨some coo, idx⟩ (l.textWith u) =
      (coo.put idx.toNat (l.elem v idx.toNat)).map fun coo => ⟨some coo, idx + 1⟩ := by
  have hlt : ∀ {n : ℕ}, n < 2 ^ 31 → UInt32.ofInt (n : ℤ) = UInt32.ofNat n := fun h => ofInt_natCast (h.trans (by decide))
  have hval : (idx % 4 + 1).toNat = idx.toNat % 4 + 1 := by
    rw [UInt64.toNat_add, UInt64.toNat_mod]
    change (idx.toNat % 4 + 1) % 2 ^ 64 = _
    omega
  obtain ⟨rest, hlast⟩ := strtok_numeral_last l.gap l.col u
  have hfirst : strtok ' ' (l.textWith u) = some (l.row.digits, _) := strtok_numeral _ _ _ _
  unfold cooLine
  simp only [hfirst, Option.bind_eq_bind, Option.bind_some, if_neg (digits_head_ne_percent _), hlast, atoi_digits,
    atoi_token _ (noDigit_takeWhile hu _), toInt_natCast, if_pos hsmall.1, if_pos hsmall.2, hlt hsmall.1, hlt hsmall.2, hval,
    v.small _ (Nat.mod_lt _ (by decide)), Loaded.put, EntryLine.elem, Option.map_map]
  cases coo.elems.write idx.toNat _ <;> rfl

/-! ## The entries -/

/-- the entries as they are stored, from number `k` on -/
def elemsFrom (k : ℕ) : List EntryLine → List (Elem α)
  | [] => []
  | e :: es => e.elem v k :: elemsFrom (k + 1) es

theorem elemsFrom_length (k : ℕ) (es : List EntryLine) : (elemsFrom v k es).length = es.length := by
  induction es generalizing k with
  | nil => rfl
  | cons e es ih => rw [elemsFrom, List.length_cons, List.length_cons, ih]

theorem exists_of_mem_elemsFrom {k : ℕ} {es : List EntryLine} {x : Elem α} (hx : x ∈ elemsFrom v k es) :
    ∃ e ∈ es, ∃ j, x = e.elem v j := by
  induction es generalizing k with
  | nil => cases hx
  | cons e es ih =>
    rcases List.mem_cons.mp hx with rfl | hx
    · exact ⟨e, List.mem_cons_self, k, rfl⟩
    · obtain ⟨e', he', j, hj⟩ := ih hx
      exact ⟨e', List.mem_cons_of_mem e he', j, hj⟩

variable {v}

/-- stores one after another -/
def Loaded.fill (coo : Loaded α) (i : ℕ) : List (Elem α) → Option (Loaded α)
  | [] => some coo
  | e :: es => (coo.put i e).bind fun coo => coo.fill (i + 1) es

/-- cells with the list laid over them from `i` on -/
def overlay (cell : ℕ → Elem α) (i : ℕ) (es : List (Elem α)) (j : ℕ) : Elem α :=
  if i ≤ j then (es[j - i]?).getD (cell j) else cell j

theorem overlay_cons (cell : ℕ → Elem α) (i : ℕ) (e : Elem α) (es : List (Elem α)) :
    overlay (Function.update cell i e) (i + 1) es = overlay cell i (e :: es) := by
  funext j
  rcases lt_trichotomy j i with hj | rfl | hj
  · rw [overlay, overlay, if_neg (by omega), if_neg (by omega), Function.update_of_ne hj.ne]
  · rw [overlay, overlay, if_neg (by omega), if_pos le_rfl, Function.update_self, Nat.sub_self]
    rfl
  · rw [overlay, overlay, if_pos (Nat.succ_le_of_lt hj), if_pos hj.le, Function.update_of_ne hj.ne',
      show j - i = j - (i + 1) + 1 by omega, List.getElem?_cons_succ]

theorem Loaded.fill_eq {coo : Loaded α} {i : ℕ} {es : List (Elem α)} (h : i + es.length ≤ coo.elems.size) :
    coo.fill i es = some { coo with elems := ⟨coo.elems.size, overlay coo.elems.cell i es⟩ } := by
  induction es generalizing coo i with
  | nil =>
    have hcell : overlay coo.elems.cell i [] = coo.elems.cell := by
      funext j
      simp [overlay]
    rw [fill, hcell]
  | cons e es ih =>
    rw [List.length_cons] at h
    have hput : coo.put i e = some { coo with elems := ⟨coo.elems.size, Function.update coo.elems.cell i e⟩ } := by
      rw [put, Buf.write, if_pos (by omega)]
      rfl
    rw [fill, hput, Option.bind_some, ih (by simp only; omega)]
    simp only [overlay_cons]

/-- the entries of a matrix -/
def Loaded.triples (coo : Loaded α) : List (ℕ × ℕ × α) :=
  (List.range coo.nnz.toNat).map fun j => (coo.elems.cell j).triple

theorem triples_overlay (coo : Loaded α) (es : List (Elem α)) (h : coo.nnz.toNat = es.length) (size : ℕ) :
    Loaded.triples { coo with elems := ⟨size, overlay coo.elems.cell 0 es⟩ } = es.map Elem.triple := by
  apply List.ext_getElem
  · simp [Loaded.triples, h]
  · intro j hj hj'
    rw [List.length_map] at hj'
    simp [Loaded.triples, overlay, List.getElem?_eq_getElem hj']

variable (v)

/-- a loader that stores entry after entry, with an index that counts up to `N` -/
theorem foldlM_entries {ι : Type} {step : Reading α ι → List Char → Option (Reading α ι)} {num : ι → ℕ} {next : ι → ι}
    {N : ℕ} (hnext : ∀ i, num i + 1 < N → num (next i) = num i + 1) {last : List Char} (hlast : IsEnd last)
    {es : List EntryLine} (hstep : ∀ e ∈ es, ∀ t, IsEnd t → ∀ coo i, step ⟨some coo, i⟩ (e.text ++ t) =
      (coo.put (num i) (e.elem v (num i))).map fun coo => ⟨some coo, next i⟩)
    (coo : Loaded α) (i : ι) (hlen : num i + es.length < N) :
    ∃ j, (withNewlines last (es.map EntryLine.text)).foldlM step ⟨some coo, i⟩ =
      (coo.fill (num i) (elemsFrom v (num i) es)).map fun coo => ⟨some coo, j⟩ := by
  induction es generalizing coo i with
  | nil => exact ⟨i, rfl⟩
  | cons e es ih =>
    rw [List.length_cons] at hlen
    have hnum := hnext i (by omega)
    obtain ⟨t, ht, hcons⟩ := withNewlines_cons hlast e.text (es.map EntryLine.text)
    rw [List.map_cons, hcons, List.foldlM_cons, hstep e List.mem_cons_self t ht, elemsFrom, Loaded.fill]
    cases coo.put (num i) (e.elem v (num i)) with
    | none => exact ⟨i, rfl⟩
    | some coo' =>
      obtain ⟨j, hj⟩ := ih (fun a ha => hstep a (List.mem_cons_of_mem e ha)) coo' (next i) (by rw [hnum]; omega)
      refine ⟨j, ?_⟩
      simp only [Option.map_some, Option.bind_eq_bind, Option.bind_some]
      rw [hj, hnum]

/-! ## A whole file -/

/-- comments change nothing -/
theorem foldlM_comments {σ : Type} {step : σ → List Char → Option σ} (hcomment : ∀ c s, step s ('%' :: c) = some s)
    {last : List Char} (hlast : IsEnd last) (cs ls : List (List Char)) (s : σ) :
    (withNewlines last (cs.map (fun c => '%' :: c) ++ ls)).foldlM step s = (withNewlines last ls).foldlM step s := by
  induction cs with
  | nil => rfl
  | cons c cs ih =>
    obtain ⟨t, -, hcons⟩ := withNewlines_cons hlast ('%' :: c) (cs.map (fun c => '%' :: c) ++ ls)
    rw [List.map_cons, List.cons_append, hcons, List.cons_append, List.foldlM_cons, hcomment]
    exact ih

variable (f : File)

/-- a loader that skips comments, over a file whose lines fit the buffer: the size line, then the entries -/
theorem foldlM_file {σ : Type} {step : σ → List Char → Option σ} (hfits : f.Fits)
    (hcomment : ∀ c s, step s ('%' :: c) = some s) (s : σ) : ∃ last t, IsEnd last ∧ IsEnd t ∧
      (chunks lineSize f.text).foldlM step s =
        (step s (f.size.text ++ t)).bind ((withNewlines last (f.entries.map EntryLine.text)).foldlM step) := by
  obtain ⟨last, hlast, hpieces⟩ := f.pieces_eq
  obtain ⟨t, ht, hcons⟩ := withNewlines_cons hlast f.size.text (f.entries.map EntryLine.text)
  refine ⟨last, t, hlast, ht, ?_⟩
  rw [f.chunks_text hfits, hpieces, File.lines, foldlM_comments hcomment hlast, hcons, List.foldlM_cons]
  rfl

theorem File.entry_small (hsmall : f.size.Small) : ∀ e ∈ f.entries, e.Small := fun e he =>
  ⟨(f.row_in e he).2.trans_lt hsmall.1, (f.col_in e he).2.trans_lt hsmall.2.1⟩

theorem SizeLine.noDigit_trail (l : SizeLine) {t : List Char} (ht : IsEnd t) : NoDigit (l.trail ++ t) :=
  noDigit_append (fun c hc => (l.trail_space c (List.mem_of_mem_head? hc)).1) ht

theorem SizeLine.text_append (l : SizeLine) (t : List Char) : l.text ++ t = l.textWith (l.trail ++ t) := by
  simp only [SizeLine.text, SizeLine.textWith, List.append_assoc]

theorem EntryLine.text_append (l : EntryLine) (t : List Char) : l.text ++ t = l.textWith (l.rest ++ t) := by
  simp only [EntryLine.text, EntryLine.textWith, List.append_assoc]

/-- the entries of the file as both loaders store them -/
def File.elems : List (Elem α) := elemsFrom v 0 f.entries

/-- a matrix with the entries of the file stored -/
def Loaded.withElems (coo : Loaded α) (es : List (Elem α)) : Loaded α :=
  { coo with elems := ⟨coo.elems.size, overlay coo.elems.cell 0 es⟩ }

/-- **What `get_COO_matrix_rev` makes of a file**: nothing that is defined where a number does not fit an `int`. -/
theorem getCooMatrixRev_eq [Decidable f.size.Small] (hfits : f.Fits) : getCooMatrixRev v f.text =
    if f.size.Small then some ((revHeader v f.size).withElems (f.elems v)) else none := by
  have hcomment : ∀ c s, revLine v s ('%' :: c) = some s := fun c s => rfl
  obtain ⟨last, t, hlast, ht, hfold⟩ := foldlM_file f hfits hcomment ⟨none, 0⟩
  unfold getCooMatrixRev
  rw [hfold, SizeLine.text_append]
  split_ifs with hsmall
  · rw [revLine_size v f.size (f.size.noDigit_trail ht) hsmall, Option.bind_some]
    have hstep : ∀ e ∈ f.entries, ∀ t, IsEnd t → ∀ coo (i : UInt32), revLine v ⟨some coo, i⟩ (e.text ++ t) =
        (coo.put i.toNat (e.elem v i.toNat)).map fun coo => ⟨some coo, i + 1⟩ := by
      intro e he t ht coo i
      rw [EntryLine.text_append]
      exact revLine_entry v e (noDigit_append e.rest_space ht) (f.entry_small hsmall e he) coo i
    have hnext : ∀ i : UInt32, i.toNat + 1 < 2 ^ 32 → (i + 1).toNat = i.toNat + 1 := by
      intro i hi
      rw [UInt32.toNat_add]
      exact Nat.mod_eq_of_lt hi
    have hcount : f.entries.length < 2 ^ 31 := f.announced.trans_lt hsmall.2.2
    obtain ⟨j, hj⟩ := foldlM_entries v hnext hlast hstep (revHeader v f.size) 0
      (by change 0 + f.entries.length < 2 ^ 32; omega)
    have hfill : (revHeader v f.size).fill 0 (elemsFrom v 0 f.entries) = some _ := Loaded.fill_eq (by
      rw [elemsFrom_length, Nat.zero_add, f.announced]
      exact le_rfl)
    rw [hj]
    change ((revHeader v f.size).fill 0 (elemsFrom v 0 f.entries)).map _ >>= _ = _
    rw [hfill]
    rfl
  · rw [revLine_size_none v f.size (f.size.noDigit_trail ht) hsmall]
    rfl

/-- **What `readCOOMatrix` makes of a file.** -/
theorem readCooMatrix_eq (hfits : f.Fits) (hsmall : f.size.Small) : readCooMatrix v f.text =
    some ((cooHeader v f.size).withElems (f.elems v)) := by
  have hcomment : ∀ c s, cooLine v s ('%' :: c) = some s := by
    intro c s
    have htoken : ∃ rest, strtok ' ' ([] ++ (['%'] ++ c)) = some (['%'] ++ c.takeWhile (· ≠ ' '), rest) :=
      strtok_last (fun _ h => absurd h List.not_mem_nil) (List.cons_ne_nil _ _) (by decide) c
    obtain ⟨rest, hrest⟩ := htoken
    unfold cooLine
    rw [show '%' :: c = [] ++ (['%'] ++ c) from rfl, hrest]
    rfl
  obtain ⟨last, t, hlast, ht, hfold⟩ := foldlM_file f hfits hcomment ⟨none, 0⟩
  unfold readCooMatrix
  rw [hfold, SizeLine.text_append, cooLine_size v f.size (f.size.noDigit_trail ht) hsmall, Option.bind_some]
  have hstep : ∀ e ∈ f.entries, ∀ t, IsEnd t → ∀ coo (i : UInt64), cooLine v ⟨some coo, i⟩ (e.text ++ t) =
      (coo.put i.toNat (e.elem v i.toNat)).map fun coo => ⟨some coo, i + 1⟩ := by
    intro e he t ht coo i
    rw [EntryLine.text_append]
    exact cooLine_entry v e (noDigit_append e.rest_space ht) (f.entry_small hsmall e he) coo i
  have hnext : ∀ i : UInt64, i.toNat + 1 < 2 ^ 64 → (i + 1).toNat = i.toNat + 1 := by
    intro i hi
    rw [UInt64.toNat_add]
    exact Nat.mod_eq_of_lt hi
  have hcount : f.entries.length < 2 ^ 31 := f.announced.trans_lt hsmall.2.2
  obtain ⟨j, hj⟩ := foldlM_entries v hnext hlast hstep (cooHeader v f.size) 0
    (by change 0 + f.entries.length < 2 ^ 64; omega)
  have hfill : (cooHeader v f.size).fill 0 (elemsFrom v 0 f.entries) = some _ := Loaded.fill_eq (by
    rw [elemsFrom_length, Nat.zero_add, f.announced]
    exact Nat.le_add_right _ _)
  rw [hj]
  change ((cooHeader v f.size).fill 0 (elemsFrom v 0 f.entries)).map _ >>= _ = _
  rw [hfill]
  rfl

/-! ## Results -/

/-- both loaders return a matrix, with the same numbers of rows and columns and the same entries, all inside -/
def Agree (x y : Option (Loaded α)) : Prop :=
  ∃ a b, x = some a ∧ y = some b ∧ a.nrRows = b.nrRows ∧ a.nrCols = b.nrCols ∧ a.triples = b.triples ∧
    ∀ t ∈ a.triples, t.1 < a.nrRows.toNat ∧ t.2.1 < a.nrCols.toNat

theorem padEven_toNat {n : ℕ} (hn : n < 2 ^ 31) : (padEven (UInt32.ofNat n)).toNat = n + n % 2 := by
  have hval : (UInt32.ofNat n).toNat = n := UInt32.toNat_ofNat_of_lt' (hn.trans (by decide))
  unfold padEven
  split_ifs with hodd
  · have hone : n % 2 = 1 := by
      rw [ne_eq, ← UInt32.toNat_inj, UInt32.toNat_mod, hval] at hodd
      exact Nat.mod_two_ne_zero.mp hodd
    rw [UInt32.toNat_add, hval, hone]
    exact Nat.mod_eq_of_lt (by change n + 1 < 2 ^ 32; omega)
  · have hzero : n % 2 = 0 := by
      rw [not_not, ← UInt32.toNat_inj, UInt32.toNat_mod, hval] at hodd
      exact hodd
    rw [hval, hzero, Nat.add_zero]

/-- an index that starts from 1 is in range when it starts from 0 -/
theorem pred_lt {k n : ℕ} (h1 : 1 ≤ k) (hk : k ≤ n) (hn : n < 2 ^ 31) :
    (UInt32.ofNat k - 1).toNat < (padEven (UInt32.ofNat n)).toNat := by
  have hval : (UInt32.ofNat k).toNat = k := UInt32.toNat_ofNat_of_lt' (hk.trans_lt (hn.trans (by decide)))
  have hle : (1 : UInt32) ≤ UInt32.ofNat k := by
    rw [UInt32.le_iff_toNat_le, hval]
    exact h1
  rw [padEven_toNat hn, UInt32.toNat_sub_of_le _ _ hle, hval]
  change k - 1 < n + n % 2
  omega

/-- what `get_COO_matrix_rev` returns has its entries inside -/
theorem revHeader_inside (hsmall : f.size.Small) : ∀ e ∈ f.elems v, e.row < (revHeader v f.size).nrRows.toNat ∧
    e.colIdx.toNat < (revHeader v f.size).nrCols.toNat := by
  intro x hx
  obtain ⟨e, he, k, rfl⟩ := exists_of_mem_elemsFrom v hx
  exact ⟨pred_lt (f.col_in e he).1 (f.col_in e he).2 hsmall.2.1, pred_lt (f.row_in e he).1 (f.row_in e he).2 hsmall.1⟩

end

/-- a matrix of 2 rows and 4 columns, with an entry in row 1 and column 3 -/
def wide : File where
  comments := []
  comments_line := nofun
  size := { lead := 0, rows := .single '2' rfl, gap₁ := 0, cols := .single '4' rfl, gap₂ := 0, nnz := .single '1' rfl,
            trail := [], trail_space := nofun }
  entries := [{ lead := 0, row := .single '1' rfl, gap := 0, col := .single '3' rfl, rest := [], rest_space := nofun,
                rest_line := List.not_mem_nil }]
  announced := rfl
  row_in := by decide
  col_in := by decide
  terminated := true

end PimOfis.SpMV.MatrixMarket
