/-
How formulas are written.

A formula is written lexeme by lexeme, with a space in front of a lexeme or without one. A literal
is written with its digits, a minus sign in front of an operand looks like one between operands, and
what stands before it tells them apart when the text is scanned.

* `Literal`, `Lexeme`, `Item` : literals, lexemes, and lexemes with or without a space in front.
* `spell` : the text of a list of items.
* `scan_spell` : scanning a text that has been written gives its tokens back.
* `fits_spell` : which characters such a text has, and which follow each other.
* `collapse_lower_spell` : it is in lower case and collapsed form.
-/
import Mathlib.Data.List.TakeDrop
import Reckon.Formula.Scan
import Reckon.Proofs.Grammar
import Reckon.Proofs.Search
import Reckon.Proofs.Words

namespace Reckon.Formula

/-! ### Lexemes -/

/-- A decimal literal: digits, with a point and more digits behind it or without. -/
structure Literal extends NumeralText where
  whole_ne_nil : whole ≠ []
  isDigit_of_mem : ∀ c ∈ whole ++ fraction, c.isDigit = true

/-- The characters of a literal. -/
def Literal.chars (n : Literal) : List Char :=
  n.whole ++ if n.fraction.isEmpty then [] else '.' :: n.fraction

/-- What a formula is written with. -/
inductive Lexeme
  | number (n : Literal)
  | binary (op : BinaryOp)
  | negate
  | function (f : Function)
  | leftParen
  | rightParen
  | comma

/-- The character of an operator. -/
def BinaryOp.char : BinaryOp → Char
  | add => '+'
  | sub => '-'
  | mul => '*'
  | div => '/'
  | pow => '^'

/-- The letters of a function. -/
def Function.letters : Function → List Char
  | sqrt => ['s', 'q', 'r', 't']
  | cbrt => ['c', 'b', 'r', 't']
  | pow => ['p', 'o', 'w']

namespace Lexeme

/-- The token of a lexeme. -/
def token : Lexeme → Token
  | number n => .number n.value
  | binary op => .binary op
  | negate => .negate
  | function f => .function f
  | leftParen => .leftParen
  | rightParen => .rightParen
  | comma => .comma

/-- The characters of a lexeme. -/
def chars : Lexeme → List Char
  | number n => n.chars
  | binary op => [op.char]
  | negate => ['-']
  | function f => f.letters
  | leftParen => ['(']
  | rightParen => [')']
  | comma => [',']

end Lexeme

/-- A lexeme as it stands in a text. -/
structure Item where
  /-- A space stands in front of it. -/
  spaced : Bool
  lexeme : Lexeme

/-- A space or nothing. -/
def space (spaced : Bool) : List Char :=
  if spaced then [' '] else []

/-- The characters of a lexeme with the space in front of it. -/
def Item.chars (i : Item) : List Char :=
  space i.spaced ++ i.lexeme.chars

/-- The text of some items. -/
def spell (is : List Item) : List Char :=
  is.flatMap Item.chars

/-- The characters of some items without any space. -/
def bare (is : List Item) : List Char :=
  is.flatMap fun i => i.lexeme.chars

/-- The tokens of some items. -/
def tokens (is : List Item) : List Token :=
  is.map fun i => i.lexeme.token

/-! ### Characters of lexemes -/

theorem Literal.chars_ne_nil (n : Literal) : n.chars ≠ [] := by
  simp [chars, n.whole_ne_nil]

theorem Lexeme.chars_ne_nil (l : Lexeme) : l.chars ≠ [] := by
  cases l with
  | number n => exact n.chars_ne_nil
  | function f => cases f <;> simp [chars, Function.letters]
  | binary _ | negate | leftParen | rightParen | comma => simp [chars]

/-- Only literals have digits and points. -/
theorem Lexeme.not_digit_of_mem {l : Lexeme} (h : ∀ n, l ≠ .number n) :
    ∀ c ∈ l.chars, c.isDigit = false ∧ c ≠ '.' := by
  cases l with
  | number n => exact absurd rfl (h n)
  | binary op => cases op <;> simp [chars, BinaryOp.char]
  | function f => cases f <;> simp [chars, Function.letters]
  | negate | leftParen | rightParen | comma => simp [chars]

theorem Lexeme.head_chars_append (l : Lexeme) (s : List Char) :
    (l.chars ++ s).head? = l.chars.head? :=
  List.head?_append_of_ne_nil _ l.chars_ne_nil

theorem mem_of_isDigit {c : Char} (h : c.isDigit = true) :
    c ∈ ['0', '1', '2', '3', '4', '5', '6', '7', '8', '9'] := by
  simp only [Char.isDigit, Bool.and_eq_true, decide_eq_true_eq] at h
  have hlow : 48 ≤ c.toNat := UInt32.le_iff_toNat_le.mp h.1
  have hhigh : c.toNat ≤ 57 := UInt32.le_iff_toNat_le.mp h.2
  rw [← Char.ofNat_toNat c]
  generalize c.toNat = n at hlow hhigh
  have hall : ∀ n, 48 ≤ n → n ≤ 57 →
      Char.ofNat n ∈ ['0', '1', '2', '3', '4', '5', '6', '7', '8', '9'] := by
    decide
  exact hall n hlow hhigh

/-- The characters that formulas are written with, but the space. -/
def alphabet : List Char :=
  ['0', '1', '2', '3', '4', '5', '6', '7', '8', '9', '.', '+', '-', '*', '/', '^', '(', ')', ',',
    's', 'q', 'r', 't', 'c', 'b', 'p', 'o', 'w']

/-- The character can stand in a formula. -/
def fits (c : Char) : Bool :=
  alphabet.contains c || c == ' '

/-- The characters can stand next to each other: there are no two asterisks in a row, and no name
goes on with `r` behind `o`. -/
def joins (c d : Char) : Bool :=
  !(c == '*' && d == '*') && !(c == 'o' && d == 'r')

theorem mem_alphabet_of_isDigit {c : Char} (h : c.isDigit = true) : c ∈ alphabet := by
  have hall : ∀ d ∈ ['0', '1', '2', '3', '4', '5', '6', '7', '8', '9'], d ∈ alphabet := by decide
  exact hall c (mem_of_isDigit h)

theorem Literal.mem_chars {n : Literal} {c : Char} (hc : c ∈ n.chars) :
    c.isDigit = true ∨ c = '.' := by
  rw [chars, List.mem_append] at hc
  rcases hc with hc | hc
  · exact Or.inl (n.isDigit_of_mem c (List.mem_append_left _ hc))
  · split at hc
    · cases hc
    · rcases List.mem_cons.mp hc with rfl | hc
      · exact Or.inr rfl
      · exact Or.inl (n.isDigit_of_mem c (List.mem_append_right _ hc))

theorem Lexeme.mem_alphabet {l : Lexeme} {c : Char} (hc : c ∈ l.chars) : c ∈ alphabet := by
  cases l with
  | number n =>
    rcases n.mem_chars hc with hdigit | rfl
    · exact mem_alphabet_of_isDigit hdigit
    · decide
  | binary op =>
    rw [chars, List.mem_singleton] at hc
    subst hc
    cases op <;> decide
  | function f =>
    have hall : ∀ d ∈ f.letters, d ∈ alphabet := by cases f <;> decide
    exact hall c hc
  | negate | leftParen | rightParen | comma =>
    rw [chars, List.mem_singleton] at hc
    subst hc
    decide

theorem isBlank_of_mem_alphabet {c : Char} (h : c ∈ alphabet) : Text.isBlank c = false := by
  have hall : ∀ d ∈ alphabet, Text.isBlank d = false := by decide
  exact hall c h

theorem isBlank_of_isDigit {c : Char} (h : c.isDigit = true) : Text.isBlank c = false :=
  isBlank_of_mem_alphabet (mem_alphabet_of_isDigit h)

theorem Lexeme.isWord_chars (l : Lexeme) : Text.IsWord l.chars :=
  ⟨l.chars_ne_nil, fun _ hc => isBlank_of_mem_alphabet (Lexeme.mem_alphabet hc)⟩

/-! ### Lower case and single spaces -/

theorem mem_spell {is : List Item} {c : Char} (hc : c ∈ spell is) : c ∈ alphabet ∨ c = ' ' := by
  rw [spell, List.mem_flatMap] at hc
  obtain ⟨i, -, hc⟩ := hc
  rw [Item.chars, List.mem_append] at hc
  rcases hc with hc | hc
  · rw [space] at hc
    split at hc
    · exact Or.inr (List.mem_singleton.mp hc)
    · cases hc
  · exact Or.inl (Lexeme.mem_alphabet hc)

/-- A formula is written in lower case. -/
theorem lower_spell (is : List Item) : Text.lower (spell is) = spell is := by
  have hall : ∀ c ∈ ' ' :: alphabet, c.toNat < 128 ∧ c.toLower = c := by decide
  have hmem : ∀ c ∈ spell is, c.toNat < 128 ∧ c.toLower = c := by
    intro c hc
    apply hall
    rcases mem_spell hc with h | h
    · exact List.mem_cons_of_mem _ h
    · simp [h]
  rw [Text.lower_of_ascii _ fun c hc => (hmem c hc).1]
  exact (List.map_congr_left fun c hc => (hmem c hc).2).trans (List.map_id _)

theorem spell_cons (i : Item) (is : List Item) :
    spell (i :: is) = space i.spaced ++ (i.lexeme.chars ++ spell is) := by
  rw [spell, List.flatMap_cons, Item.chars, List.append_assoc]
  rfl

/-- A formula that does not begin with a space is written with single spaces. -/
theorem collapse_spell {i : Item} (is : List Item) (hi : i.spaced = false) :
    Text.collapse (spell (i :: is)) = spell (i :: is) := by
  apply Text.Tidy.collapse_eq_self
  induction is generalizing i with
  | nil =>
    rw [spell_cons, hi]
    simpa [spell, space] using Text.tidy_of_isWord i.lexeme.isWord_chars
  | cons j js ih =>
    have hj : Text.Tidy (j.lexeme.chars ++ spell js) := by
      simpa [spell_cons, space] using ih (i := ⟨false, j.lexeme⟩) rfl
    rw [spell_cons, hi, spell_cons]
    show Text.Tidy (i.lexeme.chars ++ (space j.spaced ++ (j.lexeme.chars ++ spell js)))
    cases j.spaced with
    | true => exact hj.append_space i.lexeme.isWord_chars
    | false => exact hj.append i.lexeme.isWord_chars.2

theorem dropBlanks_spell (is : List Item) :
    Text.dropBlanks (spell is) = bare is := by
  induction is with
  | nil => rfl
  | cons i is ih =>
    have hspace : Text.dropBlanks (space i.spaced) = [] := by
      cases i.spaced <;> rfl
    rw [spell_cons, Text.dropBlanks_append, Text.dropBlanks_append, hspace,
      Text.dropBlanks_of_isWord i.lexeme.isWord_chars.2, ih, List.nil_append, bare, bare,
      List.flatMap_cons]

/-! ### Neighbouring characters -/

theorem fits_append {w s : List Char} (hs : Pattern.Fits fits joins s)
    (hw : ∀ c ∈ w, c ∈ alphabet ∧ c ≠ '*' ∧ c ≠ 'o') : Pattern.Fits fits joins (w ++ s) := by
  induction w with
  | nil => exact hs
  | cons c w ih =>
    obtain ⟨hc, hplain⟩ := hw c (by simp)
    have hrest := ih fun d hd => hw d (List.mem_cons_of_mem _ hd)
    exact hrest.cons (by simp [fits, hc]) fun d _ => by simp [joins, hplain]

theorem fits_space {s : List Char} (hs : Pattern.Fits fits joins s) :
    Pattern.Fits fits joins (' ' :: s) :=
  hs.cons (by decide) fun d _ => by simp [joins]

/-- Behind a lexeme, the text may go on in any way but one: there are no two asterisks in a
row. -/
theorem Lexeme.fits_append (l : Lexeme) {s : List Char} (hs : Pattern.Fits fits joins s)
    (hmul : l = .binary .mul → s.head? ≠ some '*') : Pattern.Fits fits joins (l.chars ++ s) := by
  have hletters : ∀ c ∈ l.chars, c ∈ alphabet := fun c hc => Lexeme.mem_alphabet hc
  cases l with
  | number n =>
    refine Formula.fits_append hs fun c hc => ⟨hletters c hc, ?_⟩
    rcases n.mem_chars hc with hdigit | rfl
    · constructor
      · rintro rfl
        exact absurd hdigit (by decide)
      · rintro rfl
        exact absurd hdigit (by decide)
    · decide
  | binary op =>
    by_cases hop : op = .mul
    · subst hop
      refine hs.cons (by decide) fun d hd => ?_
      have hd' : d ≠ '*' := by
        rintro rfl
        exact hmul rfl hd
      simp [joins, BinaryOp.char, hd']
    · have hall : ∀ c ∈ [op.char], c ∈ alphabet ∧ c ≠ '*' ∧ c ≠ 'o' := by
        cases op <;> first | decide | exact absurd rfl hop
      exact Formula.fits_append hs hall
  | function f =>
    cases f with
    | sqrt => exact Formula.fits_append hs (by decide)
    | cbrt => exact Formula.fits_append hs (by decide)
    | pow =>
      have hw : Pattern.Fits fits joins (['w'] ++ s) := Formula.fits_append hs (by decide)
      have how : Pattern.Fits fits joins ('o' :: 'w' :: s) :=
        hw.cons (by decide) fun d hd => by
          cases hd
          decide
      exact Formula.fits_append (w := ['p']) how (by decide)
  | negate => exact Formula.fits_append hs (by decide)
  | leftParen => exact Formula.fits_append hs (by decide)
  | rightParen => exact Formula.fits_append hs (by decide)
  | comma => exact Formula.fits_append hs (by decide)

/-- The first character of a lexeme that begins an operand is no asterisk. -/
theorem Lexeme.head_ne_of_beginsOperand {l : Lexeme} (h : l.token.beginsOperand = true)
    (s : List Char) : (l.chars ++ s).head? ≠ some '*' := by
  cases l with
  | number n =>
    obtain ⟨c, cs, hc⟩ := List.exists_cons_of_ne_nil n.chars_ne_nil
    have hmem : c ∈ n.chars := by simp [hc]
    simp only [chars, hc, List.cons_append, List.head?_cons, ne_eq, Option.some.injEq]
    rintro rfl
    rcases n.mem_chars hmem with hdigit | hpoint
    · exact absurd hdigit (by decide)
    · exact absurd hpoint (by decide)
  | function f => cases f <;> simp [chars, Function.letters]
  | negate | leftParen => simp [chars]
  | binary _ | rightParen | comma => cases h

/-- The same with the space in front of the lexeme. -/
theorem fits_item (i : Item) {s : List Char} (hs : Pattern.Fits fits joins s)
    (hmul : i.lexeme = .binary .mul → s.head? ≠ some '*') :
    Pattern.Fits fits joins (space i.spaced ++ (i.lexeme.chars ++ s)) := by
  have hlexeme := i.lexeme.fits_append hs hmul
  cases i.spaced with
  | true => exact fits_space hlexeme
  | false => exact hlexeme

/-- The texts of formulas have only characters of the alphabet and spaces, and no neighbours that
do not join. -/
theorem fits_spell {before : Option Token} {is : List Item} (h : Placed before (tokens is)) :
    Pattern.Fits fits joins (spell is) := by
  induction is generalizing before with
  | nil => exact ⟨by simp [spell], by simp [spell]⟩
  | cons i is ih =>
    rw [spell_cons]
    refine fits_item i (ih h.2) fun hmul => ?_
    cases is with
    | nil => simp [spell]
    | cons j js =>
      have hj : j.lexeme.token.beginsOperand = true := by
        have hplaced : j.lexeme.token.beginsOperand =
            Token.opensOperand (some i.lexeme.token) := h.2.1
        rw [hmul] at hplaced
        exact hplaced
      rw [spell_cons]
      cases hspace : j.spaced with
      | true => simp [space]
      | false => simpa [space] using Lexeme.head_ne_of_beginsOperand hj (spell js)

/-! ### Scanning -/

/-- The number of bytes of some characters. -/
def bytes (s : List Char) : Nat :=
  s.foldr (fun c n => c.utf8Size + n) 0

theorem bytes_cons (c : Char) (s : List Char) : bytes (c :: s) = c.utf8Size + bytes s := rfl

theorem bytes_append (s t : List Char) : bytes (s ++ t) = bytes s + bytes t := by
  induction s with
  | nil => exact (Nat.zero_add _).symm
  | cons c s ih => rw [List.cons_append, bytes_cons, bytes_cons, ih, Nat.add_assoc]

theorem scanFrom_skip (position : Nat) (before : List Token) (d s : List Char) :
    scanFrom position before d.length (d ++ s) = scanFrom (position + bytes d) before 0 s := by
  induction d generalizing position with
  | nil => rfl
  | cons c d ih =>
    rw [List.length_cons, List.cons_append, scanFrom, ih, bytes_cons, Nat.add_assoc]

/-- Digits in front of what is no digit. -/
theorem spanDigits_append {d s : List Char} (hd : ∀ c ∈ d, c.isDigit = true)
    (hs : ∀ c ∈ s.head?, c.isDigit = false) : Number.spanDigits (d ++ s) = (d, s) := by
  rw [Number.spanDigits, List.span_eq_takeWhile_dropWhile, List.takeWhile_append_of_pos hd,
    List.dropWhile_append_of_pos hd]
  cases s with
  | nil => simp
  | cons c s => simp [hs c rfl]

/-- A literal is the longest numeral in front of a text that does not go on with a digit or a
point. -/
theorem numeralAt_append (n : Literal) {s : List Char}
    (hs : ∀ c ∈ s.head?, c.isDigit = false ∧ c ≠ '.') :
    numeralAt (n.chars ++ s) = n.toNumeralText := by
  have hwhole : ∀ c ∈ n.whole, c.isDigit = true := fun c hc =>
    n.isDigit_of_mem c (List.mem_append_left _ hc)
  have hfraction : ∀ c ∈ n.fraction, c.isDigit = true := fun c hc =>
    n.isDigit_of_mem c (List.mem_append_right _ hc)
  rw [Literal.chars, numeralAt, List.append_assoc]
  by_cases hf : n.fraction = []
  · rw [hf, List.isEmpty_nil, if_pos rfl, List.nil_append,
      spanDigits_append hwhole fun c hc => (hs c hc).1]
    have hn : n.toNumeralText = ⟨n.whole, []⟩ := by rw [← hf]
    cases s with
    | nil => rw [hn]
    | cons c s =>
      have hc : c ≠ '.' := (hs c rfl).2
      refine Eq.trans ?_ hn.symm
      simp [hc]
  · rw [if_neg (by simpa using hf), List.cons_append,
      spanDigits_append hwhole (by simp)]
    show NumeralText.mk n.whole (Number.spanDigits (n.fraction ++ s)).1 = _
    rw [spanDigits_append hfraction fun c hc => (hs c hc).1]

theorem length_chars (n : Literal) : n.chars.length = n.size := by
  rw [Literal.chars, NumeralText.size, List.length_append]
  split <;> rfl

theorem functions?_letters (f : Function) (s : List Char) :
    functions? (f.letters ++ s) = (functions? s).map (f :: ·) := by
  cases f <;> rfl

theorem isAlpha_letters (f : Function) : ∀ c ∈ f.letters, c.isAlpha = true := by
  cases f <;> decide

/-- The first character of a lexeme that is no function is no letter. -/
theorem Lexeme.isAlpha_head {l : Lexeme} (h : ∀ f, l ≠ .function f) (s : List Char) :
    ∃ c r, l.chars ++ s = c :: r ∧ c.isAlpha = false := by
  cases l with
  | function f => exact absurd rfl (h f)
  | number n =>
    obtain ⟨c, cs, hc⟩ := List.exists_cons_of_ne_nil n.chars_ne_nil
    refine ⟨c, cs ++ s, by rw [chars, hc, List.cons_append], ?_⟩
    rcases n.mem_chars (c := c) (by simp [hc]) with hdigit | rfl
    · have hall : ∀ c ∈ ['0', '1', '2', '3', '4', '5', '6', '7', '8', '9'],
          c.isAlpha = false := by
        decide
      exact hall c (mem_of_isDigit hdigit)
    · rfl
  | binary op => exact ⟨op.char, s, rfl, by cases op <;> decide⟩
  | negate => exact ⟨'-', s, rfl, by decide⟩
  | leftParen => exact ⟨'(', s, rfl, by decide⟩
  | rightParen => exact ⟨')', s, rfl, by decide⟩
  | comma => exact ⟨',', s, rfl, by decide⟩

/-- The letters that a formula begins with are names of functions. -/
theorem functions?_takeWhile (is : List Item) :
    ∃ fs, functions? ((bare is).takeWhile Char.isAlpha) = some fs := by
  induction is with
  | nil => exact ⟨[], rfl⟩
  | cons i is ih =>
    rw [bare, List.flatMap_cons]
    by_cases hf : ∃ f, i.lexeme = .function f
    · obtain ⟨f, hf⟩ := hf
      obtain ⟨fs, hfs⟩ := ih
      refine ⟨f :: fs, ?_⟩
      rw [hf, Lexeme.chars, List.takeWhile_append_of_pos (isAlpha_letters f), functions?_letters]
      exact congrArg _ hfs
    · have hne : ∀ f, i.lexeme ≠ .function f := fun f h => hf ⟨f, h⟩
      obtain ⟨c, r, hcr, hc⟩ := Lexeme.isAlpha_head hne (bare is)
      refine ⟨[], ?_⟩
      rw [bare] at hcr
      rw [hcr, List.takeWhile_cons_of_neg (by simp [hc])]
      rfl

theorem isDigit_of_isAlpha {c : Char} (h : c.isAlpha = true) : c.isDigit = false := by
  rw [← Bool.not_eq_true]
  intro hdigit
  have hall : ∀ c ∈ ['0', '1', '2', '3', '4', '5', '6', '7', '8', '9'], c.isAlpha = false := by
    decide
  simp [hall c (mem_of_isDigit hdigit)] at h

/-- Letters that are names of functions, in front of what is no letter. -/
theorem scanFrom_letters (position : Nat) (before : List Token) {w s : List Char} (hne : w ≠ [])
    (hw : ∀ c ∈ w, c.isAlpha = true) (hs : ∀ c ∈ s.head?, c.isAlpha = false)
    {fs : List Function} (hfs : functions? w = some fs) :
    scanFrom position before 0 (w ++ s) =
      scanFrom (position + bytes w) ((fs.map Token.function).reverse ++ before) 0 s := by
  obtain ⟨c, w, rfl⟩ := List.exists_cons_of_ne_nil hne
  have hc : c.isAlpha = true := hw c (by simp)
  have htake : (c :: (w ++ s)).takeWhile Char.isAlpha = c :: w := by
    rw [← List.cons_append, List.takeWhile_append_of_pos hw]
    cases s with
    | nil => simp
    | cons d s => simp [hs d rfl]
  rw [List.cons_append, scanFrom, if_neg (by simp [isDigit_of_isAlpha hc]), if_pos hc]
  simp only [htake, hfs]
  rw [List.length_cons, Nat.add_sub_cancel, scanFrom_skip, bytes_cons, Nat.add_assoc]

/-- A function in front of a formula is scanned on its own. -/
theorem scanFrom_function (position : Nat) (before : List Token) (f : Function)
    (is : List Item) :
    scanFrom position before 0 (f.letters ++ bare is) =
      scanFrom (position + bytes f.letters) (.function f :: before) 0 (bare is) := by
  obtain ⟨fs, hfs⟩ := functions?_takeWhile is
  have hsplit : bare is = (bare is).takeWhile Char.isAlpha ++ (bare is).dropWhile Char.isAlpha :=
    List.takeWhile_append_dropWhile.symm
  have hletters : ∀ c ∈ (bare is).takeWhile Char.isAlpha, c.isAlpha = true := fun c hc =>
    List.all_eq_true.mp List.all_takeWhile c hc
  have hrest : ∀ c ∈ ((bare is).dropWhile Char.isAlpha).head?, c.isAlpha = false := by
    intro c hc
    have hhead := List.head?_dropWhile_not Char.isAlpha (bare is)
    rw [Option.mem_def.mp hc] at hhead
    simpa using hhead
  have hf : f.letters ≠ [] := by cases f <;> simp [Function.letters]
  have hboth : functions? (f.letters ++ (bare is).takeWhile Char.isAlpha) = some (f :: fs) := by
    rw [functions?_letters, hfs]
    rfl
  -- the letters behind the function are read with it here, and on their own there
  have hleft := scanFrom_letters position before
    (w := f.letters ++ (bare is).takeWhile Char.isAlpha) (by simp [hf])
    (fun c hc => (List.mem_append.mp hc).elim (isAlpha_letters f c) (hletters c)) hrest hboth
  rw [List.append_assoc, ← hsplit] at hleft
  rw [hleft]
  by_cases hnil : (bare is).takeWhile Char.isAlpha = []
  · rw [hnil] at hfs hsplit ⊢
    cases hfs
    rw [List.append_nil]
    rw [List.nil_append] at hsplit
    rw [← hsplit]
    rfl
  · have hright := scanFrom_letters (position + bytes f.letters) (.function f :: before) hnil
      hletters hrest hfs
    rw [← hsplit] at hright
    rw [hright]
    rw [bytes_append, Nat.add_assoc, List.map_cons, List.reverse_cons, List.append_assoc]
    rfl

/-- Behind an operand, a formula goes on with no digit and no point. -/
theorem head_bare {is : List Item} {before : Token} (h : Placed (some before) (tokens is))
    (hbefore : Token.opensOperand (some before) = false) :
    ∀ c ∈ (bare is).head?, c.isDigit = false ∧ c ≠ '.' := by
  cases is with
  | nil => simp [bare]
  | cons i is =>
    have hi : i.lexeme.token.beginsOperand = false := h.1.trans hbefore
    intro c hc
    rw [bare, List.flatMap_cons] at hc
    cases hl : i.lexeme with
    | binary op =>
      rw [hl] at hc
      cases hc
      cases op <;> decide
    | rightParen | comma =>
      rw [hl] at hc
      cases hc
      decide
    | number _ | negate | function _ | leftParen =>
      simp [hl, Lexeme.token, Token.beginsOperand] at hi

/-- A literal in front of a formula is scanned on its own. -/
theorem scanFrom_number (position : Nat) (before : List Token) (n : Literal) {s : List Char}
    (hs : ∀ c ∈ s.head?, c.isDigit = false ∧ c ≠ '.') :
    scanFrom position before 0 (n.chars ++ s) =
      scanFrom (position + bytes n.chars) (.number n.value :: before) 0 s := by
  obtain ⟨c, w, hw⟩ := List.exists_cons_of_ne_nil n.whole_ne_nil
  have hc : c.isDigit = true := n.isDigit_of_mem c (by simp [hw])
  have hchars : n.chars = c :: (w ++ if n.fraction.isEmpty then [] else '.' :: n.fraction) := by
    rw [Literal.chars, hw, List.cons_append]
  have hsize : n.size - 1 = (w ++ if n.fraction.isEmpty then [] else '.' :: n.fraction).length := by
    rw [← length_chars, hchars, List.length_cons, Nat.add_sub_cancel]
  have hat := numeralAt_append n hs
  rw [hchars, List.cons_append] at hat ⊢
  rw [scanFrom, if_pos hc]
  simp only [hat]
  rw [hsize, scanFrom_skip, bytes_cons, Nat.add_assoc]

/-- A mark or an operator in front of a formula is scanned on its own. -/
theorem scanFrom_mark (position : Nat) (before : List Token) {c : Char} (s : List Char)
    {u : List Token} (hdigit : c.isDigit = false) (halpha : c.isAlpha = false)
    (hmark : markAt before c = some u) :
    scanFrom position before 0 (c :: s) = scanFrom (position + c.utf8Size) (u ++ before) 0 s := by
  rw [scanFrom, if_neg (by simp [hdigit]), if_neg (by simp [halpha])]
  simp only [hmark]

/-- Scanning the characters of items gives their tokens back. -/
theorem scanFrom_bare {is : List Item} (position : Nat) (before : List Token)
    (h : Placed before.head? (tokens is)) :
    scanFrom position before 0 (bare is) = .ok ((tokens is).reverse ++ before) := by
  induction is generalizing position before with
  | nil => rfl
  | cons i is ih =>
    have hdue : i.lexeme.token.beginsOperand = Token.opensOperand before.head? := h.1
    have hrest (p : Nat) : scanFrom p (i.lexeme.token :: before) 0 (bare is) =
        .ok ((tokens (i :: is)).reverse ++ before) := by
      rw [ih p (i.lexeme.token :: before) h.2, tokens, tokens, List.map_cons,
        List.reverse_cons, List.append_assoc]
      rfl
    have hbare : bare (i :: is) = i.lexeme.chars ++ bare is := List.flatMap_cons ..
    rw [hbare]
    cases hl : i.lexeme with
    | number n =>
      have hnext : Placed (some i.lexeme.token) (tokens is) := h.2
      rw [hl] at hrest hnext
      have hhead := head_bare hnext rfl
      rw [Lexeme.chars, scanFrom_number position before n hhead]
      exact hrest _
    | function f =>
      rw [hl] at hrest
      rw [Lexeme.chars, scanFrom_function]
      exact hrest _
    | binary op =>
      rw [hl] at hrest hdue
      have hclosed : Token.opensOperand before.head? = false := hdue.symm
      rw [Lexeme.chars, List.singleton_append, scanFrom_mark position before (u := [.binary op])]
      · exact hrest _
      · cases op <;> decide
      · cases op <;> decide
      · cases op <;> simp [markAt, BinaryOp.char, hclosed, BinaryOp.ofChar?]
    | negate =>
      rw [hl] at hrest hdue
      have hopen : Token.opensOperand before.head? = true := hdue.symm
      rw [Lexeme.chars, List.singleton_append, scanFrom_mark position before (u := [.negate])]
      · exact hrest _
      · decide
      · decide
      · simp [markAt, hopen]
    | leftParen | rightParen | comma =>
      rw [hl] at hrest
      rw [Lexeme.chars, List.singleton_append, scanFrom_mark position before _ rfl rfl rfl]
      exact hrest _

/-- Scanning a formula that has been written gives its tokens back. -/
theorem scan_spell {is : List Item} (h : Placed none (tokens is)) :
    scan (spell is) = .ok (tokens is) := by
  have hbare := scanFrom_bare 0 [] h
  rw [List.append_nil] at hbare
  rw [scan, dropBlanks_spell, hbare]
  simp [Except.map]

end Reckon.Formula
