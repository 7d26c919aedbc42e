/-
Looking for powers in written formulas.

The patterns of the replacements for powers and for scientific notation are searched part by part:
literals, blanks, operators and exponents. Each part is found where the items say so and nowhere
else.

* `search_numeral` : a literal is found as a whole.
* `search_blanks_text` : blanks and given characters behind them.
* `search_exponent`, `search_exponent_none` : exponents, and places without one.
* `search_operator_none` : places without the operator that is looked for.
-/
import Reckon.Proofs.PowerForms

namespace Reckon.Formula

open Pattern

variable {β : Type}

/-! ### Literals -/

theorem isDecimalDigit_of_fits {c : Char} (h : fits c = true) (hc : c.isDigit = false) :
    Text.isDecimalDigit c = false := by
  have hall : ∀ d ∈ ' ' :: alphabet, d.isDigit = false → Text.isDecimalDigit d = false := by
    decide
  apply hall c _ hc
  simpa [fits, or_comm] using h

/-- The text goes on with no digit and no point, and is made of characters of formulas. -/
def Ends (s : List Char) : Prop :=
  ∀ c ∈ s.head?, fits c = true ∧ c.isDigit = false ∧ c ≠ '.'

theorem Ends.isDecimalDigit {s : List Char} (h : Ends s) :
    ∀ c ∈ s.head?, CharClass.digit.holds c = false :=
  fun c hc => isDecimalDigit_of_fits (h c hc).1 (h c hc).2.1

theorem Ends.not_point {s : List Char} (h : Ends s) : ¬ ".".toList <+: s := by
  rintro ⟨r, rfl⟩
  exact (h '.' rfl).2.2 rfl

/-- Digits, of which there is at least one, in front of what is no digit. -/
theorem search_atLeastOne (before : Option Char) {d s : List Char} (hne : d ≠ [])
    (hd : ∀ c ∈ d, c.isDigit = true) (hs : ∀ c ∈ s.head?, CharClass.digit.holds c = false)
    {test : Match → Option β} (htest : Decides test d) :
    ∃ b, search (atLeastOne .digit) ⟨before, d ++ s⟩ test = test ⟨⟨b, s⟩, d.length, []⟩ := by
  obtain ⟨c, d, rfl⟩ := List.exists_cons_of_ne_nil hne
  have hholds : ∀ c ∈ d, CharClass.digit.holds c = true := fun c hc =>
    Text.isDecimalDigit_of_isDigit (hd c (List.mem_cons_of_mem _ hc))
  have hdecides : Decides test d := htest.mono fun c hc => List.mem_cons_of_mem _ hc
  obtain ⟨b, hb⟩ := search_many .digit hholds hs (some c) (hdecides.behind 1 [])
  have hc : CharClass.digit.holds c = true := Text.isDecimalDigit_of_isDigit (hd c (by simp))
  refine ⟨b, ?_⟩
  rw [atLeastOne, search_append, List.cons_append, search_one_of_holds hc, hb, List.length_cons,
    Nat.add_comm]
  rfl

/-- A point with digits behind it is preferred to nothing where the test decides. -/
theorem search_optional_fraction (before : Option Char) {d s : List Char} (hne : d ≠ [])
    (hd : ∀ c ∈ d, c.isDigit = true) (hs : Ends s) {test : Match → Option β}
    (htest : Decides test ('.' :: d)) :
    ∃ b, search (Pattern.optional (text "." ++ atLeastOne .digit)) ⟨before, '.' :: (d ++ s)⟩ test =
      test ⟨⟨b, s⟩, d.length + 1, []⟩ := by
  obtain ⟨b₁, hpoint⟩ := search_text "." before (d ++ s) fun m =>
    search (atLeastOne .digit) m.stop fun m' =>
      test ⟨m'.stop, m.size + m'.size, m.captures ++ m'.captures⟩
  have hdecides : Decides test d := htest.mono fun c hc => List.mem_cons_of_mem _ hc
  obtain ⟨b, hdigits⟩ := search_atLeastOne b₁ hne hd hs.isDecimalDigit (hdecides.behind 1 [])
  refine ⟨b, ?_⟩
  rw [search_optional, search_append]
  refine (congrArg (Option.or · _) (hpoint.trans hdigits)).trans ?_
  rw [Nat.add_comm]
  rcases htest with htest | htest
  · rw [Option.or_of_isSome (htest _)]
    rfl
  · rw [htest ⟨⟨before, '.' :: (d ++ s)⟩, 0, []⟩ '.' (d ++ s) (by simp) rfl, Option.or_none]
    rfl

/-- Behind some of the digits in front of a point there is no point, so a test decides with a
fraction behind them or none. -/
theorem decides_optional_fraction {test : Match → Option β} {d : List Char} (h : Decides test d)
    (hd : ∀ c ∈ d, c.isDigit = true) :
    Decides (fun m => search (Pattern.optional (text "." ++ atLeastOne .digit)) m.stop
      fun m' => test ⟨m'.stop, m.size + m'.size, m.captures ++ m'.captures⟩) d := by
  rcases h with h | h
  · left
    intro m
    beta_reduce
    rw [search_optional, Option.isSome_or, h, Bool.or_true]
  · right
    intro m c r hc hstop
    have hpoint : ¬ ".".toList <+: m.stop.after := by
      rw [hstop]
      rintro ⟨r', hr'⟩
      obtain ⟨rfl, -⟩ := List.cons_eq_cons.mp hr'
      exact absurd (hd '.' hc) (by decide)
    beta_reduce
    rw [search_optional, search_append, search_text_of_not _ _ _ hpoint, Option.none_or]
    exact h _ c r hc hstop

/-- A literal where the text does not go on with a digit or a point. -/
theorem search_numeral (before : Option Char) (n : Literal) {s : List Char} (hs : Ends s)
    {test : Match → Option β} (htest : Decides test n.chars) :
    ∃ b, search Wording.numeral ⟨before, n.chars ++ s⟩ test =
      test ⟨⟨b, s⟩, n.chars.length, []⟩ := by
  have hwhole : ∀ c ∈ n.whole, c.isDigit = true := fun c hc =>
    n.isDigit_of_mem c (List.mem_append_left _ hc)
  have hfraction : ∀ c ∈ n.fraction, c.isDigit = true := fun c hc =>
    n.isDigit_of_mem c (List.mem_append_right _ hc)
  have hdecides := decides_optional_fraction
    (htest.mono fun c hc => List.mem_append_left _ hc) hwhole
  by_cases hf : n.fraction = []
  · have hchars : n.chars = n.whole := by simp [Literal.chars, hf]
    obtain ⟨b, hb⟩ := search_atLeastOne before n.whole_ne_nil hwhole hs.isDecimalDigit hdecides
    refine ⟨b, ?_⟩
    rw [hchars, Wording.numeral, search_append, hb]
    show search (Pattern.optional _) ⟨b, s⟩ _ = _
    rw [search_optional, search_append, search_text_of_not _ _ _ hs.not_point,
      Option.none_or]
    rfl
  · have hchars : n.chars = n.whole ++ '.' :: n.fraction := by simp [Literal.chars, hf]
    have hnext : ∀ c ∈ ('.' :: (n.fraction ++ s)).head?, CharClass.digit.holds c = false := by
      simp
      decide
    obtain ⟨b₁, hb₁⟩ := search_atLeastOne before n.whole_ne_nil hwhole hnext hdecides
    have hrest : Decides test ('.' :: n.fraction) := htest.mono fun c hc => by
      rw [hchars]
      exact List.mem_append_right _ hc
    obtain ⟨b, hb⟩ := search_optional_fraction b₁ hf hfraction hs
      (hrest.behind n.whole.length [])
    refine ⟨b, ?_⟩
    rw [hchars, Wording.numeral, search_append, List.append_assoc, List.cons_append, hb₁, hb,
      List.length_append, List.length_cons]
    rfl

/-! ### Signs and blanks -/

/-- A space or nothing, in front of what is no blank, where the test refuses the place in front of
a space. -/
theorem search_blanks (before : Option Char) (spaced : Bool) {s : List Char}
    (hs : ∀ c ∈ s.head?, Text.isBlank c = false) {test : Match → Option β}
    (htest : Decides test [' ']) :
    ∃ b, search blanks ⟨before, space spaced ++ s⟩ test =
      test ⟨⟨b, s⟩, (space spaced).length, []⟩ := by
  have hspace : ∀ c ∈ space spaced, c = ' ' := by cases spaced <;> simp [space]
  apply search_many
  · intro c hc
    rw [hspace c hc]
    exact Text.isBlank_space
  · exact hs
  · exact htest.mono fun c hc => List.mem_singleton.mpr (hspace c hc)

/-- Given characters are not found in front of another character. -/
theorem search_text_of_ne {w : String} {c : Char} {r : List Char} (hw : w.toList = c :: r)
    (p : Place) (hp : ∀ d ∈ p.after.head?, d ≠ c) (test : Match → Option β) :
    search (text w) p test = none := by
  apply search_text_of_not
  rw [hw]
  rintro ⟨s, hs⟩
  exact hp c (by simp [← hs]) rfl

/-- Given characters that do not begin with a space are not found in front of one. -/
theorem decides_text {w : String} {c : Char} {r : List Char} (hw : w.toList = c :: r) (hc : c ≠ ' ')
    (test : Match → Match → Option β) :
    Decides (fun m => search (text w) m.stop (test m)) [' '] := by
  refine Or.inr fun m d r hd hstop => search_text_of_ne hw _ ?_ _
  rw [List.mem_singleton] at hd
  simp [hstop, hd, hc.symm]

/-- Blanks and given characters, in front of what is neither. -/
theorem search_blanks_text_none {w : String} {c : Char} {r : List Char} (hw : w.toList = c :: r)
    (hc : c ≠ ' ') (before : Option Char) (spaced : Bool) {s : List Char}
    (hs : ∀ d ∈ s.head?, Text.isBlank d = false ∧ d ≠ c) (test : Match → Match → Option β) :
    search blanks ⟨before, space spaced ++ s⟩ (fun m => search (text w) m.stop (test m)) =
      none := by
  obtain ⟨b, hb⟩ := search_blanks before spaced (fun d hd => (hs d hd).1) (decides_text hw hc test)
  rw [hb]
  exact search_text_of_ne hw _ (fun d hd => (hs d hd).2) _

/-- Blanks and given characters, where they are. -/
theorem search_blanks_text {w : String} {c : Char} {r : List Char} (hw : w.toList = c :: r)
    (hc : Text.isBlank c = false) (before : Option Char) (spaced : Bool) (s : List Char)
    (test : Match → Match → Option β) :
    ∃ b b', search blanks ⟨before, space spaced ++ (w.toList ++ s)⟩
        (fun m => search (text w) m.stop (test m)) =
      test ⟨⟨b, w.toList ++ s⟩, (space spaced).length, []⟩ ⟨⟨b', s⟩, w.toList.length, []⟩ := by
  have hspace : c ≠ ' ' := by
    rintro rfl
    simp [Text.isBlank_space] at hc
  obtain ⟨b, hb⟩ := search_blanks before spaced (s := w.toList ++ s) (by simp [hw, hc])
    (decides_text hw hspace test)
  obtain ⟨b', hb'⟩ := search_text w b s (test ⟨⟨b, w.toList ++ s⟩, (space spaced).length, []⟩)
  exact ⟨b, b', hb.trans hb'⟩

/-! ### Exponents -/

/-- The pattern takes a minus sign, and nothing where there is no sign. -/
structure ReadsMinus (a : Pattern) : Prop where
  minus : ∀ {β : Type} (before : Option Char) (s : List Char) (test : Match → Option β),
    ∃ b, search a ⟨before, '-' :: s⟩ test = test ⟨⟨b, s⟩, 1, []⟩
  none : ∀ {β : Type} (p : Place) (test : Match → Option β),
    (∀ c ∈ p.after.head?, c ≠ '-' ∧ c ≠ '+') → search a p test = none

/-- A literal begins with a digit. -/
theorem Literal.head_chars (n : Literal) (s : List Char) :
    ∀ c ∈ (n.chars ++ s).head?, c.isDigit = true := by
  obtain ⟨c, w, hw⟩ := List.exists_cons_of_ne_nil n.whole_ne_nil
  intro d hd
  rw [chars, hw] at hd
  cases hd
  exact n.isDigit_of_mem c (by simp [hw])

/-- A sign or none and a literal, where the literal is read as a whole. -/
theorem search_exponent {a d : Pattern} (ha : ReadsMinus a) (before : Option Char) (e : Exponent)
    {s : List Char} {test : Match → Option β} (htest : ∀ m, (test m).isSome)
    (hd : ∀ (before : Option Char) (test : Match → Option β), (∀ m, (test m).isSome) →
      ∃ b, search d ⟨before, e.literal.chars ++ s⟩ test =
        test ⟨⟨b, s⟩, e.literal.chars.length, []⟩) :
    ∃ b, search (capture (Pattern.optional a ++ d)) ⟨before, e.chars ++ s⟩ test =
      test ⟨⟨b, s⟩, e.chars.length, [⟨e.chars ++ s, e.chars.length⟩]⟩ := by
  simp only [search_capture, search_append, search_optional]
  cases hsign : e.negative with
  | false =>
    have hchars : e.chars = e.literal.chars := by simp [Exponent.chars, hsign]
    rw [hchars]
    obtain ⟨b, hb⟩ := hd before (fun m' => test ⟨m'.stop, 0 + m'.size,
      ⟨e.literal.chars ++ s, 0 + m'.size⟩ :: ([] ++ m'.captures)⟩) fun m => htest _
    refine ⟨b, ?_⟩
    rw [ha.none _ _ fun c hc => ?_, Option.none_or, hb, Nat.zero_add]
    · rfl
    · have hdigit := e.literal.head_chars s c hc
      constructor
      · rintro rfl
        exact absurd hdigit (by decide)
      · rintro rfl
        exact absurd hdigit (by decide)
  | true =>
    have hchars : e.chars = '-' :: e.literal.chars := by simp [Exponent.chars, hsign]
    rw [hchars]
    obtain ⟨b₁, hminus⟩ := ha.minus before (e.literal.chars ++ s) fun m =>
      search d m.stop fun m' => test ⟨m'.stop, m.size + m'.size,
        ⟨'-' :: e.literal.chars ++ s, m.size + m'.size⟩ :: (m.captures ++ m'.captures)⟩
    obtain ⟨b, hb⟩ := hd b₁ (fun m' => test ⟨m'.stop, 1 + m'.size,
      ⟨'-' :: e.literal.chars ++ s, 1 + m'.size⟩ :: ([] ++ m'.captures)⟩) fun m => htest _
    refine ⟨b, ?_⟩
    refine (congrArg (Option.or · _) (hminus.trans hb)).trans ?_
    rw [Option.or_of_isSome (htest _), List.length_cons, Nat.add_comm]
    rfl

/-- The first character of a lexeme is a character of the alphabet. -/
theorem Lexeme.mem_alphabet_head (l : Lexeme) (s : List Char) :
    ∀ c ∈ (l.chars ++ s).head?, c ∈ alphabet := by
  intro c hc
  rw [l.head_chars_append] at hc
  exact mem_alphabet (List.mem_of_mem_head? hc)

/-- Items that do not begin with a literal, or begin with a space, are not spelled with a digit at
the beginning. -/
theorem not_digit_head_spell {is : List Item} (h : ∀ n js, is ≠ ⟨false, .number n⟩ :: js) :
    ∀ c ∈ (spell is).head?, c.isDigit = false ∧ fits c = true := by
  intro c hc
  cases is with
  | nil => cases hc
  | cons j js =>
    obtain ⟨spaced, k⟩ := j
    cases spaced with
    | true =>
      cases hc
      decide
    | false =>
      have hk : ∀ n, k ≠ .number n := by
        rintro n rfl
        exact h n js rfl
      have hc' : c ∈ (k.chars ++ spell js).head? := hc
      have hmem := k.mem_alphabet_head _ c hc'
      rw [k.head_chars_append] at hc'
      exact ⟨(Lexeme.not_digit_of_mem hk c (List.mem_of_mem_head? hc')).1, by simp [fits, hmem]⟩

section Exponents

variable {a d : Pattern} (ha : ReadsMinus a)
  (hd : ∀ (p : Place) (test : Match → Option β),
    (∀ c ∈ p.after.head?, c.isDigit = false ∧ fits c = true) → search d p test = none)

include ha hd

/-- A sign or none and digits are not found in front of another character. -/
theorem search_exponent_of_head (p : Place) (test : Match → Option β)
    (hp : ∀ c ∈ p.after.head?, c.isDigit = false ∧ fits c = true ∧ c ≠ '-' ∧ c ≠ '+') :
    search (capture (Pattern.optional a ++ d)) p test = none := by
  simp only [search_capture, search_append, search_optional]
  rw [ha.none _ _ fun c hc => (hp c hc).2.2, Option.none_or]
  exact hd _ _ fun c hc => ⟨(hp c hc).1, (hp c hc).2.1⟩

/-- A minus sign with no literal directly behind it is no exponent. -/
theorem search_exponent_of_minus (before : Option Char) {s : List Char}
    (hs : ∀ c ∈ s.head?, c.isDigit = false ∧ fits c = true) (test : Match → Option β) :
    search (capture (Pattern.optional a ++ d)) ⟨before, '-' :: s⟩ test = none := by
  simp only [search_capture, search_append, search_optional]
  obtain ⟨b, hb⟩ := ha.minus before s fun m => search d m.stop fun m' =>
    test ⟨m'.stop, m.size + m'.size,
      ⟨'-' :: s, m.size + m'.size⟩ :: (m.captures ++ m'.captures)⟩
  refine (congrArg (Option.or · _) (hb.trans (hd _ _ hs))).trans ?_
  rw [Option.none_or]
  exact hd _ _ (by simp; decide)

/-- Where no exponent stands, a sign or none and digits are not found. -/
theorem search_exponent_none {is : List Item} (hplaced : Placed (some (.binary .pow)) (tokens is))
    (h : exponent? is = none) (before : Option Char) (test : Match → Match → Option β) :
    search blanks ⟨before, spell is⟩
      (fun m => search (capture (Pattern.optional a ++ d)) m.stop (test m)) = none := by
  have hdecides : Decides (fun m => search (capture (Pattern.optional a ++ d)) m.stop (test m))
      [' '] := by
    refine Or.inr fun m c r hc hstop => search_exponent_of_head ha hd _ _ fun e he => ?_
    rw [hstop] at he
    cases he
    rw [List.mem_singleton.mp hc]
    decide
  cases is with
  | nil => cases (show true = false from hplaced)
  | cons i is =>
    have hi : i.lexeme.token.beginsOperand = true := hplaced.1
    have hhead := i.lexeme.mem_alphabet_head (spell is)
    obtain ⟨b, hb⟩ := search_blanks before i.spaced
      (fun c hc => isBlank_of_mem_alphabet (hhead c hc)) hdecides
    rw [spell_cons, hb]
    obtain ⟨sp, l⟩ := i
    cases l with
    | number n => cases h
    | negate =>
      refine search_exponent_of_minus ha hd b (not_digit_head_spell ?_) _
      rintro n js rfl
      cases h
    | function f =>
      refine search_exponent_of_head ha hd _ _ fun c hc => ?_
      cases f <;> cases hc <;> decide
    | leftParen =>
      refine search_exponent_of_head ha hd _ _ fun c hc => ?_
      cases hc
      decide
    | binary _ | rightParen | comma => cases hi

end Exponents

theorem readsMinus_text : ReadsMinus (text "-") where
  minus before s test := search_text "-" before s test
  none _ test hp := search_text_of_ne rfl _ (fun c hc => (hp c hc).1) test

theorem readsMinus_oneOf : ReadsMinus (one (.oneOf ['+', '-'])) where
  minus _ _ _ := ⟨_, search_one_of_holds (by decide) _⟩
  none p _ hp := by
    obtain ⟨before, s⟩ := p
    apply search_one_of_not_holds
    intro c hc
    have hne := hp c hc
    simp [CharClass.holds, hne.1, hne.2]

theorem search_atLeastOne_none (p : Place) (test : Match → Option β)
    (hp : ∀ c ∈ p.after.head?, c.isDigit = false ∧ fits c = true) :
    search (atLeastOne .digit) p test = none := by
  rw [atLeastOne, search_append]
  obtain ⟨before, s⟩ := p
  exact search_one_of_not_holds (k := .digit)
    (fun c hc => isDecimalDigit_of_fits (hp c hc).2 (hp c hc).1) _

theorem search_numeral_none (p : Place) (test : Match → Option β)
    (hp : ∀ c ∈ p.after.head?, c.isDigit = false ∧ fits c = true) :
    search Wording.numeral p test = none := by
  rw [Wording.numeral, search_append]
  exact search_atLeastOne_none p _ hp

/-! ### Operators behind a literal -/

/-- Behind an operand, a formula goes on with no digit and no point. -/
theorem ends_spell {before : Token} {is : List Item} (h : Placed (some before) (tokens is))
    (hbefore : Token.opensOperand (some before) = false) : Ends (spell is) := by
  intro c hc
  have hfits : fits c = true := (fits_spell h).chars c (List.mem_of_mem_head? hc)
  cases is with
  | nil => cases hc
  | cons i is =>
    rw [spell_cons] at hc
    cases hsp : i.spaced with
    | true =>
      rw [hsp] at hc
      cases hc
      decide
    | false =>
      rw [hsp] at hc
      have hbare := head_bare h hbefore c
      rw [bare, List.flatMap_cons, i.lexeme.head_chars_append] at hbare
      have hc' : c ∈ (i.lexeme.chars ++ spell is).head? := hc
      rw [i.lexeme.head_chars_append] at hc'
      exact ⟨hfits, hbare hc'⟩

/-- An operator that the replacements look for, where it does not stand. -/
theorem search_operator_none {op : BinaryOp} (hop : op = .mul ∨ op = .pow) {w : String}
    (hw : w.toList = [op.char]) {is : List Item}
    (h : ∀ sp is', is ≠ ⟨sp, .binary op⟩ :: is') (before : Option Char)
    (test : Match → Match → Option β) :
    search blanks ⟨before, spell is⟩ (fun m => search (text w) m.stop (test m)) = none := by
  have hspace : op.char ≠ ' ' := by cases op <;> decide
  cases is with
  | nil => exact search_blanks_text_none hw hspace before false (by simp) test
  | cons i is =>
    rw [spell_cons]
    refine search_blanks_text_none hw hspace before i.spaced (fun c hc => ?_) test
    have hmem := i.lexeme.mem_alphabet_head _ c hc
    refine ⟨isBlank_of_mem_alphabet hmem, ?_⟩
    obtain ⟨sp, l⟩ := i
    have hl : l ≠ .binary op := by
      rintro rfl
      exact h sp is rfl
    have hc' : c ∈ (l.chars ++ spell is).head? := hc
    rw [l.head_chars_append] at hc'
    cases l with
    | number n =>
      have hdigit := n.head_chars [] c (by simpa [Lexeme.chars] using hc')
      rintro rfl
      rcases hop with rfl | rfl <;> exact absurd hdigit (by decide)
    | binary op' =>
      cases hc'
      rcases hop with rfl | rfl <;> cases op' <;> first | decide | exact absurd rfl hl
    | function f =>
      rcases hop with rfl | rfl <;> cases f <;> cases hc' <;> decide
    | negate | leftParen | rightParen | comma =>
      cases hc'
      rcases hop with rfl | rfl <;> decide

/-! ### Powers behind a literal -/

/-- A power operator with blanks around it and an exponent behind it. -/
def searchPower (exponent : Pattern) (p : Place)
    (test : Match → Match → Match → Match → Option β) : Option β :=
  search blanks p fun m₁ => search (text "^") m₁.stop fun m₂ =>
    search blanks m₂.stop fun m₃ => search exponent m₃.stop fun m₄ => test m₁ m₂ m₃ m₄

/-- Inside of a literal there are no given characters that begin with another one than literals
have. -/
theorem search_text_of_literal {w : String} {e : Char} {q : List Char} (hw : w.toList = e :: q)
    (he : e ≠ ' ' ∧ e.isDigit = false ∧ e ≠ '.') (n : Literal) {p : Place} {c : Char}
    {r : List Char} (hc : c ∈ n.chars) (hp : p.after = c :: r)
    (test : Match → Match → Option β) :
    search blanks p (fun m => search (text w) m.stop (test m)) = none := by
  obtain ⟨before, s⟩ := p
  cases hp
  refine search_blanks_text_none hw he.1 before false (fun d hd => ?_) _
  cases hd
  refine ⟨isBlank_of_mem_alphabet (Lexeme.mem_alphabet (l := .number n) hc), ?_⟩
  rintro rfl
  rcases n.mem_chars hc with h | h
  · exact absurd h (by simp [he.2.1])
  · exact he.2.2 h

theorem searchPower_of_literal (exponent : Pattern) (n : Literal) {p : Place} {c : Char}
    {r : List Char} (hc : c ∈ n.chars) (hp : p.after = c :: r)
    (test : Match → Match → Match → Match → Option β) : searchPower exponent p test = none :=
  search_text_of_literal (w := "^") rfl (by decide) n hc hp _

section Exponents

variable {a d : Pattern} (ha : ReadsMinus a)
  (hd : ∀ {β : Type} (p : Place) (test : Match → Option β),
    (∀ c ∈ p.after.head?, c.isDigit = false ∧ fits c = true) → search d p test = none)

include ha hd

/-- Behind a literal that is no base of a power, no power operator with an exponent is found. -/
theorem searchPower_none {sp : Bool} {n : Literal} {is : List Item}
    (hplaced : Placed (some (.number n.value)) (tokens is))
    (h : power? (⟨sp, .number n⟩ :: is) = none) (before : Option Char)
    (test : Match → Match → Match → Match → Option β) :
    searchPower (capture (Pattern.optional a ++ d)) ⟨before, spell is⟩ test = none := by
  rw [searchPower]
  by_cases hop : ∃ sp' is', is = ⟨sp', .binary .pow⟩ :: is'
  · obtain ⟨sp', is', rfl⟩ := hop
    have hnone : exponent? is' = none := by simpa [power?] using h
    obtain ⟨b, b', hb⟩ := search_blanks_text (w := "^") rfl (by decide) before sp' (spell is')
      fun m₁ m₂ => search blanks m₂.stop fun m₃ =>
        search (capture (Pattern.optional a ++ d)) m₃.stop fun m₄ => test m₁ m₂ m₃ m₄
    rw [spell_cons]
    exact hb.trans (search_exponent_none ha hd hplaced.2 hnone b' _)
  · exact search_operator_none (Or.inr rfl) rfl (fun sp' is' his => hop ⟨sp', is', his⟩) before _

/-- A power operator with an exponent that is read as a whole. -/
theorem searchPower_some (before : Option Char) (sp sp' : Bool) (e : Exponent) (s : List Char)
    {test : Match → Match → Match → Match → Option β}
    (htest : ∀ m₁ m₂ m₃ m₄, (test m₁ m₂ m₃ m₄).isSome)
    (hread : ∀ (before : Option Char) (test : Match → Option β), (∀ m, (test m).isSome) →
      ∃ b, search d ⟨before, e.literal.chars ++ s⟩ test =
        test ⟨⟨b, s⟩, e.literal.chars.length, []⟩) :
    ∃ p₁ p₂ p₃ p₄, searchPower (capture (Pattern.optional a ++ d))
        ⟨before, space sp ++ ('^' :: (space sp' ++ (e.chars ++ s)))⟩ test =
      test ⟨p₁, (space sp).length, []⟩ ⟨p₂, 1, []⟩ ⟨p₃, (space sp').length, []⟩
        ⟨p₄, e.chars.length, [⟨e.chars ++ s, e.chars.length⟩]⟩ := by
  have hhead : ∀ c ∈ (e.chars ++ s).head?, Text.isBlank c = false := by
    intro c hc
    rw [Exponent.chars, List.append_assoc] at hc
    cases hsign : e.negative with
    | false =>
      rw [hsign] at hc
      have hdigit := e.literal.head_chars s c hc
      exact isBlank_of_isDigit hdigit
    | true =>
      rw [hsign] at hc
      cases hc
      decide
  have hdecides (test : Match → Match → Option β) :
      Decides (fun m => search (capture (Pattern.optional a ++ d)) m.stop (test m)) [' '] := by
    refine Or.inr fun m c r hc hstop => search_exponent_of_head ha hd _ _ fun c' hc' => ?_
    rw [hstop] at hc'
    cases hc'
    rw [List.mem_singleton.mp hc]
    decide
  obtain ⟨b₁, b₂, hop⟩ := search_blanks_text (w := "^") rfl (by decide) before sp
    (space sp' ++ (e.chars ++ s)) fun m₁ m₂ => search blanks m₂.stop fun m₃ =>
      search (capture (Pattern.optional a ++ d)) m₃.stop fun m₄ => test m₁ m₂ m₃ m₄
  obtain ⟨b₃, hblanks⟩ := search_blanks b₂ sp' hhead (hdecides fun m₃ m₄ =>
    test ⟨⟨b₁, "^".toList ++ (space sp' ++ (e.chars ++ s))⟩, (space sp).length, []⟩
      ⟨⟨b₂, space sp' ++ (e.chars ++ s)⟩, 1, []⟩ m₃ m₄)
  obtain ⟨b₄, hexponent⟩ := search_exponent ha b₃ e (fun m => htest _ _ _ m) hread
  exact ⟨_, _, _, _, hop.trans (hblanks.trans hexponent)⟩

end Exponents

end Reckon.Formula
