/-
The texts that can be scanned.

A text can be scanned when it is made of lexemes, blanks apart, and no literal directly follows
another: digits go on as long as they can, so that `1.2` and `3.4` in a row are not read as two.
What is read off a sign depends on the token before it, and a plus sign in front of an operand
leaves no token. So a token list can be told from its spelling when every sign in it stands where it
is read as that sign, and plus signs in front of operands may be put in at will.

* `readings` : the tokens that lexemes are read as.
* `scanFrom_charsOf` : scanning lexemes gives their readings.
* `exists_lexemes_of_scan` : only lexemes can be scanned.
* `Tellable`, `Spells` : token lists that can be told from their spelling, and their spellings.
* `scan_lexicon` : which texts can be scanned, and which spellings give their tokens back.
-/
import Reckon.Proofs.Spelling

namespace Reckon.Formula

/-! ### Lexemes in a row -/

/-- The lexeme is a literal. -/
def Lexeme.isNumber : Lexeme → Bool
  | number _ => true
  | _ => false

/-- The characters of lexemes in a row. -/
def charsOf (ls : List Lexeme) : List Char :=
  ls.flatMap Lexeme.chars

/-- No literal directly follows another. -/
def Separated (ls : List Lexeme) : Prop :=
  ls.IsChain fun l k => ¬ (l.isNumber = true ∧ k.isNumber = true)

theorem charsOf_cons (l : Lexeme) (ls : List Lexeme) :
    charsOf (l :: ls) = l.chars ++ charsOf ls :=
  List.flatMap_cons

theorem charsOf_append (ls ks : List Lexeme) : charsOf (ls ++ ks) = charsOf ls ++ charsOf ks :=
  List.flatMap_append

theorem charsOf_eq_bare (ls : List Lexeme) : charsOf ls = bare (ls.map (Item.mk false)) := by
  rw [charsOf, bare, List.flatMap_map]

theorem separated_cons {l : Lexeme} {ls : List Lexeme} (hls : Separated ls)
    (hl : l.isNumber = true → ∀ k ∈ ls.head?, k.isNumber = false) : Separated (l :: ls) := by
  refine hls.cons fun k hk hboth => ?_
  rw [hl hboth.1 k hk] at hboth
  cases hboth.2

/-- A literal is a number by its first character. -/
theorem Lexeme.isNumber_of_head {l : Lexeme} {c : Char} (hc : c ∈ l.chars.head?)
    (hdigit : c.isDigit = false) : l.isNumber = false := by
  cases l with
  | number n =>
    obtain ⟨d, w, hw⟩ := List.exists_cons_of_ne_nil n.whole_ne_nil
    have hd : d.isDigit = true := n.isDigit_of_mem d (by simp [hw])
    rw [chars, Literal.chars, hw] at hc
    cases hc
    rw [hd] at hdigit
    cases hdigit
  | binary _ | negate | function _ | leftParen | rightParen | comma => rfl

/-! ### Reading lexemes -/

/-- What a lexeme is read as behind the token `before`, if there is one: a plus sign in front of an
operand leaves no token, and a minus sign there changes the sign of the operand. -/
def Lexeme.reading (before : Option Token) : Lexeme → Option Token
  | binary .add => if Token.opensOperand before then none else some (.binary .add)
  | binary .sub | negate =>
    some (if Token.opensOperand before then .negate else .binary .sub)
  | l => some l.token

/-- The tokens, the latest first, that lexemes are read as behind the tokens `before`. -/
def readings (before : List Token) : List Lexeme → List Token
  | [] => before
  | l :: ls => readings ((l.reading before.head?).toList ++ before) ls

/-- A lexeme that is neither a literal nor a function has one character, and is read off it. -/
theorem Lexeme.exists_markAt {l : Lexeme} (hnumber : l.isNumber = false)
    (hfunction : ∀ f, l ≠ .function f) (before : List Token) : ∃ c, l.chars = [c] ∧
      c.isDigit = false ∧ c.isAlpha = false ∧
      markAt before c = some (l.reading before.head?).toList := by
  cases l with
  | number n => cases hnumber
  | function f => exact absurd rfl (hfunction f)
  | binary op =>
    refine ⟨op.char, rfl, by cases op <;> decide, by cases op <;> decide, ?_⟩
    cases hopens : Token.opensOperand before.head? <;> cases op <;>
      simp [markAt, reading, hopens, BinaryOp.char, BinaryOp.ofChar?, token]
  | negate =>
    refine ⟨'-', rfl, rfl, rfl, ?_⟩
    cases hopens : Token.opensOperand before.head? <;>
      simp [markAt, reading, hopens, BinaryOp.ofChar?]
  | leftParen | rightParen | comma => exact ⟨_, rfl, rfl, rfl, rfl⟩

/-- Scanning lexemes in a row gives their readings. -/
theorem scanFrom_charsOf {ls : List Lexeme} (hls : Separated ls) (position : Nat)
    (before : List Token) : scanFrom position before 0 (charsOf ls) = .ok (readings before ls) := by
  induction ls generalizing position before with
  | nil => rfl
  | cons l ls ih =>
    obtain ⟨hnext, hrest⟩ := List.isChain_cons.mp hls
    rw [charsOf_cons, readings]
    by_cases hnumber : l.isNumber = true
    · cases l with
      | number n =>
        have hhead : ∀ c ∈ (charsOf ls).head?, c.isDigit = false ∧ c ≠ '.' := by
          cases ls with
          | nil => nofun
          | cons k ks =>
            have hk : k.isNumber = false := by simpa [hnumber] using hnext k rfl
            intro c hc
            rw [charsOf_cons, k.head_chars_append] at hc
            refine Lexeme.not_digit_of_mem ?_ c (List.mem_of_mem_head? hc)
            rintro n rfl
            cases hk
        rw [Lexeme.chars, scanFrom_number position before n hhead]
        exact ih hrest ..
      | binary _ | negate | function _ | leftParen | rightParen | comma => cases hnumber
    · by_cases hfunction : ∃ f, l = .function f
      · obtain ⟨f, rfl⟩ := hfunction
        rw [Lexeme.chars, charsOf_eq_bare, scanFrom_function, ← charsOf_eq_bare]
        exact ih hrest ..
      · obtain ⟨c, hc, hdigit, halpha, hmark⟩ := l.exists_markAt (by simpa using hnumber)
          (fun f hf => hfunction ⟨f, hf⟩) before
        rw [hc, List.singleton_append, scanFrom_mark position before _ hdigit halpha hmark]
        exact ih hrest ..

/-! ### Finding lexemes -/

theorem drop_length_takeWhile (p : Char → Bool) (s : List Char) :
    s.drop (s.takeWhile p).length = s.dropWhile p := by
  induction s with
  | nil => rfl
  | cons c s ih => by_cases hc : p c = true <;> simp [hc, ih]

/-- A text is its digits in front and what goes on with no digit. -/
theorem exists_spanDigits (s : List Char) : ∃ w r, Number.spanDigits s = (w, r) ∧ s = w ++ r ∧
    (∀ c ∈ w, c.isDigit = true) ∧ ∀ c ∈ r.head?, c.isDigit = false := by
  refine ⟨s.takeWhile Char.isDigit, s.dropWhile Char.isDigit, ?_, ?_, ?_, ?_⟩
  · rw [Number.spanDigits, List.span_eq_takeWhile_dropWhile]
  · exact List.takeWhile_append_dropWhile.symm
  · exact fun c hc => List.all_eq_true.mp List.all_takeWhile c hc
  · intro c hc
    have hnot := List.head?_dropWhile_not Char.isDigit s
    rw [Option.mem_def.mp hc] at hnot
    simpa using hnot

/-- A digit begins a literal, which ends where the digits end. -/
theorem exists_literal_of_isDigit {c : Char} {s : List Char} (hc : c.isDigit = true) :
    ∃ (n : Literal) (r : List Char), c :: s = n.chars ++ r ∧
      numeralAt (c :: s) = n.toNumeralText ∧ ∀ d ∈ r.head?, d.isDigit = false := by
  obtain ⟨w, r, hw, hs, hdigits, hr⟩ := exists_spanDigits (c :: s)
  have hne : w ≠ [] := by
    rintro rfl
    rw [List.nil_append] at hs
    have hfalse := hr c (by rw [← hs]; rfl)
    rw [hc] at hfalse
    cases hfalse
  have hwhole (hat : numeralAt (c :: s) = ⟨w, []⟩) : ∃ (n : Literal) (r : List Char),
      c :: s = n.chars ++ r ∧ numeralAt (c :: s) = n.toNumeralText ∧
        ∀ d ∈ r.head?, d.isDigit = false := by
    refine ⟨⟨⟨w, []⟩, hne, by simpa using hdigits⟩, r, ?_, hat, hr⟩
    simpa [Literal.chars] using hs
  by_cases hpoint : ∃ r', r = '.' :: r'
  · obtain ⟨r', rfl⟩ := hpoint
    obtain ⟨f, r, hf, hr', hfraction, hend⟩ := exists_spanDigits r'
    have hat : numeralAt (c :: s) = ⟨w, f⟩ := by
      rw [numeralAt, hw]
      show NumeralText.mk w (Number.spanDigits r').1 = _
      rw [hf]
    by_cases hnil : f = []
    · subst hnil
      exact hwhole hat
    · refine ⟨⟨⟨w, f⟩, hne, fun d hd => ?_⟩, r, ?_, hat, hend⟩
      · rcases List.mem_append.mp hd with hd | hd
        · exact hdigits d hd
        · exact hfraction d hd
      · rw [hs, hr', Literal.chars, if_neg (by simpa using hnil)]
        simp
  · refine hwhole ?_
    rw [numeralAt, hw]
    dsimp only
    split
    · next r' => exact absurd ⟨r', rfl⟩ hpoint
    · rfl

/-- Letters that are names of functions are the letters of these functions. -/
theorem eq_charsOf_of_functions? {w : List Char} {fs : List Function}
    (h : functions? w = some fs) : w = charsOf (fs.map Lexeme.function) := by
  induction w using functions?.induct generalizing fs with
  | case1 =>
    cases h
    rfl
  | case2 r ih | case3 r ih | case4 r ih =>
    rw [functions?, Option.map_eq_some_iff] at h
    obtain ⟨fs', hfs', rfl⟩ := h
    rw [List.map_cons, charsOf_cons, ← ih hfs']
    rfl
  | case5 w hnil hsqrt hcbrt hpow =>
    rw [functions?.eq_5 w hnil hsqrt hcbrt hpow] at h
    cases h

/-- A character that is a token of its own, or a plus sign, is a lexeme. -/
theorem exists_lexeme_of_markAt {before : List Token} {c : Char} {ts : List Token}
    (h : markAt before c = some ts) : ∃ l : Lexeme, l.chars = [c] ∧ l.isNumber = false := by
  unfold markAt at h
  split at h
  · exact ⟨.leftParen, rfl, rfl⟩
  · exact ⟨.rightParen, rfl, rfl⟩
  · exact ⟨.comma, rfl, rfl⟩
  · split at h
    · next hc => exact ⟨.negate, by rw [hc.1]; rfl, rfl⟩
    · split at h
      · next hc => exact ⟨.binary .add, by rw [hc.1]; rfl, rfl⟩
      · rw [Option.map_eq_some_iff] at h
        obtain ⟨op, hop, -⟩ := h
        refine ⟨.binary op, ?_, rfl⟩
        unfold BinaryOp.ofChar? at hop
        split at hop <;> cases hop <;> rfl

theorem separated_functions {fs : List Function} {ls : List Lexeme} (hls : Separated ls) :
    Separated (fs.map Lexeme.function ++ ls) := by
  induction fs with
  | nil => exact hls
  | cons f fs ih => exact separated_cons ih nofun

/-- What follows a literal is set apart from it where no digit follows. -/
theorem separated_number {n : Literal} {ls : List Lexeme} (hls : Separated ls)
    (hnext : ∀ d ∈ (charsOf ls).head?, d.isDigit = false) : Separated (.number n :: ls) := by
  refine separated_cons hls fun _ k hk => ?_
  cases ls with
  | nil => cases hk
  | cons k' ls =>
    cases hk
    obtain ⟨d, w, hw⟩ := List.exists_cons_of_ne_nil k.chars_ne_nil
    refine Lexeme.isNumber_of_head (c := d) (by rw [hw]; rfl) (hnext d ?_)
    rw [charsOf_cons, hw]
    rfl

/-- With the first character of a literal read, the others are passed over. -/
theorem drop_size_literal {n : Literal} {c : Char} {s r : List Char} (h : c :: s = n.chars ++ r) :
    s.drop (n.toNumeralText.size - 1) = r := by
  obtain ⟨e, w, hw⟩ := List.exists_cons_of_ne_nil n.chars_ne_nil
  rw [hw, List.cons_append] at h
  obtain ⟨rfl, rfl⟩ := List.cons_eq_cons.mp h
  rw [← length_chars, hw, List.length_cons, Nat.add_sub_cancel, List.drop_left]

/-- What can be scanned is made of lexemes. -/
theorem exists_lexemes_of_scanFrom {position skip : Nat} {before ts : List Token} {s : List Char}
    (h : scanFrom position before skip s = .ok ts) :
    ∃ ls, s.drop skip = charsOf ls ∧ Separated ls := by
  induction s generalizing position skip before with
  | nil => exact ⟨[], List.drop_nil, .nil⟩
  | cons c s ih =>
    cases skip with
    | succ skip => exact ih h
    | zero =>
      rw [List.drop_zero]
      rw [scanFrom] at h
      split at h
      · next hdigit =>
        obtain ⟨n, r, hs, hat, hr⟩ := exists_literal_of_isDigit (s := s) hdigit
        obtain ⟨ls, hls, hseparated⟩ := ih h
        rw [hat, drop_size_literal hs] at hls
        refine ⟨.number n :: ls, by rw [charsOf_cons, ← hls, hs]; rfl, ?_⟩
        exact separated_number hseparated (hls ▸ hr)
      · split at h
        · next halpha =>
          dsimp only at h
          rw [List.takeWhile_cons_of_pos halpha] at h
          split at h
          · next fs hfs =>
            obtain ⟨ls, hls, hseparated⟩ := ih h
            rw [List.length_cons, Nat.add_sub_cancel, drop_length_takeWhile] at hls
            refine ⟨fs.map .function ++ ls, ?_, separated_functions hseparated⟩
            rw [charsOf_append, ← eq_charsOf_of_functions? hfs, ← hls, List.cons_append,
              List.takeWhile_append_dropWhile]
          · cases h
        · split at h
          · next ts' hmark =>
            obtain ⟨ls, hls, hseparated⟩ := ih h
            obtain ⟨l, hl, hnumber⟩ := exists_lexeme_of_markAt hmark
            refine ⟨l :: ls, ?_, separated_cons hseparated ?_⟩
            · rw [charsOf_cons, hl, ← hls]
              rfl
            · intro hl
              rw [hnumber] at hl
              cases hl
          · cases h

theorem exists_lexemes_of_scan {s : List Char} {ts : List Token} (h : scan s = .ok ts) :
    ∃ ls, Text.dropBlanks s = charsOf ls ∧ Separated ls := by
  rw [scan] at h
  cases hfrom : scanFrom 0 [] 0 (Text.dropBlanks s) with
  | error fault =>
    rw [hfrom] at h
    cases h
  | ok ts' => exact exists_lexemes_of_scanFrom hfrom

/-! ### Telling tokens from their spelling -/

/-- Behind the token `before`, if there is one, the token is what its spelling is read as. -/
def Token.TellableBehind (before : Option Token) : Token → Prop
  | number _ => ∀ x, before ≠ some (number x)
  | negate => opensOperand before = true
  | binary .add | binary .sub => opensOperand before = false
  | _ => True

/-- Every token of the list is what its spelling is read as: no two numbers are next to each other,
minus signs of operands stand in front of operands, and plus and minus operators do not. -/
def Tellable : Option Token → List Token → Prop
  | _, [] => True
  | before, t :: ts => t.TellableBehind before ∧ Tellable (some t) ts

/-- The text spells the tokens one after another, a number by any literal that denotes it, with any
number of plus signs wherever an operand may begin. -/
inductive Spells : Option Token → List Token → List Char → Prop
  | nil {before : Option Token} : Spells before [] []
  | plus {before : Option Token} {ts : List Token} {s : List Char}
      (hopens : Token.opensOperand before = true) (h : Spells before ts s) :
      Spells before ts ('+' :: s)
  | token {before : Option Token} (l : Lexeme) {ts : List Token} {s : List Char}
      (h : Spells (some l.token) ts s) : Spells before (l.token :: ts) (l.chars ++ s)

theorem Lexeme.reading_of_tellable {l : Lexeme} {before : Option Token}
    (h : l.token.TellableBehind before) : l.reading before = some l.token := by
  cases l with
  | binary op =>
    cases op with
    | add | sub => simp [reading, token, show Token.opensOperand before = false from h]
    | mul | div | pow => rfl
  | negate => simp [reading, token, show Token.opensOperand before = true from h]
  | number _ | function _ | leftParen | rightParen | comma => rfl

/-- A spelling is made of lexemes that are read as the tokens. -/
theorem Spells.exists_lexemes {before : Option Token} {ts : List Token} {s : List Char}
    (h : Spells before ts s) (hts : Tellable before ts) : ∃ ls, s = charsOf ls ∧ Separated ls ∧
      (∀ l ∈ ls.head?, (∃ x, before = some (.number x)) → l.isNumber = false) ∧
      ∀ bs : List Token, bs.head? = before → readings bs ls = ts.reverse ++ bs := by
  induction h with
  | nil => exact ⟨[], rfl, .nil, nofun, fun _ _ => rfl⟩
  | @plus before ts s hopens h ih =>
    obtain ⟨ls, rfl, hls, -, hread⟩ := ih hts
    refine ⟨.binary .add :: ls, rfl, separated_cons hls nofun, ?_, fun bs hbs => ?_⟩
    · rintro l ⟨⟩ -
      rfl
    · rw [readings, hbs, Lexeme.reading, if_pos hopens]
      exact hread bs hbs
  | @token before l ts s h ih =>
    obtain ⟨ls, rfl, hls, hnext, hread⟩ := ih hts.2
    refine ⟨l :: ls, rfl, separated_cons hls fun hl k hk => hnext k hk ?_, ?_, fun bs hbs => ?_⟩
    · cases l with
      | number n => exact ⟨_, rfl⟩
      | binary _ | negate | function _ | leftParen | rightParen | comma => cases hl
    · rintro k ⟨⟩ ⟨x, hx⟩
      cases l with
      | number n => exact absurd hx (hts.1 x)
      | binary _ | negate | function _ | leftParen | rightParen | comma => rfl
    · rw [readings, hbs, Lexeme.reading_of_tellable hts.1, Option.toList_some,
        hread _ rfl, List.reverse_cons, List.append_assoc]

/-- A text can be scanned exactly when it is made of lexemes, blanks apart, and no literal directly
follows another. A spelling of tokens that can be told from it, with blanks anywhere, gives the
tokens back. -/
theorem scan_lexicon :
    (∀ s, (∃ ts, scan s = .ok ts) ↔ ∃ ls, Text.dropBlanks s = charsOf ls ∧ Separated ls) ∧
      ∀ ts s, Tellable none ts → Spells none ts (Text.dropBlanks s) → scan s = .ok ts := by
  have hscan {s : List Char} {ls : List Lexeme} (hs : Text.dropBlanks s = charsOf ls)
      (hls : Separated ls) : scan s = .ok (readings [] ls).reverse := by
    rw [scan, hs, scanFrom_charsOf hls]
    rfl
  refine ⟨fun s => ⟨?_, ?_⟩, fun ts s hts hspells => ?_⟩
  · rintro ⟨ts, hts⟩
    exact exists_lexemes_of_scan hts
  · rintro ⟨ls, hs, hls⟩
    exact ⟨_, hscan hs hls⟩
  · obtain ⟨ls, hs, hls, -, hread⟩ := hspells.exists_lexemes hts
    rw [hscan hs hls, hread [] rfl, List.append_nil, List.reverse_reverse]

/-- Signs in front of operands, blanks in a name and in a literal, and a literal with a zero at its
end. -/
theorem scan_lexicon_signedRoot : ∃ two half : Literal,
    two.chars = "2".toList ∧ half.chars = "1.50".toList ∧
      (∃ ls, Text.dropBlanks " 2*+-+sq rt+(1. 50)-".toList = charsOf ls ∧ Separated ls) ∧
      scan " 2*+-+sq rt+(1. 50)-".toList = .ok [.number two.value, .binary .mul, .negate,
        .function .sqrt, .leftParen, .number half.value, .rightParen, .binary .sub] := by
  let two : Literal := ⟨⟨['2'], []⟩, by decide, by decide⟩
  let half : Literal := ⟨⟨['1'], ['5', '0']⟩, by decide, by decide⟩
  refine ⟨two, half, rfl, rfl, ?_⟩
  have hscan := scan_lexicon.2
    (([.number two, .binary .mul, .negate, .function .sqrt, .leftParen, .number half, .rightParen,
      .binary .sub] : List Lexeme).map Lexeme.token) " 2*+-+sq rt+(1. 50)-".toList
    ⟨nofun, trivial, rfl, trivial, trivial, nofun, trivial, rfl, trivial⟩
    (.token (.number two) (.token (.binary .mul) (.plus rfl (.token .negate (.plus rfl
      (.token (.function .sqrt) (.plus rfl (.token .leftParen (.token (.number half)
        (.token .rightParen (.token (.binary .sub) .nil)))))))))))
  exact ⟨(scan_lexicon.1 _).mp ⟨_, hscan⟩, hscan⟩

/-- Lexemes in a row are not always scanned: a literal that directly follows another gives its
digits to that one, and its point is stray. -/
theorem not_scan_pointedLiterals :
    (∃ ls : List Lexeme, Text.dropBlanks "1.23.4".toList = charsOf ls) ∧
      ∀ ts, scan "1.23.4".toList ≠ .ok ts := by
  refine ⟨⟨[.number ⟨⟨['1'], ['2']⟩, by decide, by decide⟩,
    .number ⟨⟨['3'], ['4']⟩, by decide, by decide⟩], rfl⟩, fun ts hts => ?_⟩
  have hfault : (scan "1.23.4".toList).toOption.isSome = false := by decide +kernel
  rw [hts] at hfault
  cases hfault

end Reckon.Formula
