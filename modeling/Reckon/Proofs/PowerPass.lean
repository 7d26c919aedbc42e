/-
What the replacements make of a formula.

Of all replacements of the wording, only the one for scientific notation and the one for powers do
anything to a written formula. Each goes through the items from the front, keeps what it does not
look for, and writes other items in the place of what it finds.

* `passFrom_powers` : the replacement for powers makes the items of `Powers`.
* `passFrom_grouped` : the replacement for scientific notation makes the items of `Grouped`.
* `exists_powers` : the powers of any items can be replaced.
* `normalForm_spell` : the normal form of a formula has the characters of the items after both.
-/
import Reckon.Proofs.FormulaSearch

namespace Reckon

open Pattern

/-! ### Matches and searches -/

namespace Replacement

theorem matchAt_of_search_none {r : Replacement} {p : Place}
    (h : search r.pattern p some = none) : r.matchAt p = none := by
  rw [matchAt, firstMatch_eq_search, h]
  rfl

theorem matchAt_of_search {r : Replacement} {p : Place} {m : Match}
    (h : search r.pattern p some = some m) (hm : 0 < m.size) : r.matchAt p = some m := by
  rw [matchAt, firstMatch_eq_search, h]
  simp [hm]

end Replacement

namespace Formula

/-! ### Parts of literals -/

/-- From any character of a literal on, there is a literal or a point. -/
theorem Literal.cases_of_append (n : Literal) {d₁ d₂ : List Char} (h : n.chars = d₁ ++ d₂)
    (hne : d₂ ≠ []) : d₂.head? = some '.' ∨ ∃ k : Literal, k.chars = d₂ := by
  by_cases hf : n.fraction = []
  · have hchars : n.whole = d₁ ++ d₂ := by simpa [chars, hf] using h
    refine Or.inr ⟨⟨⟨d₂, []⟩, hne, fun c hc => n.isDigit_of_mem c ?_⟩, by simp [chars]⟩
    rw [List.append_nil] at hc
    simp [hchars, hc]
  · have hchars : n.whole ++ '.' :: n.fraction = d₁ ++ d₂ := by simpa [chars, hf] using h
    rcases List.append_eq_append_iff.mp hchars with ⟨w, rfl, hw⟩ | ⟨w, hw, rfl⟩
    · cases w with
      | nil =>
        rw [List.nil_append] at hw
        exact Or.inl (by rw [← hw]; rfl)
      | cons c w =>
        obtain ⟨rfl, hfraction⟩ := List.cons_eq_cons.mp hw
        refine Or.inr ⟨⟨⟨d₂, []⟩, hne, fun c hc => n.isDigit_of_mem c ?_⟩, by simp [chars]⟩
        rw [List.append_nil] at hc
        rw [hfraction]
        simp [show c ∈ d₂ from hc]
    · cases w with
      | nil => exact Or.inl rfl
      | cons c w =>
        refine Or.inr ⟨⟨⟨c :: w, n.fraction⟩, by simp, fun e he => n.isDigit_of_mem e ?_⟩,
          by simp [chars, hf]⟩
        rw [hw, List.append_assoc]
        exact List.mem_append_right _ he

theorem Placed.of_some {b b' : Token} (hb : Token.opensOperand (some b) = false)
    (hb' : Token.opensOperand (some b') = false) {ts : List Token} (h : Placed (some b) ts) :
    Placed (some b') ts := by
  cases ts with
  | nil => exact hb'
  | cons t ts => exact ⟨h.1.trans (hb.trans hb'.symm), h.2⟩

/-- Behind an exponent, a formula goes on as behind its literal. -/
theorem Placed.of_exponent {e : Exponent} {sp : Bool} {is : List Item}
    (h : Placed (some (.binary .pow)) (tokens (e.items sp ++ is))) :
    Placed (some (.number e.literal.value)) (tokens is) := by
  rw [Exponent.items] at h
  cases hsign : e.negative with
  | false =>
    rw [hsign] at h
    exact h.2
  | true =>
    rw [hsign] at h
    exact h.2.2

/-! ### Going through the items -/

section Passing

variable {r : Replacement} (hr : ∀ p : Place,
  (∀ c ∈ p.after.head?, c.isDigit = false ∧ fits c = true) → r.matchAt p = none)

include hr

/-- An item is kept when no match begins in its literal. -/
theorem passFrom_keep {i : Item} {is : List Item}
    (hi : ∀ n, i.lexeme = .number n → ∀ (k : Literal) (b : Option Char),
      r.matchAt ⟨b, k.chars ++ spell is⟩ = none) (before : Option Char) :
    ∃ b, r.passFrom before 0 (spell (i :: is)) = i.chars ++ r.passFrom b 0 (spell is) := by
  apply r.passFrom_append
  intro d₁ d₂ b hd hne
  obtain ⟨c, d, rfl⟩ := List.exists_cons_of_ne_nil hne
  -- the place is at the space or at a character of the lexeme
  have hsplit : c = ' ' ∨ ∃ d', i.lexeme.chars = d' ++ c :: d := by
    cases hsp : i.spaced with
    | false => exact Or.inr ⟨d₁, by simpa [Item.chars, space, hsp] using hd⟩
    | true =>
      have hspace : ' ' :: i.lexeme.chars = d₁ ++ c :: d := by
        simpa [Item.chars, space, hsp] using hd
      cases d₁ with
      | nil => exact Or.inl (List.cons_eq_cons.mp hspace).1.symm
      | cons e d₁ => exact Or.inr ⟨d₁, (List.cons_eq_cons.mp hspace).2⟩
  rcases hsplit with rfl | ⟨d', hd'⟩
  · refine hr _ fun e he => ?_
    cases he
    decide
  have hmem : c ∈ i.lexeme.chars := by simp [hd']
  have hfits : fits c = true := by simp [fits, Lexeme.mem_alphabet hmem]
  by_cases hnumber : ∃ n, i.lexeme = .number n
  · obtain ⟨n, hn⟩ := hnumber
    rw [hn] at hd'
    rcases n.cases_of_append hd' (by simp) with hpoint | ⟨k, hk⟩
    · cases hpoint
      refine hr _ fun e he => ?_
      cases he
      decide
    · rw [← hk]
      exact hi n hn k b
  · have hdigit := (Lexeme.not_digit_of_mem (fun n hn => hnumber ⟨n, hn⟩) c hmem).1
    refine hr _ fun e he => ?_
    cases he
    exact ⟨hdigit, hfits⟩

/-- Behind a space or none, what matches is replaced. -/
theorem passFrom_replace {d s out : List Char} (sp : Bool) (h : ∀ b, ∃ m,
      r.matchAt ⟨b, d ++ s⟩ = some m ∧ m.size = d.length ∧ r.fill m = out)
    (before : Option Char) :
    ∃ b, r.passFrom before 0 (space sp ++ (d ++ s)) =
      space sp ++ (out ++ r.passFrom b 0 s) := by
  obtain ⟨b₁, hspace⟩ := r.passFrom_append before (space sp) (d ++ s) (by
    intro d₁ d₂ b hd hne
    obtain ⟨c, d', rfl⟩ := List.exists_cons_of_ne_nil hne
    have hc : c ∈ space sp := by simp [hd]
    have hblank : c = ' ' := by
      cases sp with
      | false => cases hc
      | true => exact List.mem_singleton.mp hc
    refine hr _ fun e he => ?_
    cases he
    subst hblank
    decide)
  obtain ⟨m, hm, hsize, hfill⟩ := h b₁
  obtain ⟨b₂, hmatch⟩ := r.passFrom_of_matchAt hm hsize
  exact ⟨b₂, by rw [hspace, hmatch, hfill]⟩

end Passing

/-! ### Powers -/

/-- The exponent that the replacement for powers looks for. -/
def powerExponent : Pattern :=
  capture (Pattern.optional (text "-") ++ Wording.numeral)

/-- The replacement for powers of numerals. -/
def powerRule : Replacement where
  pattern := Wording.keptNumeral ++ blanks ++ text "^" ++ blanks ++ powerExponent
  output := [.text "pow(", .kept 0, .text ",", .kept 1, .text ")"]

theorem search_powerRule {β : Type} (p : Place) (test : Match → Option β) :
    search powerRule.pattern p test = search Wording.numeral p fun m =>
      searchPower powerExponent m.stop fun m₁ m₂ m₃ m₄ =>
        test ⟨m₄.stop, m.size + m₁.size + m₂.size + m₃.size + m₄.size,
          ⟨p.after, m.size⟩ :: m.captures ++ m₁.captures ++ m₂.captures ++ m₃.captures ++
            m₄.captures⟩ := by
  show search (Wording.keptNumeral ++ blanks ++ text "^" ++ blanks ++ powerExponent) p test = _
  rw [search_append, search_append, search_append, search_append, Wording.keptNumeral,
    search_capture]
  rfl

theorem matchAt_powerRule_of_head (p : Place)
    (hp : ∀ c ∈ p.after.head?, c.isDigit = false ∧ fits c = true) : powerRule.matchAt p = none := by
  apply Replacement.matchAt_of_search_none
  rw [search_powerRule]
  exact search_numeral_none p _ hp

/-- Where no power begins, the replacement for powers finds nothing in the literal. -/
theorem matchAt_powerRule_none {sp : Bool} {n : Literal} {is : List Item}
    (hplaced : Placed (some (.number n.value)) (tokens is))
    (h : power? (⟨sp, .number n⟩ :: is) = none) (k : Literal) (b : Option Char) :
    powerRule.matchAt ⟨b, k.chars ++ spell is⟩ = none := by
  apply Replacement.matchAt_of_search_none
  rw [search_powerRule]
  have hdecides (test : Match → Match → Match → Match → Match → Option Match) :
      Decides (fun m => searchPower powerExponent m.stop (test m)) k.chars :=
    Or.inr fun m c r hc hstop => searchPower_of_literal powerExponent k hc hstop _
  obtain ⟨b', hb'⟩ := search_numeral b k (ends_spell hplaced rfl) (hdecides _)
  rw [hb']
  exact searchPower_none readsMinus_text search_numeral_none hplaced h b' _

/-- Where a power begins, the replacement for powers finds it as a whole. -/
theorem matchAt_powerRule_some (n : Literal) (sp sp' : Bool) (e : Exponent) {s : List Char}
    (hs : Ends s) (b : Option Char) :
    ∃ m, powerRule.matchAt
        ⟨b, n.chars ++ (space sp ++ '^' :: (space sp' ++ e.chars)) ++ s⟩ = some m ∧
      m.size = (n.chars ++ (space sp ++ '^' :: (space sp' ++ e.chars))).length ∧
      powerRule.fill m = "pow(".toList ++ n.chars ++ ",".toList ++ e.chars ++ ")".toList := by
  have hends : Ends (space sp ++ '^' :: (space sp' ++ (e.chars ++ s))) := by
    intro c hc
    cases sp <;> cases hc <;> decide
  have hread (before : Option Char) (test : Match → Option Match) (htest : ∀ m, (test m).isSome) :
      ∃ b, search Wording.numeral ⟨before, e.literal.chars ++ s⟩ test =
        test ⟨⟨b, s⟩, e.literal.chars.length, []⟩ :=
    search_numeral before e.literal hs (Or.inl htest)
  have htext : n.chars ++ (space sp ++ '^' :: (space sp' ++ e.chars)) ++ s =
      n.chars ++ (space sp ++ '^' :: (space sp' ++ (e.chars ++ s))) := by
    simp
  have hfound : ∃ p, search powerRule.pattern
      ⟨b, n.chars ++ (space sp ++ '^' :: (space sp' ++ (e.chars ++ s)))⟩ some =
      some ⟨p, n.chars.length + (space sp).length + 1 + (space sp').length + e.chars.length,
        [⟨n.chars ++ (space sp ++ '^' :: (space sp' ++ (e.chars ++ s))), n.chars.length⟩,
          ⟨e.chars ++ s, e.chars.length⟩]⟩ := by
    have hdecides (test : Match → Match → Match → Match → Match → Option Match) :
        Decides (fun m => searchPower powerExponent m.stop (test m)) n.chars :=
      Or.inr fun m c r hc hstop => searchPower_of_literal powerExponent n hc hstop _
    obtain ⟨b₁, hb₁⟩ := search_numeral b n hends (hdecides _)
    rw [search_powerRule, hb₁]
    obtain ⟨p₁, p₂, p₃, p₄, hp⟩ := searchPower_some readsMinus_text search_numeral_none b₁
      sp sp' e s (fun _ _ _ _ => Option.isSome_some) hread
    exact ⟨p₄, hp⟩
  obtain ⟨p, hp⟩ := hfound
  rw [htext]
  refine ⟨_, Replacement.matchAt_of_search hp ?_, ?_, ?_⟩
  · show 0 < _ + 1 + _ + _
    omega
  · simp
    omega
  · simp [Replacement.fill, powerRule, Piece.chars, Stretch.chars]

/-! ### Scientific notation -/

/-- The exponent that the replacement for scientific notation looks for. -/
def scientificExponent : Pattern :=
  capture (Pattern.optional (one (.oneOf ['+', '-'])) ++ atLeastOne .digit)

/-- The replacement for scientific notation with a multiplication sign. -/
def scientificRule : Replacement where
  pattern := Wording.keptNumeral ++ blanks ++ text "*" ++ blanks ++ text "10" ++ blanks ++
    text "^" ++ blanks ++ scientificExponent
  output := [.text "(", .kept 0, .text " * pow(10,", .kept 1, .text "))"]

/-- A multiplication sign with blanks around it and `10` behind it. -/
def searchTimesTen {β : Type} (p : Place)
    (test : Match → Match → Match → Match → Option β) : Option β :=
  search blanks p fun m₁ => search (text "*") m₁.stop fun m₂ =>
    search blanks m₂.stop fun m₃ => search (text "10") m₃.stop fun m₄ => test m₁ m₂ m₃ m₄

theorem search_scientificRule {β : Type} (p : Place) (test : Match → Option β) :
    search scientificRule.pattern p test = search Wording.numeral p fun m =>
      searchTimesTen m.stop fun m₁ m₂ m₃ m₄ =>
        searchPower scientificExponent m₄.stop fun m₅ m₆ m₇ m₈ =>
          test ⟨m₈.stop, m.size + m₁.size + m₂.size + m₃.size + m₄.size + m₅.size + m₆.size +
              m₇.size + m₈.size,
            ⟨p.after, m.size⟩ :: m.captures ++ m₁.captures ++ m₂.captures ++ m₃.captures ++
              m₄.captures ++ m₅.captures ++ m₆.captures ++ m₇.captures ++ m₈.captures⟩ := by
  show search (Wording.keptNumeral ++ blanks ++ text "*" ++ blanks ++ text "10" ++ blanks ++
    text "^" ++ blanks ++ scientificExponent) p test = _
  rw [search_append, search_append, search_append, search_append, search_append, search_append,
    search_append, search_append, Wording.keptNumeral, search_capture]
  rfl

theorem matchAt_scientificRule_of_head (p : Place)
    (hp : ∀ c ∈ p.after.head?, c.isDigit = false ∧ fits c = true) :
    scientificRule.matchAt p = none := by
  apply Replacement.matchAt_of_search_none
  rw [search_scientificRule]
  exact search_numeral_none p _ hp

/-- A literal that begins with `10` is this number or goes on, since no digit follows a literal. -/
theorem cases_of_ten {n : Literal} {s r : List Char} (hs : Ends s)
    (h : '1' :: '0' :: r = n.chars ++ s) :
    (n.chars = ['1', '0'] ∧ r = s) ∨
      ∃ c d, n.chars = '1' :: '0' :: c :: d ∧ r = c :: (d ++ s) := by
  rcases hn : n.chars with - | ⟨c, - | ⟨c', d⟩⟩
  · exact absurd hn n.chars_ne_nil
  · rw [hn] at h
    have hzero : '0' :: r = s := (List.cons_eq_cons.mp h).2
    exact absurd (hs '0' (by simp [← hzero])).2.1 (by decide)
  · rw [hn] at h
    cases h
    cases d with
    | nil => exact .inl ⟨rfl, rfl⟩
    | cons c d => exact .inr ⟨c, d, rfl, rfl⟩

/-- Where an operand begins that is no power of `10`, no power of `10` is found. -/
theorem search_ten_none {i : Item} {is : List Item}
    (hplaced : Placed (some (.binary .mul)) (tokens (i :: is)))
    (h : (power? (i :: is)).filter (fun p => p.base.chars = ['1', '0']) = none)
    (b : Option Char) (test : Match → Match → Match → Match → Match → Option Match) :
    search (text "10") ⟨b, i.lexeme.chars ++ spell is⟩
      (fun m => searchPower scientificExponent m.stop (test m)) = none := by
  by_cases hten : "10".toList <+: i.lexeme.chars ++ spell is
  swap
  · exact search_text_of_not _ _ _ hten
  obtain ⟨r, hr⟩ := hten
  obtain ⟨sp, l⟩ := i
  have hhead : (l.chars ++ spell is).head? = some '1' := by
    rw [← hr]
    rfl
  rw [l.head_chars_append] at hhead
  cases l with
  | number n =>
    have hends : Ends (spell is) := ends_spell hplaced.2 rfl
    obtain ⟨b', hb'⟩ := search_text "10" b r fun m =>
      searchPower scientificExponent m.stop (test m)
    rw [← hr, hb']
    rcases cases_of_ten hends hr with ⟨hn, rfl⟩ | ⟨c, d, hn, rfl⟩
    · have hpower : power? (⟨sp, .number n⟩ :: is) = none := by
        rw [Option.filter_eq_none_iff] at h
        rw [Option.eq_none_iff_forall_not_mem]
        intro p hp
        obtain ⟨_, sp₁, sp₂, his⟩ := items_of_power? hp
        refine h p hp ?_
        cases his
        simp [hn]
      exact searchPower_none readsMinus_oneOf search_atLeastOne_none hplaced.2 hpower b' _
    · exact searchPower_of_literal scientificExponent n (c := c) (by simp [hn]) rfl _
  | binary _ | rightParen | comma => cases hplaced.1
  | function f => cases f <;> cases hhead
  | negate | leftParen => cases hhead

/-- Where no scientific notation begins, its replacement finds nothing in the literal. -/
theorem matchAt_scientificRule_none {sp : Bool} {n : Literal} {is : List Item}
    (hplaced : Placed (some (.number n.value)) (tokens is))
    (h : scientific? (⟨sp, .number n⟩ :: is) = none) (k : Literal) (b : Option Char) :
    scientificRule.matchAt ⟨b, k.chars ++ spell is⟩ = none := by
  apply Replacement.matchAt_of_search_none
  rw [search_scientificRule]
  have hdecides (test : Match → Match → Match → Match → Match → Option Match) :
      Decides (fun m => searchTimesTen m.stop (test m)) k.chars :=
    Or.inr fun m c r hc hstop => search_text_of_literal (w := "*") rfl (by decide) k hc hstop _
  obtain ⟨b₁, hb₁⟩ := search_numeral b k (ends_spell hplaced rfl) (hdecides _)
  rw [hb₁, searchTimesTen]
  by_cases hop : ∃ sp' is', is = ⟨sp', .binary .mul⟩ :: is'
  swap
  · exact search_operator_none (Or.inl rfl) rfl (fun sp' is' his => hop ⟨sp', is', his⟩) b₁ _
  obtain ⟨sp', is', rfl⟩ := hop
  obtain ⟨b₂, b₃, hb₃⟩ := search_blanks_text (w := "*") rfl (by decide) b₁ sp' (spell is') _
  rw [spell_cons]
  refine hb₃.trans ?_
  cases is' with
  | nil => cases (show true = false from hplaced.2)
  | cons j js =>
    have hnone : (power? (j :: js)).filter (fun p => p.base.chars = ['1', '0']) = none := by
      simpa [scientific?] using h
    obtain ⟨b₄, hb₄⟩ := search_blanks b₃ j.spaced (s := j.lexeme.chars ++ spell js)
      (fun c hc => isBlank_of_mem_alphabet (j.lexeme.mem_alphabet_head _ c hc))
      (decides_text (w := "10") rfl (by decide) _)
    rw [spell_cons]
    refine hb₄.trans ?_
    exact search_ten_none hplaced.2 hnone b₄ _

/-- Where scientific notation with a whole exponent begins, its replacement finds it as a whole. -/
theorem matchAt_scientificRule_some (n : Literal) (sp₁ sp₂ sp₃ sp₄ : Bool) (e : Exponent)
    (hwhole : e.literal.fraction = []) {s : List Char} (hs : Ends s) (b : Option Char) :
    ∃ m, scientificRule.matchAt ⟨b, n.chars ++ (space sp₁ ++ '*' :: (space sp₂ ++ '1' :: '0' ::
        (space sp₃ ++ '^' :: (space sp₄ ++ e.chars)))) ++ s⟩ = some m ∧
      m.size = (n.chars ++ (space sp₁ ++ '*' :: (space sp₂ ++ '1' :: '0' ::
        (space sp₃ ++ '^' :: (space sp₄ ++ e.chars))))).length ∧
      scientificRule.fill m =
        "(".toList ++ n.chars ++ " * pow(10,".toList ++ e.chars ++ "))".toList := by
  have hends (u : List Char) : Ends (space sp₁ ++ '*' :: u) := by
    intro c hc
    cases sp₁ <;> cases hc <;> decide
  have hchars : e.literal.chars = e.literal.whole := by simp [Literal.chars, hwhole]
  have hread (before : Option Char) (test : Match → Option Match) (htest : ∀ m, (test m).isSome) :
      ∃ b, search (atLeastOne .digit) ⟨before, e.literal.chars ++ s⟩ test =
        test ⟨⟨b, s⟩, e.literal.chars.length, []⟩ := by
    rw [hchars]
    refine search_atLeastOne before e.literal.whole_ne_nil (fun c hc => ?_) hs.isDecimalDigit
      (Or.inl htest)
    exact e.literal.isDigit_of_mem c (List.mem_append_left _ hc)
  have hdecides (test : Match → Match → Match → Match → Match → Option Match) :
      Decides (fun m => searchTimesTen m.stop (test m)) n.chars :=
    Or.inr fun m c r hc hstop => search_text_of_literal (w := "*") rfl (by decide) n hc hstop _
  have htext : n.chars ++ (space sp₁ ++ '*' :: (space sp₂ ++ '1' :: '0' ::
        (space sp₃ ++ '^' :: (space sp₄ ++ e.chars)))) ++ s =
      n.chars ++ (space sp₁ ++ '*' :: (space sp₂ ++ '1' :: '0' ::
        (space sp₃ ++ '^' :: (space sp₄ ++ (e.chars ++ s))))) := by
    simp
  rw [htext]
  have hfound : ∃ p, search scientificRule.pattern ⟨b, n.chars ++ (space sp₁ ++ '*' ::
        (space sp₂ ++ '1' :: '0' :: (space sp₃ ++ '^' :: (space sp₄ ++ (e.chars ++ s)))))⟩ some =
      some ⟨p, n.chars.length + (space sp₁).length + 1 + (space sp₂).length + 2 +
          (space sp₃).length + 1 + (space sp₄).length + e.chars.length,
        [⟨n.chars ++ (space sp₁ ++ '*' :: (space sp₂ ++ '1' :: '0' :: (space sp₃ ++ '^' ::
          (space sp₄ ++ (e.chars ++ s))))), n.chars.length⟩, ⟨e.chars ++ s, e.chars.length⟩]⟩ := by
    obtain ⟨b₁, hb₁⟩ := search_numeral b n (hends _) (hdecides _)
    rw [search_scientificRule, hb₁, searchTimesTen]
    obtain ⟨b₂, b₃, hb₃⟩ := search_blanks_text (w := "*") rfl (by decide) b₁ sp₁
      (space sp₂ ++ ("10".toList ++ (space sp₃ ++ '^' :: (space sp₄ ++ (e.chars ++ s))))) _
    obtain ⟨b₄, b₅, hb₅⟩ := search_blanks_text (w := "10") rfl (by decide) b₃ sp₂
      (space sp₃ ++ '^' :: (space sp₄ ++ (e.chars ++ s))) _
    obtain ⟨p₁, p₂, p₃, p₄, hp⟩ := searchPower_some readsMinus_oneOf search_atLeastOne_none b₅
      sp₃ sp₄ e s (fun _ _ _ _ => Option.isSome_some) hread
    exact ⟨p₄, hb₃.trans (hb₅.trans hp)⟩
  obtain ⟨p, hp⟩ := hfound
  refine ⟨_, Replacement.matchAt_of_search hp ?_, ?_, ?_⟩
  · show 0 < _ + 1 + _ + 2 + _ + 1 + _ + _
    omega
  · simp
    omega
  · simp [Replacement.fill, scientificRule, Piece.chars, Stretch.chars]

/-! ### Both passes -/

theorem spell_powerItems (p : Power) (spaced : Bool) : spell (p.items spaced) = space spaced ++
    ("pow(".toList ++ p.base.chars ++ ",".toList ++ p.exponent.chars ++ ")".toList) := by
  rw [Power.items, spell_append, spell_append, Exponent.spell_items]
  simp [spell, Item.chars, Lexeme.chars, Function.letters, space]

theorem spell_scientificItems (n : Literal) {p : Power} (hten : p.base.chars = ['1', '0'])
    (spaced : Bool) : spell (scientificItems n p spaced) = space spaced ++
      ("(".toList ++ n.chars ++ " * pow(10,".toList ++ p.exponent.chars ++ "))".toList) := by
  rw [scientificItems, spell_append, spell_append, spell_powerItems, hten]
  simp [spell, Item.chars, Lexeme.chars, BinaryOp.char, space]

/-- The replacement for powers replaces the powers of a formula. -/
theorem passFrom_powers {is is' : List Item} (h : Powers is is') {t : Option Token}
    (hplaced : Placed t (tokens is)) (before : Option Char) :
    powerRule.passFrom before 0 (spell is) = spell is' := by
  induction h generalizing t before with
  | nil => rfl
  | @keep i is is' hi h ih =>
    have hnumber : ∀ n, i.lexeme = .number n → ∀ (k : Literal) (b : Option Char),
        powerRule.matchAt ⟨b, k.chars ++ spell is⟩ = none := by
      intro n hn
      obtain ⟨sp, l⟩ := i
      cases hn
      exact matchAt_powerRule_none hplaced.2 hi
    obtain ⟨b, hb⟩ := passFrom_keep matchAt_powerRule_of_head hnumber before
    rw [hb, ih hplaced.2, spell_cons, Item.chars, List.append_assoc]
  | @power i is is' p hp h ih =>
    obtain ⟨sp, sp₁, sp₂, his⟩ := items_of_power? hp
    cases his
    have hrest : Placed (some (.number p.exponent.literal.value)) (tokens p.rest) :=
      Placed.of_exponent hplaced.2.2
    have hspell : spell (⟨sp, .number p.base⟩ :: ⟨sp₁, .binary .pow⟩ ::
          (p.exponent.items sp₂ ++ p.rest)) = space sp ++
        (p.base.chars ++ (space sp₁ ++ '^' :: (space sp₂ ++ p.exponent.chars)) ++
          spell p.rest) := by
      rw [spell_cons, spell_cons, spell_append, Exponent.spell_items]
      simp [Lexeme.chars, BinaryOp.char]
    obtain ⟨b, hb⟩ := passFrom_replace matchAt_powerRule_of_head sp
      (matchAt_powerRule_some p.base sp₁ sp₂ p.exponent (ends_spell hrest rfl)) before
    rw [hspell, hb, ih hrest, spell_append, spell_powerItems]
    exact (List.append_assoc ..).symm

/-- The replacement for scientific notation replaces it in a formula. -/
theorem passFrom_grouped {lead : Bool} {is is' : List Item} (h : Grouped lead is is')
    {t : Option Token} (hplaced : Placed t (tokens is)) (before : Option Char) :
    scientificRule.passFrom before 0 (spell is) = spell is' := by
  induction h generalizing t before with
  | nil => rfl
  | @keep lead i is is' hi h ih =>
    have hnumber : ∀ n, i.lexeme = .number n → ∀ (k : Literal) (b : Option Char),
        scientificRule.matchAt ⟨b, k.chars ++ spell is⟩ = none := by
      intro n hn
      obtain ⟨sp, l⟩ := i
      cases hn
      exact matchAt_scientificRule_none hplaced.2 hi
    obtain ⟨b, hb⟩ := passFrom_keep matchAt_scientificRule_of_head hnumber before
    rw [hb, ih hplaced.2, spell_cons, Item.chars, List.append_assoc]
  | @group i is is' n p hs hwhole h ih =>
    obtain ⟨hten, sp, sp₁, sp₂, sp₃, sp₄, his⟩ := items_of_scientific? hs
    cases his
    have hrest : Placed (some (.number p.exponent.literal.value)) (tokens p.rest) :=
      Placed.of_exponent hplaced.2.2.2.2
    have hspell : spell (⟨sp, .number n⟩ :: ⟨sp₁, .binary .mul⟩ :: ⟨sp₂, .number p.base⟩ ::
          ⟨sp₃, .binary .pow⟩ :: (p.exponent.items sp₄ ++ p.rest)) = space sp ++
        (n.chars ++ (space sp₁ ++ '*' :: (space sp₂ ++ '1' :: '0' ::
          (space sp₃ ++ '^' :: (space sp₄ ++ p.exponent.chars)))) ++ spell p.rest) := by
      rw [spell_cons, spell_cons, spell_cons, spell_cons, spell_append, Exponent.spell_items]
      simp [Lexeme.chars, BinaryOp.char, hten]
    obtain ⟨b, hb⟩ := passFrom_replace matchAt_scientificRule_of_head sp
      (matchAt_scientificRule_some n sp₁ sp₂ sp₃ sp₄ p.exponent hwhole (ends_spell hrest rfl))
      before
    rw [hspell, hb, ih hrest, spell_append, spell_scientificItems n hten]
    exact (List.append_assoc ..).symm

/-- The powers of any items can be replaced. -/
theorem exists_powers (is : List Item) : ∃ is', Powers is is' := by
  induction hlen : is.length using Nat.strong_induction_on generalizing is with
  | _ k ih =>
    cases is with
    | nil => exact ⟨[], .nil⟩
    | cons i is =>
      cases hp : power? (i :: is) with
      | none =>
        obtain ⟨is', h⟩ := ih is.length (by simp [← hlen]) is rfl
        exact ⟨_, .keep hp h⟩
      | some p =>
        have hshort : p.rest.length < k := by
          obtain ⟨sp, sp₁, sp₂, his⟩ := items_of_power? hp
          rw [← hlen, his]
          simp
          omega
        obtain ⟨is', h⟩ := ih p.rest.length hshort p.rest rfl
        exact ⟨_, .power hp h⟩

/-! ### The other replacements -/

/-- The replacements before the one for scientific notation. -/
def rulesBefore : List Replacement :=
  Wording.symbols ++ Wording.operatorWords ++ Wording.fillers ++ Wording.meanings.take 5

/-- The replacement of scientific notation with `e`. -/
def exponentRule : Replacement where
  pattern := Wording.keptNumeral ++ Pattern.optional (one .blank) ++ text "e" ++
    capture Wording.signedDigits ++ boundary
  output := [.text "(", .kept 0, .text " * pow(10,", .kept 1, .text "))"]

theorem rules_eq : Wording.rules =
    rulesBefore ++ [scientificRule, exponentRule, powerRule] ++ Wording.meanings.drop 8 := rfl

theorem misfits_rules : ∀ r ∈ rulesBefore ++ exponentRule :: Wording.meanings.drop 8,
    r.pattern.misfits fits joins = true := by
  decide

/-- A call of the function for powers stands where a literal can stand. -/
theorem placed_powerItems {t : Option Token} {p : Power} {sp : Bool} {is : List Item}
    (ht : Token.opensOperand t = true) (h : Placed (some .rightParen) (tokens is)) :
    Placed t (tokens (p.items sp ++ is)) := by
  refine ⟨ht.symm, rfl, rfl, rfl, ?_⟩
  rw [Exponent.items]
  cases p.exponent.negative with
  | false => exact ⟨rfl, rfl, h⟩
  | true => exact ⟨rfl, rfl, rfl, h⟩

theorem placed_scientificItems {t : Option Token} {n : Literal} {p : Power} {sp : Bool}
    {is : List Item} (ht : Token.opensOperand t = true)
    (h : Placed (some .rightParen) (tokens is)) :
    Placed t (tokens (scientificItems n p sp ++ is)) := by
  have hitems : scientificItems n p sp ++ is = ⟨sp, .leftParen⟩ :: ⟨false, .number n⟩ ::
      ⟨true, .binary .mul⟩ :: (p.items true ++ ⟨false, .rightParen⟩ :: is) := by
    simp [scientificItems]
  rw [hitems]
  exact ⟨ht.symm, rfl, rfl, placed_powerItems rfl ⟨rfl, h⟩⟩

theorem Powers.placed {is is' : List Item} (h : Powers is is') {t : Option Token}
    (hplaced : Placed t (tokens is)) : Placed t (tokens is') := by
  induction h generalizing t with
  | nil => exact hplaced
  | keep hi h ih => exact ⟨hplaced.1, ih hplaced.2⟩
  | @power i is is' p hp h ih =>
    obtain ⟨sp, sp₁, sp₂, his⟩ := items_of_power? hp
    cases his
    refine placed_powerItems hplaced.1.symm ?_
    exact Placed.of_some rfl rfl (ih (Placed.of_exponent hplaced.2.2))

theorem Grouped.placed {lead : Bool} {is is' : List Item} (h : Grouped lead is is')
    {t : Option Token} (hplaced : Placed t (tokens is)) : Placed t (tokens is') := by
  induction h generalizing t with
  | nil => exact hplaced
  | keep hi h ih => exact ⟨hplaced.1, ih hplaced.2⟩
  | @group i is is' n p hs hwhole h ih =>
    obtain ⟨-, sp, sp₁, sp₂, sp₃, sp₄, his⟩ := items_of_scientific? hs
    cases his
    refine placed_scientificItems hplaced.1.symm ?_
    exact Placed.of_some rfl rfl (ih (Placed.of_exponent hplaced.2.2.2.2))

/-- The normal form of a formula is written with the items after both replacements. -/
theorem normalForm_spell {i : Item} {is is₁ is₂ : List Item} (hi : i.spaced = false)
    (hplaced : Placed none (tokens (i :: is))) (hgrouped : Grouped true (i :: is) is₁)
    (hpowers : Powers is₁ is₂) :
    Wording.normalForm (spell (i :: is)) = Text.collapse (spell is₂) := by
  have hplaced₁ := hgrouped.placed hplaced
  have hplaced₂ := hpowers.placed hplaced₁
  have hbefore {s : List Char} (hs : Pattern.Fits fits joins s) :
      rulesBefore.foldl (fun t r => r.apply t) s = s :=
    Replacement.foldl_apply_of_misfits (fun r hr => misfits_rules r (List.mem_append_left _ hr)) hs
  have hbehind {s : List Char} (hs : Pattern.Fits fits joins s) :
      (Wording.meanings.drop 8).foldl (fun t r => r.apply t) s = s :=
    Replacement.foldl_apply_of_misfits (fun r hr => misfits_rules r
      (List.mem_append_right _ (List.mem_cons_of_mem _ hr))) hs
  have hexponent : exponentRule.apply (spell is₁) = spell is₁ :=
    exponentRule.apply_of_misfits (misfits_rules _ (List.mem_append_right _ (by simp)))
      (fits_spell hplaced₁)
  have hscientific : scientificRule.apply (spell (i :: is)) = spell is₁ :=
    passFrom_grouped hgrouped hplaced none
  have hpower : powerRule.apply (spell is₁) = spell is₂ := passFrom_powers hpowers hplaced₁ none
  rw [Wording.normalForm, lower_spell, collapse_spell is hi, Wording.reworded, rules_eq,
    List.foldl_append, List.foldl_append, hbefore (fits_spell hplaced)]
  show Text.collapse ((Wording.meanings.drop 8).foldl (fun t r => r.apply t)
    (powerRule.apply (exponentRule.apply (scientificRule.apply (spell (i :: is)))))) = _
  rw [hscientific, hexponent, hpower, hbehind (fits_spell hplaced₂)]

/-- Scanning the normal form of a formula gives the tokens after both replacements. -/
theorem scan_normalForm {i : Item} {is is₁ is₂ : List Item} (hi : i.spaced = false)
    (hplaced : Placed none (tokens (i :: is))) (hgrouped : Grouped true (i :: is) is₁)
    (hpowers : Powers is₁ is₂) :
    scan (Wording.normalForm (spell (i :: is))) = .ok (tokens is₂) := by
  rw [normalForm_spell hi hplaced hgrouped hpowers, scan, Text.dropBlanks_collapse, ← scan]
  exact scan_spell (hpowers.placed (hgrouped.placed hplaced))

end Formula

end Reckon
