/-
Runs of digits that phrases and notations leave alone.

What stands for a phrase or a notation has the digits of the numerals it was written with and those
of a few numbers that are put in. No run grows or is cut: a phrase begins where no digit stands in
front of it, two numerals are taken whole from end to end, and a constant is a word of its own. The
one exception is the sign for the constant, which is replaced also where digits follow it.

* `IsConstantRun` : the runs of the numbers that are put in.
* `isRun_of_lead`, `isRun_of_numerals`, `isRun_of_coefficient`, `isRun_of_constant` : the kinds of
  replacements.
* `isRun_of_meanings` : all of them.
-/
import Reckon.Proofs.FixedPoint
import Reckon.Proofs.PowerPass
import Reckon.Proofs.WordEnds

namespace Reckon.Wording

open Text hiding blanks
open Pattern

/-! ### The numbers that are put in -/

/-- The numbers that are put in. -/
def constants : List String :=
  ["2", "0.5", "100", "10", "3.141592653589793", "2.718281828459045"]

/-- The digits are those of a number that is put in. -/
def IsConstantRun (r : List Char) : Prop :=
  ∃ w ∈ constants, IsRun r w.toList

instance (r : List Char) : Decidable (IsConstantRun r) :=
  inferInstanceAs (Decidable (∃ w ∈ constants, _))

/-- All runs of the text are those of numbers that are put in. -/
def OnlyConstants (s : String) : Prop :=
  ∀ r ∈ runs s.toList, IsConstantRun r

instance (s : String) : Decidable (OnlyConstants s) :=
  inferInstanceAs (Decidable (∀ r ∈ runs s.toList, _))

theorem not_isRun_of_onlyConstants {r : List Char} (hr : ¬ IsConstantRun r) {s : String}
    (hs : OnlyConstants s) : ¬ IsRun r s.toList :=
  fun h => hr (hs r (mem_runs.mpr h))

/-! ### Texts for the beginnings of words -/

/-- A text for the beginning of a word is set apart by a blank. -/
theorem isRun_of_lead {r : List Char} (hr : ¬ IsConstantRun r) {lead : Pattern} {output : String}
    (hparts : (leadReplacement lead output).pattern.parts = true)
    (hwords : (leadReplacement lead output).pattern.heads CharClass.wordly = true)
    (hlast : NoDigit output.toList.getLast?) (hconstants : OnlyConstants output) {s : List Char}
    (h : IsRun r ((leadReplacement lead output).apply s)) : IsRun r s := by
  refine Replacement.apply_reflects (fun {z d t m} _ hm hnew => ?_) h
  have hd : Parts d := parts_of_takes hparts hm.takes
  have hconsumes := consumes_of_parts hparts
  have hz : NoDigit z.getLast? := (Replacement.noWord_front hconsumes hwords hm hm.mem).noDigit
  have hfill : (leadReplacement lead output).fill m = output.toList := List.append_nil _
  generalize (leadReplacement lead output).passFrom (z ++ d).getLast? 0 t = y at hnew
  rw [hfill, isRun_append (Or.inl hz), isRun_append (Or.inl hlast),
    or_iff_right (not_isRun_of_onlyConstants hr hconstants)] at hnew
  rw [hd.isRun_iff]
  exact hnew.imp_right Or.inr

/-! ### Numerals -/

/-- The texts of the pattern are two parts that are kept, with something between them. -/
def KeepsTwo (p : Pattern) : Prop :=
  ∀ x ks, p.Takes x ks → ∃ k₀ g k₁, x = k₀ ++ (g ++ k₁) ∧ ks = [k₀, k₁] ∧ Parts g

theorem keepsTwo_append {front back : Pattern} (gap : Pattern)
    (hfront : ∀ {x ks}, front.Takes x ks → Pattern.Takes (keptNumeral ++ gap) x ks)
    (hplain : gap.plain = true) (hparts : gap.parts = true) (hback : back.plain = true) :
    KeepsTwo (front ++ .capture back) := by
  rintro _ _ ⟨x, k₁, ks, ls, rfl, rfl, hx, hk₁⟩
  obtain ⟨k₀, g, ks, gs, rfl, rfl, ⟨ms, hk₀, rfl⟩, hg⟩ := hfront hx
  obtain ⟨ms', hk₁, rfl⟩ := hk₁
  rw [kept_of_plain (by decide) hk₀, kept_of_plain hplain hg, kept_of_plain hback hk₁]
  exact ⟨k₀, g, k₁, List.append_assoc .., rfl, parts_of_takes hparts hg⟩

theorem KeepsTwo.boundary {p : Pattern} (h : KeepsTwo p) : KeepsTwo (p ++ .boundary) := by
  rintro _ _ ⟨x, y, ks, ls, rfl, rfl, hx, rfl, rfl⟩
  rw [List.append_nil, List.append_nil]
  exact h x ks hx

/-- Behind a digit that begins no match, none begins either: it would have begun with the digit. -/
theorem matchAt_eq_none_of_digit {rule : Replacement} (hconsumes : rule.pattern.consumes = true)
    (hbegins : rule.pattern.beginsWithDigits = true) {b : Option Char} {c : Char} {s : List Char}
    (hc : c.isDigit = true) (h : rule.matchAt ⟨b, c :: s⟩ = none) :
    rule.matchAt ⟨some c, s⟩ = none := by
  have hall := Replacement.allMatches_of_matchAt hconsumes h
  have hnone : allMatches rule.pattern ⟨some c, s⟩ = [] := by
    rw [List.eq_nil_iff_forall_not_mem]
    intro m hm
    obtain ⟨m', hm', -⟩ := extends_of_beginsWithDigits hbegins b c s m
      (isDecimalDigit_of_isDigit hc) hm
    rw [hall] at hm'
    cases hm'
  rw [Replacement.matchAt, firstMatch, hnone]
  rfl

/-- The texts around two numerals keep them apart, and the runs that they have themselves are those
of numbers that are put in. -/
def KeepApart (o₁ o₂ : String) (o₃ : List String) : Prop :=
  (o₁.toList ≠ [] ∧ ∀ c ∈ o₁.toList, c.isDigit = false) ∧
    (o₂.toList ≠ [] ∧ NoDigit o₂.toList.head? ∧ NoDigit o₂.toList.getLast? ∧ OnlyConstants o₂) ∧
      ∀ o ∈ o₃, ∀ c ∈ o.toList, c.isDigit = false

instance (o₁ o₂ : String) (o₃ : List String) : Decidable (KeepApart o₁ o₂ o₃) :=
  inferInstanceAs (Decidable ((_ ∧ _) ∧ (_ ∧ _ ∧ _ ∧ _) ∧ _))

section Numerals

variable {r z k₀ k₁ y : List Char} (hy : NoDigit y.head?)

include hy

/-- The runs around two numerals and in them. -/
theorem isRun_numerals_iff {g : List Char} (hg : Parts g)
    (hbegin : NoDigit z.getLast? ∨ NoDigit k₀.head?) :
    IsRun r (z ++ (k₀ ++ (g ++ k₁) ++ y)) ↔
      IsRun r z ∨ IsRun r k₀ ∨ IsRun r g ∨ IsRun r k₁ ∨ IsRun r y := by
  have hcut : NoDigit z.getLast? ∨ NoDigit (k₀ ++ (g ++ (k₁ ++ y))).head? := by
    refine hbegin.imp_right fun hk => noDigit_head?_append hk ?_
    rw [List.head?_append_of_ne_nil _ hg.ne_nil]
    exact hg.head
  rw [List.append_assoc, List.append_assoc, isRun_append hcut, hg.isRun_iff,
    isRun_append (Or.inr hy)]

/-- The runs around two numerals written in another way and in them. -/
theorem isRun_rewritten_iff (hr : ¬ IsConstantRun r) {o₁ o₂ : String} {o₃ : List String}
    (ho : KeepApart o₁ o₂ o₃) :
    IsRun r (z ++ (o₁.toList ++ (k₀ ++ (o₂.toList ++ (k₁ ++ o₃.flatMap String.toList))) ++ y)) ↔
      IsRun r z ∨ IsRun r k₀ ∨ IsRun r k₁ ∨ IsRun r y := by
  obtain ⟨⟨hne₁, hdigits₁⟩, ⟨hne₂, hhead₂, hlast₂, hconstants⟩, hdigits₃⟩ := ho
  have hparts₁ : Parts o₁.toList := parts_of_noDigit hne₁ hdigits₁
  have hparts₂ : Parts o₂.toList := ⟨hne₂, hhead₂, hlast₂⟩
  have hnone₃ : ∀ c ∈ o₃.flatMap String.toList, c.isDigit = false := by
    intro c hc
    obtain ⟨o, ho, hc⟩ := List.mem_flatMap.mp hc
    exact hdigits₃ o ho c hc
  have hback : NoDigit (o₃.flatMap String.toList ++ y).head? :=
    noDigit_head?_append (fun c hc => hnone₃ c (List.mem_of_mem_head? hc)) hy
  simp only [List.append_assoc]
  rw [hparts₁.isRun_iff, hparts₂.isRun_iff, isRun_append (Or.inr hback),
    isRun_append (Or.inr hy), or_iff_right (not_isRun_of_noDigit hdigits₁),
    or_iff_right (not_isRun_of_onlyConstants hr hconstants),
    or_iff_right (not_isRun_of_noDigit hnone₃)]

end Numerals

/-- Two numerals are written in another way. The first is not begun within digits, and the second
goes on as far as there are digits, so both keep their ends. -/
theorem isRun_of_numerals {r : List Char} (hr : ¬ IsConstantRun r) {rule : Replacement}
    (hkeeps : KeepsTwo rule.pattern) (hconsumes : rule.pattern.consumes = true)
    (hbegins : rule.pattern.beginsWithDigits = true)
    (hstops : ∀ {z d t m}, rule.Found z d t m → NoDigit t.head?)
    {o₁ o₂ : String} (o₃ : List String)
    (houtput : rule.output = [.text o₁, .kept 0, .text o₂, .kept 1] ++ o₃.map .text)
    (hrepeats : rule.repeats = false) (ho : KeepApart o₁ o₂ o₃) {s : List Char}
    (h : IsRun r (rule.apply s)) : IsRun r s := by
  have hfill (m : Match) (k₀ k₁ : List Char) (hks : m.captures.map Stretch.chars = [k₀, k₁]) :
      rule.fill m = o₁.toList ++ (k₀ ++ (o₂.toList ++ (k₁ ++ o₃.flatMap String.toList))) := by
    rw [Replacement.fill_eq, houtput, hks]
    simp [List.flatMap_map]
  rw [Replacement.apply, if_neg (by simp [hrepeats])] at h
  -- on the way no match begins within digits
  refine Replacement.passFrom_reflects
    (fun z s => NoDigit z.getLast? ∨ NoDigit s.head? ∨ rule.matchAt ⟨z.getLast?, s⟩ = none)
    (fun {z c s} _ hnone => ?_)
    (fun {z d t m} hinv hne hm => ⟨Or.inr (Or.inl (hstops hm)), fun hnew => ?_⟩) [] s
    (Or.inl noDigit_none) h
  · rw [List.getLast?_concat]
    by_cases hc : c.isDigit = true
    · exact Or.inr (Or.inr (matchAt_eq_none_of_digit hconsumes hbegins hc hnone))
    · exact Or.inl (noDigit_some.mpr (by simpa using hc))
  · obtain ⟨k₀, g, k₁, rfl, hks, hg⟩ := hkeeps _ _ hm.takes
    have hbegin : NoDigit z.getLast? ∨ NoDigit k₀.head? := by
      rcases hinv with hz | hs | hnone
      · exact Or.inl hz
      · rw [List.append_assoc] at hs
        exact Or.inr (noDigit_head?_of_append hs)
      · rw [hm.matchAt] at hnone
        cases hnone
    -- the rest begins as it did, or with the text in front of the next two numerals
    have hy : NoDigit (rule.passFrom (z ++ (k₀ ++ (g ++ k₁))).getLast? 0 t).head? := by
      cases hnext : rule.matchAt ⟨(z ++ (k₀ ++ (g ++ k₁))).getLast?, t⟩ with
      | none =>
        rw [Replacement.head_passFrom hnext]
        exact hstops hm
      | some m' =>
        obtain ⟨d', t', rfl, hne', hm'⟩ := Replacement.exists_found hnext
        obtain ⟨k₀', g', k₁', rfl, hks', -⟩ := hkeeps _ _ hm'.takes
        rw [hm'.passFrom_eq hne', hfill m' k₀' k₁' hks', List.append_assoc,
          List.head?_append_of_ne_nil _ ho.1.1]
        exact (parts_of_noDigit ho.1.1 ho.1.2).head
    rw [hfill m k₀ k₁ hks, isRun_rewritten_iff hy hr ho] at hnew
    rw [isRun_numerals_iff hy hg hbegin]
    exact hnew.imp_right (Or.imp_right Or.inr)

theorem noDigit_of_stops {rule : Replacement} (hstops : Stops rule.pattern) {z d t : List Char}
    {m : Match} (h : rule.Found z d t m) : NoDigit t.head? := by
  have hfirst := (Option.filter_eq_some_iff.mp h.matchAt).1
  intro c hc
  rw [show t = m.stop.after by rw [h.stop]] at hc
  have hnot := hstops _ m hfirst c hc
  cases hd : c.isDigit with
  | false => rfl
  | true =>
    rw [CharClass.holds, isDecimalDigit_of_isDigit hd] at hnot
    cases hnot

/-- A numeral is taken as far as its digits go, with a fraction or without. -/
theorem stops_numeral : Stops numeral :=
  stops_digits.optional (stops_digits.append _)

/-- The replacement of a percentage. -/
def percentRule : Replacement where
  pattern := keptNumeral ++ blanks ++ text "%" ++ blanks ++ anyOf ["of", "de"] ++ blanks ++
    keptNumeral
  output := [.text "(", .kept 0, .text "/100)*", .kept 1]

section Notations

variable {r : List Char} (hr : ¬ IsConstantRun r)

include hr

theorem isRun_of_percent {s : List Char} (h : IsRun r (percentRule.apply s)) : IsRun r s := by
  have hkeeps : KeepsTwo percentRule.pattern :=
    keepsTwo_append (blanks ++ (text "%" ++ (blanks ++ (anyOf ["of", "de"] ++ blanks))))
      (fun h => by simpa only [takes_append_assoc] using h) (by decide) (by decide) (by decide)
  have hstops : Stops percentRule.pattern := stops_numeral.capture.append _
  exact isRun_of_numerals hr hkeeps (by decide) (by decide) (noDigit_of_stops hstops) [] rfl rfl
    (by decide) h

theorem isRun_of_scientific {s : List Char} (h : IsRun r (Formula.scientificRule.apply s)) :
    IsRun r s := by
  have hkeeps : KeepsTwo Formula.scientificRule.pattern :=
    keepsTwo_append (blanks ++ (text "*" ++ (blanks ++ (text "10" ++ (blanks ++
      (text "^" ++ blanks))))))
      (fun h => by simpa only [takes_append_assoc] using h) (by decide) (by decide) (by decide)
  have hstops : Stops Formula.scientificRule.pattern := (stops_digits.append _).capture.append _
  exact isRun_of_numerals hr hkeeps (by decide) (by decide) (noDigit_of_stops hstops) ["))"] rfl rfl
    (by decide) h

theorem isRun_of_exponent {s : List Char} (h : IsRun r (Formula.exponentRule.apply s)) :
    IsRun r s := by
  have hkeeps : KeepsTwo Formula.exponentRule.pattern := by
    refine KeepsTwo.boundary (keepsTwo_append (Pattern.optional (one .blank) ++ text "e") ?_
      (by decide) (by decide) (by decide))
    exact fun h => by simpa only [takes_append_assoc] using h
  -- the exponent ends a word, so no digit follows it
  have hstops {z d t : List Char} {m : Match} (h : Formula.exponentRule.Found z d t m) :
      NoDigit t.head? :=
    (Replacement.noWord_back CharClass.isWordChar_of_digit (by decide) (by decide) h h.mem).noDigit
  exact isRun_of_numerals hr hkeeps (by decide) (by decide) hstops ["))"] rfl rfl (by decide) h

theorem isRun_of_power {s : List Char} (h : IsRun r (Formula.powerRule.apply s)) : IsRun r s := by
  have hkeeps : KeepsTwo Formula.powerRule.pattern :=
    keepsTwo_append (blanks ++ (text "^" ++ blanks))
      (fun h => by simpa only [takes_append_assoc] using h) (by decide) (by decide) (by decide)
  have hstops : Stops Formula.powerRule.pattern := (stops_numeral.append _).capture.append _
  exact isRun_of_numerals hr hkeeps (by decide) (by decide) (noDigit_of_stops hstops) [")"] rfl rfl
    (by decide) h

end Notations

/-! ### Constants behind digits -/

theorem takes_coefficient {x : List Char} {ks : List (List Char)}
    (h : coefficientRule.pattern.Takes x ks) : ∃ c b k, x = c :: (b ++ k) ∧ ks = [[c], k] ∧
      (∀ d ∈ b, isBlank d = true) ∧ (k = "π".toList ∨ k = "pi".toList) := by
  obtain ⟨_, _, _, _, rfl, rfl, ⟨_, b, _, _, rfl, rfl, ⟨_, ⟨⟨c, -, rfl⟩, rfl⟩, rfl⟩, hb, rfl⟩,
    ks, hconstant, rfl⟩ := h
  rcases hconstant with hsign | hword
  · have hks := kept_of_plain (by decide) hsign
    rw [takes_text hsign, hks]
    exact ⟨c, b, _, rfl, rfl, hb, Or.inl rfl⟩
  · have hks := kept_of_plain (by decide) hword
    obtain ⟨x, _, _, _, rfl, -, hx, rfl, -⟩ := hword
    rw [List.append_nil, takes_text hx, hks]
    exact ⟨c, b, _, rfl, rfl, hb, Or.inr rfl⟩

theorem fill_coefficient {m : Match} {c : Char} {k : List Char}
    (h : m.captures.map Stretch.chars = [[c], k]) :
    coefficientRule.fill m = c :: (" * ".toList ++ k) := by
  rw [Replacement.fill_eq, h]
  simp [coefficientRule]

theorem isRun_of_coefficient {r s : List Char} (h : IsRun r (coefficientRule.apply s)) :
    IsRun r s := by
  refine Replacement.apply_reflects (fun {z d t m} _ hm hnew => ?_) h
  obtain ⟨c, b, k, rfl, hks, hb, hk⟩ := takes_coefficient hm.takes
  rw [fill_coefficient hks] at hnew
  generalize coefficientRule.passFrom (z ++ c :: (b ++ k)).getLast? 0 t = y at hnew
  have hne : k ≠ [] := by rcases hk with rfl | rfl <;> decide
  have hletters : ∀ d ∈ k, d.isDigit = false := by rcases hk with rfl | rfl <;> decide
  -- behind the digit there is none, before and after
  have hblank : ∀ d ∈ b ++ k, d.isDigit = false := by
    intro d hd
    rcases List.mem_append.mp hd with hd | hd
    · exact not_isDigit_of_isBlank (hb d hd)
    · exact hletters d hd
  have hsign : ∀ d ∈ " * ".toList ++ k, d.isDigit = false := by
    intro d hd
    rcases List.mem_append.mp hd with hd | hd
    · exact (by decide : ∀ d ∈ " * ".toList, d.isDigit = false) d hd
    · exact hletters d hd
  have hcut {g : List Char} (hg : g ≠ []) (hdigits : ∀ d ∈ g, d.isDigit = false) :
      IsRun r (z ++ (c :: g ++ y)) ↔ IsRun r (z ++ [c]) ∨ IsRun r y := by
    rw [List.cons_append, ← List.singleton_append, ← List.append_assoc,
      (parts_of_noDigit hg hdigits).isRun_iff, or_iff_right (not_isRun_of_noDigit hdigits)]
  rw [hcut (by simp) hsign] at hnew
  rwa [hcut (by simp [hne]) hblank]

/-- The sign for the constant has no digit directly in front of it. -/
def Apart (s : List Char) : Prop :=
  s.IsChain fun c d => c.isDigit = true → d ≠ 'π'

theorem Apart.noDigit {z t : List Char} (h : Apart (z ++ 'π' :: t)) : NoDigit z.getLast? := by
  intro c hc
  have hchain := (List.isChain_append.mp h).2.2 c hc 'π' rfl
  by_contra hd
  exact hchain (by simpa using hd) rfl

/-- A digit and the sign for the constant behind it are a match. -/
theorem isSome_matchAt_coefficient (b : Option Char) {c : Char} (s : List Char)
    (hc : isDecimalDigit c = true) :
    (coefficientRule.matchAt ⟨b, c :: 'π' :: s⟩).isSome = true := by
  have happend (a b : Pattern) : a ++ b = .seq a b := rfl
  have hblank : isBlank 'π' = false := by decide
  simp [Replacement.matchAt, firstMatch, coefficientRule, allMatches, text, CharClass.holds,
    happend, Pattern.blanks, manyMatches, hc, hblank]

theorem apart_coefficient (s : List Char) : Apart (coefficientRule.apply s) := by
  suffices h : ∀ z s : List Char, Apart (coefficientRule.passFrom z.getLast? 0 s) from h [] s
  intro z s
  induction z, s using Replacement.search_induction (r := coefficientRule) with
  | hnil z => exact List.IsChain.nil
  | @hskip z c s hnone ih =>
    rw [Replacement.passFrom_eq_cons hnone]
    refine List.isChain_cons.mpr ⟨?_, ih⟩
    -- a digit that is kept with the sign behind it would have begun a match
    rintro d hd hc rfl
    rw [head_passFrom_coefficient] at hd
    obtain ⟨s, rfl⟩ : ∃ s', s = 'π' :: s' := by
      cases s with
      | nil => cases hd
      | cons d s =>
        rw [Option.mem_def, List.head?_cons, Option.some.injEq] at hd
        exact ⟨s, by rw [hd]⟩
    have hsome := isSome_matchAt_coefficient z.getLast? s (isDecimalDigit_of_isDigit hc)
    rw [hnone] at hsome
    cases hsome
  | @hfound z d t m hne hm ih =>
    obtain ⟨c, b, k, rfl, hks, hb, hk⟩ := takes_coefficient hm.takes
    rw [hm.passFrom_eq hne, fill_coefficient hks]
    have hlast : ∀ d ∈ (c :: (" * ".toList ++ k)).getLast?, d.isDigit = false := by
      rcases hk with rfl | rfl <;> simp
    refine List.isChain_append.mpr ⟨?_, ih, fun d hd e _ hdigit => ?_⟩
    · rcases hk with rfl | rfl <;> simp
    · rw [hlast d hd] at hdigit
      cases hdigit

/-! ### Constants -/

/-- The replacement of the base of powers of `e` by its digits. -/
def baseRule : Replacement where
  pattern := boundary ++ text "e" ++ boundary
  output := [.text "2.718281828459045"]

/-- The digits of the constant behind the point. -/
def piFraction : List Char :=
  "141592653589793".toList

/-- A number that is put in for a word of its own. -/
theorem isRun_of_output {r o z d y : List Char} (ho : ¬ IsRun r o) (hd : Parts d)
    (hz : NoDigit z.getLast?) (hy : NoDigit y.head?) (h : IsRun r (z ++ (o ++ y))) :
    IsRun r (z ++ (d ++ y)) := by
  rw [isRun_append (Or.inl hz), isRun_append (Or.inr hy), or_iff_right ho] at h
  rw [hd.isRun_iff]
  exact h.imp_right Or.inr

section Constants

variable {r : List Char} (hr : ¬ IsConstantRun r)

include hr

theorem isRun_of_base {s : List Char} (h : IsRun r (baseRule.apply s)) : IsRun r s := by
  refine Replacement.apply_reflects (fun {z d t m} _ hm hnew => ?_) h
  obtain ⟨hz, hy⟩ := Replacement.noWord_around (by decide) hm hm.mem
  have hfill : baseRule.fill m = "2.718281828459045".toList := List.append_nil _
  rw [hfill] at hnew
  exact isRun_of_output (not_isRun_of_onlyConstants hr (by decide))
    (parts_of_takes (by decide) hm.takes) hz.noDigit hy.noDigit hnew

/-- The digits of the constant behind the point, with the digits that come behind them. -/
theorem isRun_of_fraction {z d y : List Char} (hz : NoDigit z.getLast?) (hd : Parts d)
    (hfraction : ¬ (piFraction <+: r ∧ r ≠ piFraction))
    (h : IsRun r (z ++ ("3.141592653589793".toList ++ y))) : IsRun r (z ++ (d ++ y)) := by
  have hsplit : "3.141592653589793".toList = "3.".toList ++ piFraction := by decide
  have hpoint : NoDigit "3.".toList.getLast? := by decide
  have hwhole : ¬ IsRun r "3.".toList := not_isRun_of_onlyConstants hr (by decide)
  rw [hsplit, List.append_assoc, isRun_append (Or.inl hz), isRun_append (Or.inl hpoint),
    or_iff_right hwhole] at h
  rw [hd.isRun_iff]
  refine h.imp_right fun h => Or.inr ?_
  -- the run that begins with the fraction is left out, the others lie behind it
  have hbehind : NoDigit (y.dropWhile Char.isDigit).head? := by
    intro c hc
    have hnot := List.head?_dropWhile_not Char.isDigit y
    rwa [Option.mem_def.mp hc] at hnot
  rw [← List.takeWhile_append_dropWhile (p := Char.isDigit) (l := y), ← List.append_assoc,
    isRun_append (Or.inr hbehind)] at h
  rw [← List.takeWhile_append_dropWhile (p := Char.isDigit) (l := y), isRun_append (Or.inr hbehind)]
  refine Or.inr (h.resolve_left fun hrun => ?_)
  have hdigits : ∀ c ∈ piFraction ++ y.takeWhile Char.isDigit, c.isDigit = true := by
    intro c hc
    rcases List.mem_append.mp hc with hc | hc
    · exact (by decide : ∀ c ∈ piFraction, c.isDigit = true) c hc
    · exact List.all_eq_true.mp List.all_takeWhile c hc
  have heq := eq_of_isRun hrun hdigits
  refine hfraction ⟨⟨_, heq.symm⟩, fun hfrac => hr ?_⟩
  rw [hfrac]
  decide

theorem isRun_of_constant {s : List Char} (hs : Apart s)
    (hfraction : 'π' ∈ s → ¬ (piFraction <+: r ∧ r ≠ piFraction))
    (h : IsRun r (constantRule.apply s)) : IsRun r s := by
  refine Replacement.passFrom_reflects (fun z t => z ++ t = s) (fun hinv _ => by simpa using hinv)
    (fun {z d t m} hinv _ hm => ⟨by simpa using hinv, fun hnew => ?_⟩) [] s rfl h
  have hparts : Parts d := parts_of_takes (by decide) hm.takes
  have hfill : constantRule.fill m = "3.141592653589793".toList := List.append_nil _
  rw [hfill] at hnew
  rcases List.mem_append.mp hm.mem with hsign | hword
  · -- the sign need not be a word of its own, but there is no digit in front of it
    obtain ⟨x, hx, -, -, htakes⟩ := exists_takes hsign
    rw [hm.stop, takes_text htakes] at hx
    obtain rfl := List.append_cancel_right hx
    have hz : NoDigit z.getLast? := Apart.noDigit (t := t) (by rw [← hinv] at hs; exact hs)
    have hmem : 'π' ∈ s := by
      rw [← hinv]
      simp
    exact isRun_of_fraction hr hz hparts (hfraction hmem) hnew
  · obtain ⟨hz, hy⟩ := Replacement.noWord_around (by decide) hm hword
    exact isRun_of_output (not_isRun_of_onlyConstants hr (by decide)) hparts hz.noDigit hy.noDigit
      hnew

end Constants

/-! ### All of them -/

/-- The weight of the sign for the constant alone. -/
def piWeight (c : Char) : Nat :=
  if c = 'π' then 1 else 0

theorem pi_mem_iff (s : List Char) : 'π' ∈ s ↔ weigh piWeight s ≠ 0 := by
  rw [Ne, weigh_eq_zero_iff]
  simp [piWeight]

theorem pi_mem_of_apply {rule : Replacement} (hrule : rule ∈ rules) {s : List Char}
    (h : 'π' ∈ rule.apply s) : 'π' ∈ s := by
  have hkeeps : ∀ rule ∈ rules, rule.keepsWeight piWeight = true := by decide
  rw [pi_mem_iff] at h ⊢
  have hle := Replacement.weigh_apply_le (hkeeps rule hrule) s
  omega

/-- What each replacement carries from the new text to the old one, all of them together do. -/
theorem foldl_reflects (Φ : List Char → Prop) {rs : List Replacement}
    (h : ∀ rule ∈ rs, ∀ s, Φ (rule.apply s) → Φ s) {s : List Char}
    (hs : Φ (rs.foldl (fun t rule => rule.apply t) s)) : Φ s := by
  induction rs generalizing s with
  | nil => exact hs
  | cons rule rs ih =>
    exact h rule (by simp) s (ih (fun rule' hrule' => h rule' (List.mem_cons_of_mem _ hrule')) hs)

theorem isRun_of_mem_leads {r : List Char} (hr : ¬ IsConstantRun r) {rule : Replacement}
    (hrule : rule ∈ meanings.take 4) {s : List Char} (h : IsRun r (rule.apply s)) : IsRun r s := by
  simp only [meanings, List.take_succ_cons, List.take_zero, List.mem_cons, List.not_mem_nil,
    or_false] at hrule
  rcases hrule with rfl | rfl | rfl | rfl <;>
    exact isRun_of_lead hr (by decide) (by decide) (by decide) (by decide) h

theorem meanings_eq : meanings = meanings.take 4 ++ [percentRule, Formula.scientificRule,
    Formula.exponentRule, Formula.powerRule, coefficientRule, constantRule, baseRule] := rfl

/-- No replacement puts in the sign for the constant. -/
theorem pi_mem_of_foldl {rs : List Replacement} (hrs : ∀ rule ∈ rs, rule ∈ rules) {s : List Char}
    (h : 'π' ∈ rs.foldl (fun t rule => rule.apply t) s) : 'π' ∈ s :=
  foldl_reflects ('π' ∈ ·) (fun rule hrule _ hpi => pi_mem_of_apply (hrs rule hrule) hpi) h

/-- The phrases and notations have no other runs than those of numbers that are put in, when no
digits follow the digits of the constant. -/
theorem isRun_of_meanings {r s : List Char} (hr : ¬ IsConstantRun r)
    (hfraction : 'π' ∈ s → ¬ (piFraction <+: r ∧ r ≠ piFraction))
    (h : IsRun r (meanings.foldl (fun t rule => rule.apply t) s)) : IsRun r s := by
  rw [meanings_eq, List.foldl_append] at h
  have hconstant := isRun_of_base hr h
  -- the text that the constant is replaced in
  have hpi (hpi : 'π' ∈ (meanings.take 9).foldl (fun t rule => rule.apply t) s) : 'π' ∈ s := by
    refine pi_mem_of_foldl (fun rule hrule => ?_) hpi
    rw [rules]
    exact List.mem_append_right _ (List.mem_of_mem_take hrule)
  have hcoefficient := isRun_of_constant hr (apart_coefficient _)
    (fun hmem => hfraction (hpi hmem)) hconstant
  have hpercent := isRun_of_scientific hr (isRun_of_exponent hr
    (isRun_of_power hr (isRun_of_coefficient hcoefficient)))
  exact foldl_reflects (IsRun r) (fun rule hrule s => isRun_of_mem_leads hr hrule)
    (isRun_of_percent hr hpercent)

end Reckon.Wording
