/-
Days of a month as they are written.

A day of a month is a word for a month and a day in digits, in either order, or in Spanish with "de"
between them. The day may end like an English ordinal. It may also begin with one plus sign, which no
description of these phrases mentions: with it texts such as "may +5" are read as dates. Apart from
this sign texts are read as days of a month exactly where they are written in this way.

* `LiteralDate` : the words of a day of a month.
* `readDay?_eq_some_iff` : which words are days.
* `readMonthDay?_eq_some_iff` : which words are days of a month.
* `read?_monthDay_iff` : which texts are.
* `read?_signed_day` : a text that is read though its day is not written in digits.
-/
import Reckon.Proofs.PhraseShapes

namespace Reckon.DatePhrase

open Text Number

/-! ### The words of a day of a month -/

/-- A day in digits, with the ending of an English ordinal or without one. -/
def IsDay (n : ℕ) (t : List Char) : Prop :=
  1 ≤ n ∧ n ≤ 31 ∧ ∃ ds e, t = ds ++ e ∧ ds ≠ [] ∧ (∀ c ∈ ds, c.isDigit = true) ∧
    digitsValue ds = n ∧ (e = [] ∨ ∃ o ∈ ordinalEndings, e = o.toList)

/-- A day in digits, with one plus sign in front of it or without one. -/
def IsSignedDay (n : ℕ) (t : List Char) : Prop :=
  IsDay n t ∨ ∃ u, t = '+' :: u ∧ IsDay n u

/-- The words of a month and a day, with days as `day` has them. -/
inductive LiteralDate (day : ℕ → List Char → Prop) (m d : ℕ) (l : Language) : List String → Prop
  | monthFirst {a b : String} (month : (a, m, l) ∈ months) (hday : day d b.toList) :
    LiteralDate day m d l [a, b]
  | dayFirst {a b : String} (hday : day d a.toList) (month : (b, m, l) ∈ months) :
    LiteralDate day m d l [a, b]
  | withDe {a b : String} (hday : day d a.toList) (month : (b, m, l) ∈ months) :
    LiteralDate day m d l [a, "de", b]

/-! ### Endings of ordinals -/

theorem stripSuffix?_append (t e : List Char) : stripSuffix? e (t ++ e) = some t := by
  rw [stripSuffix?, List.reverse_append, stripPrefix?_eq_some.mpr rfl, Option.map_some,
    List.reverse_reverse]

theorem length_of_mem_ordinalEndings : ∀ o ∈ ordinalEndings, o.toList.length = 2 := by
  decide

/-- Endings have one length, so a word has at most one of them. -/
theorem dropOrdinalEnding_append (t : List Char) {o : String} (ho : o ∈ ordinalEndings) :
    dropOrdinalEnding (t ++ o.toList) = t := by
  rw [dropOrdinalEnding]
  cases hfind : ordinalEndings.findSome? fun e => stripSuffix? e.toList (t ++ o.toList) with
  | none =>
    have hstrip := List.findSome?_eq_none_iff.mp hfind o ho
    rw [stripSuffix?_append] at hstrip
    cases hstrip
  | some u =>
    obtain ⟨e, he, hstrip⟩ := List.exists_of_findSome?_eq_some hfind
    have hlength : o.toList.length = e.toList.length := by
      rw [length_of_mem_ordinalEndings o ho, length_of_mem_ordinalEndings e he]
    exact (List.append_inj' (eq_append_of_stripSuffix? hstrip) hlength).1.symm

theorem dropOrdinalEnding_of_isDigit (t : List Char) {c : Char} (hc : c.isDigit = true) :
    dropOrdinalEnding (t ++ [c]) = t ++ [c] := by
  have hletters : ∀ o ∈ ordinalEndings, ∀ d ∈ o.toList.getLast?, d.isDigit = false := by decide
  have hnone : (ordinalEndings.findSome? fun e => stripSuffix? e.toList (t ++ [c])) = none := by
    refine List.findSome?_eq_none_iff.mpr fun e he => Option.eq_none_iff_forall_ne_some.mpr ?_
    intro u hstrip
    have hlast := congrArg List.getLast? (eq_append_of_stripSuffix? hstrip)
    have hne : e.toList ≠ [] := List.ne_nil_of_length_pos (by
      rw [length_of_mem_ordinalEndings e he]
      decide)
    rw [List.getLast?_concat, List.getLast?_append_of_ne_nil _ hne] at hlast
    rw [hletters e he c hlast.symm] at hc
    cases hc
  rw [dropOrdinalEnding, hnone, Option.getD_none]

theorem exists_ending (t : List Char) : ∃ e, t = dropOrdinalEnding t ++ e ∧
    (e = [] ∨ ∃ o ∈ ordinalEndings, e = o.toList) := by
  rw [dropOrdinalEnding]
  cases hfind : ordinalEndings.findSome? fun e => stripSuffix? e.toList t with
  | none => exact ⟨[], (List.append_nil t).symm, .inl rfl⟩
  | some u =>
    obtain ⟨o, ho, hstrip⟩ := List.exists_of_findSome?_eq_some hfind
    exact ⟨o.toList, eq_append_of_stripSuffix? hstrip, .inr ⟨o, ho, rfl⟩⟩

/-- Behind digits the ending is dropped, and nothing else. -/
theorem dropOrdinalEnding_digits {a ds e : List Char} (hne : ds ≠ [])
    (hdigits : ∀ c ∈ ds, c.isDigit = true) (he : e = [] ∨ ∃ o ∈ ordinalEndings, e = o.toList) :
    dropOrdinalEnding (a ++ (ds ++ e)) = a ++ ds := by
  rw [← List.append_assoc]
  rcases he with rfl | ⟨o, ho, rfl⟩
  · rcases List.eq_nil_or_concat ds with rfl | ⟨init, c, rfl⟩
    · exact absurd rfl hne
    · rw [List.concat_eq_append] at hdigits ⊢
      rw [List.append_nil, ← List.append_assoc]
      exact dropOrdinalEnding_of_isDigit _ (hdigits c (by simp))
  · exact dropOrdinalEnding_append _ ho

/-! ### Days -/

theorem eq_dropPlus_or (t : List Char) : t = dropPlus t ∨ t = '+' :: dropPlus t := by
  unfold dropPlus
  split
  · exact .inr rfl
  · exact .inl rfl

theorem dropPlus_digits {ds : List Char} (hdigits : ∀ c ∈ ds, c.isDigit = true) :
    dropPlus ds = ds := by
  cases ds with
  | nil => rfl
  | cons c ds =>
    have hc : c ≠ '+' := by
      rintro rfl
      exact absurd (hdigits '+' (by simp)) (by decide)
    rw [dropPlus]
    simpa using hc

/-- The digits that are left of a word make it a day. -/
theorem readDay?_of_digits {word : String} {ds : List Char} (hne : ds ≠ [])
    (hdigits : ∀ c ∈ ds, c.isDigit = true) (hleft : dropPlus (dropOrdinalEnding word.toList) = ds)
    (hday : 1 ≤ digitsValue ds ∧ digitsValue ds ≤ 31) :
    readDay? word = some (digitsValue ds) := by
  simp only [readDay?, hleft]
  rw [if_pos ⟨hne, List.all_eq_true.mpr hdigits⟩, if_pos hday]

/-- A word is a day where it is written as one, a plus sign in front of it apart. -/
theorem readDay?_eq_some_iff (word : String) (n : ℕ) :
    readDay? word = some n ↔ IsSignedDay n word.toList := by
  constructor
  · intro h
    obtain ⟨e, hword, he⟩ := exists_ending word.toList
    simp only [readDay?] at h
    have hplus := eq_dropPlus_or (dropOrdinalEnding word.toList)
    generalize dropPlus (dropOrdinalEnding word.toList) = ds at hplus h
    split at h
    · next hds =>
      obtain ⟨hne, hall⟩ := hds
      split at h
      · next hday =>
        obtain rfl := Option.some.inj h
        have hwritten : IsDay (digitsValue ds) (ds ++ e) :=
          ⟨hday.1, hday.2, ds, e, rfl, hne, List.all_eq_true.mp hall, rfl, he⟩
        rw [hword]
        rcases hplus with hplus | hplus
        · exact .inl (hplus ▸ hwritten)
        · exact .inr ⟨ds ++ e, by rw [hplus, List.cons_append], hwritten⟩
      · cases h
    · cases h
  · rintro (⟨hlow, hhigh, ds, e, hword, hne, hdigits, rfl, he⟩ |
      ⟨u, hword, hlow, hhigh, ds, e, rfl, hne, hdigits, rfl, he⟩)
    · have hdrop := dropOrdinalEnding_digits (a := []) hne hdigits he
      refine readDay?_of_digits hne hdigits ?_ ⟨hlow, hhigh⟩
      rw [hword, ← List.nil_append (ds ++ e), hdrop]
      exact dropPlus_digits hdigits
    · have hdrop := dropOrdinalEnding_digits (a := ['+']) hne hdigits he
      refine readDay?_of_digits hne hdigits ?_ ⟨hlow, hhigh⟩
      rw [hword, ← List.singleton_append, hdrop]
      rfl

/-! ### Months -/

theorem month?_eq_some_iff (w : String) (m : ℕ) (l : Language) :
    month? w = some (m, l) ↔ (w, m, l) ∈ months := by
  have htable : ∀ e ∈ months, month? e.1 = some e.2 := by decide
  constructor
  · intro h
    obtain ⟨e, he, rfl⟩ := mem_of_lookup (Option.isSome_of_eq_some h)
    rw [htable e he, Option.some.injEq] at h
    rwa [← h]
  · exact htable (w, m, l)

/-- No day is a month: months begin with letters. -/
theorem month?_of_isSignedDay {w : String} {n : ℕ} (h : IsSignedDay n w.toList) :
    month? w = none := by
  have htable : ∀ e ∈ months, ∀ c ∈ e.1.toList.head?, c.isDigit = false ∧ c ≠ '+' := by decide
  rw [← Option.not_isSome_iff_eq_none]
  intro hmonth
  obtain ⟨e, he, rfl⟩ := mem_of_lookup hmonth
  rcases h with ⟨-, -, ds, t, hword, hne, hdigits, -⟩ | ⟨u, hword, -⟩
  · obtain ⟨c, ds, rfl⟩ := List.exists_cons_of_ne_nil hne
    have hc := (htable e he c (by rw [hword]; rfl)).1
    rw [hdigits c (by simp)] at hc
    cases hc
  · exact (htable e he '+' (by rw [hword]; rfl)).2 rfl

/-! ### Days of a month -/

theorem monthDayOf_eq_some_iff (a b : String) (m d : ℕ) (l : Language) :
    monthDayOf a b = some ⟨.monthDay m d, l⟩ ↔
      (a, m, l) ∈ months ∧ IsSignedDay d b.toList := by
  rw [← month?_eq_some_iff, ← readDay?_eq_some_iff]
  constructor
  · intro h
    obtain ⟨⟨m', l'⟩, hmonth, h⟩ := Option.bind_eq_some_iff.mp h
    obtain ⟨d', hday, h⟩ := Option.bind_eq_some_iff.mp h
    cases h
    exact ⟨hmonth, hday⟩
  · rintro ⟨hmonth, hday⟩
    simp [monthDayOf, hmonth, hday]

/-- Words are read as a day of a month where they are written as one. -/
theorem readMonthDay?_eq_some_iff (ws : List String) (m d : ℕ) (l : Language) :
    readMonthDay? ws = some ⟨.monthDay m d, l⟩ ↔
      LiteralDate IsSignedDay m d l (dropArticle ws) := by
  rw [readMonthDay?]
  generalize dropArticle ws = body
  constructor
  · intro h
    split at h
    · obtain ⟨hmonth, hday⟩ := (monthDayOf_eq_some_iff ..).mp h
      exact .withDe hday hmonth
    · split at h
      · obtain ⟨hmonth, hday⟩ := (monthDayOf_eq_some_iff ..).mp h
        exact .monthFirst hmonth hday
      · obtain ⟨hmonth, hday⟩ := (monthDayOf_eq_some_iff ..).mp h
        exact .dayFirst hday hmonth
    · cases h
  · intro h
    cases h with
    | monthFirst hmonth hday =>
      simp only [(month?_eq_some_iff ..).mpr hmonth, Option.isSome_some, if_true]
      exact (monthDayOf_eq_some_iff ..).mpr ⟨hmonth, hday⟩
    | dayFirst hday hmonth =>
      -- the first word would count as the month if it could be one
      simp only [month?_of_isSignedDay hday, Option.isSome_none, Bool.false_eq_true, if_false]
      exact (monthDayOf_eq_some_iff ..).mpr ⟨hmonth, hday⟩
    | withDe hday hmonth => exact (monthDayOf_eq_some_iff ..).mpr ⟨hmonth, hday⟩

/-! ### The other shapes -/

section OtherShapes

variable (ws : List String) (m d : ℕ) (l : Language)

theorem readNamedWeekday?_ne_monthDay : readNamedWeekday? ws ≠ some ⟨.monthDay m d, l⟩ := by
  have hof (w : Option (Calendar.Weekday × Language)) (q : Qualifier) :
      namedWeekdayOf w q ≠ some ⟨.monthDay m d, l⟩ := by
    cases w <;> simp [namedWeekdayOf]
  rw [readNamedWeekday?]
  split <;> first | exact hof _ _ | simp

theorem readOrdinalWeekday?_ne_monthDay : readOrdinalWeekday? ws ≠ some ⟨.monthDay m d, l⟩ := by
  have hof (o w a : String) : ordinalWeekdayOf o w a ≠ some ⟨.monthDay m d, l⟩ := by
    intro h
    obtain ⟨⟨ordinal, language⟩, -, h⟩ := Option.bind_eq_some_iff.mp h
    obtain ⟨⟨weekday, _⟩, -, h⟩ := Option.bind_eq_some_iff.mp h
    obtain ⟨⟨month, _⟩, -, h⟩ := Option.bind_eq_some_iff.mp h
    cases h
  rw [readOrdinalWeekday?]
  split <;> first | exact hof _ _ _ | simp

theorem readRelative?_ne_monthDay (s : List Char) :
    readRelative? s ≠ some ⟨.monthDay m d, l⟩ := by
  simp [readRelative?]

theorem readArithmetic?_ne_monthDay (s : List Char) :
    readArithmetic? s ≠ some ⟨.monthDay m d, l⟩ := by
  intro h
  obtain ⟨⟨base, sign, rest⟩, -, h⟩ := Option.bind_eq_some_iff.mp h
  obtain ⟨⟨days, language⟩, -, h⟩ := Option.bind_eq_some_iff.mp h
  obtain ⟨⟨n, unit, language'⟩, -, h⟩ := Option.bind_eq_some_iff.mp h
  cases h

end OtherShapes

/-! ### Texts -/

/-- A text is read as a day of a month where its words, an article in front of them apart, are
written as one with a plus sign in front of the day or without it. -/
theorem read?_monthDay_iff (s : List Char) (m d : ℕ) (l : Language) :
    read? s = some ⟨.monthDay m d, l⟩ ↔
      LiteralDate IsSignedDay m d l (dropArticle ((wordsOf s).map String.ofList)) := by
  rw [← readMonthDay?_eq_some_iff, ← findSome?_readings,
    findSome?_eq_some_iff_mem (pairwise_readings s)]
  simp only [readings, List.mem_cons, List.not_mem_nil, or_false]
  constructor
  · rintro (h | h | h | h | h)
    · exact (readNamedWeekday?_ne_monthDay _ _ _ _ h.symm).elim
    · exact (readOrdinalWeekday?_ne_monthDay _ _ _ _ h.symm).elim
    · exact h.symm
    · exact (readRelative?_ne_monthDay _ _ _ _ h.symm).elim
    · exact (readArithmetic?_ne_monthDay _ _ _ _ h.symm).elim
  · exact fun h => .inr (.inr (.inl h.symm))

/-- The fifth of May is read off this text, whose day is not written as one. -/
theorem read?_signed_day : read? "may +5".toList = some ⟨.monthDay 5 5, .en⟩ ∧
    ¬ ∃ l, LiteralDate IsDay 5 5 l (dropArticle ((wordsOf "may +5".toList).map String.ofList)) := by
  have hwords : dropArticle ((wordsOf "may +5".toList).map String.ofList) = ["may", "+5"] := by
    decide +kernel
  refine ⟨by decide +kernel, ?_⟩
  rw [hwords]
  rintro ⟨l, h⟩
  generalize hbody : ["may", "+5"] = body at h
  cases h with
  | monthFirst hmonth hday =>
    simp only [List.cons.injEq, and_true] at hbody
    obtain ⟨rfl, rfl⟩ := hbody
    obtain ⟨-, -, ds, e, hword, hne, hdigits, -⟩ := hday
    obtain ⟨c, ds, rfl⟩ := List.exists_cons_of_ne_nil hne
    obtain rfl : '+' = c := (List.cons_eq_cons.mp hword).1
    exact absurd (hdigits '+' (.head _)) (by decide)
  | dayFirst hday hmonth =>
    simp only [List.cons.injEq, and_true] at hbody
    obtain ⟨rfl, rfl⟩ := hbody
    cases l <;> exact absurd hmonth (by decide)
  | withDe hday hmonth => simp at hbody

end Reckon.DatePhrase
