/-
The five shapes of date phrases exclude each other.

Of the three shapes with weekdays and months one names no month, and the two that do differ in the
number of their words. The phrases for days near today begin with other words than these three, also
where an article stands in front, and of the two shapes of such phrases one has an amount in digits.
So no text has two shapes, and the order in which the shapes are tried makes no difference.

* `month?_of_readNamedWeekday?` : no word of a named weekday is a month.
* `opened_body_of_near` : what phrases for days near today begin with, articles apart.
* `readings_disjoint` : at most one shape has a reading, and this is the reading of the text.
-/
import Reckon.Proofs.DateMark

namespace Reckon.DatePhrase

open Text

variable {ws : List String} {r r' : Reading}

/-! ### Phrases with weekdays and months -/

theorem month?_weekdays :
    ((fullWeekdays ++ shortWeekdays).all fun e => (month? e.1).isNone) = true := by
  decide

theorem month?_of_weekday? {w : String} (h : (weekday? w).isSome) : month? w = none := by
  obtain ⟨e, he, rfl⟩ := mem_of_lookup h
  exact Option.isNone_iff_eq_none.mp (List.all_eq_true.mp month?_weekdays e he)

theorem month?_of_fullWeekday? {w : String} (h : (fullWeekday? w).isSome) : month? w = none := by
  obtain ⟨e, he, rfl⟩ := mem_of_lookup h
  exact Option.isNone_iff_eq_none.mp
    (List.all_eq_true.mp month?_weekdays e (List.mem_append_left _ he))

/-- No word of a weekday with a direction is a month. -/
theorem month?_of_readNamedWeekday? (h : readNamedWeekday? ws = some r) :
    ∀ w ∈ dropArticle ws, month? w = none := by
  rw [readNamedWeekday?] at h
  generalize dropArticle ws = body at h
  have hdirection : ∀ w ∈ ["que", "viene", "pasado", "próximo", "proximo", "next", "last", "this"],
      month? w = none := by decide
  have hweekday {w : String} {q : Qualifier} (h : namedWeekdayOf (weekday? w) q = some r) :
      month? w = none :=
    month?_of_weekday? (isSome_of_namedWeekdayOf h)
  split at h
  · simpa using month?_of_fullWeekday? (isSome_of_namedWeekdayOf h)
  · simp [hweekday h, hdirection]
  · simp [hweekday h, hdirection]
  · simp [hweekday h, hdirection]
  · simp [hweekday h, hdirection]
  · simp [hweekday h, hdirection]
  · simp [hweekday h, hdirection]
  · simp [hweekday h, hdirection]
  · cases h

/-- A weekday counted in a month is at least four words, one of them the month. -/
theorem month_of_readOrdinalWeekday? (h : readOrdinalWeekday? ws = some r) :
    3 < (dropArticle ws).length ∧ ∃ w ∈ dropArticle ws, (month? w).isSome := by
  rw [readOrdinalWeekday?] at h
  generalize dropArticle ws = body at h
  have hmonth {o w m : String} (h : ordinalWeekdayOf o w m = some r) : (month? m).isSome := by
    obtain ⟨x, -, h⟩ := Option.bind_eq_some_iff.mp h
    obtain ⟨y, -, h⟩ := Option.bind_eq_some_iff.mp h
    obtain ⟨z, hz, -⟩ := Option.bind_eq_some_iff.mp h
    rw [hz]
    rfl
  split at h
  · exact ⟨by simp, _, by simp, hmonth h⟩
  · exact ⟨by simp, _, by simp, hmonth h⟩
  · exact ⟨by simp, _, by simp, hmonth h⟩
  · cases h

/-- A day of a month is at most three words, one of them the month. -/
theorem month_of_readMonthDay? (h : readMonthDay? ws = some r) :
    (dropArticle ws).length ≤ 3 ∧ ∃ w ∈ dropArticle ws, (month? w).isSome := by
  rw [readMonthDay?] at h
  generalize dropArticle ws = body at h
  split at h
  · exact ⟨by simp, _, by simp, (isSome_of_monthDayOf h).1⟩
  · split at h
    · exact ⟨by simp, _, by simp, (isSome_of_monthDayOf h).1⟩
    · exact ⟨by simp, _, by simp, (isSome_of_monthDayOf h).1⟩
  · cases h

theorem not_month_of_readNamedWeekday? (h : readNamedWeekday? ws = some r) :
    ¬ ∃ w ∈ dropArticle ws, (month? w).isSome := by
  rintro ⟨w, hw, hmonth⟩
  rw [month?_of_readNamedWeekday? h w hw] at hmonth
  cases hmonth

/-! ### Days near today -/

/-- What stands before the first space or sign. -/
def untilCloser (t : List Char) : List Char :=
  t.takeWhile fun c => !closers.contains c

theorem untilCloser_append (t : List Char) {u : List Char} (hu : ∀ c ∈ u.head?, c ∈ closers) :
    untilCloser (t ++ u) = untilCloser t := by
  induction t with
  | nil =>
    cases u with
    | nil => rfl
    | cons c u => exact List.takeWhile_cons_of_neg (by simpa using hu c rfl)
  | cons c t ih =>
    rw [untilCloser, untilCloser, List.cons_append, List.takeWhile_cons, List.takeWhile_cons]
    split
    · exact congrArg (c :: ·) ih
    · rfl

/-- Where a phrase for a day near today begins with an article, there is also the phrase without
it. -/
theorem articles_relativeTerms : (relativeTerms.all fun e => articles.all fun a =>
    untilCloser e.1.toList != untilCloser a.toList ||
      relativeTerms.any fun e' => e.1.toList == a.toList ++ ' ' :: e'.1.toList) = true := by
  decide

/-- Phrases for days near today, with nothing behind them or with a sign, begin with their own
words, whether an article is dropped or not. -/
theorem opened_body_of_near {t u : List Char} (ht : (relativeDays? (String.ofList t)).isSome)
    (hu : ∀ c ∈ u.head?, c ∈ closers) (h : unwords (ws.map String.toList) = t ++ u) :
    Opened nearOpeners (unwords ((dropArticle ws).map String.toList)) := by
  rcases eq_or_eq_cons_dropArticle ws with heq | ⟨a, ha, hne, heq⟩
  · rw [heq, h]
    exact opened_of_relativeDays? ht hu
  · generalize dropArticle ws = body at hne heq ⊢
    subst heq
    obtain ⟨e, he, hterm⟩ := mem_of_lookup ht
    have htext : e.1.toList = t := by rw [hterm, String.toList_ofList]
    rw [List.map_cons, unwords_cons (by simpa using hne), ← htext] at h
    have hfirst : untilCloser e.1.toList = untilCloser a.toList := by
      rw [← untilCloser_append _ hu, ← h, untilCloser_append _ (by simp [closers])]
    have hrest : ∃ e' ∈ relativeTerms, e.1.toList = a.toList ++ ' ' :: e'.1.toList := by
      have hcheck := List.all_eq_true.mp (List.all_eq_true.mp articles_relativeTerms e he) a ha
      simpa [hfirst] using hcheck
    -- the article is one of the phrase's own words, and the phrase goes on as another one
    obtain ⟨e', he', hsplit⟩ := hrest
    rw [hsplit, List.append_assoc, List.append_cancel_left_eq, List.cons_append,
      List.cons.injEq] at h
    rw [h.2]
    refine opened_of_relativeDays? (List.lookup_isSome_iff.mpr ⟨e', he', ?_⟩) hu
    rw [String.ofList_toList, beq_self_eq_true]

theorem opened_body_of_readRelative? (h : readRelative? (unwords (ws.map String.toList)) = some r) :
    Opened nearOpeners (unwords ((dropArticle ws).map String.toList)) :=
  opened_body_of_near (u := []) (isSome_of_readRelative? h) nofun (List.append_nil _).symm

theorem opened_body_of_readArithmetic? (hws : ∀ w ∈ ws.map String.toList, IsWord w)
    (h : readArithmetic? (unwords (ws.map String.toList)) = some r) :
    Opened nearOpeners (unwords ((dropArticle ws).map String.toList)) := by
  obtain ⟨t, u, hsplit, hnear, hclosed, -⟩ := parts_of_readArithmetic? hws h
  exact opened_body_of_near hnear hclosed hsplit

theorem not_digit_of_relativeDays? {t : List Char}
    (h : (relativeDays? (String.ofList t)).isSome) : ∀ c ∈ t, c.isDigit = false := by
  have hplain : (relativeTerms.all fun e => e.1.toList.all fun c => !c.isDigit) = true := by
    decide
  obtain ⟨e, he, hterm⟩ := mem_of_lookup h
  have htext : e.1.toList = t := by rw [hterm, String.toList_ofList]
  intro c hc
  rw [← htext] at hc
  simpa using List.all_eq_true.mp (List.all_eq_true.mp hplain e he) c hc

/-- A shifted day has an amount in digits, which no phrase for a day near today has. -/
theorem readArithmetic?_ne_of_readRelative? {vs : List (List Char)} (hvs : ∀ w ∈ vs, IsWord w)
    (h : readRelative? (unwords vs) = some r) : readArithmetic? (unwords vs) ≠ some r' := by
  intro h'
  obtain ⟨t, u, hsplit, -, -, c, hc, hdigit⟩ := parts_of_readArithmetic? hvs h'
  have hmem : c ∈ unwords vs := by simp [hsplit, hc]
  rw [not_digit_of_relativeDays? (isSome_of_readRelative? h) c hmem] at hdigit
  cases hdigit

/-- Phrases with a weekday or a month begin otherwise than phrases for days near today. -/
theorem differ_openers : (namingOpeners.all fun v => nearOpeners.all fun w =>
    differ (begins v) (begins w)) = true := by
  simp only [namingOpeners, nearOpeners, fullWeekdays, shortWeekdays, months, ordinals,
    relativeTerms, ordinalEndings, List.cons_append, List.nil_append, List.map_cons, List.map_nil,
    String.reduceToList]
  decide

theorem not_opened_near {t : List Char} (h : Opened namingOpeners t) : ¬ Opened nearOpeners t := by
  rintro ⟨w, hw, hnear⟩
  obtain ⟨v, hv, hnaming⟩ := h
  have hdiffer := List.all_eq_true.mp (List.all_eq_true.mp differ_openers v hv) w hw
  exact not_outlines_of_differ hdiffer hnaming hnear

/-! ### At most one shape -/

/-- What the five shapes make of a text, in the order in which they are tried. -/
def readings (s : List Char) : List (Option Reading) :=
  let ws := (wordsOf s).map String.ofList
  let text := unwords (wordsOf s)
  [readNamedWeekday? ws, readOrdinalWeekday? ws, readMonthDay? ws, readRelative? text,
    readArithmetic? text]

theorem findSome?_readings (s : List Char) : (readings s).findSome? id = read? s := by
  have hfirst : ∀ a b c d e : Option Reading,
      [a, b, c, d, e].findSome? id = (a <|> b <|> c <|> d <|> e) := by
    rintro (_ | _) (_ | _) (_ | _) (_ | _) (_ | _) <;> rfl
  exact hfirst ..

theorem none_or_none {α : Type} {a b : Option α} (h : ∀ x y, a = some x → b ≠ some y) :
    a = none ∨ b = none := by
  cases a with
  | none => exact Or.inl rfl
  | some x =>
    cases b with
    | none => exact Or.inr rfl
    | some y => exact absurd rfl (h x y rfl)

theorem pairwise_readings (s : List Char) :
    (readings s).Pairwise fun a b => a = none ∨ b = none := by
  have hword : ∀ w ∈ wordsOf s, IsWord w := fun _ => isWord_of_mem_words
  have hchars := map_toList_map_ofList (wordsOf s)
  simp only [readings]
  generalize (wordsOf s).map String.ofList = ws at hchars ⊢
  rw [← hchars] at hword ⊢
  have hnear {a b : Option Reading}
      (ha : ∀ r, a = some r → Opened namingOpeners (unwords ((dropArticle ws).map String.toList)))
      (hb : ∀ r, b = some r → Opened nearOpeners (unwords ((dropArticle ws).map String.toList))) :
      a = none ∨ b = none :=
    none_or_none fun r r' h h' => not_opened_near (ha r h) (hb r' h')
  have hnamed {b : Option Reading}
      (hb : ∀ r, b = some r → ∃ w ∈ dropArticle ws, (month? w).isSome) :
      readNamedWeekday? ws = none ∨ b = none :=
    none_or_none fun r r' h h' => not_month_of_readNamedWeekday? h (hb r' h')
  have hrelative := fun r => @opened_body_of_readRelative? ws r
  have harithmetic := fun r => opened_body_of_readArithmetic? (r := r) hword
  simp only [List.pairwise_cons, List.forall_mem_cons, List.not_mem_nil, false_imp_iff,
    implies_true, and_true, List.Pairwise.nil]
  refine ⟨⟨?_, ?_, ?_, ?_⟩, ⟨?_, ?_, ?_⟩, ⟨?_, ?_⟩, ?_⟩
  · exact hnamed fun r h => (month_of_readOrdinalWeekday? h).2
  · exact hnamed fun r h => (month_of_readMonthDay? h).2
  · exact hnear (fun r => opened_of_readNamedWeekday?) hrelative
  · exact hnear (fun r => opened_of_readNamedWeekday?) harithmetic
  · refine none_or_none fun r r' h h' => ?_
    have hmore := (month_of_readOrdinalWeekday? h).1
    have hfewer := (month_of_readMonthDay? h').1
    omega
  · exact hnear (fun r => opened_of_readOrdinalWeekday?) hrelative
  · exact hnear (fun r => opened_of_readOrdinalWeekday?) harithmetic
  · exact hnear (fun r => opened_of_readMonthDay?) hrelative
  · exact hnear (fun r => opened_of_readMonthDay?) harithmetic
  · exact none_or_none fun r r' => readArithmetic?_ne_of_readRelative? hword

theorem findSome?_eq_some_iff_mem {α : Type} {l : List (Option α)}
    (h : l.Pairwise fun a b => a = none ∨ b = none) (a : α) :
    l.findSome? id = some a ↔ some a ∈ l := by
  induction h with
  | nil => simp
  | @cons x l hx _ ih =>
    cases x with
    | none => simpa using ih
    | some b =>
      have hnone : some a ∉ l := fun ha => (hx _ ha).elim nofun nofun
      simp [hnone, eq_comm]

/-- At most one of the five shapes reads a text. So the reading of the text does not depend on the
order in which the shapes are tried. -/
theorem readings_disjoint (s : List Char) :
    (readings s).Pairwise (fun a b => a = none ∨ b = none) ∧
      ∀ l : List (Option Reading), l.Perm (readings s) → l.findSome? id = read? s := by
  have hpairwise := pairwise_readings s
  refine ⟨hpairwise, fun l hl => ?_⟩
  have hl' : l.Pairwise fun a b => a = none ∨ b = none :=
    hl.symm.pairwise hpairwise Or.symm
  refine Option.ext fun r => ?_
  rw [← findSome?_readings, findSome?_eq_some_iff_mem hl', findSome?_eq_some_iff_mem hpairwise,
    hl.mem_iff]

end Reckon.DatePhrase
