/-
What marks date phrases.

A date phrase begins with a word of the vocabulary, with a day in digits and a month or the ending
of an ordinal behind it, or with an article. Behind the article "el" the next word counts, because
"el doble de" is a way to begin a formula.

* `Opened` : texts that begin with a word of the vocabulary.
* `parts_of_readArithmetic?` : a shifted day begins with a day near today.
* `exists_outline_of_date` : date phrases are marked.
-/
import Reckon.DatePhrase.Query
import Reckon.Proofs.Mark

namespace Reckon.DatePhrase

open Text

/-! ### First words -/

/-- The words that may stand first in a phrase with a weekday or a month, behind an article or
without one, with what they have in digits left out. -/
def namingOpeners : List (List Char) :=
  List.flatten [
    (fullWeekdays ++ shortWeekdays).map fun e => e.1.toList,
    months.map fun e => e.1.toList,
    ordinals.map fun e => e.1.toList.dropWhile runChars.contains,
    ordinalEndings.map String.toList,
    ["próximo", "proximo", "next", "last", "this", "de"].map String.toList]

/-- The words that may stand first in a phrase for a day near today. -/
def nearOpeners : List (List Char) :=
  relativeTerms.map fun e => e.1.toList.takeWhile fun c => c ≠ ' '

/-- The words that may stand first in a date phrase. -/
def openers : List (List Char) :=
  namingOpeners ++ (nearOpeners ++ ["the", "este"].map String.toList)

/-- The text begins with one of these words, perhaps behind characters of amounts. -/
def Opened (vs : List (List Char)) (t : List Char) : Prop :=
  ∃ w ∈ vs, Outlines (begins w) t

variable {vs : List (List Char)}

theorem Opened.run {t : List Char} (h : Opened vs t) {d : List Char}
    (hd : ∀ c ∈ d, c ∈ runChars) : Opened vs (d ++ t) := by
  obtain ⟨w, hw, e, t', rfl, he, ht'⟩ := h
  refine ⟨w, hw, d ++ e, t', (List.append_assoc ..).symm, fun c hc => ?_, ht'⟩
  rcases List.mem_append.mp hc with hc | hc
  · exact hd c hc
  · exact he c hc

theorem Opened.mono {t : List Char} (h : Opened vs t) {vs' : List (List Char)} (hvs : vs ⊆ vs') :
    Opened vs' t := by
  obtain ⟨w, hw, ht⟩ := h
  exact ⟨w, hvs hw, ht⟩

theorem opened_unwords {w : List Char} (hw : w ∈ vs) (ws : List (List Char)) :
    Opened vs (unwords (w :: ws)) :=
  ⟨w, hw, outlines_begins_unwords (d := []) nofun w ws⟩

theorem namingOpeners_subset : namingOpeners ⊆ openers :=
  List.subset_append_left ..

theorem nearOpeners_subset : nearOpeners ⊆ openers :=
  fun _ hw => List.mem_append_right _ (List.mem_append_left _ hw)

/-! ### The vocabulary -/

theorem mem_of_lookup {α : Type} {table : WordTable α} {w : String}
    (h : (table.lookup w).isSome) : ∃ e ∈ table, e.1 = w := by
  obtain ⟨e, he, heq⟩ := List.lookup_isSome_iff.mp h
  exact ⟨e, he, (beq_iff_eq.mp heq).symm⟩

theorem weekday_mem_openers {w : String} (h : (weekday? w).isSome) :
    w.toList ∈ namingOpeners := by
  obtain ⟨e, he, rfl⟩ := mem_of_lookup h
  exact List.mem_flatten.mpr ⟨_, .head _, List.mem_map_of_mem he⟩

theorem fullWeekday_mem_openers {w : String} (h : (fullWeekday? w).isSome) :
    w.toList ∈ namingOpeners := by
  obtain ⟨e, he, rfl⟩ := mem_of_lookup h
  exact List.mem_flatten.mpr ⟨_, .head _, List.mem_map_of_mem (List.mem_append_left _ he)⟩

theorem month_mem_openers {w : String} (h : (month? w).isSome) : w.toList ∈ namingOpeners := by
  obtain ⟨e, he, rfl⟩ := mem_of_lookup h
  exact List.mem_flatten.mpr ⟨_, .tail _ (.head _), List.mem_map_of_mem he⟩

theorem ending_mem_openers {w : String} (h : w ∈ ordinalEndings) : w.toList ∈ namingOpeners :=
  List.mem_flatten.mpr ⟨_, .tail _ (.tail _ (.tail _ (.head _))), List.mem_map_of_mem h⟩

theorem word_mem_openers {w : String}
    (h : w ∈ ["próximo", "proximo", "next", "last", "this", "de"]) : w.toList ∈ namingOpeners :=
  List.mem_flatten.mpr
    ⟨_, .tail _ (.tail _ (.tail _ (.tail _ (.head _)))), List.mem_map_of_mem h⟩

/-- An ordinal in digits has an ending, so no ordinal is digits alone. -/
theorem opened_of_ordinal? {w : String} (h : (ordinal? w).isSome) (ws : List (List Char)) :
    Opened namingOpeners (unwords (w.toList :: ws)) := by
  obtain ⟨e, he, rfl⟩ := mem_of_lookup h
  have hmem : e.1.toList.dropWhile runChars.contains ∈ namingOpeners :=
    List.mem_flatten.mpr ⟨_, .tail _ (.tail _ (.head _)), List.mem_map.mpr ⟨e, he, rfl⟩⟩
  rw [← List.takeWhile_append_dropWhile (p := runChars.contains) (l := e.1.toList),
    unwords_append_cons]
  refine (opened_unwords hmem ws).run fun c hc => ?_
  simpa using List.all_eq_true.mp List.all_takeWhile c hc

/-- A day near today, with nothing behind it or with a sign. -/
theorem opened_of_relativeDays? {t u : List Char} (h : (relativeDays? (String.ofList t)).isSome)
    (hu : ∀ c ∈ u.head?, c ∈ closers) : Opened nearOpeners (t ++ u) := by
  obtain ⟨e, he, heq⟩ := mem_of_lookup h
  have ht : e.1.toList = t := by rw [heq, String.toList_ofList]
  have hmem : (t.takeWhile fun c => c ≠ ' ') ∈ nearOpeners := by
    rw [← ht]
    exact List.mem_map.mpr ⟨e, he, rfl⟩
  have hhead : ∀ c ∈ ((t.dropWhile fun c => c ≠ ' ') ++ u).head?, c ∈ closers := by
    intro c hc
    have hnot := List.head?_dropWhile_not (fun c => decide (c ≠ ' ')) t
    cases hrest : t.dropWhile fun c => c ≠ ' ' with
    | nil =>
      rw [hrest] at hc
      exact hu c hc
    | cons b r =>
      rw [hrest] at hc hnot
      have hb : b = ' ' := by simpa using hnot
      cases hc
      rw [hb]
      decide
  have houtline := outlines_begins (d := []) nofun (t.takeWhile fun c => c ≠ ' ') hhead
  rw [List.nil_append, ← List.append_assoc, List.takeWhile_append_dropWhile] at houtline
  exact ⟨_, hmem, houtline⟩

/-! ### Days of a month -/

theorem eq_append_of_stripSuffix? {e s r : List Char} (h : stripSuffix? e s = some r) :
    s = r ++ e := by
  rw [stripSuffix?, Option.map_eq_some_iff] at h
  obtain ⟨r', hr', rfl⟩ := h
  have hs := congrArg List.reverse (stripPrefix?_eq_some.mp hr')
  rwa [List.reverse_reverse, List.reverse_append, List.reverse_reverse] at hs

/-- A day is characters of amounts with the ending of an ordinal or without one. -/
theorem split_of_readDay? {word : String} (h : (readDay? word).isSome) :
    ∃ d, (∀ c ∈ d, c ∈ runChars) ∧
      (word.toList = d ∨ ∃ e ∈ ordinalEndings, word.toList = d ++ e.toList) := by
  rw [readDay?] at h
  split at h
  · next hdigits =>
    have hsplit : word.toList = dropOrdinalEnding word.toList ∨
        ∃ e ∈ ordinalEndings, word.toList = dropOrdinalEnding word.toList ++ e.toList := by
      rw [dropOrdinalEnding]
      cases hfind : ordinalEndings.findSome? fun e => stripSuffix? e.toList word.toList with
      | none => exact Or.inl rfl
      | some r =>
        obtain ⟨e, he, hstrip⟩ := List.exists_of_findSome?_eq_some hfind
        exact Or.inr ⟨e, he, eq_append_of_stripSuffix? hstrip⟩
    refine ⟨dropOrdinalEnding word.toList, ?_, hsplit⟩
    have hall := List.all_eq_true.mp hdigits.2
    generalize dropOrdinalEnding word.toList = d at hall
    have hdigit : ∀ c, c.isDigit = true → c ∈ runChars := by
      have hmem : ∀ c ∈ ['0', '1', '2', '3', '4', '5', '6', '7', '8', '9'], c ∈ runChars := by
        decide
      exact fun c hc => hmem c (Formula.mem_of_isDigit hc)
    unfold dropPlus at hall
    split at hall
    · intro c hc
      rcases List.mem_cons.mp hc with rfl | hc
      · decide
      · exact hdigit c (hall c hc)
    · exact fun c hc => hdigit c (hall c hc)
  · cases h

/-- A day with a word of the vocabulary behind it. -/
theorem opened_of_readDay? {word : String} (h : (readDay? word).isSome) {w : List Char}
    (hw : w ∈ namingOpeners) (ws : List (List Char)) :
    Opened namingOpeners (unwords (word.toList :: w :: ws)) := by
  obtain ⟨d, hd, hword | ⟨e, he, hword⟩⟩ := split_of_readDay? h
  · have hspace : ∀ c ∈ d ++ [' '], c ∈ runChars := by
      intro c hc
      rcases List.mem_append.mp hc with hc | hc
      · exact hd c hc
      · rw [List.mem_singleton.mp hc]
        decide
    have hopened := (opened_unwords hw ws).run hspace
    rwa [hword, unwords_cons (by simp), ← List.singleton_append, ← List.append_assoc]
  · rw [hword, unwords_append_cons]
    exact (opened_unwords (ending_mem_openers he) _).run hd

/-! ### Phrases -/

theorem isSome_of_namedWeekdayOf {w : Option (Calendar.Weekday × Language)} {q : Qualifier}
    {r : Reading} (h : namedWeekdayOf w q = some r) : w.isSome := by
  rw [namedWeekdayOf, Option.map_eq_some_iff] at h
  obtain ⟨_, hw, -⟩ := h
  rw [hw]
  rfl

theorem opened_of_readNamedWeekday? {ws : List String} {r : Reading}
    (h : readNamedWeekday? ws = some r) :
    Opened namingOpeners (unwords ((dropArticle ws).map String.toList)) := by
  rw [readNamedWeekday?] at h
  generalize dropArticle ws = body at h
  have hweekday {w : String} {q : Qualifier} (h : namedWeekdayOf (weekday? w) q = some r)
      (ws : List (List Char)) : Opened namingOpeners (unwords (w.toList :: ws)) :=
    opened_unwords (weekday_mem_openers (isSome_of_namedWeekdayOf h)) ws
  split at h
  · exact opened_unwords (fullWeekday_mem_openers (isSome_of_namedWeekdayOf h)) _
  · exact hweekday h _
  · exact hweekday h _
  · exact opened_unwords (word_mem_openers (by simp)) _
  · exact opened_unwords (word_mem_openers (by simp)) _
  · exact opened_unwords (word_mem_openers (by simp)) _
  · exact opened_unwords (word_mem_openers (by simp)) _
  · exact opened_unwords (word_mem_openers (by simp)) _
  · cases h

theorem opened_of_readOrdinalWeekday? {ws : List String} {r : Reading}
    (h : readOrdinalWeekday? ws = some r) :
    Opened namingOpeners (unwords ((dropArticle ws).map String.toList)) := by
  rw [readOrdinalWeekday?] at h
  generalize dropArticle ws = body at h
  have hordinal {o w m : String} (h : ordinalWeekdayOf o w m = some r) (ws : List (List Char)) :
      Opened namingOpeners (unwords (o.toList :: ws)) := by
    obtain ⟨x, hx, -⟩ := Option.bind_eq_some_iff.mp h
    exact opened_of_ordinal? (by rw [hx]; rfl) ws
  split at h
  · exact hordinal h _
  · exact hordinal h _
  · exact hordinal h _
  · cases h

theorem isSome_of_monthDayOf {m d : String} {r : Reading} (h : monthDayOf m d = some r) :
    (month? m).isSome ∧ (readDay? d).isSome := by
  obtain ⟨x, hmonth, h⟩ := Option.bind_eq_some_iff.mp h
  obtain ⟨n, hday, -⟩ := Option.bind_eq_some_iff.mp h
  rw [hmonth, hday]
  exact ⟨rfl, rfl⟩

theorem opened_of_readMonthDay? {ws : List String} {r : Reading} (h : readMonthDay? ws = some r) :
    Opened namingOpeners (unwords ((dropArticle ws).map String.toList)) := by
  rw [readMonthDay?] at h
  generalize dropArticle ws = body at h
  split at h
  · obtain ⟨-, hday⟩ := isSome_of_monthDayOf h
    exact opened_of_readDay? hday (word_mem_openers (by simp)) _
  · split at h
    · next hmonth => exact opened_unwords (month_mem_openers hmonth) _
    · obtain ⟨hmonth, hday⟩ := isSome_of_monthDayOf h
      exact opened_of_readDay? hday (month_mem_openers hmonth) _
  · cases h

theorem isSome_of_readRelative? {s : List Char} {r : Reading} (h : readRelative? s = some r) :
    (relativeDays? (String.ofList s)).isSome := by
  rw [readRelative?, Option.map_eq_some_iff] at h
  obtain ⟨x, hx, -⟩ := h
  rw [hx]
  rfl

theorem opened_of_readRelative? {s : List Char} {r : Reading} (h : readRelative? s = some r) :
    Opened nearOpeners s := by
  have hopened := opened_of_relativeDays? (u := []) (isSome_of_readRelative? h) nofun
  rwa [List.append_nil] at hopened

theorem mem_closers_of_isSign {c : Char} (h : isSign c = true) : c ∈ closers := by
  rw [isSign, Bool.or_eq_true, beq_iff_eq, beq_iff_eq] at h
  rcases h with rfl | rfl <;> simp [closers]

/-- What a sign splits off the front ends before a space or a sign character. -/
theorem append_of_splitSigned? {s base rest : List Char} {sign : Int}
    (h : splitSigned? s = some (base, sign, rest)) :
    ∃ v, s = base ++ (v ++ rest) ∧ v ≠ [] ∧ ∀ c ∈ v.head?, c ∈ closers := by
  rw [splitSigned?] at h
  split at h
  · next hfind =>
    obtain ⟨⟨w, x⟩, hw, hsplit⟩ := List.exists_of_findSome?_eq_some hfind
    obtain ⟨⟨a, b⟩, hab, heq⟩ := Option.map_eq_some_iff.mp hsplit
    cases heq
    cases h
    have hspace : ∀ e ∈ signWords, ∃ t, e.1.toList = ' ' :: t := by
      have hhead : ∀ e ∈ signWords, e.1.toList = ' ' :: e.1.toList.tail := by decide
      exact fun e he => ⟨_, hhead e he⟩
    obtain ⟨t, ht⟩ := hspace _ hw
    rw [ht] at hab
    refine ⟨' ' :: t, ?_, by simp, by simp [closers]⟩
    rw [eq_append_of_splitOnce? hab, List.append_assoc]
  · split at h
    · cases h
    · next c r hrest =>
      cases h
      have hsplit := List.takeWhile_append_dropWhile (p := fun c => !isSign c) (l := s)
      rw [hrest] at hsplit
      refine ⟨[c], hsplit.symm, by simp, ?_⟩
      have hnot := List.head?_dropWhile_not (fun c => !isSign c) s
      rw [hrest] at hnot
      have hsign : isSign c = true := by simpa using hnot
      simpa using mem_closers_of_isSign hsign

/-- An amount has a digit. -/
theorem exists_digit_of_readShift? {s : List Char} (h : (readShift? s).isSome) :
    ∃ c ∈ s, c.isDigit = true := by
  obtain ⟨b, b', hs, -, -⟩ := exists_trim s
  simp only [readShift?, Number.spanDigits, List.span_eq_takeWhile_dropWhile] at h
  split at h
  · next hdigits =>
    obtain ⟨c, ds, hds⟩ := List.exists_cons_of_ne_nil hdigits.1
    have hc : c ∈ (trim s).takeWhile Char.isDigit := by simp [hds]
    have htrim : c ∈ trim s := List.takeWhile_subset _ hc
    refine ⟨c, ?_, List.all_eq_true.mp List.all_takeWhile c hc⟩
    rw [hs]
    simp [htrim]
  · cases h

/-- A shifted day begins with a day near today. Behind it stand a space or a sign and, further on, a
digit. -/
theorem parts_of_readArithmetic? {ws : List (List Char)} (hws : ∀ w ∈ ws, IsWord w) {r : Reading}
    (h : readArithmetic? (unwords ws) = some r) : ∃ t u, unwords ws = t ++ u ∧
      (relativeDays? (String.ofList t)).isSome ∧ (∀ c ∈ u.head?, c ∈ closers) ∧
      ∃ c ∈ u, c.isDigit = true := by
  obtain ⟨⟨base, sign, rest⟩, hsplit, h⟩ := Option.bind_eq_some_iff.mp h
  obtain ⟨x, hbase, h⟩ := Option.bind_eq_some_iff.mp h
  obtain ⟨y, hshift, -⟩ := Option.bind_eq_some_iff.mp h
  obtain ⟨v, hv, hne, hclosed⟩ := append_of_splitSigned? hsplit
  obtain ⟨c, hc, hdigit⟩ := exists_digit_of_readShift? (s := rest) (by rw [hshift]; rfl)
  obtain ⟨b, b', htrim, hb, hb'⟩ := exists_trim base
  generalize trim base = t at htrim hbase
  rw [htrim, List.append_assoc, List.append_assoc] at hv
  -- the text does not begin with a blank
  have hnil : b = [] := by
    cases b with
    | nil => rfl
    | cons d b =>
      have hd := head_unwords hws d (by rw [hv]; rfl)
      rw [hb d (by simp)] at hd
      cases hd
  rw [hnil, List.nil_append] at hv
  refine ⟨t, b' ++ (v ++ rest), hv, by rw [hbase]; rfl, ?_, c, by simp [hc], hdigit⟩
  cases b' with
  | nil =>
    obtain ⟨d, v, rfl⟩ := List.exists_cons_of_ne_nil hne
    exact hclosed
  | cons d b' =>
    intro e he
    cases he
    have hmem : d ∈ unwords ws := by simp [hv]
    rw [eq_space_of_isBlank hws hmem (hb' d (by simp))]
    decide

theorem opened_of_readArithmetic? {ws : List (List Char)} (hws : ∀ w ∈ ws, IsWord w) {r : Reading}
    (h : readArithmetic? (unwords ws) = some r) : Opened nearOpeners (unwords ws) := by
  obtain ⟨t, u, htext, hnear, hclosed, -⟩ := parts_of_readArithmetic? hws h
  rw [htext]
  exact opened_of_relativeDays? hnear hclosed

/-! ### Articles -/

/-- The outlines of date phrases, without the article "el" and with it. -/
def outlines : List (List Segment) :=
  openers.map begins ++ openers.map fun w => outline ['e', 'l', ' '] ++ begins w

theorem eq_or_eq_cons_dropArticle (ws : List String) :
    dropArticle ws = ws ∨ ∃ a ∈ articles, dropArticle ws ≠ [] ∧ ws = a :: dropArticle ws := by
  unfold dropArticle
  split
  · next w v vs =>
    split
    · next hw => exact Or.inr ⟨w, hw, by simp, rfl⟩
    · exact Or.inl rfl
  · exact Or.inl rfl

theorem exists_outline_of_opened {t : List Char} (h : Opened openers t) :
    ∃ q ∈ outlines, Outlines q t := by
  obtain ⟨w, hw, ht⟩ := h
  exact ⟨_, List.mem_append_left _ (List.mem_map_of_mem hw), ht⟩

theorem exists_outline_of_dropArticle {ws : List String}
    (h : Opened namingOpeners (unwords ((dropArticle ws).map String.toList))) :
    ∃ q ∈ outlines, Outlines q (unwords (ws.map String.toList)) := by
  rcases eq_or_eq_cons_dropArticle ws with heq | ⟨a, ha, hne, heq⟩
  · rw [heq] at h
    exact exists_outline_of_opened (h.mono namingOpeners_subset)
  · generalize dropArticle ws = body at h hne heq
    subst heq
    rw [List.map_cons]
    by_cases hel : a = "el"
    · subst hel
      obtain ⟨w, hw, ht⟩ := h.mono namingOpeners_subset
      refine ⟨_, List.mem_append_right _ (List.mem_map_of_mem hw), ?_⟩
      have hword := ht.append_word ['e', 'l', ' ']
      rw [unwords_cons (by simpa using hne)]
      exact hword
    · have ha' : a ∈ ["the", "este"] := by
        simp only [articles, List.mem_cons, List.not_mem_nil, or_false] at ha
        rcases ha with rfl | rfl | rfl
        · simp
        · exact absurd rfl hel
        · simp
      have hmem : a.toList ∈ openers :=
        List.mem_append_right _ (List.mem_append_right _ (List.mem_map_of_mem ha'))
      exact exists_outline_of_opened (opened_unwords hmem _)

/-- Every date phrase has one of the outlines. -/
theorem exists_outline_of_date {s : List Char} {r : Reading} (h : read? s = some r) :
    ∃ q ∈ outlines, Outlines q (collapse (lower s)) := by
  have hwords := map_toList_map_ofList (wordsOf s)
  have hbody (h : Opened namingOpeners (unwords ((dropArticle ((wordsOf s).map String.ofList)).map
      String.toList))) : ∃ q ∈ outlines, Outlines q (collapse (lower s)) := by
    have houtline := exists_outline_of_dropArticle h
    rwa [hwords] at houtline
  have hwhole (h : Opened nearOpeners (unwords (wordsOf s))) :
      ∃ q ∈ outlines, Outlines q (collapse (lower s)) :=
    exists_outline_of_opened (h.mono nearOpeners_subset)
  simp only [read?, Option.orElse_eq_orElse, Option.orElse_eq_or, Option.or_eq_some_iff] at h
  rcases h with h | ⟨-, h | ⟨-, h | ⟨-, h | ⟨-, h⟩⟩⟩⟩
  · exact hbody (opened_of_readNamedWeekday? h)
  · exact hbody (opened_of_readOrdinalWeekday? h)
  · exact hbody (opened_of_readMonthDay? h)
  · exact hwhole (opened_of_readRelative? h)
  · exact hwhole (opened_of_readArithmetic? (fun _ => isWord_of_mem_words) h)

/-! ### Marks -/

theorem marked_openers : (openers.all fun w =>
    Formula.illegible (begins w) && marked (outline ['e', 'l', ' '] ++ begins w)) = true := by
  simp only [openers, namingOpeners, nearOpeners, fullWeekdays, shortWeekdays, months, ordinals,
    relativeTerms, ordinalEndings, List.cons_append, List.nil_append, List.map_cons, List.map_nil,
    String.reduceToList]
  decide +kernel

theorem marked_of_mem_outlines {q : List Segment} (hq : q ∈ outlines) : marked q = true := by
  have hopener {w : List Char} (hw : w ∈ openers) :
      Formula.illegible (begins w) = true ∧ marked (outline ['e', 'l', ' '] ++ begins w) = true := by
    simpa using List.all_eq_true.mp marked_openers w hw
  rcases List.mem_append.mp hq with hq | hq
  · obtain ⟨w, hw, rfl⟩ := List.mem_map.mp hq
    exact marked_of_append (hopener hw).2 (hopener hw).1
  · obtain ⟨w, hw, rfl⟩ := List.mem_map.mp hq
    exact (hopener hw).2

/-- The words that tell date phrases from conversions: the openers and the article. -/
def leads : List (List Char) :=
  ['e', 'l'] :: openers

/-- What differs from all of these words is no date phrase. -/
theorem differ_of_mem_outlines {q q' : List Segment}
    (h : (leads.all fun w => differ q (begins w)) = true) (hq' : q' ∈ outlines) :
    differ q q' = true := by
  rw [List.all_eq_true] at h
  rcases List.mem_append.mp hq' with hq' | hq'
  · obtain ⟨w, hw, rfl⟩ := List.mem_map.mp hq'
    exact h w (List.mem_cons_of_mem _ hw)
  · obtain ⟨w, hw, rfl⟩ := List.mem_map.mp hq'
    exact h ['e', 'l'] (List.mem_cons_self ..)

end Reckon.DatePhrase
