/-
Phrases for shifted days.

A phrase for a shifted day is a day near today, a sign, an amount in digits and a unit, written with
blanks between them or, where the sign is a character, without. With signs and digits hidden its
words are those of its parts, and no part has a word for a sign but the sign itself. So whatever
sign is looked for first, the phrase is split at its own sign; the parts are then read by
themselves, and the other shapes of phrases have no part in this.

* `ShiftText` : phrases in their parts.
* `ShiftText.collapse_chars` : a phrase with single spaces.
* `ShiftText.words_hidden` : the words of a phrase, signs and digits apart.
* `ShiftText.exists_splitSigned?` : a phrase is split at its sign.
* `read?_shiftText` : what a phrase is read as.
-/
import Reckon.Proofs.PhraseShapes

namespace Reckon.DatePhrase

open Text Number

/-! ### Parts of phrases -/

/-- The characters for signs. -/
def signMarks : List (String × Int) :=
  [("+", 1), ("-", -1)]

/-- The words for signs, without the spaces around them. -/
def signNames : List (String × Int) :=
  [("plus", 1), ("más", 1), ("mas", 1), ("minus", -1), ("menos", -1)]

/-- A phrase for a shifted day in its parts: a day near today, a sign, an amount in digits and a
unit, with the blanks behind all of them but the unit. A word for a sign has blanks on either
side. -/
structure ShiftText where
  term : String
  days : Int
  termLanguage : Language
  term_mem : (term, days, termLanguage) ∈ relativeTerms
  behindTerm : List Char
  isBlank_behindTerm : ∀ c ∈ behindTerm, isBlank c = true
  sign : String
  direction : Int
  behindSign : List Char
  isBlank_behindSign : ∀ c ∈ behindSign, isBlank c = true
  sign_mem : (sign, direction) ∈ signMarks ∨
    (sign, direction) ∈ signNames ∧ behindTerm ≠ [] ∧ behindSign ≠ []
  digits : List Char
  digits_ne_nil : digits ≠ []
  isDigit_digits : ∀ c ∈ digits, c.isDigit = true
  behindDigits : List Char
  isBlank_behindDigits : ∀ c ∈ behindDigits, isBlank c = true
  unit : String
  dateUnit : DateUnit
  unitLanguage : Language
  unit_mem : (unit, dateUnit, unitLanguage) ∈ dateUnits

namespace ShiftText

/-- The characters of the phrase. -/
def chars (t : ShiftText) : List Char :=
  t.term.toList ++ (t.behindTerm ++ (t.sign.toList ++ (t.behindSign ++
    (t.digits ++ (t.behindDigits ++ t.unit.toList)))))

/-- The amount and the unit, with at most one space between them. -/
def shift (t : ShiftText) : List Char :=
  t.digits ++ (gap t.behindDigits ++ t.unit.toList)

/-- The characters of the phrase, with at most one space between its parts. -/
def tidied (t : ShiftText) : List Char :=
  t.term.toList ++ (gap t.behindTerm ++ (t.sign.toList ++ (gap t.behindSign ++ t.shift)))

end ShiftText

/-! ### The vocabulary of shifts -/

theorem signWords_eq : signWords = signNames.map fun e => (" " ++ e.1 ++ " ", e.2) := rfl

theorem toList_spaced (w : String) : (" " ++ w ++ " ").toList = ' ' :: (w.toList ++ [' ']) := by
  simp

/-- The character is one that no word of the vocabulary has: a sign or a digit. -/
def isFigure (c : Char) : Bool :=
  isSign c || c.isDigit

theorem isFigure_eq_false_iff {c : Char} :
    isFigure c = false ↔ isSign c = false ∧ c.isDigit = false :=
  Bool.or_eq_false_iff

theorem relativeDays?_of_mem : ∀ e ∈ relativeTerms, relativeDays? e.1 = some e.2 := by
  decide

theorem tidied_relativeTerms : ∀ e ∈ relativeTerms,
    words e.1.toList ≠ [] ∧ unwords (words e.1.toList) = e.1.toList := by
  decide

theorem plain_relativeTerms : ∀ e ∈ relativeTerms, ∀ c ∈ e.1.toList, isFigure c = false := by
  decide

theorem signName_not_mem_words : ∀ e ∈ relativeTerms, ∀ n ∈ signNames,
    n.1.toList ∉ words e.1.toList := by
  decide

theorem dateUnit?_of_mem : ∀ e ∈ dateUnits, dateUnit? e.1 = some e.2 := by
  decide

theorem isWord_of_mem_dateUnits : ∀ e ∈ dateUnits, IsWord e.1.toList := by
  unfold IsWord
  decide

theorem plain_dateUnits : ∀ e ∈ dateUnits, ∀ c ∈ e.1.toList, isFigure c = false := by
  decide

theorem signName_ne_dateUnit : ∀ e ∈ dateUnits, ∀ n ∈ signNames, n.1 ≠ e.1 := by
  decide

theorem isWord_of_mem_signNames : ∀ n ∈ signNames, IsWord n.1.toList := by
  unfold IsWord
  decide

theorem plain_signNames : ∀ n ∈ signNames, ∀ c ∈ n.1.toList, isFigure c = false := by
  decide

theorem signNames_unique : ∀ n ∈ signNames, ∀ n' ∈ signNames, n.1 = n'.1 → n = n' := by
  decide

theorem char_of_mem_signMarks : ∀ n ∈ signMarks, ∃ c, n.1.toList = [c] ∧ isSign c = true ∧
    (if c = '+' then 1 else -1) = n.2 :=
  List.forall_mem_cons.mpr ⟨⟨'+', by decide⟩, List.forall_mem_singleton.mpr ⟨'-', by decide⟩⟩

theorem isBlank_of_isSign {c : Char} (h : isSign c = true) : isBlank c = false := by
  rw [isSign, Bool.or_eq_true, beq_iff_eq, beq_iff_eq] at h
  rcases h with rfl | rfl <;> decide

/-! ### Hidden signs and digits -/

/-- A space in the place of a sign or a digit. -/
def hide (c : Char) : Char :=
  if isFigure c then ' ' else c

theorem map_hide {s : List Char} (h : ∀ c ∈ s, isFigure c = false) : s.map hide = s :=
  (List.map_congr_left fun c hc => if_neg (by simp [h c hc])).trans (List.map_id s)

theorem isBlank_of_mem_map_hide {s : List Char}
    (h : ∀ c ∈ s, isBlank c = true ∨ isFigure c = true) :
    ∀ c ∈ s.map hide, isBlank c = true := by
  intro c hc
  obtain ⟨d, hd, rfl⟩ := List.mem_map.mp hc
  unfold hide
  split
  · exact isBlank_space
  · next hplain => exact (h d hd).resolve_right hplain

namespace ShiftText

variable (t : ShiftText)

/-! ### Single spaces -/

theorem tidy_term : Tidy t.term.toList := by
  obtain ⟨hne, htidied⟩ := tidied_relativeTerms _ t.term_mem
  rw [← htidied]
  exact tidy_unwords (fun _ => isWord_of_mem_words) hne

theorem isWord_sign : IsWord t.sign.toList := by
  rcases t.sign_mem with hmark | ⟨hname, -⟩
  · obtain ⟨c, hchars, hsign, -⟩ := char_of_mem_signMarks _ hmark
    rw [hchars]
    exact ⟨by simp, by simpa using isBlank_of_isSign hsign⟩
  · exact isWord_of_mem_signNames _ hname

theorem isWord_digits : IsWord t.digits :=
  ⟨t.digits_ne_nil, fun c hc => Formula.isBlank_of_isDigit (t.isDigit_digits c hc)⟩

theorem isWord_unit : IsWord t.unit.toList :=
  isWord_of_mem_dateUnits _ t.unit_mem

theorem tidy_shift : Tidy t.shift :=
  (tidy_of_isWord t.isWord_digits).append_gap (tidy_of_isWord t.isWord_unit) _

theorem tidy_tidied : Tidy t.tidied :=
  t.tidy_term.append_gap ((tidy_of_isWord t.isWord_sign).append_gap t.tidy_shift _) _

/-- One space in the place of the blanks between two parts leaves the words as they are. -/
theorem words_chars : words t.chars = words t.tidied := by
  have hdigits := words_gap (t.term.toList ++ (t.behindTerm ++ (t.sign.toList ++ (t.behindSign ++
    t.digits)))) t.isBlank_behindDigits t.unit.toList
  have hsign := words_gap (t.term.toList ++ (t.behindTerm ++ t.sign.toList)) t.isBlank_behindSign
    t.shift
  have hterm := words_gap t.term.toList t.isBlank_behindTerm
    (t.sign.toList ++ (gap t.behindSign ++ t.shift))
  simp only [List.append_assoc] at hdigits hsign
  rw [chars, hdigits]
  exact hsign.trans hterm

theorem collapse_chars : collapse t.chars = t.tidied := by
  rw [collapse, words_chars]
  exact t.tidy_tidied.collapse_eq_self

/-! ### The sign -/

theorem words_term_sign : words (t.term.toList ++ (gap t.behindTerm ++ t.sign.toList).map hide) =
    words t.term.toList ++ words (t.sign.toList.map hide) := by
  have hgap : ∀ c ∈ gap t.behindTerm, isBlank c = true ∨ isFigure c = true :=
    fun c hc => Or.inl (isBlank_of_mem_gap hc)
  rcases t.sign_mem with hmark | ⟨-, hne, -⟩
  · -- a hidden mark is a blank of its own, so it needs none around it
    obtain ⟨c, hchars, hc, -⟩ := char_of_mem_signMarks _ hmark
    have hsign : ∀ d ∈ t.sign.toList, isBlank d = true ∨ isFigure d = true := by
      intro d hd
      rw [hchars, List.mem_singleton] at hd
      rw [hd]
      exact Or.inr (Bool.or_eq_true_iff.mpr (Or.inl hc))
    have hall : ∀ d ∈ (gap t.behindTerm ++ t.sign.toList).map hide, isBlank d = true :=
      isBlank_of_mem_map_hide fun d hd => (List.mem_append.mp hd).elim (hgap d) (hsign d)
    have hnil : words (t.sign.toList.map hide) = [] :=
      (words_eq_nil_iff _).mpr (isBlank_of_mem_map_hide hsign)
    have hwords := words_append_blanks t.term.toList hall (by simp [hchars]) []
    rw [List.append_nil] at hwords
    rw [hnil]
    exact hwords
  · rw [List.map_append]
    exact words_append_blanks _ (isBlank_of_mem_map_hide hgap) (by simp [gap_of_ne_nil hne]) _

/-- With signs and digits hidden the words of the phrase are those of its parts, also where the
parts stand next to each other. -/
theorem words_hidden : words (t.tidied.map hide) =
    words t.term.toList ++ (words (t.sign.toList.map hide) ++ [t.unit.toList]) := by
  have hbetween : ∀ c ∈ (gap t.behindSign ++ (t.digits ++ gap t.behindDigits)).map hide,
      isBlank c = true := by
    refine isBlank_of_mem_map_hide fun c hc => ?_
    rw [List.mem_append, List.mem_append] at hc
    rcases hc with hc | hc | hc
    · exact Or.inl (isBlank_of_mem_gap hc)
    · exact Or.inr (Bool.or_eq_true_iff.mpr (Or.inr (t.isDigit_digits c hc)))
    · exact Or.inl (isBlank_of_mem_gap hc)
  have hsplit : t.tidied.map hide = (t.term.toList ++ (gap t.behindTerm ++ t.sign.toList).map hide)
      ++ ((gap t.behindSign ++ (t.digits ++ gap t.behindDigits)).map hide ++ t.unit.toList) := by
    simp only [tidied, shift, List.map_append, List.append_assoc,
      map_hide (plain_relativeTerms _ t.term_mem), map_hide (plain_dateUnits _ t.unit_mem)]
  rw [hsplit, words_append_blanks _ hbetween (by simp [t.digits_ne_nil]), words_term_sign,
    t.isWord_unit.words_eq, List.append_assoc]

/-- A word for a sign that stands in the phrase is its sign. -/
theorem mem_words_sign {n : String × Int} (hn : n ∈ signNames) {a r : List Char}
    (h : splitOnce? (' ' :: (n.1.toList ++ [' '])) t.tidied = some (a, r)) :
    n.1.toList ∈ words (t.sign.toList.map hide) := by
  have hspace : hide ' ' = ' ' := by decide
  have hsplit : t.tidied.map hide =
      a.map hide ++ ' ' :: (n.1.toList ++ ' ' :: r.map hide) := by
    rw [eq_append_of_splitOnce? h]
    simp [map_hide (plain_signNames n hn), hspace]
  have hmem := mem_words_between (isWord_of_mem_signNames n hn) (a.map hide) (r.map hide)
  rw [← hsplit, words_hidden, List.mem_append, List.mem_append, List.mem_singleton] at hmem
  rcases hmem with hterm | hsign | hunit
  · exact absurd hterm (signName_not_mem_words _ t.term_mem n hn)
  · exact hsign
  · exact absurd (String.toList_inj.mp hunit) (signName_ne_dateUnit _ t.unit_mem n hn)

/-- What a word for a sign splits off. -/
theorem exists_signName {y : List Char × Int × List Char}
    (h : (signWords.findSome? fun (w, sign) =>
      (splitOnce? w.toList t.tidied).map fun (a, b) => (a, sign, b)) = some y) :
    ∃ n ∈ signNames, n.1.toList ∈ words (t.sign.toList.map hide) ∧
      ∃ a r, splitOnce? (' ' :: (n.1.toList ++ [' '])) t.tidied = some (a, r) ∧
        y = (a, n.2, r) := by
  obtain ⟨e, he, hsplit⟩ := List.exists_of_findSome?_eq_some h
  rw [signWords_eq] at he
  obtain ⟨n, hn, rfl⟩ := List.mem_map.mp he
  obtain ⟨⟨a, r⟩, har, rfl⟩ := Option.map_eq_some_iff.mp hsplit
  rw [toList_spaced] at har
  exact ⟨n, hn, t.mem_words_sign hn har, a, r, har, rfl⟩

theorem splitSigned?_of_mark (h : (t.sign, t.direction) ∈ signMarks) :
    splitSigned? t.tidied =
      some (t.term.toList ++ gap t.behindTerm, t.direction, gap t.behindSign ++ t.shift) := by
  obtain ⟨c, hchars, hsign, hdirection⟩ := char_of_mem_signMarks _ h
  have hfront : ∀ d ∈ t.term.toList ++ gap t.behindTerm, (!isSign d) = true := by
    intro d hd
    rcases List.mem_append.mp hd with hterm | hgap
    · have hplain := plain_relativeTerms _ t.term_mem d hterm
      rw [(isFigure_eq_false_iff.mp hplain).1, Bool.not_false]
    · rw [eq_space_of_mem_gap hgap]
      rfl
  rw [splitSigned?]
  split
  · next y hfind =>
    -- the phrase has no word for a sign, because its sign is hidden
    obtain ⟨n, hn, hmem, -⟩ := t.exists_signName hfind
    have hhide : hide c = ' ' := if_pos (Bool.or_eq_true_iff.mpr (Or.inl hsign))
    rw [hchars, List.map_singleton, hhide, words_of_isBlank _ isBlank_space] at hmem
    cases hmem
  · rw [tidied, ← List.append_assoc, hchars, List.singleton_append,
      List.dropWhile_append_of_pos hfront, List.dropWhile_cons_of_neg (by simp [hsign]),
      List.takeWhile_append_of_pos hfront, List.takeWhile_cons_of_neg (by simp [hsign]),
      List.append_nil]
    exact congrArg (fun d => some (_, d, _)) hdirection

theorem splitOnce?_sign (h : (t.sign, t.direction) ∈ signNames) (hterm : t.behindTerm ≠ [])
    (hsign : t.behindSign ≠ []) :
    splitOnce? (' ' :: (t.sign.toList ++ [' '])) t.tidied = some (t.term.toList, t.shift) := by
  obtain ⟨hne, htidied⟩ := tidied_relativeTerms _ t.term_mem
  have hchars : t.tidied = t.term.toList ++ ' ' :: (t.sign.toList ++ ' ' :: t.shift) := by
    simp [tidied, gap_of_ne_nil hterm, gap_of_ne_nil hsign]
  have hsplit := splitOnce?_unwords t.isWord_sign (fun _ => isWord_of_mem_words) hne
    (signName_not_mem_words _ t.term_mem _ h) t.shift
  rwa [htidied, ← hchars] at hsplit

theorem splitSigned?_of_name (h : (t.sign, t.direction) ∈ signNames) (hterm : t.behindTerm ≠ [])
    (hsign : t.behindSign ≠ []) :
    splitSigned? t.tidied = some (t.term.toList, t.direction, t.shift) := by
  have hsplit := t.splitOnce?_sign h hterm hsign
  rw [splitSigned?]
  split
  · next y hfind =>
    -- whichever word is found, it is the sign
    obtain ⟨n, hn, hmem, a, r, har, rfl⟩ := t.exists_signName hfind
    rw [map_hide (plain_signNames _ h), t.isWord_sign.words_eq, List.mem_singleton] at hmem
    obtain rfl := signNames_unique n hn _ h (String.toList_inj.mp hmem)
    rw [hsplit, Option.some.injEq, Prod.mk.injEq] at har
    rw [har.1, har.2]
  · next hfind =>
    have hmem : (" " ++ t.sign ++ " ", t.direction) ∈ signWords := by
      rw [signWords_eq]
      exact List.mem_map_of_mem h
    have hnone := List.findSome?_eq_none_iff.mp hfind _ hmem
    rw [Option.map_eq_none_iff, toList_spaced, hsplit] at hnone
    cases hnone

/-- The phrase is split at its sign, with blanks at the ends of the parts. -/
theorem exists_splitSigned? : ∃ b b', (∀ c ∈ b, isBlank c = true) ∧ (∀ c ∈ b', isBlank c = true) ∧
    splitSigned? t.tidied = some (t.term.toList ++ b, t.direction, b' ++ t.shift) := by
  rcases t.sign_mem with hmark | ⟨hname, hterm, hsign⟩
  · exact ⟨_, _, fun c => isBlank_of_mem_gap, fun c => isBlank_of_mem_gap,
      t.splitSigned?_of_mark hmark⟩
  · refine ⟨[], [], nofun, nofun, ?_⟩
    rw [List.append_nil, List.nil_append]
    exact t.splitSigned?_of_name hname hterm hsign

/-! ### The shapes -/

theorem spanDigits_shift : spanDigits t.shift = (t.digits, gap t.behindDigits ++ t.unit.toList) := by
  refine Formula.spanDigits_append t.isDigit_digits fun c hc => ?_
  rcases List.mem_append.mp (List.mem_of_mem_head? hc) with hgap | hunit
  · rw [eq_space_of_mem_gap hgap]
    rfl
  · exact (isFigure_eq_false_iff.mp (plain_dateUnits _ t.unit_mem c hunit)).2

theorem readShift?_shift {b : List Char} (hb : ∀ c ∈ b, isBlank c = true) :
    readShift? (b ++ t.shift) =
      if digitsValue t.digits < amountBound then
        some (digitsValue t.digits, t.dateUnit, t.unitLanguage)
      else none := by
  have htrim {u v : List Char} (hu : ∀ c ∈ u, isBlank c = true) (hv : Tidy v) :
      trim (u ++ v) = v := by
    have happend := @trim_append_blanks u v [] hu nofun
    rwa [List.append_nil, hv.trim_eq_self] at happend
  have hunit : trim (gap t.behindDigits ++ t.unit.toList) = t.unit.toList :=
    htrim (fun c => isBlank_of_mem_gap) (tidy_of_isWord t.isWord_unit)
  simp only [readShift?, htrim hb t.tidy_shift, t.spanDigits_shift, hunit, t.digits_ne_nil, ne_eq,
    not_false_eq_true, true_and, String.ofList_toList, dateUnit?_of_mem _ t.unit_mem,
    Option.map_some]

theorem readArithmetic?_tidied : readArithmetic? t.tidied =
    if digitsValue t.digits < amountBound then
      some ⟨.relativeArithmetic t.days (t.direction * digitsValue t.digits) t.dateUnit,
        t.termLanguage.join t.unitLanguage⟩
    else none := by
  obtain ⟨b, b', hb, hb', hsplit⟩ := t.exists_splitSigned?
  have htrim : trim (t.term.toList ++ b) = t.term.toList := by
    have happend := @trim_append_blanks [] t.term.toList b nofun hb
    rwa [List.nil_append, t.tidy_term.trim_eq_self] at happend
  rw [readArithmetic?, hsplit]
  simp only [Option.bind_eq_bind, Option.bind_some, htrim, String.ofList_toList,
    relativeDays?_of_mem _ t.term_mem, t.readShift?_shift hb']
  split <;> rfl

theorem readRelative?_tidied : readRelative? t.tidied = none := by
  rw [Option.eq_none_iff_forall_ne_some]
  intro r h
  obtain ⟨c, hc⟩ := List.exists_mem_of_ne_nil _ t.digits_ne_nil
  have hplain := not_digit_of_relativeDays? (isSome_of_readRelative? h) c
    (by simp [tidied, shift, hc])
  rw [t.isDigit_digits c hc] at hplain
  cases hplain

/-- The phrase begins as phrases for days near today do, also without an article. -/
theorem opened_tidied {ws : List String} (h : unwords (ws.map String.toList) = t.tidied) :
    Opened nearOpeners (unwords ((dropArticle ws).map String.toList)) := by
  have hnear : (relativeDays? (String.ofList t.term.toList)).isSome := by
    rw [String.ofList_toList, relativeDays?_of_mem _ t.term_mem]
    rfl
  refine opened_body_of_near hnear (fun c hc => ?_) h
  by_cases hgap : gap t.behindTerm = []
  · rcases t.sign_mem with hmark | ⟨-, hne, -⟩
    · obtain ⟨d, hchars, hsign, -⟩ := char_of_mem_signMarks _ hmark
      rw [hgap, hchars] at hc
      cases hc
      exact mem_closers_of_isSign hsign
    · rw [gap_of_ne_nil hne] at hgap
      cases hgap
  · obtain ⟨d, b, hb⟩ := List.exists_cons_of_ne_nil hgap
    have hd : d = ' ' := eq_space_of_mem_gap (b := t.behindTerm) (by rw [hb]; simp)
    rw [hb] at hc
    cases hc
    rw [hd]
    simp [closers]

/-- The shape of shifted days is the only one that a phrase for a shifted day may have. -/
theorem read?_eq_readArithmetic? {s : List Char} (h : wordsOf s = words t.chars) :
    read? s = readArithmetic? t.tidied := by
  have htext : unwords (wordsOf s) = t.tidied := by
    rw [h]
    exact t.collapse_chars
  have hwords := map_toList_map_ofList (wordsOf s)
  simp only [read?, htext]
  generalize (wordsOf s).map String.ofList = ws at hwords ⊢
  have hopened : Opened nearOpeners (unwords ((dropArticle ws).map String.toList)) :=
    t.opened_tidied (by rw [hwords, htext])
  have hnone {x : Option Reading} (hx : ∀ r, x = some r →
      Opened namingOpeners (unwords ((dropArticle ws).map String.toList))) : x = none :=
    Option.eq_none_iff_forall_ne_some.mpr fun r hr => not_opened_near (hx r hr) hopened
  rw [hnone fun r => opened_of_readNamedWeekday?, hnone fun r => opened_of_readOrdinalWeekday?,
    hnone fun r => opened_of_readMonthDay?, readRelative?_tidied]
  rfl

end ShiftText

/-- A text with the lower-case words of a phrase for a shifted day is read as what the parts of the
phrase say, in Spanish if the day or the unit is. Amounts from `2 ^ 63` on are not read. -/
theorem read?_shiftText (t : ShiftText) {s : List Char} (h : wordsOf s = words t.chars) :
    (digitsValue t.digits < Nat.pow 2 63 → ∃ language,
      read? s = some ⟨.relativeArithmetic t.days (t.direction * digitsValue t.digits) t.dateUnit,
        language⟩ ∧
      (language = .es ↔ t.termLanguage = .es ∨ t.unitLanguage = .es)) ∧
    (Nat.pow 2 63 ≤ digitsValue t.digits → read? s = none) := by
  rw [t.read?_eq_readArithmetic? h, t.readArithmetic?_tidied]
  refine ⟨fun hlt => ⟨_, if_pos hlt, ?_⟩, fun hle => if_neg (Nat.not_lt.mpr hle)⟩
  rw [Language.join]
  split
  · next hes => simp [hes]
  · next hen => simp [hen]

/-- Capitals, blanks of several kinds, and digits with zeros in front; and the first amount that is
too large, without any blank. -/
theorem read?_shiftText_capitals :
    read? "Day AFTER  Tomorrow\u00a0MÁS\t010AÑOS".toList =
        some ⟨.relativeArithmetic 2 10 .years, .es⟩ ∧
      read? "HOY-9223372036854775808días".toList = none := by
  let years : ShiftText :=
    ⟨"day after tomorrow", 2, .en, by decide, ['\u00a0'], by decide,
      "más", 1, ['\t'], by decide, Or.inr (by decide),
      ['0', '1', '0'], by decide, by decide, [], nofun, "años", .years, .es, by decide⟩
  let days : ShiftText :=
    ⟨"hoy", 0, .es, by decide, [], nofun,
      "-", -1, [], nofun, Or.inl (by decide),
      "9223372036854775808".toList, by decide, by decide, [], nofun, "días", .days, .es, by decide⟩
  have hyears : wordsOf "Day AFTER  Tomorrow\u00a0MÁS\t010AÑOS".toList = words years.chars := by
    decide
  have hdays : wordsOf "HOY-9223372036854775808días".toList = words days.chars := by
    decide
  obtain ⟨language, hread, hes⟩ := (read?_shiftText years hyears).1 (by decide)
  obtain rfl := hes.mpr (Or.inr rfl)
  exact ⟨hread, (read?_shiftText days hdays).2 (by decide)⟩

end Reckon.DatePhrase
