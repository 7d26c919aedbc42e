/-
Names of units and names of scales.

Both have two things in common, which is all that the reading of conversion queries depends on. The
word `in` is a name and a connector, and no other name has a connector among its words. And a name
is known in collapsed lower case when it is known at all.

* `Vocabulary` : what the names have in common.
* `unit_vocabulary` : names of units.
* `ScaleText` : names of scales, with words and signs for degrees.
* `scale_vocabulary` : names of scales.
-/
import Reckon.Proofs.ConversionMark

namespace Reckon.Conversion

open Text

/-- What the names of units and those of scales have in common. -/
structure Vocabulary {α : Type} (name? : String → Option α) : Prop where
  /-- A name has a word, and a connector among its words is the whole name. -/
  eq_connector {ws : List (List Char)} : (∀ w ∈ ws, IsLowerWord w) →
    (name? (String.ofList (unwords ws))).isSome →
      ws ≠ [] ∧ ∀ w ∈ ws, String.ofList w ∈ connectors → ws = [w]
  /-- A name is also known in lower case with single spaces, and it begins with no character of
  amounts. -/
  collapsed {s : List Char} {v : α} : name? (String.ofList s) = some v →
    'Σ' ∉ s ∧ name? (String.ofList (collapse (lower s))) = some v ∧
      ∀ c ∈ (collapse (lower s)).head?, isAmountChar c = false

theorem isLowerWord_of_mem_words {s w : List Char} (hw : w ∈ words (lower s)) : IsLowerWord w :=
  ⟨isWord_of_mem_words hw, fun c hc => settled_of_mem_lower (mem_of_mem_words hw c hc)⟩

/-- A text without sigmas in the lower case of its trimmed form has no capital sigma, and the same
words in lower case whether it has been trimmed or not. -/
theorem words_lower_trim {s : List Char} (h : 'σ' ∉ lower (trim s)) (h' : 'ς' ∉ lower (trim s)) :
    'Σ' ∉ s ∧ words (lower s) = words (lower (trim s)) := by
  have htrim : 'Σ' ∉ trim s := by
    intro hmem
    rcases sigma_mem_lower hmem with hmem | hmem
    · exact h hmem
    · exact h' hmem
  refine ⟨?_, (wordsOf_trim s).symm⟩
  obtain ⟨b, b', hs, hb, hb'⟩ := exists_trim s
  rw [hs, List.mem_append, List.mem_append, not_or, not_or]
  exact ⟨sigma_not_mem fun c hc => settled_of_isBlank (hb c hc), htrim,
    sigma_not_mem fun c hc => settled_of_isBlank (hb' c hc)⟩

/-! ### Units -/

/-- The names of units are in collapsed lower case and begin with no character of amounts, and a
connector stands alone in them. -/
theorem unitNames_plain : ∀ n ∈ (MeasureUnit.names.flatMap Prod.snd).map String.toList,
    (lower (trim n) = n ∧ collapse n = n ∧ 'σ' ∉ n ∧ 'ς' ∉ n ∧
      ∀ c ∈ n.head?, isAmountChar c = false) ∧
    words n ≠ [] ∧ ∀ w ∈ words n, w ∈ connectors.map String.toList → words n = [w] := by
  simp only [MeasureUnit.names, connectors, List.flatMap_cons, List.flatMap_nil, List.cons_append,
    List.nil_append, List.map_cons, List.map_nil, String.reduceToList]
  decide +kernel

theorem unit_vocabulary : Vocabulary MeasureUnit.ofName? where
  eq_connector := by
    intro ws hws hname
    rw [MeasureUnit.ofName?, String.toList_ofList, lower_trim_unwords hws] at hname
    have hmem := List.mem_map_of_mem (mem_of_find?_contains hname) (f := String.toList)
    rw [String.toList_ofList] at hmem
    have hplain := (unitNames_plain _ hmem).2
    rw [words_unwords fun w hw => (hws w hw).1] at hplain
    refine ⟨hplain.1, fun w hw hc => hplain.2 w hw ?_⟩
    have hlist := List.mem_map_of_mem hc (f := String.toList)
    rwa [String.toList_ofList] at hlist
  collapsed := by
    intro s v hname
    rw [MeasureUnit.ofName?, String.toList_ofList] at hname
    have hmem := List.mem_map_of_mem (mem_of_find?_contains (Option.isSome_of_mem hname))
      (f := String.toList)
    rw [String.toList_ofList] at hmem
    obtain ⟨⟨hkept, hcollapse, hsigma, hsigma', hhead⟩, -⟩ := unitNames_plain _ hmem
    obtain ⟨hcapital, hwords⟩ := words_lower_trim hsigma hsigma'
    have hsame : collapse (lower s) = lower (trim s) := by
      rw [collapse, hwords, ← collapse, hcollapse]
    refine ⟨hcapital, ?_, ?_⟩
    · rw [hsame, MeasureUnit.ofName?, String.toList_ofList, hkept]
      exact hname
    · rw [hsame]
      exact hhead

/-! ### Scales -/

/-- The names of scales without words and signs for degrees. -/
def bareNames : List (List Char) :=
  (Scale.names.flatMap Prod.snd).map String.toList

/-- A name of a scale in lower case: a word for degrees or none, degree signs, and the bare name
between blanks. -/
structure ScaleText where
  word : List Char
  signs : List Char
  gap : List Char
  bare : List Char
  back : List Char
  word_mem : word ∈ degreePrefixes
  isDegreeSign : ∀ c ∈ signs, Scale.isDegreeSign c = true
  isBlank_gap : ∀ c ∈ gap, isBlank c = true
  bare_mem : bare ∈ bareNames
  isBlank_back : ∀ c ∈ back, isBlank c = true

theorem bareNames_plain : ∀ n ∈ bareNames, (n ≠ [] ∧ ∀ c ∈ n, isBlank c = false) ∧
    'σ' ∉ n ∧ 'ς' ∉ n ∧ n ∉ connectors.map String.toList ∧
    ∀ c ∈ n.head?, c ∈ ['c', 'f'] := by
  decide +kernel

theorem degreePrefixes_plain : ∀ w ∈ degreePrefixes, 'σ' ∉ w ∧ 'ς' ∉ w ∧
    (∀ v ∈ words w, v ∉ connectors.map String.toList) ∧ (∀ c ∈ w.head?, c ∈ ['d', 'g']) ∧
    (w = [] ∨ w = w.dropLast ++ [' '] ∧ w.dropLast ≠ [] ∧ ∀ c ∈ w.dropLast, isBlank c = false) := by
  decide

namespace ScaleText

def chars (t : ScaleText) : List Char :=
  t.word ++ (t.signs ++ (t.gap ++ (t.bare ++ t.back)))

theorem isWord_bare (t : ScaleText) : IsWord t.bare :=
  (bareNames_plain _ t.bare_mem).1

theorem head_gap (t : ScaleText) :
    ∀ c ∈ (t.gap ++ (t.bare ++ t.back)).head?, isBlank c = true ∨ c ∈ ['c', 'f'] := by
  intro c hc
  by_cases hgap : t.gap = []
  · rw [hgap, List.nil_append, List.head?_append_of_ne_nil _ t.isWord_bare.1] at hc
    exact Or.inr ((bareNames_plain _ t.bare_mem).2.2.2.2 c hc)
  · rw [List.head?_append_of_ne_nil _ hgap] at hc
    exact Or.inl (t.isBlank_gap c (List.mem_of_mem_head? hc))

theorem head_signs (t : ScaleText) :
    ∀ c ∈ (t.signs ++ (t.gap ++ (t.bare ++ t.back))).head?,
      Scale.isDegreeSign c = true ∨ isBlank c = true ∨ c ∈ ['c', 'f'] := by
  intro c hc
  by_cases hsigns : t.signs = []
  · rw [hsigns, List.nil_append] at hc
    exact Or.inr (t.head_gap c hc)
  · rw [List.head?_append_of_ne_nil _ hsigns] at hc
    exact Or.inl (t.isDegreeSign c (List.mem_of_mem_head? hc))

/-- A word for degrees is found in front of what begins with none. -/
theorem stripped {r : List Char} (hr : ∀ c ∈ r.head?, c ≠ 'd' ∧ c ≠ 'g') {w : List Char}
    (hw : w ∈ degreePrefixes) :
    (Scale.degreeWords.findSome? fun v => stripPrefix? v.toList (w ++ r)).getD (w ++ r) = r := by
  simp only [degreePrefixes, Scale.degreeWords, List.map_cons, List.map_nil, String.reduceToList,
    List.mem_cons, List.not_mem_nil, or_false] at hw
  rcases hw with rfl | rfl | rfl | rfl | rfl
  · cases r with
    | nil => rfl
    | cons c r =>
      obtain ⟨hd, hg⟩ := hr c rfl
      simp [Scale.degreeWords, stripPrefix?, hd.symm, hg.symm]
  all_goals simp [Scale.degreeWords, stripPrefix?]

theorem bareName_chars (t : ScaleText) : Scale.bareName t.chars = t.bare := by
  have hrest : ∀ c ∈ (t.signs ++ (t.gap ++ (t.bare ++ t.back))).head?, c ≠ 'd' ∧ c ≠ 'g' := by
    intro c hc
    have hkinds := t.head_signs c hc
    constructor <;> rintro rfl <;> exact absurd hkinds (by decide)
  have hend : (t.gap ++ (t.bare ++ t.back)).dropWhile Scale.isDegreeSign =
      t.gap ++ (t.bare ++ t.back) := by
    have hhead := t.head_gap
    cases hgap : t.gap ++ (t.bare ++ t.back) with
    | nil => rfl
    | cons c r =>
      rw [hgap] at hhead
      refine List.dropWhile_cons_of_neg fun hsign => ?_
      rw [Scale.isDegreeSign, Bool.or_eq_true, beq_iff_eq, beq_iff_eq] at hsign
      rcases hsign with rfl | rfl <;> exact absurd (hhead _ rfl) (by decide)
  rw [Scale.bareName, chars, stripped hrest t.word_mem,
    List.dropWhile_append_of_pos t.isDegreeSign, hend]
  exact trim_append t.isBlank_gap t.isWord_bare t.isBlank_back

/-- The words behind the one for degrees. -/
def ownWords (t : ScaleText) : List (List Char) :=
  if t.signs = [] then [t.bare]
  else if t.gap = [] then [t.signs ++ t.bare]
  else [t.signs, t.bare]

theorem isWord_signs (t : ScaleText) (h : t.signs ≠ []) : IsWord t.signs := by
  refine ⟨h, fun c hc => ?_⟩
  have hsign := t.isDegreeSign c hc
  rw [Scale.isDegreeSign, Bool.or_eq_true, beq_iff_eq, beq_iff_eq] at hsign
  rcases hsign with rfl | rfl <;> decide

theorem words_chars (t : ScaleText) : words t.chars = words t.word ++ t.ownWords := by
  have hback : words t.back = [] := (words_eq_nil_iff _).mpr t.isBlank_back
  have hbare {w : List Char} (hw : IsWord w) : words (w ++ t.back) = [w] := by
    rw [words_append hw ((Option.all_eq_true _ _).mpr fun c hc =>
      t.isBlank_back c (List.mem_of_mem_head? hc)), hback]
  have hown : words (t.signs ++ (t.gap ++ (t.bare ++ t.back))) = t.ownWords := by
    rw [ownWords]
    by_cases hsigns : t.signs = []
    · rw [if_pos hsigns, hsigns, List.nil_append, words_append_left t.isBlank_gap,
        hbare t.isWord_bare]
    · have hword := t.isWord_signs hsigns
      rw [if_neg hsigns]
      by_cases hgap : t.gap = []
      · rw [if_pos hgap, hgap, List.nil_append, ← List.append_assoc]
        refine hbare ⟨by simp [hsigns], fun c hc => ?_⟩
        rcases List.mem_append.mp hc with hc | hc
        · exact hword.2 c hc
        · exact t.isWord_bare.2 c hc
      · rw [if_neg hgap, words_append hword, words_append_left t.isBlank_gap, hbare t.isWord_bare]
        rw [List.head?_append_of_ne_nil _ hgap, Option.all_eq_true]
        exact fun c hc => t.isBlank_gap c (List.mem_of_mem_head? hc)
  rcases (degreePrefixes_plain _ t.word_mem).2.2.2.2 with hnil | ⟨hspace, -⟩
  · rw [chars, hnil, List.nil_append, hown]
    rfl
  · rw [chars, hspace, words_append_space, List.append_assoc, List.singleton_append,
      words_append_space, hown]
    simp [words]

/-- The name with at most one space behind the degree signs, and none at its end. -/
def collapsed (t : ScaleText) : ScaleText :=
  { t with
    gap := if t.signs = [] ∨ t.gap = [] then [] else [' ']
    back := []
    isBlank_gap := by
      split
      · nofun
      · exact fun c hc => by rw [List.mem_singleton.mp hc, isBlank_space]
    isBlank_back := nofun }

theorem chars_collapsed (t : ScaleText) :
    t.collapsed.chars = t.word ++ (t.signs ++ (t.collapsed.gap ++ (t.bare ++ []))) :=
  rfl

theorem collapse_chars (t : ScaleText) : collapse t.chars = t.collapsed.chars := by
  have hown : t.ownWords ≠ [] ∧ unwords t.ownWords =
      t.signs ++ (t.collapsed.gap ++ (t.bare ++ [])) := by
    simp only [ownWords, collapsed]
    by_cases hsigns : t.signs = []
    · simp [hsigns, unwords_singleton]
    · by_cases hgap : t.gap = []
      · simp [hsigns, hgap, unwords_singleton]
      · simp [hsigns, hgap, unwords_cons, unwords_singleton]
  rw [collapse, words_chars, chars_collapsed, ← hown.2]
  rcases (degreePrefixes_plain _ t.word_mem).2.2.2.2 with hnil | ⟨hspace, hword⟩
  · rw [hnil]
    rfl
  · rw [hspace]
    have hwords : words (t.word.dropLast ++ [' ']) = [t.word.dropLast] := words_append hword rfl
    rw [hwords, List.singleton_append, unwords_cons hown.1, List.append_assoc]
    rfl

theorem not_connector (t : ScaleText) :
    ∀ w ∈ words t.chars, w ∉ connectors.map String.toList := by
  have hsign {w : List Char} (hw : ∃ c ∈ w.head?, Scale.isDegreeSign c = true) :
      w ∉ connectors.map String.toList := by
    have hall : ∀ w ∈ connectors.map String.toList,
        ∀ c ∈ w.head?, Scale.isDegreeSign c = false := by
      decide
    obtain ⟨c, hc, hdegree⟩ := hw
    intro hmem
    rw [hall w hmem c hc] at hdegree
    cases hdegree
  intro w hw
  rw [words_chars, List.mem_append] at hw
  rcases hw with hw | hw
  · exact (degreePrefixes_plain _ t.word_mem).2.2.1 w hw
  · have hbare := (bareNames_plain _ t.bare_mem).2.2.2.1
    rw [ownWords] at hw
    cases hsigns : t.signs with
    | nil =>
      rw [if_pos hsigns, List.mem_singleton] at hw
      rwa [hw]
    | cons c signs =>
      have hc : Scale.isDegreeSign c = true := t.isDegreeSign c (by simp [hsigns])
      rw [if_neg (by simp [hsigns])] at hw
      split at hw
      · rw [List.mem_singleton] at hw
        exact hsign ⟨c, by simp [hw, hsigns], hc⟩
      · rw [List.mem_cons, List.mem_singleton] at hw
        rcases hw with rfl | rfl
        · exact hsign ⟨c, by simp [hsigns], hc⟩
        · exact hbare

theorem sigma_not_mem_chars (t : ScaleText) : 'σ' ∉ t.chars ∧ 'ς' ∉ t.chars := by
  have hword := degreePrefixes_plain _ t.word_mem
  have hbare := bareNames_plain _ t.bare_mem
  have hnot {c : Char} (hc : c ∉ t.word) (hc' : c ∉ t.bare)
      (hsign : Scale.isDegreeSign c = false) (hblank : isBlank c = false) : c ∉ t.chars := by
    simp only [chars, List.mem_append, not_or]
    refine ⟨hc, fun hmem => ?_, fun hmem => ?_, hc', fun hmem => ?_⟩
    · rw [t.isDegreeSign c hmem] at hsign
      cases hsign
    · rw [t.isBlank_gap c hmem] at hblank
      cases hblank
    · rw [t.isBlank_back c hmem] at hblank
      cases hblank
  exact ⟨hnot hword.1 hbare.2.1 (by decide) (by decide),
    hnot hword.2.1 hbare.2.2.1 (by decide) (by decide)⟩

/-- A name in collapsed form begins with a letter or with a degree sign. -/
theorem head_collapsed (t : ScaleText) :
    ∀ c ∈ t.collapsed.chars.head?, isAmountChar c = false := by
  intro c hc
  rw [chars_collapsed] at hc
  have hkinds : c ∈ ['d', 'g'] ∨ Scale.isDegreeSign c = true ∨ c ∈ ['c', 'f'] := by
    by_cases hword : t.word = []
    · rw [hword, List.nil_append] at hc
      by_cases hsigns : t.signs = []
      · have hgap : t.collapsed.gap = [] := if_pos (Or.inl hsigns)
        rw [hsigns, List.nil_append, hgap, List.nil_append,
          List.head?_append_of_ne_nil _ t.isWord_bare.1] at hc
        exact Or.inr (Or.inr ((bareNames_plain _ t.bare_mem).2.2.2.2 c hc))
      · rw [List.head?_append_of_ne_nil _ hsigns] at hc
        exact Or.inr (Or.inl (t.isDegreeSign c (List.mem_of_mem_head? hc)))
    · rw [List.head?_append_of_ne_nil _ hword] at hc
      exact Or.inl ((degreePrefixes_plain _ t.word_mem).2.2.2.1 c hc)
  rcases hkinds with hc | hc | hc
  · have hall : ∀ c ∈ ['d', 'g'], isAmountChar c = false := by decide
    exact hall c hc
  · rw [Scale.isDegreeSign, Bool.or_eq_true, beq_iff_eq, beq_iff_eq] at hc
    rcases hc with rfl | rfl <;> decide
  · have hall : ∀ c ∈ ['c', 'f'], isAmountChar c = false := by decide
    exact hall c hc

end ScaleText

/-- A text with a name of a scale for its bare name. -/
theorem exists_scaleText {s : List Char} (h : Scale.bareName s ∈ bareNames) :
    ∃ t : ScaleText, t.chars = s := by
  obtain ⟨w, signs, b, b', hw, hsigns, hb, hb', hparts⟩ := parts_of_bareName s
  exact ⟨⟨w, signs, b, _, b', hw, hsigns, hb, h, hb'⟩, hparts.symm⟩

theorem mem_bareNames {s : List Char} (h : ((Scale.names.find? fun entry =>
    entry.2.contains (String.ofList (Scale.bareName s))).map Prod.fst).isSome) :
    Scale.bareName s ∈ bareNames := by
  have hmem := List.mem_map_of_mem (mem_of_find?_contains h) (f := String.toList)
  rwa [String.toList_ofList] at hmem

theorem scale_vocabulary : Vocabulary Scale.ofName? where
  eq_connector := by
    intro ws hws hname
    have hwords := words_unwords fun w hw => (hws w hw).1
    rw [Scale.ofName?, String.toList_ofList, lower_trim_unwords hws] at hname
    obtain ⟨t, ht⟩ := exists_scaleText (mem_bareNames hname)
    rw [← ht] at hwords
    have hnot := t.not_connector
    rw [hwords] at hnot
    refine ⟨?_, fun w hw hc => ?_⟩
    · rw [← hwords, t.words_chars]
      simp only [ScaleText.ownWords]
      split <;> [simp; split <;> simp]
    · have hlist := List.mem_map_of_mem hc (f := String.toList)
      rw [String.toList_ofList] at hlist
      exact absurd hlist (hnot w hw)
  collapsed := by
    intro s v hname
    rw [Scale.ofName?, String.toList_ofList] at hname
    obtain ⟨t, ht⟩ := exists_scaleText (mem_bareNames (Option.isSome_of_mem hname))
    have hsigma := t.sigma_not_mem_chars
    rw [ht] at hsigma
    obtain ⟨hcapital, hwords⟩ := words_lower_trim hsigma.1 hsigma.2
    have hsame : collapse (lower s) = t.collapsed.chars := by
      rw [collapse, hwords, ← ht, ← collapse, t.collapse_chars]
    have hlower : lower (trim (collapse (lower s))) = collapse (lower s) :=
      lower_trim_unwords fun _ => isLowerWord_of_mem_words
    refine ⟨hcapital, ?_, ?_⟩
    · rw [Scale.ofName?, String.toList_ofList, hlower, hsame, t.collapsed.bareName_chars,
        show t.collapsed.bare = t.bare from rfl, ← t.bareName_chars, ht]
      exact hname
    · rw [hsame]
      exact t.head_collapsed

end Reckon.Conversion
