/-
What marks conversions.

A conversion has an amount in front, so what follows it begins with the first word of the name of a
unit, with a word for degrees, or with the name of a scale and a connector. None of these begins a
formula, and no name of a unit begins as one of a temperature does.

* `parts_of_read?` : amount, names and connector of a conversion.
* `exists_outline_of_unit` : conversions of units are marked.
* `exists_outline_of_scale` : conversions of temperatures are marked.
-/
import Reckon.Conversion.MeasureUnit
import Reckon.Conversion.Temperature
import Reckon.Proofs.Lowered
import Reckon.Proofs.Mark

namespace Reckon.Conversion

open Text

/-! ### Parts of a conversion -/

/-- The characters that a magnitude and its sign have. -/
def amountChars : List Char :=
  ['0', '1', '2', '3', '4', '5', '6', '7', '8', '9', '.', ',', '+', '-']

theorem mem_amountChars_of_isAmountChar {c : Char} (h : isAmountChar c = true) :
    c ∈ amountChars := by
  simp only [isAmountChar, Bool.or_eq_true, beq_iff_eq] at h
  rcases h with (hdigit | rfl) | rfl
  · have hall : ∀ c ∈ ['0', '1', '2', '3', '4', '5', '6', '7', '8', '9'], c ∈ amountChars := by
      decide
    exact hall c (Formula.mem_of_isDigit hdigit)
  · decide
  · decide

theorem amount_of_readMagnitude? {s r : List Char} {x : Float}
    (h : readMagnitude? s = some (x, r)) : ∃ d, s = d ++ r ∧ ∀ c ∈ d, c ∈ amountChars := by
  rw [readMagnitude?, Option.map_eq_some_iff] at h
  obtain ⟨x', -, hr⟩ := h
  cases hr
  refine ⟨s.takeWhile isAmountChar, List.takeWhile_append_dropWhile.symm, ?_⟩
  exact fun c hc => mem_amountChars_of_isAmountChar (List.all_eq_true.mp List.all_takeWhile c hc)

/-- An amount is read off the front. -/
theorem amount_of_readAmount? {s r : List Char} {x : Float} (h : readAmount? s = some (x, r)) :
    ∃ d, s = d ++ r ∧ ∀ c ∈ d, c ∈ amountChars := by
  have hsigned {c : Char} {s : List Char} (hc : c ∈ amountChars)
      (h : ∃ d, s = d ++ r ∧ ∀ c ∈ d, c ∈ amountChars) :
      ∃ d, c :: s = d ++ r ∧ ∀ c ∈ d, c ∈ amountChars := by
    obtain ⟨d, rfl, hd⟩ := h
    refine ⟨c :: d, rfl, fun e he => ?_⟩
    rcases List.mem_cons.mp he with rfl | he
    · exact hc
    · exact hd e he
  unfold readAmount? at h
  split at h
  · obtain ⟨⟨y, r'⟩, hy, hr⟩ := Option.map_eq_some_iff.mp h
    cases hr
    exact hsigned (by decide) (amount_of_readMagnitude? hy)
  · exact hsigned (by decide) (amount_of_readMagnitude? h)
  · exact amount_of_readMagnitude? h

theorem append_of_mem_places {α : Type} {l a b : List α} {x : α} (h : (a, x, b) ∈ places l) :
    l = a ++ x :: b := by
  induction l generalizing a with
  | nil => cases h
  | cons y l ih =>
    rw [places] at h
    rcases List.mem_cons.mp h with h | h
    · cases h
      rfl
    · obtain ⟨⟨a', x', b'⟩, hmem, heq⟩ := List.mem_map.mp h
      cases heq
      rw [ih hmem]
      rfl

theorem joinWords_eq (ws : List (List Char)) :
    joinWords (ws.map String.ofList) = String.ofList (unwords ws) := by
  rw [← String.toList_inj, String.toList_ofList, joinWords, String.toList_intercalate,
    map_toList_map_ofList, unwords]
  rfl

/-- A word as lower-casing leaves it. -/
def IsLowerWord (w : List Char) : Prop :=
  IsWord w ∧ ∀ c ∈ w, Settled c

theorem settled_of_mem_collapse {s : List Char} {c : Char} (hc : c ∈ collapse (lower s)) :
    Settled c := by
  rcases mem_unwords hc with rfl | ⟨w, hw, hc⟩
  · decide
  · exact settled_of_mem_lower (mem_of_mem_words hw c hc)

/-- What a split of words is made of. -/
theorem parts_of_readSplit? {α : Type} {name? : String → Option α} {ws : List (List Char)}
    {p : List String × String × List String} {x : Float} (hp : p ∈ places (ws.map String.ofList))
    (hsplit : (readSplit? name? x p).isSome) :
    ∃ before connector after, ws = before ++ connector :: after ∧
      p = (before.map String.ofList, String.ofList connector, after.map String.ofList) ∧
      String.ofList connector ∈ connectors ∧
      (name? (String.ofList (unwords before))).isSome ∧
      (name? (String.ofList (unwords after))).isSome := by
  obtain ⟨before, connector, after⟩ := p
  obtain ⟨before, rest, rfl, rfl, hrest⟩ := List.map_eq_append_iff.mp (append_of_mem_places hp)
  obtain ⟨connector, after, rfl, rfl, rfl⟩ := List.map_eq_cons_iff.mp hrest
  simp only [readSplit?, joinWords_eq] at hsplit
  split at hsplit
  · next hconnector =>
    split at hsplit
    · next source target hsource htarget =>
      exact ⟨before, connector, after, rfl, rfl, hconnector, by rw [hsource]; rfl,
        by rw [htarget]; rfl⟩
    · cases hsplit
  · cases hsplit

/-- What is behind the amount of a text in collapsed lower case are words in lower case. -/
theorem isLowerWord_of_readAmount? {s rest : List Char} {x : Float}
    (hx : readAmount? (collapse (lower s)) = some (x, rest)) :
    ∀ w ∈ words rest, IsLowerWord w := by
  intro w hw
  obtain ⟨d, hd, -⟩ := amount_of_readAmount? hx
  refine ⟨isWord_of_mem_words hw, fun c hc => settled_of_mem_collapse (s := s) ?_⟩
  rw [hd]
  exact List.mem_append_right _ (mem_of_mem_words hw c hc)

/-- The parts of a conversion: an amount, perhaps a space, and words around a connector, with a name
on both sides. -/
theorem parts_of_read? {α : Type} {name? : String → Option α} {s : List Char} {q : Query α}
    (h : Query.read? name? s = some q) : ∃ d before connector after,
      collapse (lower s) = d ++ unwords (before ++ connector :: after) ∧
      (∀ c ∈ d, c ∈ runChars) ∧ (∀ w ∈ before ++ connector :: after, IsLowerWord w) ∧
      String.ofList connector ∈ connectors ∧
      (name? (String.ofList (unwords before))).isSome ∧
      (name? (String.ofList (unwords after))).isSome := by
  rw [Query.read?] at h
  split at h
  · cases h
  · next x rest hx =>
    obtain ⟨d, hd, hamount⟩ := amount_of_readAmount? hx
    have hrun : ∀ c ∈ d, c ∈ runChars ∧ isBlank c = false := by
      have hall : ∀ c ∈ amountChars, c ∈ runChars ∧ isBlank c = false := by decide
      exact fun c hc => hall c (hamount c hc)
    obtain ⟨p, hplace, hsplit⟩ := List.exists_of_findSome?_eq_some h
    obtain ⟨before, connector, after, hwords, -, hconnector, hnames⟩ :=
      parts_of_readSplit? hplace (Option.isSome_of_mem hsplit)
    have hlower := isLowerWord_of_readAmount? hx
    rw [hwords] at hlower
    rcases (rest_of_unwords (fun _ => isWord_of_mem_words) hd fun c hc => (hrun c hc).2).1
      with hrest | hrest
    · rw [hwords] at hrest
      exact ⟨d, before, connector, after, by rw [hd, ← hrest], fun c hc => (hrun c hc).1,
        hlower, hconnector, hnames⟩
    · rw [hwords] at hrest
      refine ⟨d ++ [' '], before, connector, after, ?_, ?_, hlower, hconnector, hnames⟩
      · rw [hd, hrest, List.append_assoc]
        rfl
      · intro c hc
        rcases List.mem_append.mp hc with hc | hc
        · exact (hrun c hc).1
        · rw [List.mem_singleton.mp hc]
          decide

/-! ### Names -/

/-- Words in lower case are looked up as they are. -/
theorem lower_trim_unwords {ws : List (List Char)} (h : ∀ w ∈ ws, IsLowerWord w) :
    lower (trim (unwords ws)) = unwords ws := by
  rw [trim_unwords fun w hw => (h w hw).1]
  refine lower_of_settled fun c hc => ?_
  rcases mem_unwords hc with rfl | ⟨w, hw, hc⟩
  · decide
  · exact (h w hw).2 c hc

theorem mem_of_find?_contains {α : Type} {table : List (α × List String)} {key : String}
    (h : ((table.find? fun entry => entry.2.contains key).map Prod.fst).isSome) :
    key ∈ table.flatMap Prod.snd := by
  rw [Option.isSome_map, List.find?_isSome] at h
  obtain ⟨entry, hentry, hkey⟩ := h
  exact List.mem_flatMap.mpr ⟨entry, hentry, by simpa using hkey⟩

/-! ### Units -/

/-- The first words of the names of units. -/
def unitHeads : List (List Char) :=
  (MeasureUnit.names.flatMap Prod.snd).map fun n => n.toList.takeWhile fun c => c ≠ ' '

theorem exists_outline_of_unit {s : List Char} {q : Query MeasureUnit}
    (h : Query.read? MeasureUnit.ofName? s = some q) :
    ∃ w ∈ unitHeads, Outlines (begins w) (collapse (lower s)) := by
  obtain ⟨d, before, connector, after, htext, hd, hwords, -, hsource, -⟩ := parts_of_read? h
  have hbefore : ∀ w ∈ before, IsLowerWord w := fun w hw => hwords w (by simp [hw])
  rw [MeasureUnit.ofName?, String.toList_ofList, lower_trim_unwords hbefore] at hsource
  have hname := mem_of_find?_contains hsource
  cases before with
  | nil =>
    have hempty : String.ofList (unwords []) ∉ MeasureUnit.names.flatMap Prod.snd := by
      decide
    exact absurd hname hempty
  | cons w ws =>
    refine ⟨w, List.mem_map.mpr ⟨_, hname, ?_⟩, ?_⟩
    · rw [String.toList_ofList]
      exact takeWhile_unwords (hbefore w (by simp)).1 ws
    · rw [htext, List.cons_append]
      exact outlines_begins_unwords hd w _

/-! ### Temperatures -/

/-- The words for degrees, and the names of scales with a connector behind. -/
def scaleHeads : List (List Char) :=
  (Scale.degreeWords.map fun w => w.toList.dropLast) ++
    (Scale.names.flatMap Prod.snd).flatMap fun n =>
      connectors.map fun c => n.toList ++ ' ' :: c.toList

theorem mem_runChars_of_isDegreeSign {c : Char} (h : Scale.isDegreeSign c = true) :
    c ∈ runChars := by
  rw [Scale.isDegreeSign, Bool.or_eq_true, beq_iff_eq, beq_iff_eq] at h
  rcases h with rfl | rfl <;> decide

/-- The words for degrees, each with a space behind it, or nothing. -/
def degreePrefixes : List (List Char) :=
  [] :: Scale.degreeWords.map String.toList

/-- A text is its bare name between blanks, behind degree signs and a word for degrees or none. -/
theorem parts_of_bareName (s : List Char) : ∃ w signs b b', w ∈ degreePrefixes ∧
    (∀ c ∈ signs, Scale.isDegreeSign c = true) ∧ (∀ c ∈ b, isBlank c = true) ∧
    (∀ c ∈ b', isBlank c = true) ∧ s = w ++ (signs ++ (b ++ (Scale.bareName s ++ b'))) := by
  obtain ⟨w, r, hw, hs, hbare⟩ : ∃ w r, w ∈ degreePrefixes ∧ s = w ++ r ∧
      Scale.bareName s = trim (r.dropWhile Scale.isDegreeSign) := by
    rw [Scale.bareName]
    cases hfind : Scale.degreeWords.findSome? fun w => stripPrefix? w.toList s with
    | none => exact ⟨[], s, List.mem_cons_self .., rfl, rfl⟩
    | some r =>
      obtain ⟨w, hw, hstrip⟩ := List.exists_of_findSome?_eq_some hfind
      exact ⟨w.toList, r, List.mem_cons_of_mem _ (List.mem_map_of_mem hw),
        stripPrefix?_eq_some.mp hstrip, rfl⟩
  obtain ⟨b, b', hrest, hb, hb'⟩ := exists_trim (r.dropWhile Scale.isDegreeSign)
  refine ⟨w, r.takeWhile Scale.isDegreeSign, b, b', hw, ?_, hb, hb', ?_⟩
  · exact fun c hc => List.all_eq_true.mp List.all_takeWhile c hc
  · rw [hbare, ← hrest, List.takeWhile_append_dropWhile]
    exact hs

/-- A word for degrees, or degree signs and perhaps a space, stand in front of the name proper. -/
theorem split_of_bareName {ws : List (List Char)} (hws : ∀ w ∈ ws, IsWord w) :
    (∃ w ∈ Scale.degreeWords, ∃ r, unwords ws = w.toList ++ r) ∨
      ∃ d, (∀ c ∈ d, c ∈ runChars) ∧ unwords ws = d ++ Scale.bareName (unwords ws) := by
  obtain ⟨w, signs, b, b', hw, hsigns, hb, hb', hparts⟩ := parts_of_bareName (unwords ws)
  rcases List.mem_cons.mp hw with rfl | hw
  · refine Or.inr ?_
    rw [List.nil_append] at hparts
    generalize Scale.bareName (unwords ws) = n at hparts
    -- words end without a blank, and the blanks between them are spaces
    have hnil : b' = [] := by
      by_cases hne : b' = []
      · exact hne
      · have hlast := getLast_unwords hws
        rw [hparts, List.getLast?_append, List.getLast?_append, List.getLast?_append,
          List.getLast?_eq_some_getLast hne] at hlast
        have hblank := hlast _ rfl
        rw [hb' _ (List.getLast_mem hne)] at hblank
        cases hblank
    rw [hnil, List.append_nil] at hparts
    refine ⟨signs ++ b, ?_, by rw [List.append_assoc, ← hparts]⟩
    intro c hc
    rcases List.mem_append.mp hc with hc | hc
    · exact mem_runChars_of_isDegreeSign (hsigns c hc)
    · have hmem : c ∈ unwords ws := by
        rw [hparts]
        simp [hc]
      rw [eq_space_of_isBlank hws hmem (hb c hc)]
      decide
  · obtain ⟨v, hv, rfl⟩ := List.mem_map.mp hw
    exact Or.inl ⟨v, hv, _, hparts⟩

theorem bareName_nil : String.ofList (Scale.bareName (unwords [])) ∉ Scale.names.flatMap Prod.snd := by
  decide

theorem exists_outline_of_scale {s : List Char} {q : Query Scale}
    (h : Query.read? Scale.ofName? s = some q) :
    ∃ w ∈ scaleHeads, Outlines (begins w) (collapse (lower s)) := by
  obtain ⟨d, before, connector, after, htext, hd, hwords, hconnector, hsource, -⟩ :=
    parts_of_read? h
  have hbefore : ∀ w ∈ before, IsLowerWord w := fun w hw => hwords w (by simp [hw])
  have hafter : ∀ w ∈ after, IsWord w := fun w hw => (hwords w (by simp [hw])).1
  rw [Scale.ofName?, String.toList_ofList, lower_trim_unwords hbefore] at hsource
  have hname := mem_of_find?_contains hsource
  have hne : before ≠ [] := by
    intro hnil
    rw [hnil] at hname
    exact bareName_nil hname
  rw [unwords_append hne (by simp)] at htext
  rcases split_of_bareName fun w hw => (hbefore w hw).1 with
    ⟨w, hw, r, hr⟩ | ⟨e, he, hbare⟩
  · have hspace : ∀ w ∈ Scale.degreeWords, w.toList = w.toList.dropLast ++ [' '] := by
      decide
    have hword := hspace w hw
    refine ⟨w.toList.dropLast, List.mem_append_left _ (List.mem_map_of_mem hw), ?_⟩
    generalize w.toList.dropLast = v at hword
    rw [htext, hr, hword, List.append_assoc, List.append_assoc]
    refine outlines_begins hd v (t := ' ' :: (r ++ ' ' :: unwords (connector :: after))) ?_
    simp [closers]
  · obtain ⟨t, ht, -, hclosed⟩ := unwords_eq_append hafter
    generalize Scale.bareName (unwords before) = n at hname hbare
    have hhead : n ++ ' ' :: connector ∈ scaleHeads := by
      refine List.mem_append_right _ (List.mem_flatMap.mpr ⟨_, hname, ?_⟩)
      refine List.mem_map.mpr ⟨_, hconnector, ?_⟩
      rw [String.toList_ofList, String.toList_ofList]
    have hrun : ∀ c ∈ d ++ e, c ∈ runChars := by
      intro c hc
      rcases List.mem_append.mp hc with hc | hc
      · exact hd c hc
      · exact he c hc
    have htail : ∀ c ∈ t.head?, c ∈ closers := by
      rcases hclosed with rfl | rfl <;> simp [closers]
    have houtline := outlines_begins hrun (n ++ ' ' :: connector) htail
    refine ⟨_, hhead, ?_⟩
    rw [htext, hbare, ht]
    simpa using houtline

/-! ### Marks -/

theorem marked_unitHeads : (unitHeads.all fun w => marked (begins w)) = true := by
  simp only [unitHeads, MeasureUnit.names, List.flatMap_cons, List.flatMap_nil, List.cons_append,
    List.nil_append, List.map_cons, List.map_nil, String.reduceToList]
  decide +kernel

theorem marked_scaleHeads : (scaleHeads.all fun w => marked (begins w)) = true := by
  simp only [scaleHeads, Scale.degreeWords, Scale.names, connectors, List.flatMap_cons,
    List.flatMap_nil, List.cons_append, List.nil_append, List.map_cons, List.map_nil,
    String.reduceToList]
  decide +kernel

theorem differ_heads :
    (unitHeads.all fun w => scaleHeads.all fun v => differ (begins w) (begins v)) = true := by
  simp only [unitHeads, MeasureUnit.names, scaleHeads, Scale.degreeWords, Scale.names, connectors,
    List.flatMap_cons, List.flatMap_nil, List.cons_append, List.nil_append, List.map_cons,
    List.map_nil, String.reduceToList]
  decide +kernel

end Reckon.Conversion
