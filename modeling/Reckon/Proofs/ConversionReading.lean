/-
How conversion queries are read.

A query is split at a connector between two names. No text has two such splits, so it does not
matter which of them is looked for first. A query can be put together from an amount, two names and
a connector, in any case and with any blanks between them, and these parts are read from it again.

* `Vocabulary.eq_of_mem_places` : no two splits.
* `Amount`, `readAmount?_append` : amounts as they are written, and what is read from them.
* `QueryText`, `Vocabulary.read?_chars` : queries as they are written, and what is read from them.
* `read?_unambiguous_complete` : both, for units and for scales.
-/
import Reckon.Proofs.Spelling
import Reckon.Proofs.Vocabulary

namespace Reckon.Conversion

open Text Number

/-! ### Splits -/

section
variable {α : Type} {name? : String → Option α}

/-- Of two splits of a text neither is further to the left. -/
theorem Vocabulary.length_le (h : Vocabulary name?) {b a b' a' : List (List Char)}
    {c c' : List Char} (hws : b ++ c :: a = b' ++ c' :: a')
    (hlower : ∀ w ∈ b ++ c :: a, IsLowerWord w) (hc : String.ofList c ∈ connectors)
    (hb : (name? (String.ofList (unwords b))).isSome)
    (hb' : (name? (String.ofList (unwords b'))).isSome) : b'.length ≤ b.length := by
  by_contra hlt
  rw [hws] at hlower
  rcases List.append_eq_append_iff.mp hws with ⟨e, rfl, he⟩ | ⟨e, rfl, -⟩
  · cases e with
    | nil => simp at hlt
    | cons d e =>
      -- the longer name holds the connector of the shorter split
      obtain ⟨rfl, -⟩ := List.cons_eq_cons.mp he
      have hname : ∀ w ∈ b ++ c :: e, IsLowerWord w :=
        fun w hw => hlower w (List.mem_append_left _ hw)
      have hwhole : b ++ c :: e = [c] := (h.eq_connector hname hb').2 c (by simp) hc
      have hnil : b = [] := by
        cases b with
        | nil => rfl
        | cons d b => simp at hwhole
      have hnone : ∀ w ∈ b, IsLowerWord w := by simp [hnil]
      exact (h.eq_connector hnone hb).1 hnil
  · simp at hlt

/-- No words have two splits with names on both sides. -/
theorem Vocabulary.eq_of_mem_places (h : Vocabulary name?) {ws : List (List Char)}
    (hws : ∀ w ∈ ws, IsLowerWord w) {p p' : List String × String × List String} {x : Float}
    (hp : p ∈ places (ws.map String.ofList)) (hp' : p' ∈ places (ws.map String.ofList))
    (hsplit : (readSplit? name? x p).isSome) (hsplit' : (readSplit? name? x p').isSome) :
    p = p' := by
  obtain ⟨b, c, a, rfl, rfl, hc, hb, -⟩ := parts_of_readSplit? hp hsplit
  obtain ⟨b', c', a', heq, rfl, hc', hb', -⟩ := parts_of_readSplit? hp' hsplit'
  have hle := h.length_le heq hws hc hb hb'
  have hge := h.length_le heq.symm (heq ▸ hws) hc' hb' hb
  obtain ⟨rfl, hrest⟩ := List.append_inj heq (by omega)
  obtain ⟨rfl, rfl⟩ := List.cons_eq_cons.mp hrest
  rfl

/-- A query is read from a text when any of its splits gives it. -/
theorem Vocabulary.read?_eq_some_iff (h : Vocabulary name?) {s rest : List Char} {x : Float}
    (hx : readAmount? (collapse (lower s)) = some (x, rest)) (q : Query α) :
    Query.read? name? s = some q ↔
      ∃ p ∈ places ((words rest).map String.ofList), readSplit? name? x p = some q := by
  rw [Query.read?, hx]
  constructor
  · exact List.exists_of_findSome?_eq_some
  · rintro ⟨p, hp, hq⟩
    cases hfound : (places ((words rest).map String.ofList)).findSome? (readSplit? name? x) with
    | none =>
      rw [List.findSome?_eq_none_iff.mp hfound p hp] at hq
      cases hq
    | some q' =>
      obtain ⟨p', hp', hq'⟩ := List.exists_of_findSome?_eq_some hfound
      have hsame : p = p' := h.eq_of_mem_places (isLowerWord_of_readAmount? hx) hp hp'
        (by rw [hq]; rfl) (by rw [hq']; rfl)
      exact hfound.trans (hq'.symm.trans (hsame ▸ hq))

end

/-! ### Amounts -/

/-- An amount as it is written: digits, with a point or a comma or without, behind a sign or without
one. -/
structure Amount where
  sign : Option Char
  whole : List Char
  mark : Option Char
  fraction : List Char
  sign_mem : ∀ c ∈ sign, c = '+' ∨ c = '-'
  mark_mem : ∀ c ∈ mark, c = '.' ∨ c = ','
  isDigit : ∀ c ∈ whole ++ fraction, c.isDigit = true
  ne_nil : whole ++ fraction ≠ []
  fraction_eq_nil : mark = none → fraction = []

namespace Amount

/-- The characters behind the sign. -/
def magnitude (n : Amount) : List Char :=
  n.whole ++ (n.mark.toList ++ n.fraction)

def chars (n : Amount) : List Char :=
  n.sign.toList ++ n.magnitude

/-- The number that is written. -/
def value (n : Amount) : Float :=
  if n.sign = some '-' then -numeralValue n.whole n.fraction else numeralValue n.whole n.fraction

end Amount

theorem isAmountChar_of_mem_magnitude {n : Amount} {c : Char} (hc : c ∈ n.magnitude) :
    isAmountChar c = true := by
  have hdigit (h : c ∈ n.whole ++ n.fraction) : isAmountChar c = true := by
    rw [isAmountChar, n.isDigit c h]
    rfl
  rw [Amount.magnitude, List.mem_append, List.mem_append] at hc
  rcases hc with hc | hc | hc
  · exact hdigit (List.mem_append_left _ hc)
  · rcases n.mark_mem c (by simpa using hc) with rfl | rfl <;> decide
  · exact hdigit (List.mem_append_right _ hc)

theorem magnitude_ne_nil (n : Amount) : n.magnitude ≠ [] := by
  intro h
  simp only [Amount.magnitude, List.append_eq_nil_iff] at h
  exact n.ne_nil (by rw [h.1, h.2.2, List.append_nil])

theorem map_pointed_of_isDigit {ds : List Char} (h : ∀ c ∈ ds, c.isDigit = true) :
    ds.map pointed = ds := by
  refine (List.map_congr_left fun c hc => ?_).trans (List.map_id ds)
  have hcomma : c ≠ ',' := by
    rintro rfl
    exact absurd (h _ hc) (by decide)
  exact if_neg hcomma

theorem readNumeral?_digits {w : List Char} (hw : ∀ c ∈ w, c.isDigit = true) (hne : w ≠ []) :
    readNumeral? w = some (numeralValue w []) := by
  have hspan := Formula.spanDigits_append (s := []) hw nofun
  rw [List.append_nil] at hspan
  rw [readNumeral?, hspan]
  simp [hne]

theorem readNumeral?_point {w f : List Char} (hw : ∀ c ∈ w, c.isDigit = true)
    (hf : ∀ c ∈ f, c.isDigit = true) (hne : w ++ f ≠ []) :
    readNumeral? (w ++ '.' :: f) = some (numeralValue w f) := by
  have hall : f.all Char.isDigit = true := List.all_eq_true.mpr hf
  have hempty : (w.isEmpty && f.isEmpty) = false := by simpa using hne
  rw [readNumeral?, Formula.spanDigits_append hw (by simp)]
  exact if_pos (by rw [hall, hempty]; rfl)

theorem readNumeral?_magnitude (n : Amount) :
    readNumeral? (n.magnitude.map pointed) = some (numeralValue n.whole n.fraction) := by
  have hwhole : ∀ c ∈ n.whole, c.isDigit = true := fun c hc => n.isDigit c (by simp [hc])
  have hfraction : ∀ c ∈ n.fraction, c.isDigit = true := fun c hc => n.isDigit c (by simp [hc])
  have hne := n.ne_nil
  rw [Amount.magnitude, List.map_append, List.map_append, map_pointed_of_isDigit hwhole,
    map_pointed_of_isDigit hfraction]
  cases hmark : n.mark with
  | none =>
    rw [n.fraction_eq_nil hmark, List.append_nil] at hne
    rw [n.fraction_eq_nil hmark]
    simpa using readNumeral?_digits hwhole hne
  | some m =>
    have hpoint : pointed m = '.' := by
      rcases n.mark_mem m hmark with rfl | rfl <;> rfl
    simpa [hpoint] using readNumeral?_point hwhole hfraction hne

theorem readAmount?_of_head {s : List Char} (hs : ∀ c ∈ s.head?, isAmountChar c = true) :
    readAmount? s = readMagnitude? s := by
  cases s with
  | nil => rfl
  | cons c s =>
    have hc : isAmountChar c = true := hs c rfl
    rw [readAmount?.eq_3]
    · rintro t ht
      obtain ⟨rfl, -⟩ := List.cons_eq_cons.mp ht
      exact absurd hc (by decide)
    · rintro t ht
      obtain ⟨rfl, -⟩ := List.cons_eq_cons.mp ht
      exact absurd hc (by decide)

/-- An amount is read off the front of a text that goes on with another character. -/
theorem readAmount?_append (n : Amount) {r : List Char}
    (hr : ∀ c ∈ r.head?, isAmountChar c = false) :
    readAmount? (n.chars ++ r) = some (n.value, r) := by
  have hmagnitude : readMagnitude? (n.magnitude ++ r) =
      some (numeralValue n.whole n.fraction, r) := by
    have hchars : ∀ c ∈ n.magnitude, isAmountChar c = true :=
      fun _ => isAmountChar_of_mem_magnitude
    have hend : r.takeWhile isAmountChar = [] ∧ r.dropWhile isAmountChar = r := by
      cases r with
      | nil => exact ⟨rfl, rfl⟩
      | cons c r => simp [hr c rfl]
    rw [readMagnitude?, List.takeWhile_append_of_pos hchars, List.dropWhile_append_of_pos hchars,
      hend.1, hend.2, List.append_nil, readNumeral?_magnitude]
    rfl
  rw [Amount.chars, Amount.value, List.append_assoc]
  cases hsign : n.sign with
  | none =>
    have hhead : ∀ c ∈ (n.magnitude ++ r).head?, isAmountChar c = true := by
      rw [List.head?_append_of_ne_nil _ (magnitude_ne_nil n)]
      exact fun c hc => isAmountChar_of_mem_magnitude (List.mem_of_mem_head? hc)
    rw [if_neg (Option.some_ne_none _).symm]
    exact (readAmount?_of_head hhead).trans hmagnitude
  | some c =>
    rcases n.sign_mem c hsign with rfl | rfl
    · exact hmagnitude
    · rw [if_pos rfl]
      show (readMagnitude? (n.magnitude ++ r)).map _ = _
      rw [hmagnitude]
      rfl

/-! ### Queries as they are written -/

/-- A query as it is written: an amount, two names and a connector, and blanks. The blanks stand at
the front, behind the amount, on both sides of the connector, and at the end. Only those behind the
amount and at the ends can be missing. -/
structure QueryText where
  amount : Amount
  source : List Char
  connector : List Char
  target : List Char
  front : List Char
  behindAmount : List Char
  behindSource : List Char
  behindConnector : List Char
  back : List Char
  isBlank : ∀ c ∈ front ++ (behindAmount ++ (behindSource ++ (behindConnector ++ back))),
    Text.isBlank c = true
  behindSource_ne_nil : behindSource ≠ []
  behindConnector_ne_nil : behindConnector ≠ []

namespace QueryText

/-- What is written behind the amount. -/
def rest (t : QueryText) : List Char :=
  t.behindAmount ++ (t.source ++ (t.behindSource ++ (t.connector ++
    (t.behindConnector ++ (t.target ++ t.back)))))

def chars (t : QueryText) : List Char :=
  t.front ++ (t.amount.chars ++ t.rest)

end QueryText

theorem mem_amountChars_of_mem_chars {n : Amount} {c : Char} (hc : c ∈ n.chars) :
    c ∈ amountChars := by
  rw [Amount.chars, List.mem_append] at hc
  rcases hc with hc | hc
  · rcases n.sign_mem c (by simpa using hc) with rfl | rfl <;> decide
  · exact mem_amountChars_of_isAmountChar (isAmountChar_of_mem_magnitude hc)

theorem isWord_amount (n : Amount) : IsWord n.chars := by
  have hall : ∀ c ∈ amountChars, isBlank c = false := by decide
  constructor
  · rw [Amount.chars, Ne, List.append_eq_nil_iff, not_and]
    exact fun _ => magnitude_ne_nil n
  · exact fun c hc => hall c (mem_amountChars_of_mem_chars hc)

namespace QueryText

/-- The query in lower case. -/
def lowered (t : QueryText) : QueryText :=
  { t with
    source := lower t.source
    connector := lower t.connector
    target := lower t.target }

theorem blanks (t : QueryText) : (∀ c ∈ t.front, Text.isBlank c = true) ∧
    (∀ c ∈ t.behindAmount, Text.isBlank c = true) ∧
    (∀ c ∈ t.behindSource, Text.isBlank c = true) ∧
    (∀ c ∈ t.behindConnector, Text.isBlank c = true) ∧ ∀ c ∈ t.back, Text.isBlank c = true := by
  simpa only [List.forall_mem_append] using t.isBlank

theorem lower_chars (t : QueryText) (hsource : 'Σ' ∉ t.source) (hconnector : 'Σ' ∉ t.connector)
    (htarget : 'Σ' ∉ t.target) : lower t.chars = t.lowered.chars := by
  have hblank {s : List Char} (h : ∀ c ∈ s, Text.isBlank c = true) : ∀ c ∈ s, Settled c :=
    fun c hc => settled_of_isBlank (h c hc)
  obtain ⟨hfront, hamount, hbehind, hbehind', hback⟩ := t.blanks
  have hchars : ∀ c ∈ t.amount.chars, Settled c := by
    have hall : ∀ c ∈ amountChars, Settled c := by decide
    exact fun c hc => hall c (mem_amountChars_of_mem_chars hc)
  have hsigma : 'Σ' ∉ t.chars := by
    simp only [chars, rest, List.mem_append, not_or]
    exact ⟨sigma_not_mem (hblank hfront), sigma_not_mem hchars, sigma_not_mem (hblank hamount),
      hsource, sigma_not_mem (hblank hbehind), hconnector, sigma_not_mem (hblank hbehind'),
      htarget, sigma_not_mem (hblank hback)⟩
  rw [lower_eq_flatMap hsigma]
  simp only [chars, rest, lowered, List.flatMap_append, ← lower_eq_flatMap hsource,
    ← lower_eq_flatMap hconnector, ← lower_eq_flatMap htarget, flatMap_lowerChar hchars,
    flatMap_lowerChar (hblank hfront), flatMap_lowerChar (hblank hamount),
    flatMap_lowerChar (hblank hbehind), flatMap_lowerChar (hblank hbehind'),
    flatMap_lowerChar (hblank hback)]

/-- The words behind the amount. -/
theorem words_rest (t : QueryText) (h : IsWord t.connector) :
    words t.rest = words t.source ++ t.connector :: words t.target := by
  obtain ⟨-, hamount, hbehind, hbehind', hback⟩ := t.blanks
  have hhead {b s : List Char} (hb : ∀ c ∈ b, Text.isBlank c = true) (hne : b ≠ []) :
      ∀ c ∈ (b ++ s).head?, Text.isBlank c = true := by
    rw [List.head?_append_of_ne_nil _ hne]
    exact fun c hc => hb c (List.mem_of_mem_head? hc)
  have hnil : words t.back = [] := (words_eq_nil_iff _).mpr hback
  rw [rest, words_append_left hamount, words_append_right _ (hhead hbehind t.behindSource_ne_nil),
    words_append_left hbehind, words_append h ?_, words_append_left hbehind',
    words_append_right _ fun c hc => hback c (List.mem_of_mem_head? hc), hnil, List.append_nil]
  rw [Option.all_eq_true]
  exact hhead hbehind' t.behindConnector_ne_nil

end QueryText

theorem mem_places {α : Type} (a : List α) (x : α) (b : List α) :
    (a, x, b) ∈ places (a ++ x :: b) := by
  induction a with
  | nil => exact List.mem_cons_self ..
  | cons y a ih => exact List.mem_cons_of_mem _ (List.mem_map.mpr ⟨_, ih, rfl⟩)

/-- The connectors hold no sigma and no blank. -/
theorem isWord_connector {c : List Char} (h : String.ofList (lower c) ∈ connectors) :
    IsWord (lower c) ∧ 'Σ' ∉ c := by
  have hall : ∀ w ∈ connectors, w.toList ≠ [] ∧ (∀ c ∈ w.toList, isBlank c = false) ∧
      'σ' ∉ w.toList ∧ 'ς' ∉ w.toList := by
    decide
  obtain ⟨hne, hblank, hsigma, hfinal⟩ := hall _ h
  rw [String.toList_ofList] at hne hblank hsigma hfinal
  refine ⟨⟨hne, hblank⟩, fun hmem => ?_⟩
  rcases sigma_mem_lower hmem with hmem | hmem
  · exact hsigma hmem
  · exact hfinal hmem

/-- The parts of a query are read from it. -/
theorem Vocabulary.read?_chars {α : Type} {name? : String → Option α} (h : Vocabulary name?)
    (t : QueryText) {u v : α} (hsource : name? (String.ofList t.source) = some u)
    (hconnector : String.ofList (lower t.connector) ∈ connectors)
    (htarget : name? (String.ofList t.target) = some v) :
    Query.read? name? t.chars = some ⟨t.amount.value, u, v,
      String.ofList (collapse (lower t.source)), String.ofList (collapse (lower t.target))⟩ := by
  obtain ⟨hsigma, hname, hhead⟩ := h.collapsed hsource
  obtain ⟨hsigma', hname', -⟩ := h.collapsed htarget
  obtain ⟨hword, hsigma''⟩ := isWord_connector hconnector
  have hwords : words t.lowered.rest =
      words (lower t.source) ++ lower t.connector :: words (lower t.target) :=
    t.lowered.words_rest hword
  -- what follows the amount begins with a space or with the source
  have hrest : words (lower t.source) ≠ [] :=
    (h.eq_connector (fun _ => isLowerWord_of_mem_words) (Option.isSome_of_mem hname)).1
  have hbegins : ∀ c ∈ (collapse t.lowered.rest).head?, isAmountChar c = false := by
    rw [collapse, hwords, unwords_append hrest (by simp),
      List.head?_append_of_ne_nil _ (unwords_ne_nil (fun _ => isWord_of_mem_words) hrest)]
    exact hhead
  obtain ⟨r, hcollapse, hr, hwordsr⟩ : ∃ r, collapse (lower t.chars) = t.amount.chars ++ r ∧
      (∀ c ∈ r.head?, isAmountChar c = false) ∧ words r = words t.lowered.rest := by
    rw [t.lower_chars hsigma hsigma'' hsigma', collapse, QueryText.chars,
      words_append_left t.lowered.blanks.1, ← collapse]
    rcases collapse_append (isWord_amount t.amount) (s := t.lowered.rest) (by simp [hwords])
      with happend | happend
    · exact ⟨_, happend, hbegins, words_collapse _⟩
    · exact ⟨_, happend, by simp [isAmountChar],
        (words_of_isBlank _ isBlank_space).trans (words_collapse _)⟩
  have hread : readAmount? (collapse (lower t.chars)) = some (t.amount.value, r) := by
    rw [hcollapse, readAmount?_append t.amount hr]
  have hplace := mem_places ((words (lower t.source)).map String.ofList)
    (String.ofList (lower t.connector)) ((words (lower t.target)).map String.ofList)
  rw [← List.map_cons, ← List.map_append, ← hwords, ← hwordsr] at hplace
  -- any split that gives a query gives the one that is read, so this split is enough
  refine (h.read?_eq_some_iff hread _).mpr ⟨_, hplace, ?_⟩
  rw [readSplit?, if_pos hconnector, joinWords_eq, joinWords_eq, ← collapse, ← collapse, hname,
    hname']

/-! ### Both together -/

/-- No text has two splits of the words behind its amount with names on both sides of a connector,
so a query is read when any split gives it. -/
def Unambiguous {α : Type} (name? : String → Option α) : Prop :=
  ∀ (s rest : List Char) (x : Float), readAmount? (collapse (lower s)) = some (x, rest) →
    (∀ p ∈ places ((words rest).map String.ofList), ∀ p' ∈ places ((words rest).map String.ofList),
      (readSplit? name? x p).isSome → (readSplit? name? x p').isSome → p = p') ∧
    ∀ q, Query.read? name? s = some q ↔
      ∃ p ∈ places ((words rest).map String.ofList), readSplit? name? x p = some q

/-- The parts of each query as it can be written are read from it. -/
def Complete {α : Type} (name? : String → Option α) : Prop :=
  ∀ (t : QueryText) (u v : α), name? (String.ofList t.source) = some u →
    String.ofList (lower t.connector) ∈ connectors → name? (String.ofList t.target) = some v →
      Query.read? name? t.chars = some ⟨t.amount.value, u, v,
        String.ofList (collapse (lower t.source)), String.ofList (collapse (lower t.target))⟩

/-- Conversion queries of units and of temperatures are read without ambiguity, and all of them are
read. -/
theorem read?_unambiguous_complete :
    (Unambiguous MeasureUnit.ofName? ∧ Complete MeasureUnit.ofName?) ∧
      Unambiguous Scale.ofName? ∧ Complete Scale.ofName? := by
  have hboth {α : Type} {name? : String → Option α} (h : Vocabulary name?) :
      Unambiguous name? ∧ Complete name? := by
    refine ⟨fun s rest x hx => ⟨fun p hp p' hp' => ?_, h.read?_eq_some_iff hx⟩,
      fun t u v => h.read?_chars t⟩
    exact h.eq_of_mem_places (isLowerWord_of_readAmount? hx) hp hp'
  exact ⟨hboth unit_vocabulary, hboth scale_vocabulary⟩

/-- The query `-2,5in IN  Fl oz`. -/
def inchesInOunces : QueryText where
  amount :=
    { sign := some '-'
      whole := ['2']
      mark := some ','
      fraction := ['5']
      sign_mem := by decide
      mark_mem := by decide
      isDigit := by decide
      ne_nil := by decide
      fraction_eq_nil := nofun }
  source := "in".toList
  connector := "IN".toList
  target := "Fl oz".toList
  front := []
  behindAmount := []
  behindSource := [' ']
  behindConnector := [' ', ' ']
  back := []
  isBlank := by decide
  behindSource_ne_nil := by decide
  behindConnector_ne_nil := by decide

/-- A unit that is named like a connector, behind an amount without a blank, and a name of two
words. -/
theorem read?_inchesInOunces : inchesInOunces.chars = "-2,5in IN  Fl oz".toList ∧
    inchesInOunces.amount.value = -2.5 ∧
    Query.read? MeasureUnit.ofName? "-2,5in IN  Fl oz".toList =
      some ⟨-2.5, .inch, .fluidOunce, "in", "fl oz"⟩ := by
  have hchars : inchesInOunces.chars = "-2,5in IN  Fl oz".toList := by decide +kernel
  have hvalue : inchesInOunces.amount.value = -2.5 := by decide +kernel
  refine ⟨hchars, hvalue, ?_⟩
  have hread := read?_unambiguous_complete.1.2 inchesInOunces .inch .fluidOunce
    (by decide +kernel) (by decide +kernel) (by decide +kernel)
  rw [hchars, hvalue] at hread
  exact hread

end Reckon.Conversion
