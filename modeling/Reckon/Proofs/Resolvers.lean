/-
The languages of the resolvers are disjoint.

No text is a date phrase, a conversion of units, a conversion of temperatures and a formula at once,
nor any two of these. So the order in which the resolvers are tried does not matter, a resolver that
is switched off takes away its own answers and no others, and the moment that counts as now matters
for dates alone.

* `Kind.Recognizes` : the texts that a resolver reads.
* `recognizes_unique` : no text is read by two resolvers.
* `firstAnswer_eq_some_iff` : the first answer is the only one.
* `resolvers_disjoint` : what follows for answers.
-/
import Reckon.Interpreter
import Reckon.Proofs.ConversionMark
import Reckon.Proofs.DateMark

namespace Reckon

open Calendar Conversion Text

variable {o : Options} {now : Moment} {query : List Char} {a : Answer}

/-- The resolver reads the text. It may have no answer all the same. -/
def Kind.Recognizes (query : List Char) : Kind → Prop
  | date => (DatePhrase.read? query).isSome
  | unitConversion => (Query.read? MeasureUnit.ofName? query).isSome
  | temperatureConversion => (Query.read? Scale.ofName? query).isSome
  | calculator => ∃ ts, Formula.scan (Wording.normalForm query) = .ok ts

/-! ### Disjoint languages -/

/-- The outlines of the texts that a resolver reads, formulas apart. -/
def Kind.outlines : Kind → List (List Segment)
  | date => DatePhrase.outlines
  | unitConversion => unitHeads.map begins
  | temperatureConversion => scaleHeads.map begins
  | calculator => []

theorem Kind.exists_outline {k : Kind} (h : k.Recognizes query) (hk : k ≠ calculator) :
    ∃ q ∈ k.outlines, Outlines q (collapse (lower query)) := by
  cases k with
  | calculator => exact absurd rfl hk
  | date =>
    obtain ⟨r, hr⟩ := Option.isSome_iff_exists.mp h
    exact DatePhrase.exists_outline_of_date hr
  | unitConversion =>
    obtain ⟨q, hq⟩ := Option.isSome_iff_exists.mp h
    obtain ⟨w, hw, houtline⟩ := exists_outline_of_unit hq
    exact ⟨_, List.mem_map_of_mem hw, houtline⟩
  | temperatureConversion =>
    obtain ⟨q, hq⟩ := Option.isSome_iff_exists.mp h
    obtain ⟨w, hw, houtline⟩ := exists_outline_of_scale hq
    exact ⟨_, List.mem_map_of_mem hw, houtline⟩

theorem Kind.marked_of_mem_outlines {k : Kind} {q : List Segment} (hq : q ∈ k.outlines) :
    marked q = true := by
  cases k with
  | calculator => cases hq
  | date => exact DatePhrase.marked_of_mem_outlines hq
  | unitConversion =>
    obtain ⟨w, hw, rfl⟩ := List.mem_map.mp hq
    exact List.all_eq_true.mp marked_unitHeads w hw
  | temperatureConversion =>
    obtain ⟨w, hw, rfl⟩ := List.mem_map.mp hq
    exact List.all_eq_true.mp marked_scaleHeads w hw

/-- No conversion begins as a date phrase does. -/
theorem differ_leads :
    ((unitHeads ++ scaleHeads).all fun w => DatePhrase.leads.all fun v =>
      differ (begins w) (begins v)) = true := by
  simp only [unitHeads, MeasureUnit.names, scaleHeads, Scale.degreeWords, Scale.names, connectors,
    DatePhrase.leads, DatePhrase.openers, DatePhrase.namingOpeners, DatePhrase.nearOpeners,
    DatePhrase.fullWeekdays, DatePhrase.shortWeekdays, DatePhrase.months, DatePhrase.ordinals,
    DatePhrase.relativeTerms, DatePhrase.ordinalEndings, List.flatMap_cons, List.flatMap_nil,
    List.cons_append, List.nil_append, List.map_cons, List.map_nil, String.reduceToList]
  decide +kernel

theorem Kind.not_outlines_of_ne {k k' : Kind} (hne : k ≠ k') {q q' : List Segment}
    (hq : q ∈ k.outlines) (hq' : q' ∈ k'.outlines) {t : List Char} (ht : Outlines q t) :
    ¬ Outlines q' t := by
  have hleads {w : List Char} (hw : w ∈ unitHeads ++ scaleHeads) {q : List Segment}
      (hq : q ∈ DatePhrase.outlines) : ¬ (Outlines (begins w) t ∧ Outlines q t) := fun h =>
    not_outlines_of_differ
      (DatePhrase.differ_of_mem_outlines (List.all_eq_true.mp differ_leads w hw) hq) h.1 h.2
  have hheads {w v : List Char} (hw : w ∈ unitHeads) (hv : v ∈ scaleHeads) :
      ¬ (Outlines (begins w) t ∧ Outlines (begins v) t) := fun h =>
    not_outlines_of_differ
      (List.all_eq_true.mp (List.all_eq_true.mp differ_heads w hw) v hv) h.1 h.2
  intro ht'
  cases k with
  | calculator => cases hq
  | date =>
    cases k' with
    | calculator => cases hq'
    | date => exact hne rfl
    | unitConversion =>
      obtain ⟨w, hw, rfl⟩ := List.mem_map.mp hq'
      exact hleads (List.mem_append_left _ hw) hq ⟨ht', ht⟩
    | temperatureConversion =>
      obtain ⟨w, hw, rfl⟩ := List.mem_map.mp hq'
      exact hleads (List.mem_append_right _ hw) hq ⟨ht', ht⟩
  | unitConversion =>
    obtain ⟨w, hw, rfl⟩ := List.mem_map.mp hq
    cases k' with
    | calculator => cases hq'
    | date => exact hleads (List.mem_append_left _ hw) hq' ⟨ht, ht'⟩
    | unitConversion => exact hne rfl
    | temperatureConversion =>
      obtain ⟨v, hv, rfl⟩ := List.mem_map.mp hq'
      exact hheads hw hv ⟨ht, ht'⟩
  | temperatureConversion =>
    obtain ⟨w, hw, rfl⟩ := List.mem_map.mp hq
    cases k' with
    | calculator => cases hq'
    | date => exact hleads (List.mem_append_right _ hw) hq' ⟨ht, ht'⟩
    | unitConversion =>
      obtain ⟨v, hv, rfl⟩ := List.mem_map.mp hq'
      exact hheads hv hw ⟨ht', ht⟩
    | temperatureConversion => exact hne rfl

theorem recognizes_unique {k k' : Kind} (h : k.Recognizes query) (h' : k'.Recognizes query) :
    k = k' := by
  -- a formula has no outline of another kind, and other kinds have no outline in common
  have hformula {k : Kind} (hk : k.Recognizes query) (h : Kind.calculator.Recognizes query) :
      k = .calculator := by
    by_cases hne : k = .calculator
    · exact hne
    · obtain ⟨q, hq, ht⟩ := Kind.exists_outline hk hne
      obtain ⟨ts, hts⟩ := h
      exact absurd hts (not_scan_of_marked (Kind.marked_of_mem_outlines hq) ht ts)
  by_cases hne : k = .calculator
  · subst hne
    exact (hformula h' h).symm
  · by_cases hne' : k' = .calculator
    · subst hne'
      exact hformula h h'
    · obtain ⟨q, hq, ht⟩ := Kind.exists_outline h hne
      obtain ⟨q', hq', ht'⟩ := Kind.exists_outline h' hne'
      by_cases heq : k = k'
      · exact heq
      · exact absurd ht' (Kind.not_outlines_of_ne heq hq hq' ht)

/-! ### Answers -/

/-- Only texts that a resolver reads have an answer. -/
theorem Kind.recognizes_of_answer {k : Kind} (h : k.answer o now query = .ok a) :
    k.Recognizes query := by
  cases k with
  | date =>
    obtain ⟨r, hr, -⟩ := bind_eq_ok_iff.mp h
    rw [DatePhrase.resolve] at hr
    split at hr
    · cases hr
    · next reading hread => exact Option.isSome_iff_exists.mpr ⟨reading, hread⟩
  | unitConversion =>
    obtain ⟨r, hr, -⟩ := bind_eq_ok_iff.mp h
    rw [convertUnits] at hr
    split at hr
    · cases hr
    · next q hread => exact Option.isSome_iff_exists.mpr ⟨q, hread⟩
  | temperatureConversion =>
    obtain ⟨r, hr, -⟩ := bind_eq_ok_iff.mp h
    rw [convertTemperature] at hr
    split at hr
    · cases hr
    · next q hread =>
      exact Option.isSome_iff_exists.mpr ⟨q, (Option.filter_eq_some_iff.mp hread).1⟩
  | calculator =>
    obtain ⟨x, hx, -⟩ := bind_eq_ok_iff.mp h
    obtain ⟨ts, hts, -⟩ := bind_eq_ok_iff.mp hx
    rw [Formula.orMalformed] at hts
    cases hscan : Formula.scan (Wording.normalForm query) with
    | error fault =>
      rw [hscan] at hts
      cases hts
    | ok ts => exact ⟨ts, hscan⟩

theorem Kind.kind_of_answer {k : Kind} (h : k.answer o now query = .ok a) : a.kind = k := by
  cases k with
  | date | unitConversion | temperatureConversion | calculator =>
    obtain ⟨r, -, hr⟩ := bind_eq_ok_iff.mp h
    cases hr
    rfl

/-- Now is looked at for dates alone. -/
theorem Kind.answer_of_ne_date {k : Kind} (hk : k ≠ date) (now now' : Moment) :
    k.answer o now query = k.answer o now' query := by
  cases k with
  | date => exact absurd rfl hk
  | unitConversion | temperatureConversion | calculator => rfl

/-- The first answer is the answer of the one resolver that has one. -/
theorem firstAnswer_eq_some_iff {ks : List Kind} : firstAnswer o now query ks = some a ↔
    ∃ k ∈ ks, o.isOn k = true ∧ k.answer o now query = .ok a := by
  have hsome {k : Kind} {a : Answer} :
      (if o.isOn k then (k.answer o now query).toOption else none) = some a ↔
        o.isOn k = true ∧ k.answer o now query = .ok a := by
    split
    · next hon =>
      cases k.answer o now query <;> simp [Except.toOption, hon]
    · next hoff => simp [hoff]
  constructor
  · intro h
    obtain ⟨k, hk, hanswer⟩ := List.exists_of_findSome?_eq_some h
    exact ⟨k, hk, hsome.mp hanswer⟩
  · rintro ⟨k, hk, hanswer⟩
    cases hfirst : firstAnswer o now query ks with
    | none =>
      have hnone := List.findSome?_eq_none_iff.mp hfirst k hk
      rw [hsome.mpr hanswer] at hnone
      cases hnone
    | some a' =>
      obtain ⟨k', -, hanswer'⟩ := List.exists_of_findSome?_eq_some hfirst
      obtain ⟨-, hok⟩ := hsome.mp hanswer'
      have hkind := recognizes_unique (Kind.recognizes_of_answer hok)
        (Kind.recognizes_of_answer hanswer.2)
      rw [← hkind, hok] at hanswer
      cases hanswer.2
      rfl

/-! ### Order, switches and now -/

/-- The resolver switched off. -/
def Options.without (o : Options) : Kind → Options
  | .date => { o with dates := false }
  | .unitConversion => { o with units := false }
  | .temperatureConversion => { o with temperature := false }
  | .calculator => { o with arithmetic := false }

/-- The answer to a query when the resolvers are tried in this order. -/
def interpretIn (ks : List Kind) (o : Options) (now : Moment) (text : List Char) :
    Except Error Answer :=
  let query := trim text
  if query.isEmpty then .error (.noMatch .emptyQuery)
  else
    match firstAnswer o now query ks with
    | some a => .ok a
    | none => .error (.noMatch (.interpretation query))

theorem interpretIn_inOrder : interpretIn Kind.inOrder = interpret := rfl

theorem firstAnswer_of_perm {ks ks' : List Kind} (h : ks.Perm ks') :
    firstAnswer o now query ks = firstAnswer o now query ks' := by
  refine Option.ext fun a => ?_
  rw [firstAnswer_eq_some_iff, firstAnswer_eq_some_iff]
  constructor
  · rintro ⟨k, hk, hanswer⟩
    exact ⟨k, h.mem_iff.mp hk, hanswer⟩
  · rintro ⟨k, hk, hanswer⟩
    exact ⟨k, h.mem_iff.mpr hk, hanswer⟩

theorem Options.answer_without (o : Options) (k k' : Kind) :
    k'.answer (o.without k) now query = k'.answer o now query := by
  cases k <;> rfl

theorem Options.isOn_of_without {k k' : Kind} (h : (o.without k).isOn k' = true) :
    o.isOn k' = true := by
  cases k <;> cases k' <;> first | exact h | cases h

theorem firstAnswer_without {ks : List Kind} {k : Kind}
    (h : firstAnswer (o.without k) now query ks = some a) : firstAnswer o now query ks = some a := by
  obtain ⟨k', hk', hon, hanswer⟩ := firstAnswer_eq_some_iff.mp h
  rw [Options.answer_without] at hanswer
  exact firstAnswer_eq_some_iff.mpr ⟨k', hk', Options.isOn_of_without hon, hanswer⟩

theorem firstAnswer_of_kind_ne_date {ks : List Kind} (h : firstAnswer o now query ks = some a)
    (ha : a.kind ≠ .date) (now' : Moment) : firstAnswer o now' query ks = some a := by
  obtain ⟨k, hk, hon, hanswer⟩ := firstAnswer_eq_some_iff.mp h
  rw [Kind.kind_of_answer hanswer] at ha
  rw [Kind.answer_of_ne_date ha now now'] at hanswer
  exact firstAnswer_eq_some_iff.mpr ⟨k, hk, hon, hanswer⟩

/-- No text is read by two resolvers. So the order in which they are tried makes no difference, a
resolver that is switched off takes away its own answers alone, and answers that are no dates do not
depend on now. -/
theorem resolvers_disjoint (text : List Char) :
    (∀ k k' : Kind, k.Recognizes text → k'.Recognizes text → k = k') ∧
      ∀ (o : Options) (now : Moment),
        (∀ ks, ks.Perm Kind.inOrder → interpretIn ks o now text = interpret o now text) ∧
        (∀ k, interpret (o.without k) now text = interpret o now text ∨
          (interpret (o.without k) now text).toOption = none) ∧
        ∀ a, interpret o now text = .ok a → a.kind ≠ .date →
          ∀ now', interpret o now' text = .ok a := by
  refine ⟨fun k k' => recognizes_unique, fun o now => ⟨?_, ?_, ?_⟩⟩
  · intro ks hks
    rw [← interpretIn_inOrder, interpretIn, interpretIn, firstAnswer_of_perm hks]
  · intro k
    rw [interpret, interpret]
    by_cases hempty : (trim text).isEmpty = true
    · rw [if_pos hempty, if_pos hempty]
      exact Or.inl rfl
    · rw [if_neg hempty, if_neg hempty]
      cases hanswer : firstAnswer (o.without k) now (trim text) Kind.inOrder with
      | none => exact Or.inr rfl
      | some a =>
        rw [firstAnswer_without hanswer]
        exact Or.inl rfl
  · intro a ha hkind now'
    rw [interpret] at ha ⊢
    by_cases hempty : (trim text).isEmpty = true
    · rw [if_pos hempty] at ha
      cases ha
    · rw [if_neg hempty] at ha ⊢
      cases hanswer : firstAnswer o now (trim text) Kind.inOrder with
      | none =>
        rw [hanswer] at ha
        cases ha
      | some b =>
        rw [hanswer] at ha
        cases ha
        rw [firstAnswer_of_kind_ne_date hanswer hkind now']

/-- A unit that is spelled as a connector is. -/
theorem resolvers_disjoint_inches :
    Kind.unitConversion.Recognizes "5 in to cm".toList ∧
      ∀ k : Kind, k.Recognizes "5 in to cm".toList → k = .unitConversion := by
  have hunit : Kind.unitConversion.Recognizes "5 in to cm".toList := by
    show (Query.read? MeasureUnit.ofName? _).isSome = true
    decide +kernel
  exact ⟨hunit, fun k hk => (resolvers_disjoint _).1 k _ hk hunit⟩

end Reckon
