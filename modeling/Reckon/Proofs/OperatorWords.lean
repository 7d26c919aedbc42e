/-
Operators in words.

A phrase that stands for an operator can be written for its sign wherever it stands between blanks.
The replacements before its own pass over both; its own finds the phrase there and puts the sign in
its place, with a space on each side; and those behind do not see how many blanks are around it.

* `Operator`, `operators` : the operators, with the phrases that always stand for them.
* `Exchanged.pass` : replacements that pass over the phrase and the sign.
* `pass_phrase` : the replacement of the phrase.
* `stretched_pass` : replacements behind it.
* `normalForm_operator` : a phrase and the sign give the same normal form.
-/
import Reckon.Proofs.SpacedSign
import Reckon.Proofs.Surroundings

namespace Reckon

open Text hiding blanks
open Pattern hiding words

/-! ### Phrases -/

namespace Pattern

variable {β : Type}

theorem search_boundary {p : Place} (hp : isBoundary p.before p.after.head? = true)
    (test : Match → Option β) : search boundary p test = test ⟨p, 0, []⟩ := by
  rw [search, allMatches, if_pos hp, List.findSome?_singleton]

theorem search_anyOf (ws : List String) (p : Place) (test : Match → Option β) :
    search (anyOf ws) p test = ws.findSome? fun w => search (text w) p test := by
  induction ws with
  | nil => exact search_one_of_not_holds (fun _ _ => rfl) test
  | cons w ws ih =>
    cases ws with
    | nil => rw [anyOf, List.findSome?_singleton]
    | cons v ws =>
      show search (either (text w) (anyOf (v :: ws))) p test = _
      rw [search_either, ih]
      conv_rhs => rw [List.findSome?_cons]
      cases search (text w) p test <;> rfl

/-- The first phrase that a word does not block is found there, if it is the word. -/
theorem firstMatch_phrase {ws : List String} {w : String}
    (hfirst : ws.find? (fun v => !blocked v.toList w.toList) = some w)
    (hbegins : w.toList.head?.any isWordChar = true)
    (hends : w.toList.getLast?.any isWordChar = true) {o : Option Char} (ho : NoWord o)
    {y : List Char} (hy : BlankHead y) : firstMatch (phrase ws) ⟨o, w.toList ++ y⟩ =
      some ⟨⟨w.toList.getLast?.or o, y⟩, w.toList.length, []⟩ := by
  obtain ⟨-, as, bs, rfl, hblocked⟩ := List.find?_eq_some_iff_append.mp hfirst
  obtain ⟨c, hc, hword⟩ := (Option.any_eq_true ..).mp hbegins
  obtain ⟨e, he, hword'⟩ := (Option.any_eq_true ..).mp hends
  have hbegin : isBoundary o (w.toList ++ y).head? = true := by
    rw [isBoundary, noWord_iff.mp ho, List.head?_append, hc]
    simpa using hword
  have hend : isBoundary (w.toList.getLast?.or o) y.head? = true := by
    rw [isBoundary, noWord_iff.mp hy.noWord, he]
    simpa using hword'
  have hnone : ∀ v ∈ as, ∀ test : Match → Option Match,
      search (text v) ⟨o, w.toList ++ y⟩ test = none := by
    intro v hv test
    refine search_text_of_not v _ test ?_
    rintro ⟨q, hq⟩
    exact ne_append_of_blocked (by simpa using hblocked v hv) hy q hq.symm
  rw [firstMatch_eq_search, phrase, search_append, search_append, search_boundary hbegin,
    search_anyOf, List.findSome?_append, List.findSome?_eq_none_iff.mpr fun v hv => hnone v hv _,
    Option.none_or, List.findSome?_cons, search, allMatches_text_append, List.findSome?_singleton,
    search_boundary hend]
  simp

end Pattern

namespace Wording

/-! ### Operators -/

/-- An operator: its sign, the phrases that are replaced by it, and those of them that stand for it
whatever is around them. The others are parts of longer phrases. -/
structure Operator where
  sign : Char
  phrases : List String
  names : List String

def division : Operator where
  sign := '/'
  phrases := ["divided by", "over", "dividido entre", "dividido por", "dividido", "entre"]
  names := ["divided by", "over", "dividido entre", "dividido por"]

def multiplication : Operator where
  sign := '*'
  phrases := ["multiplied by", "multiplicado por", "times", "por"]
  names := ["multiplied by", "multiplicado por", "times"]

def addition : Operator where
  sign := '+'
  phrases := ["plus", "más", "mas"]
  names := ["plus", "más", "mas"]

def subtraction : Operator where
  sign := '-'
  phrases := ["minus", "menos"]
  names := ["minus", "menos"]

/-- The operators in the order in which their phrases are replaced. -/
def operators : List Operator :=
  [division, multiplication, addition, subtraction]

/-- The replacement of the phrases. -/
def Operator.rule (o : Operator) : Replacement :=
  wordReplacement o.phrases (String.ofList [' ', o.sign, ' '])

theorem operatorWords_eq : operatorWords = operators.map Operator.rule := by decide

theorem Operator.consumes_rule : ∀ o ∈ operators, o.rule.pattern.consumes = true := by decide

/-! ### Their names -/

/-- The text has words, single spaces between them, and lower case. -/
def Normal (m : List Char) : Prop :=
  words m ≠ [] ∧ lower m = m ∧ collapse m = m

instance : DecidablePred Normal :=
  fun _ => inferInstanceAs (Decidable (_ ∧ _))

theorem Normal.ne_nil {m : List Char} (h : Normal m) : m ≠ [] := by
  rintro rfl
  exact h.1 rfl

theorem normal_names : ∀ o ∈ operators, ∀ w ∈ o.names, Normal w.toList := by
  decide +kernel

theorem words_names : ∀ o ∈ operators, ∀ w ∈ o.names, w.toList.head?.any isWordChar = true ∧
    w.toList.getLast?.any isWordChar = true := by decide +kernel

/-- No earlier replacement takes anything of a name. -/
theorem passed_names_symbols : ∀ o ∈ operators, ∀ w ∈ o.names, ∀ rule ∈ symbols,
    rule.pattern.passesOver w.toList = true := by decide

theorem passed_names : operators.Pairwise fun p o => ∀ w ∈ o.names,
    p.rule.pattern.passesOver w.toList = true := by decide

/-- No phrase of the same operator goes on into a name, -/
theorem clear_names : ∀ o ∈ operators, ∀ w ∈ o.names,
    (o.rule.pattern.texts?.any fun L => missesFront L w.toList) = true := by decide

/-- and the name is the first of them that is found in its place. -/
theorem first_names : ∀ o ∈ operators, ∀ w ∈ o.names,
    o.phrases.find? (fun v => !blocked v.toList w.toList) = some w := by decide

/-! ### Their signs -/

theorem normal_signs : ∀ o ∈ operators, Normal [o.sign] := by
  decide +kernel

theorem outside_signs : ∀ o ∈ operators, isWordChar o.sign = false ∧ isBlank o.sign = false := by
  decide +kernel

/-- No replacement of the symbols and phrases takes a sign that stands alone. -/
theorem passed_signs : ∀ o ∈ operators, ∀ rule ∈ symbols ++ operatorWords,
    rule.pattern.passesOver [o.sign] = true := by decide

/-- The replacements behind take a sign with something directly behind it, but for one. -/
theorem tight_signs : ∀ o ∈ operators, ∀ rule ∈ operatorWords ++ fillers ++ meanings,
    rule.pattern.tight o.sign = true ∨ o.sign = '*' ∧ rule = Formula.scientificRule := by decide

/-! ### The replacements before the one of an operator -/

/-- The second text has `m'` in the place of `m`, which stands between blanks. -/
def Exchanged (m m' s s' : List Char) : Prop :=
  ∃ x y, BlankLast x ∧ BlankHead y ∧ s = x ++ (m ++ y) ∧ s' = x ++ (m' ++ y)

/-- Words between others are written between what ends with a space and what begins with one. -/
theorem unwords_between (vs us : List (List Char)) : ∃ x y, BlankLast x ∧ BlankHead y ∧
    ∀ ws, ws ≠ [] → unwords (vs ++ (ws ++ us)) = x ++ (unwords ws ++ y) := by
  have hspace : ∀ c ∈ [' '], isBlank c = true := by decide
  obtain ⟨y, hy, hback⟩ : ∃ y, BlankHead y ∧
      ∀ ws, ws ≠ [] → unwords (ws ++ us) = unwords ws ++ y := by
    by_cases hus : us = []
    · exact ⟨[], nofun, fun ws _ => by rw [hus, List.append_nil, List.append_nil]⟩
    · exact ⟨' ' :: unwords us, blankHead_of_blanks (b := [' ']) hspace,
        fun ws hws => unwords_append hws hus⟩
  by_cases hvs : vs = []
  · exact ⟨[], y, nofun, hy, fun ws hws => by rw [hvs, List.nil_append, hback ws hws]; rfl⟩
  · refine ⟨unwords vs ++ [' '], y, .append_blanks hspace (.inr (List.cons_ne_nil _ _)), hy,
      fun ws hws => ?_⟩
    rw [unwords_append hvs (List.append_ne_nil_of_left_ne_nil hws us), hback ws hws,
      List.append_assoc]
    rfl

theorem exchanged_collapse_lower {m m' : List Char} (hm : Normal m) (hm' : Normal m')
    (a b : List Char) : Exchanged m m' (collapse (lower (a ++ ' ' :: (m ++ ' ' :: b))))
      (collapse (lower (a ++ ' ' :: (m' ++ ' ' :: b)))) := by
  have hspace : Inert ' ' := by decide
  obtain ⟨x, y, hx, hy, hunwords⟩ := unwords_between (words (lower a)) (words (lower b))
  have hwritten {m : List Char} (hm : Normal m) :
      collapse (lower (a ++ ' ' :: (m ++ ' ' :: b))) = x ++ (m ++ y) := by
    obtain ⟨hwords, hlower, hcollapse⟩ := hm
    rw [lower_append_cons hspace, lower_append_cons hspace, hlower, collapse, words_append_space,
      words_append_space, hunwords _ hwords, ← collapse, hcollapse]
  exact ⟨x, y, hx, hy, hwritten hm, hwritten hm'⟩

section Before

variable {rule : Replacement} (hrule : rule ∈ symbols ++ operatorWords)

include hrule

theorem mem_rules_of_mem_operators : rule ∈ rules :=
  List.mem_append_left meanings (List.mem_append_left fillers hrule)

theorem lasts_of_mem_operators : rule.pattern.lasts CharClass.nonblank = true := by
  have hall : ∀ rule ∈ symbols ++ operatorWords, rule.pattern.lasts CharClass.nonblank = true := by
    decide
  exact hall rule hrule

theorem pass_between {m x y : List Char} (hm : m ≠ []) (hpassed : rule.pattern.passesOver m = true)
    (hx : BlankLast x) (hy : BlankHead y) :
    rule.pass (x ++ (m ++ y)) = rule.pass x ++ (m ++ rule.pass y) := by
  have hmem := mem_rules_of_mem_operators hrule
  obtain ⟨hclear, hidle⟩ := clear_and_idle_of_passesOver hm hpassed hx hy
  exact Replacement.pass_around (heads_of_mem_rules rule hmem)
    (.inr (lasts_of_mem_operators hrule)) hx hy hclear hidle

theorem Exchanged.pass {m m' : List Char} (hm : m ≠ []) (hm' : m' ≠ [])
    (hpassed : rule.pattern.passesOver m = true) (hpassed' : rule.pattern.passesOver m' = true)
    {s s' : List Char} (h : Exchanged m m' s s') : Exchanged m m' (rule.pass s) (rule.pass s') := by
  obtain ⟨x, y, hx, hy, rfl, rfl⟩ := h
  have hmem := mem_rules_of_mem_operators hrule
  exact ⟨rule.pass x, rule.pass y, (keepsBlanks_of_mem_rules hmem).blankLast_pass hx,
    Replacement.blankHead_pass (heads_of_mem_rules rule hmem) hy,
    pass_between hrule hm hpassed hx hy, pass_between hrule hm' hpassed' hx hy⟩

end Before

/-! ### The replacement of its own -/

theorem Operator.rule_mem {o : Operator} (ho : o ∈ operators) :
    o.rule ∈ symbols ++ operatorWords := by
  rw [operatorWords_eq]
  exact List.mem_append_right symbols (List.mem_map_of_mem ho)

/-- A phrase that stands for the operator is replaced by its sign. -/
theorem pass_phrase {o : Operator} (ho : o ∈ operators) {w : String} (hw : w ∈ o.names)
    {x y : List Char} (hx : BlankLast x) (hy : BlankHead y) :
    o.rule.pass (x ++ (w.toList ++ y)) = o.rule.pass x ++ ([' ', o.sign, ' '] ++ o.rule.pass y) := by
  have hmem := mem_rules_of_mem_operators (Operator.rule_mem ho)
  have hheads := heads_of_mem_rules o.rule hmem
  obtain ⟨L, hL, hfront⟩ := (Option.any_eq_true ..).mp (clear_names o ho w hw)
  obtain ⟨hbegins, hends⟩ := words_names o ho w hw
  have hne := (normal_names o ho w hw).ne_nil
  have hfirst := firstMatch_phrase (first_names o ho w hw) hbegins hends hx.noWord hy
  have hmatch : o.rule.matchAt ⟨x.getLast?, w.toList ++ y⟩ =
      some ⟨⟨w.toList.getLast?.or x.getLast?, y⟩, w.toList.length, []⟩ :=
    (Replacement.matchAt_eq_firstMatch (Operator.consumes_rule o ho) _).trans hfirst
  have hfound := Replacement.found_of_size hmatch rfl
  have hfill (m : Match) : o.rule.fill m = [' ', o.sign, ' '] := by
    show (String.ofList [' ', o.sign, ' ']).toList ++ [] = _
    rw [List.append_nil, String.toList_ofList]
  rw [Replacement.pass_append_of_blankLast hheads
      (.inr (lasts_of_mem_operators (Operator.rule_mem ho))) hx (clear_of_texts hL hfront hx hy),
    hfound.passFrom_eq hne, hfill, Replacement.passFrom_of_blankHead hheads _ hy]

theorem Exchanged.stretched {o : Operator} (ho : o ∈ operators) {w : String} (hw : w ∈ o.names)
    {s s' : List Char} (h : Exchanged w.toList [o.sign] s s') :
    Stretched o.sign (o.rule.pass s) (o.rule.pass s') := by
  obtain ⟨x, y, hx, hy, rfl, rfl⟩ := h
  have hrule := Operator.rule_mem ho
  have hmem := mem_rules_of_mem_operators hrule
  have hlast := (keepsBlanks_of_mem_rules hmem).blankLast_pass hx
  have hhead := Replacement.blankHead_pass (heads_of_mem_rules o.rule hmem) hy
  have hspace : ∀ c ∈ [' '], isBlank c = true := by decide
  refine .inr ⟨o.rule.pass x, o.rule.pass y, ⟨[' '], [' '], hspace, hspace, ?_, ?_, ?_⟩,
    ⟨[], [], nofun, nofun, ?_, hhead, ?_⟩⟩
  · exact .append_blanks hspace (.inl hlast)
  · exact blankHead_of_blanks (b := [' ']) hspace
  · rw [pass_phrase ho hw hx hy, List.append_assoc]
    rfl
  · rwa [List.append_nil]
  · rw [pass_between hrule (List.cons_ne_nil _ _) (passed_signs o ho o.rule hrule) hx hy,
      List.append_nil]
    rfl

/-! ### The replacements behind it -/

/-- The factor that scientific notation is told by. -/
def tenFactor : Pattern :=
  text "10" ++ (blanks ++ (text "^" ++ (blanks ++ capture signedDigits)))

theorem forProduct_scientificRule : Formula.scientificRule.ForProduct keptNumeral tenFactor where
  factors := ⟨by decide, by decide, by decide, by decide, by decide⟩
  consumes := by decide
  heads := by decide
  lasts := by decide
  search_eq p test := by
    simp only [Formula.scientificRule, search_assoc]
    rfl

theorem mem_rules_of_mem_rest {rule : Replacement}
    (hrule : rule ∈ operatorWords ++ fillers ++ meanings) : rule ∈ rules := by
  rw [rules, List.append_assoc, List.append_assoc]
  rw [List.append_assoc] at hrule
  exact List.mem_append_right symbols hrule

/-- Texts that differ in the blanks around the sign still do at most, or are the same. -/
theorem stretched_pass {o : Operator} (ho : o ∈ operators) {rule : Replacement}
    (hrule : rule ∈ operatorWords ++ fillers ++ meanings) {s s' : List Char}
    (h : Stretched o.sign s s') : Stretched o.sign (rule.pass s) (rule.pass s') := by
  have hmem := mem_rules_of_mem_rest hrule
  have hheads := heads_of_mem_rules rule hmem
  rcases tight_signs o ho rule hrule with htight | ⟨hsign, rfl⟩
  · exact h.pass_of_tight hheads (keepsBlanks_of_mem_rules hmem) (outside_signs o ho).1 htight
  · rw [hsign] at h ⊢
    exact h.pass_of_product forProduct_scientificRule hheads

/-! ### Normal forms -/

/-- The replacements before the one of an operator, which pass over its names, and those behind. -/
theorem exists_stages {o : Operator} (ho : o ∈ operators) {w : String} (hw : w ∈ o.names) :
    ∃ before after, rules = before ++ o.rule :: after ∧
      (∀ rule ∈ before, rule ∈ symbols ++ operatorWords ∧
        rule.pattern.passesOver w.toList = true) ∧
      ∀ rule ∈ after, rule ∈ operatorWords ++ fillers ++ meanings := by
  obtain ⟨ps, qs, hsplit⟩ := List.append_of_mem ho
  have hwords : operatorWords = ps.map Operator.rule ++ o.rule :: qs.map Operator.rule := by
    rw [operatorWords_eq, hsplit, List.map_append, List.map_cons]
  refine ⟨symbols ++ ps.map Operator.rule, qs.map Operator.rule ++ fillers ++ meanings, ?_, ?_, ?_⟩
  · rw [rules, hwords]
    simp only [List.append_assoc, List.cons_append]
  · intro rule hrule
    rcases List.mem_append.mp hrule with hrule | hrule
    · exact ⟨List.mem_append_left _ hrule, passed_names_symbols o ho w hw rule hrule⟩
    · obtain ⟨p, hp, rfl⟩ := List.mem_map.mp hrule
      have hpairs := passed_names
      rw [hsplit] at hpairs
      have hearlier := (List.pairwise_append.mp hpairs).2.2 p hp o (List.mem_cons_self ..) w hw
      refine ⟨List.mem_append_right _ ?_, hearlier⟩
      rw [hwords]
      exact List.mem_append_left _ hrule
  · rw [hwords]
    intro rule hrule
    simp only [List.append_assoc, List.cons_append, List.mem_append, List.mem_cons] at hrule ⊢
    exact .inr (.inr hrule)

/-- A phrase that stands for an operator, between blanks, gives the same normal form as the sign. -/
theorem normalForm_operator {o : Operator} (ho : o ∈ operators) {w : String} (hw : w ∈ o.names)
    (a b : List Char) : normalForm (a ++ ' ' :: (w.toList ++ ' ' :: b)) =
      normalForm (a ++ ' ' :: o.sign :: ' ' :: b) := by
  obtain ⟨before, after, hrules, hbefore, hafter⟩ := exists_stages ho hw
  have hname := normal_names o ho w hw
  have hsign := normal_signs o ho
  have hexchanged := foldl_rel_of_pass (l := before)
    (fun rule hrule => mem_rules_of_mem_operators (hbefore rule hrule).1)
    (fun rule hrule _ _ => Exchanged.pass (hbefore rule hrule).1 hname.ne_nil hsign.ne_nil
      (hbefore rule hrule).2 (passed_signs o ho rule (hbefore rule hrule).1))
    (exchanged_collapse_lower hname hsign a b)
  have hstretched := foldl_rel_of_pass (l := after)
    (fun rule hrule => mem_rules_of_mem_rest (hafter rule hrule))
    (fun rule hrule _ _ => stretched_pass ho (hafter rule hrule)) (hexchanged.stretched ho hw)
  have hreworded (s : List Char) : reworded s = after.foldl (fun t rule => rule.apply t)
      (o.rule.pass (before.foldl (fun t rule => rule.apply t) s)) := by
    rw [reworded, hrules, List.foldl_append, List.foldl_cons]
    rfl
  rw [normalForm, normalForm, hreworded, hreworded]
  exact hstretched.collapse_eq (outside_signs o ho).2

theorem normalForm_operator_times : multiplication ∈ operators ∧ "times" ∈ multiplication.names ∧
    normalForm ("6".toList ++ ' ' :: ("times".toList ++ ' ' :: "10 ^ 2".toList)) =
      normalForm ("6".toList ++ ' ' :: '*' :: ' ' :: "10 ^ 2".toList) := by
  have hoperator : multiplication ∈ operators := by simp [operators]
  have hname : "times" ∈ multiplication.names := by decide
  exact ⟨hoperator, hname, normalForm_operator hoperator hname "6".toList "10 ^ 2".toList⟩

/-- The phrase `por` is no name for multiplication: behind `dividido` it is part of another one. -/
example : normalForm "8 dividido por 2".toList ≠ normalForm "8 dividido * 2".toList := by
  decide +kernel

end Wording

end Reckon
