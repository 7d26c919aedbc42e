/-
What stands around a question.

The signs that make a text a question are dropped after the operators in words have been replaced, so
the replacements before see them at the ends of the text. They make no difference there: none of
these replacements takes anything that begins or ends with such a sign or with a blank, and to the
beginning and the end of a word both are the same as the end of the text. What is left of the signs
are blanks, and these make no difference to the replacements behind either.

* `Wrapped`, `Padded` : texts with signs and blanks around them, and with blanks.
* `Wrapped.pass`, `Padded.pass` : what one pass of a replacement keeps up.
* `wrapped_collapse_lower`, `apply_signRule` : from the whole text to the replacements, and from signs
  to blanks.
* `normalForm_wrapped` : signs and blanks around a text do not change its normal form.
-/
import Reckon.Proofs.BlankEnds
import Reckon.Proofs.JoinedRuns
import Reckon.Proofs.Passes

namespace Reckon.Wording

open Text hiding blanks
open Pattern hiding words

/-! ### Signs and blanks -/

/-- The character is a sign that is dropped or a blank. -/
def IsEdge (c : Char) : Prop :=
  c ∈ droppedSigns ∨ isBlank c = true

/-- The class has neither signs that are dropped nor blanks. -/
def edgeless (k : CharClass) : Bool :=
  k.nonblank && k.lacks droppedSigns

theorem not_isEdge_of_edgeless (k : CharClass) (c : Char) (hk : edgeless k = true)
    (hc : k.holds c = true) : ¬ IsEdge c := by
  rw [edgeless, Bool.and_eq_true] at hk
  rintro (hsign | hblank)
  · exact CharClass.not_mem_of_lacks droppedSigns k c hk.2 hc hsign
  · rw [CharClass.not_isBlank_of_nonblank k c hk.1 hc] at hblank
    cases hblank

theorem IsEdge.inert {c : Char} (h : IsEdge c) : Inert c := by
  have hsigns : ∀ c ∈ droppedSigns, Inert c := by decide +kernel
  exact h.elim (hsigns c) inert_of_isBlank

theorem IsEdge.not_isWordChar {c : Char} (h : IsEdge c) : isWordChar c = false := by
  have hsigns : ∀ c ∈ droppedSigns, isWordChar c = false := by decide +kernel
  exact h.elim (hsigns c) isWordChar_of_isBlank

/-- The second text is the first one with signs and blanks around it. -/
def Wrapped (s s' : List Char) : Prop :=
  ∃ l r, (∀ c ∈ l, IsEdge c) ∧ (∀ c ∈ r, IsEdge c) ∧ s' = l ++ (s ++ r)

/-- The second text is the first one with blanks around it. -/
def Padded (s s' : List Char) : Prop :=
  ∃ b b', (∀ c ∈ b, isBlank c = true) ∧ (∀ c ∈ b', isBlank c = true) ∧ s' = b ++ (s ++ b')

/-! ### Single spaces -/

/-- The space that is left in front of a text. -/
def leadingGap (s : List Char) : List Char :=
  if s.head?.all isBlank then [' '] else []

theorem eq_space_of_mem_leadingGap {s : List Char} {c : Char} (hc : c ∈ leadingGap s) : c = ' ' := by
  unfold leadingGap at hc
  split at hc
  · exact List.mem_singleton.mp hc
  · cases hc

theorem collapse_cons {c : Char} (hc : isBlank c = false) {s : List Char} (hs : words s ≠ []) :
    collapse (c :: s) = c :: (leadingGap s ++ collapse s) := by
  rw [collapse, words, if_neg (by simp [hc]), leadingGap]
  split
  · exact unwords_cons hs
  · exact unwords_extendFirst c hs

theorem collapse_cons_of_words {c : Char} (hc : isBlank c = false) {s : List Char}
    (hs : words s = []) : collapse (c :: s) = [c] := by
  rw [collapse, words, if_neg (by simp [hc]), hs]
  split <;> rfl

/-- A character in front of a text is kept in front of it, perhaps with a space between them. -/
theorem exists_collapse_cons {c : Char} (hc : isBlank c = false) (s : List Char) :
    ∃ g, (∀ d ∈ g, d = ' ') ∧ collapse (c :: s) = c :: (g ++ collapse s) := by
  by_cases hs : words s = []
  · exact ⟨[], nofun, by rw [collapse_cons_of_words hc hs, collapse, hs]; rfl⟩
  · exact ⟨leadingGap s, fun d hd => eq_space_of_mem_leadingGap hd, collapse_cons hc hs⟩

theorem collapse_of_isBlank {c : Char} (hc : isBlank c = true) (s : List Char) :
    collapse (c :: s) = collapse s :=
  congrArg unwords (words_of_isBlank s hc)

section Ends

variable {good : Char → Prop} (hspace : good ' ')

include hspace

/-- Such characters in front of a text are still in front of it when there are single spaces. -/
theorem exists_collapse_append_left {l : List Char} (hl : ∀ c ∈ l, good c) (s : List Char) :
    ∃ l', (∀ c ∈ l', good c) ∧ collapse (l ++ s) = l' ++ collapse s := by
  induction l with
  | nil => exact ⟨[], nofun, rfl⟩
  | cons c l ih =>
    obtain ⟨hc, hl⟩ := List.forall_mem_cons.mp hl
    obtain ⟨l', hl', heq⟩ := ih hl
    rw [List.cons_append]
    cases hblank : isBlank c with
    | true => exact ⟨l', hl', by rw [collapse_of_isBlank hblank, heq]⟩
    | false =>
      obtain ⟨g, hg, hcons⟩ := exists_collapse_cons hblank (l ++ s)
      refine ⟨c :: (g ++ l'), List.forall_mem_cons.mpr ⟨hc, List.forall_mem_append.mpr
        ⟨fun d hd => by rwa [hg d hd], hl'⟩⟩, ?_⟩
      rw [hcons, heq, List.cons_append, List.append_assoc]

/-- Such characters behind a text are still behind it when there are single spaces. -/
theorem exists_collapse_append_right (s : List Char) {r : List Char} (hr : ∀ c ∈ r, good c) :
    ∃ r', (∀ c ∈ r', good c) ∧ collapse (s ++ r) = collapse s ++ r' := by
  induction s with
  | nil =>
    obtain ⟨r', hr', heq⟩ := exists_collapse_append_left hspace hr []
    rw [List.append_nil] at heq
    exact ⟨r', hr', heq.trans (List.append_nil r')⟩
  | cons c s ih =>
    obtain ⟨r', hr', heq⟩ := ih
    rw [List.cons_append]
    cases hblank : isBlank c with
    | true => exact ⟨r', hr', by rw [collapse_of_isBlank hblank, collapse_of_isBlank hblank, heq]⟩
    | false =>
      by_cases hwords : words s = []
      · -- the character is the last one of the text that is no blank
        obtain ⟨g, hg, hcons⟩ := exists_collapse_cons hblank (s ++ r)
        refine ⟨g ++ r', List.forall_mem_append.mpr ⟨fun d hd => by rwa [hg d hd], hr'⟩, ?_⟩
        rw [hcons, heq, collapse_cons_of_words hblank hwords, collapse, hwords]
        rfl
      · obtain ⟨d, t, rfl⟩ := List.exists_cons_of_ne_nil (l := s) (by rintro rfl; exact hwords rfl)
        have hmore : words ((d :: t) ++ r) ≠ [] := fun hnil => hwords <|
          (words_eq_nil_iff _).mpr fun e he =>
            (words_eq_nil_iff _).mp hnil e (List.mem_append_left r he)
        have hgap : leadingGap (d :: t ++ r) = leadingGap (d :: t) := rfl
        refine ⟨r', hr', ?_⟩
        rw [collapse_cons hblank hwords, collapse_cons hblank hmore, heq, hgap, List.cons_append,
          List.append_assoc]

end Ends

/-- The text with single spaces and in lower case still has signs and blanks around it. -/
theorem wrapped_collapse_lower {l r : List Char} (hl : ∀ c ∈ l, IsEdge c) (hr : ∀ c ∈ r, IsEdge c)
    (q : List Char) : Wrapped (collapse (lower q)) (collapse (lower (l ++ (q ++ r)))) := by
  have hspace : IsEdge ' ' := .inr isBlank_space
  obtain ⟨r', hr', hright⟩ := exists_collapse_append_right hspace (lower q) hr
  obtain ⟨l', hl', hleft⟩ := exists_collapse_append_left hspace hl (lower q ++ r)
  refine ⟨l', r', hl', hr', ?_⟩
  rw [lower_between (fun c hc => (hl c hc).inert) (fun c hc => (hr c hc).inert), hleft, hright]

/-! ### Replacements that see the signs -/

section Pass

variable {rule : Replacement}

theorem idle_edges (hheads : rule.pattern.heads edgeless = true) {l : List Char}
    (hl : ∀ c ∈ l, IsEdge c) (t : List Char) : rule.pattern.Idle l t :=
  idle_of_heads not_isEdge_of_edgeless hheads (fun c hc hno => hno (hl c hc)) t

/-- A replacement that takes nothing with signs or blanks at its ends does not see them around a
text. -/
theorem Wrapped.pass (hheads : rule.pattern.heads edgeless = true)
    (hlasts : rule.pattern.lasts edgeless = true) {s s' : List Char} (h : Wrapped s s') :
    Wrapped (rule.pass s) (rule.pass s') := by
  obtain ⟨l, r, hl, hr, rfl⟩ := h
  refine ⟨l, r, hl, hr, ?_⟩
  have hfront : rule.pass (l ++ (s ++ r)) = l ++ rule.passFrom l.getLast? 0 (s ++ r) :=
    Replacement.passFrom_append_of_idle (idle_edges hheads hl (s ++ r)) []
  have hkind : SameKind l.getLast? ([] : List Char).getLast? :=
    NoWord.sameKind (fun c hc => (hl c (List.mem_of_mem_getLast? hc)).not_isWordChar) noWord_none
  have hcut := Replacement.passFrom_append_of_clear (x := s) hkind
    (fun c hc => (hr c (List.mem_of_mem_head? hc)).not_isWordChar)
    (clear_of_lasts not_isEdge_of_edgeless hlasts (fun c hc hno => hno (hr c hc)) s)
  rw [hfront, hcut, Replacement.passFrom_of_idle (idle_edges hheads hr [])]
  rfl

end Pass

/-- The character by which products with `x` are used up. -/
def timesWeight (c : Char) : ℕ :=
  if c = 'x' then 1 else 0

theorem usesUp_of_mem_rules {rule : Replacement} (hrule : rule ∈ rules) :
    rule.UsesUp timesWeight := by
  have hloses : ∀ rule ∈ rules, rule.repeats = true → rule.losesWeight timesWeight = true := by
    decide
  refine fun hrepeats => ⟨hloses rule hrule hrepeats, fun c => ?_⟩
  unfold timesWeight
  split <;> omega

/-- What the passes of some replacements carry from two texts to what becomes of them, these
replacements do one after another. -/
theorem foldl_rel_of_pass {R : List Char → List Char → Prop} {l : List Replacement}
    (hl : ∀ rule ∈ l, rule ∈ rules)
    (hpass : ∀ rule ∈ l, ∀ s s', R s s' → R (rule.pass s) (rule.pass s')) {s s' : List Char}
    (h : R s s') :
    R (l.foldl (fun t rule => rule.apply t) s) (l.foldl (fun t rule => rule.apply t) s') :=
  List.foldl_rel h fun rule hrule _ _ =>
    Replacement.apply_rel (usesUp_of_mem_rules (hl rule hrule)) (hpass rule hrule)

/-- The replacements before the signs are dropped. -/
def beforeSigns : List Replacement :=
  symbols ++ operatorWords ++ [wordReplacement droppedPhrases ""]

theorem rules_eq_beforeSigns : rules = beforeSigns ++ signRule :: meanings := rfl

theorem wrapped_foldl {s s' : List Char} (h : Wrapped s s') :
    Wrapped (beforeSigns.foldl (fun t rule => rule.apply t) s)
      (beforeSigns.foldl (fun t rule => rule.apply t) s') := by
  have hends : ∀ rule ∈ beforeSigns,
      rule.pattern.heads edgeless = true ∧ rule.pattern.lasts edgeless = true := by
    decide
  refine foldl_rel_of_pass (fun rule hrule => ?_) (fun rule hrule _ _ =>
    Wrapped.pass (hends rule hrule).1 (hends rule hrule).2) h
  rw [rules_eq_beforeSigns]
  exact List.mem_append_left _ hrule

/-! ### Signs -/

/-- Dropping the signs leaves the other characters. -/
theorem apply_signRule (s : List Char) :
    signRule.apply s = s.filter fun c => !droppedSigns.contains c := by
  have hpass (b : Option Char) : signRule.passFrom b 0 s =
      s.filter fun c => !droppedSigns.contains c := by
    induction s generalizing b with
    | nil => rfl
    | cons c s ih =>
      rw [Replacement.passFrom, Replacement.matchAt, signRule, firstMatch, allMatches]
      by_cases hc : c ∈ droppedSigns
      · simpa [CharClass.holds, hc, Replacement.fill, signRule, Option.filter] using ih (some c)
      · simpa [CharClass.holds, hc, signRule] using ih (some c)
  exact hpass none

theorem isBlank_of_mem_filter {l : List Char} (hl : ∀ c ∈ l, IsEdge c) :
    ∀ c ∈ l.filter fun c => !droppedSigns.contains c, isBlank c = true := by
  intro c hc
  obtain ⟨hmem, hno⟩ := List.mem_filter.mp hc
  exact (hl c hmem).resolve_left (by simpa using hno)

theorem Wrapped.padded {s s' : List Char} (h : Wrapped s s') :
    Padded (signRule.apply s) (signRule.apply s') := by
  obtain ⟨l, r, hl, hr, rfl⟩ := h
  refine ⟨_, _, isBlank_of_mem_filter hl, isBlank_of_mem_filter hr, ?_⟩
  rw [apply_signRule, apply_signRule, List.filter_append, List.filter_append]

/-! ### Replacements that see blanks alone -/

/-- No replacement takes a blank at the beginning. -/
theorem heads_of_mem_rules : ∀ rule ∈ rules, rule.pattern.heads CharClass.nonblank = true := by
  decide

/-- The phrases for the beginnings of words take blanks at the end; the others do not. -/
theorem keepsBlanks_of_mem_rules {rule : Replacement} (hrule : rule ∈ rules) :
    rule.KeepsBlanks := by
  have hothers : ∀ rule ∈ symbols ++ operatorWords ++ fillers ++ meanings.drop 4,
      rule.pattern.lasts CharClass.nonblank = true := by
    decide
  have hheads := heads_of_mem_rules rule hrule
  rw [rules, ← List.take_append_drop 4 meanings] at hrule
  rcases List.mem_append.mp hrule with hrule | hrule
  · exact .of_lasts hheads (hothers rule (List.mem_append_left _ hrule))
  rcases List.mem_append.mp hrule with hrule | hrule
  · simp only [meanings, List.take_succ_cons, List.take_zero, List.mem_cons, List.not_mem_nil,
      or_false] at hrule
    rcases hrule with rfl | rfl | rfl | rfl <;>
      exact Replacement.keepsBlanks_lead (by decide) hheads (by decide) ⟨' ', by decide⟩
  · exact .of_lasts hheads (hothers rule (List.mem_append_right _ hrule))

theorem Padded.pass {rule : Replacement} (hrule : rule ∈ rules) {s s' : List Char}
    (h : Padded s s') : Padded (rule.pass s) (rule.pass s') := by
  obtain ⟨b, b', hb, hb', rfl⟩ := h
  obtain ⟨b'', hb'', hpass, -⟩ := keepsBlanks_of_mem_rules hrule s b' hb'
  refine ⟨b, b'', hb, hb'', ?_⟩
  rw [Replacement.pass_blanks_append (heads_of_mem_rules rule hrule) hb, hpass]

theorem padded_foldl {s s' : List Char} (h : Padded s s') :
    Padded (meanings.foldl (fun t rule => rule.apply t) s)
      (meanings.foldl (fun t rule => rule.apply t) s') :=
  foldl_rel_of_pass (fun _ hrule => List.mem_append_right _ hrule)
    (fun _ hrule _ _ => Padded.pass (List.mem_append_right _ hrule)) h

theorem Padded.collapse_eq {s s' : List Char} (h : Padded s s') : collapse s' = collapse s := by
  obtain ⟨b, b', hb, hb', rfl⟩ := h
  rw [collapse, words_append_left hb, words_append_right s (blankHead_of_blanks hb'),
    (words_eq_nil_iff b').mpr hb', List.append_nil, collapse]

/-- Signs that are dropped and blanks around a text do not change its normal form. -/
theorem normalForm_wrapped {l r : List Char} (hl : ∀ c ∈ l, c ∈ droppedSigns ∨ isBlank c = true)
    (hr : ∀ c ∈ r, c ∈ droppedSigns ∨ isBlank c = true) (q : List Char) :
    normalForm (l ++ (q ++ r)) = normalForm q := by
  have hwrapped := wrapped_foldl (wrapped_collapse_lower hl hr q)
  have hpadded := padded_foldl hwrapped.padded
  rw [normalForm, normalForm, reworded, reworded, rules_eq_beforeSigns, List.foldl_append,
    List.foldl_append, List.foldl_cons, List.foldl_cons]
  exact hpadded.collapse_eq

theorem normalForm_wrapped_times :
    (∀ c ∈ "¿ ".toList, c ∈ droppedSigns ∨ isBlank c = true) ∧
    (∀ c ∈ " ?!".toList, c ∈ droppedSigns ∨ isBlank c = true) ∧
    normalForm ("¿ ".toList ++ ("3 times 4".toList ++ " ?!".toList)) =
      normalForm "3 times 4".toList := by
  have hl : ∀ c ∈ "¿ ".toList, c ∈ droppedSigns ∨ isBlank c = true := by decide
  have hr : ∀ c ∈ " ?!".toList, c ∈ droppedSigns ∨ isBlank c = true := by decide
  exact ⟨hl, hr, normalForm_wrapped hl hr _⟩

end Reckon.Wording
