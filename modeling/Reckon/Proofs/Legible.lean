/-
What can be scanned, letter by letter.

A text is scanned only if all its characters, blanks apart, are characters of formulas, and all
letters in a row are those of names of functions. So two letters that do not follow each other in
names, in the outline of a text, keep the text from being a formula.

* `Legible` : the characters fit, and neighbouring letters follow each other.
* `legible_of_scan` : only legible texts are scanned.
* `illegible`, `not_scan_of_outlines` : no text of such an outline has a normal form that is scanned.
-/
import Reckon.Proofs.Lexicon
import Reckon.Proofs.Outline

namespace Reckon.Formula

/-! ### Letters in a row -/

/-- The letters that follow each other in names of functions and where one name follows another. -/
def letterPairs : List (Char × Char) :=
  [('s', 'q'), ('q', 'r'), ('r', 't'), ('c', 'b'), ('b', 'r'), ('p', 'o'), ('o', 'w'),
    ('t', 's'), ('t', 'c'), ('t', 'p'), ('w', 's'), ('w', 'c'), ('w', 'p')]

/-- The characters are not both letters, or the second follows the first in names. -/
def follows (c d : Char) : Bool :=
  !c.isAlpha || !d.isAlpha || letterPairs.contains (c, d)

/-- The text has characters of formulas alone, and letters in a row only as in names. -/
def Legible (s : List Char) : Prop :=
  Pattern.Fits alphabet.contains follows s

theorem Legible.append {d s : List Char} (hs : Legible s)
    (hd : ∀ c ∈ d, c ∈ alphabet ∧ c.isAlpha = false) : Legible (d ++ s) := by
  induction d with
  | nil => exact hs
  | cons c d ih =>
    have hc := hd c (by simp)
    have hrest : Legible (d ++ s) := ih fun e he => hd e (List.mem_cons_of_mem _ he)
    exact Pattern.Fits.cons hrest (by simpa using hc.1) fun e _ => by simp [follows, hc.2]

theorem Legible.cons {c : Char} {s : List Char} (hs : Legible s) (hc : c ∈ alphabet)
    (hpair : ∀ d ∈ s.head?, follows c d = true) : Legible (c :: s) :=
  Pattern.Fits.cons hs (by simpa using hc) hpair

/-- A name is legible in front of what begins with no letter or with the first one of a name. -/
theorem legible_letters (f : Function) {s : List Char} (hs : Legible s)
    (hhead : ∀ c ∈ s.head?, c.isAlpha = true → c ∈ ['s', 'c', 'p']) :
    Legible (f.letters ++ s) := by
  have hlast : ∀ c ∈ ['t', 'w'], ∀ d ∈ s.head?, follows c d = true := by
    intro c hc d hd
    cases halpha : d.isAlpha with
    | false => simp [follows, halpha]
    | true =>
      have hall : ∀ c ∈ ['t', 'w'], ∀ d ∈ ['s', 'c', 'p'], follows c d = true := by decide
      exact hall c hc d (hhead d hd halpha)
  have hstep {c d : Char} {r : List Char} (hr : Legible (d :: r))
      (h : c ∈ alphabet ∧ follows c d = true) : Legible (c :: d :: r) :=
    hr.cons h.1 fun e he => by
      cases he
      exact h.2
  cases f with
  | sqrt =>
    have ht : Legible ('t' :: s) := hs.cons (by decide) (hlast 't' (by decide))
    exact hstep (hstep (hstep ht (by decide)) (by decide)) (by decide)
  | cbrt =>
    have ht : Legible ('t' :: s) := hs.cons (by decide) (hlast 't' (by decide))
    exact hstep (hstep (hstep ht (by decide)) (by decide)) (by decide)
  | pow =>
    have hw : Legible ('w' :: s) := hs.cons (by decide) (hlast 'w' (by decide))
    exact hstep (hstep hw (by decide)) (by decide)

/-! ### What has been scanned -/

/-- A lexeme is a name of a function or has no letter. -/
theorem Lexeme.function_or_not_alpha (l : Lexeme) :
    (∃ f, l = .function f) ∨ ∀ c ∈ l.chars, c.isAlpha = false := by
  cases l with
  | function f => exact Or.inl ⟨f, rfl⟩
  | number n =>
    refine Or.inr fun c hc => ?_
    rcases n.mem_chars hc with hdigit | rfl
    · have hall : ∀ c ∈ ['0', '1', '2', '3', '4', '5', '6', '7', '8', '9'], c.isAlpha = false := by
        decide
      exact hall c (mem_of_isDigit hdigit)
    · decide
  | binary op => exact Or.inr (by cases op <;> decide)
  | negate | leftParen | rightParen | comma => exact Or.inr (by decide)

theorem head_charsOf (ls : List Lexeme) :
    ∀ c ∈ (charsOf ls).head?, c.isAlpha = true → c ∈ ['s', 'c', 'p'] := by
  cases ls with
  | nil => nofun
  | cons l ls =>
    intro c hc halpha
    rw [charsOf_cons, l.head_chars_append] at hc
    rcases l.function_or_not_alpha with ⟨f, rfl⟩ | hnot
    · cases f <;> cases hc <;> decide
    · rw [hnot c (List.mem_of_mem_head? hc)] at halpha
      cases halpha

theorem legible_charsOf (ls : List Lexeme) : Legible (charsOf ls) := by
  induction ls with
  | nil => exact ⟨by simp [charsOf], by simp [charsOf]⟩
  | cons l ls ih =>
    rw [charsOf_cons]
    rcases l.function_or_not_alpha with ⟨f, rfl⟩ | hnot
    · exact legible_letters f ih (head_charsOf ls)
    · exact ih.append fun c hc => ⟨Lexeme.mem_alphabet hc, hnot c hc⟩

/-- Only legible texts are scanned. -/
theorem legible_of_scan {s : List Char} {ts : List Token} (h : scan s = .ok ts) :
    Legible (Text.dropBlanks s) := by
  obtain ⟨ls, hls, -⟩ := exists_lexemes_of_scan h
  rw [hls]
  exact legible_charsOf ls

/-! ### Illegible outlines -/

/-- The first character of an outline that is no blank, if it is known. -/
def firstKnown : List Segment → Option Char
  | .char c :: q => if Text.isBlank c then firstKnown q else some c
  | _ => none

/-- The outline has a character that no formula has, or two letters in a row that do not follow each
other, blanks apart. -/
def illegible : List Segment → Bool
  | [] => false
  | .run :: q => illegible q
  | .char c :: q => (!Text.isBlank c &&
    (!alphabet.contains c || (firstKnown q).any fun d => !follows c d)) || illegible q

theorem head_of_firstKnown {q : List Segment} {t : List Char} (ht : Outlines q t) {c : Char}
    (hc : firstKnown q = some c) : (Text.dropBlanks t).head? = some c := by
  induction q generalizing t with
  | nil => cases hc
  | cons s q ih =>
    cases s with
    | run => cases hc
    | char d =>
      obtain ⟨t', rfl, ht'⟩ := ht
      rw [firstKnown] at hc
      split at hc
      · next hblank =>
        rw [Text.dropBlanks, List.filter_cons_of_neg (by simp [hblank])]
        exact ih ht' hc
      · next hblank =>
        rw [Text.dropBlanks, List.filter_cons_of_pos (by simp [hblank])]
        exact hc

theorem not_legible_of_outlines {q : List Segment} {t : List Char} (ht : Outlines q t)
    (hq : illegible q = true) : ¬ Legible (Text.dropBlanks t) := by
  induction q generalizing t with
  | nil => cases hq
  | cons s q ih =>
    cases s with
    | run =>
      obtain ⟨d, t', rfl, -, ht'⟩ := ht
      intro hlegible
      refine ih ht' hq ?_
      rw [Text.dropBlanks_append] at hlegible
      have hdrop := Pattern.Fits.drop hlegible (Text.dropBlanks d).length
      rwa [List.drop_left] at hdrop
    | char c =>
      obtain ⟨t', rfl, ht'⟩ := ht
      intro hlegible
      by_cases hblank : Text.isBlank c = true
      · rw [Text.dropBlanks, List.filter_cons_of_neg (by simp [hblank])] at hlegible
        rw [illegible, hblank] at hq
        exact ih ht' hq hlegible
      · rw [Text.dropBlanks, List.filter_cons_of_pos (by simp [hblank])] at hlegible
        rw [illegible, Bool.or_eq_true, Bool.and_eq_true, Bool.or_eq_true] at hq
        rcases hq with ⟨-, hc | hpair⟩ | hq
        · have hmem := hlegible.chars c (by simp)
          rw [hmem] at hc
          cases hc
        · rw [Option.any_eq_true] at hpair
          obtain ⟨d, hd, hfollows⟩ := hpair
          have hhead := head_of_firstKnown ht' hd
          have hrel := List.isChain_cons.mp hlegible.pairs
          have hcd := hrel.1 d hhead
          simp [hcd] at hfollows
        · exact ih ht' hq (Pattern.Fits.drop hlegible 1)

/-- No text of a steady and illegible outline has a normal form that can be scanned. -/
theorem not_scan_of_outlines {q : List Segment} {s : List Char} (hsteady : steady q = true)
    (hq : illegible q = true) (hs : Outlines q (Text.collapse (Text.lower s))) (ts : List Token) :
    scan (Wording.normalForm s) ≠ .ok ts := by
  intro hscan
  have hlegible := legible_of_scan hscan
  rw [Wording.normalForm, Text.dropBlanks_collapse] at hlegible
  exact not_legible_of_outlines (reworded_of_steady hsteady hs) hq hlegible

end Reckon.Formula
