/-
Texts in outline, and replacements that leave them alone.

An outline gives the first characters of a text, and says of some stretches only that they are made
of digits, points, signs, spaces and degree signs. A text that goes on behind its outline goes on
with a space or a sign. Where a pattern can match in an outline is computed without knowing the
text, so one computation covers all texts of the outline.

* `Outlines` : the texts of an outline.
* `mayMatch`, `mayMatch_of_mem` : a pattern that matches in a text may match in its outline.
* `quiet`, `passFrom_of_quiet` : a replacement without a match in an outline keeps it.
* `steady`, `reworded_of_steady` : rewording keeps what all replacements keep.
-/
import Reckon.Proofs.Search
import Reckon.Wording

namespace Reckon

open Pattern

/-! ### Outlines -/

/-- A part of an outline. -/
inductive Segment
  /-- This character. -/
  | char (c : Char)
  /-- Any number of characters of amounts. -/
  | run
  deriving DecidableEq

/-- The characters of amounts: digits, points, signs, spaces, degree signs. -/
def runChars : List Char :=
  ['0', '1', '2', '3', '4', '5', '6', '7', '8', '9', '.', ',', '+', '-', ' ', '°', 'º']

/-- The characters that a text can go on with behind its outline. -/
def closers : List Char := [' ', '+', '-']

/-- The text has this outline. -/
def Outlines : List Segment → List Char → Prop
  | [], t => ∀ c ∈ t.head?, c ∈ closers
  | .char c :: q, t => ∃ t', t = c :: t' ∧ Outlines q t'
  | .run :: q, t => ∃ d t', t = d ++ t' ∧ (∀ c ∈ d, c ∈ runChars) ∧ Outlines q t'

/-- The characters of a word as an outline. -/
def outline (w : List Char) : List Segment :=
  w.map Segment.char

/-- What is known of the character before a place: nothing, or which one it is, if there is one. -/
def Knows (β : Option (Option Char)) (before : Option Char) : Prop :=
  ∀ b ∈ β, b = before

/-! ### Matches in outline -/

/-- The class may hold a character of amounts. -/
def CharClass.meetsRun : CharClass → Bool
  | .only c => !c.isLower && runChars.contains c
  | .oneOf cs => cs.any runChars.contains
  | .digit => true
  | .blank => true

namespace Pattern

/-- What is left to match, given what is known before a place and its outline. -/
abbrev Rest := Option (Option Char) → List Segment → Bool

/-- One character of the class may stand next. Behind the outline, everything may follow it. -/
def mayOne (k : CharClass) : List Segment → Rest → Bool
  | [], _ => closers.any k.holds
  | .char c :: q, rest => k.holds c && rest (some (some c)) q
  | .run :: q, rest => (k.meetsRun && rest none (.run :: q)) || mayOne k q rest

/-- Characters of the class may stand next. -/
def mayMany (k : CharClass) (β : Option (Option Char)) : List Segment → Rest → Bool
  | [], rest => closers.any k.holds || rest β []
  | .char c :: q, rest => rest β (.char c :: q) || (k.holds c && mayMany k (some (some c)) q rest)
  | .run :: q, rest => rest none (.run :: q) || mayMany k none q rest

/-- A word may begin or end here. -/
def mayBoundary : Option (Option Char) → List Segment → Bool
  | none, _ => true
  | some b, [] => Text.isBoundary b none
  | some b, .char c :: _ => Text.isBoundary b (some c)
  | some _, .run :: _ => true

/-- The pattern may match at the beginning of an outline. -/
def mayMatch : Pattern → Option (Option Char) → List Segment → Rest → Bool
  | empty, β, q, rest => rest β q
  | one k, _, q, rest => mayOne k q rest
  | many k, β, q, rest => mayMany k β q rest
  | boundary, β, q, rest => mayBoundary β q && rest β q
  | seq a b, β, q, rest => mayMatch a β q fun β' q' => mayMatch b β' q' rest
  | either a b, β, q, rest => mayMatch a β q rest || mayMatch b β q rest
  | capture a, β, q, rest => mayMatch a β q rest

theorem meetsRun_of_holds {k : CharClass} {c : Char} (hc : c ∈ runChars) (hk : k.holds c = true) :
    k.meetsRun = true := by
  cases k with
  | only d =>
    have hd : c = d := by simpa [CharClass.holds] using hk
    subst hd
    have hall : ∀ c ∈ runChars, (CharClass.only c).meetsRun = true := by decide
    exact hall c hc
  | oneOf cs =>
    have hmem : c ∈ cs := by simpa [CharClass.holds] using hk
    rw [CharClass.meetsRun, List.any_eq_true]
    exact ⟨c, hmem, by simpa using hc⟩
  | digit | blank => rfl

/-- The rest may match wherever a place of this kind is met. -/
def Covers (P : Place → Prop) (rest : Rest) : Prop :=
  ∀ β q b t, Knows β b → Outlines q t → P ⟨b, t⟩ → rest β q = true

theorem mayOne_of_holds {k : CharClass} {rest : Rest} {P : Place → Prop} (hrest : Covers P rest)
    {q : List Segment} {c : Char} {t : List Char} (ht : Outlines q (c :: t))
    (hk : k.holds c = true) (hP : P ⟨some c, t⟩) : mayOne k q rest = true := by
  induction q with
  | nil =>
    rw [mayOne, List.any_eq_true]
    exact ⟨c, ht c rfl, hk⟩
  | cons s q ih =>
    cases s with
    | char d =>
      obtain ⟨t', hd, ht'⟩ := ht
      cases hd
      rw [mayOne, hk, Bool.true_and]
      exact hrest _ _ _ _ (by simp [Knows]) ht' hP
    | run =>
      obtain ⟨d, t', hd, hmem, ht'⟩ := ht
      rw [mayOne, Bool.or_eq_true, Bool.and_eq_true]
      cases d with
      | nil =>
        rw [List.nil_append] at hd
        exact Or.inr (ih (by rwa [hd]))
      | cons e d =>
        cases hd
        refine Or.inl ⟨meetsRun_of_holds (hmem c (by simp)) hk, ?_⟩
        refine hrest none _ (some c) (d ++ t') (by simp [Knows]) ⟨d, t', rfl, ?_, ht'⟩ hP
        exact fun e he => hmem e (List.mem_cons_of_mem _ he)

/-- Every stop of a repetition is met. -/
theorem mayMany_of_holds {k : CharClass} {rest : Rest} {P : Place → Prop} (hrest : Covers P rest)
    {q : List Segment} {β : Option (Option Char)} {b : Option Char} {d t : List Char}
    (hβ : Knows β b) (ht : Outlines q (d ++ t)) (hk : ∀ c ∈ d, k.holds c = true)
    (hP : P ⟨d.getLast?.or b, t⟩) : mayMany k β q rest = true := by
  induction q generalizing β b d with
  | nil =>
    rw [mayMany, Bool.or_eq_true]
    cases d with
    | nil => exact Or.inr (hrest _ _ _ _ hβ ht (by simpa using hP))
    | cons c d =>
      rw [List.any_eq_true]
      exact Or.inl ⟨c, ht c rfl, hk c (by simp)⟩
  | cons s q ih =>
    cases s with
    | char c =>
      rw [mayMany, Bool.or_eq_true, Bool.and_eq_true]
      cases d with
      | nil => exact Or.inl (hrest _ _ _ _ hβ ht (by simpa using hP))
      | cons c' d =>
        obtain ⟨t', hd, ht'⟩ := ht
        cases hd
        refine Or.inr ⟨hk c (by simp), ih (b := some c) (by simp [Knows]) ht' ?_ ?_⟩
        · exact fun e he => hk e (List.mem_cons_of_mem _ he)
        · rwa [getLast?_cons_or] at hP
    | run =>
      obtain ⟨r, t', hr, hmem, ht'⟩ := ht
      rw [mayMany, Bool.or_eq_true]
      -- the repetition stops in the run or goes on behind it
      rcases List.append_eq_append_iff.mp hr with ⟨r', rfl, rfl⟩ | ⟨d', rfl, rfl⟩
      · refine Or.inl (hrest none _ _ _ (by simp [Knows]) ⟨r', t', rfl, ?_, ht'⟩ hP)
        exact fun e he => hmem e (List.mem_append_right _ he)
      · refine Or.inr (ih (b := r.getLast?.or b) (by simp [Knows]) ht' ?_ ?_)
        · exact fun e he => hk e (List.mem_append_right _ he)
        · rwa [List.getLast?_append, Option.or_assoc] at hP

/-- The matches of a repetition stop behind characters of its class. -/
theorem stop_of_mem_manyMatches {k : CharClass} {before : Option Char} {n : Nat}
    {shorter : List Match} {s : List Char} {m : Match}
    (hm : m ∈ manyMatches k before n shorter s) :
    m ∈ shorter ∨ ∃ d, s = d ++ m.stop.after ∧ (∀ c ∈ d, k.holds c = true) ∧
      m.stop.before = d.getLast?.or before := by
  induction s generalizing before n shorter with
  | nil =>
    rcases List.mem_cons.mp hm with rfl | hm
    · exact Or.inr ⟨[], rfl, by simp, rfl⟩
    · exact Or.inl hm
  | cons c s ih =>
    have hhere : m = ⟨⟨before, c :: s⟩, n, []⟩ → ∃ d, c :: s = d ++ m.stop.after ∧
        (∀ c ∈ d, k.holds c = true) ∧ m.stop.before = d.getLast?.or before := by
      rintro rfl
      exact ⟨[], rfl, by simp, rfl⟩
    rw [manyMatches] at hm
    split at hm
    · next hc =>
      rcases ih hm with hm | ⟨d, hd, hk, hbefore⟩
      · rcases List.mem_cons.mp hm with hm | hm
        · exact Or.inr (hhere hm)
        · exact Or.inl hm
      · refine Or.inr ⟨c :: d, by rw [hd]; rfl, ?_, ?_⟩
        · intro e he
          rcases List.mem_cons.mp he with rfl | he
          · exact hc
          · exact hk e he
        · rw [hbefore, getLast?_cons_or]
    · rcases List.mem_cons.mp hm with hm | hm
      · exact Or.inr (hhere hm)
      · exact Or.inl hm

theorem mayBoundary_of_isBoundary {β : Option (Option Char)} {b : Option Char}
    {q : List Segment} {t : List Char} (hβ : Knows β b) (ht : Outlines q t)
    (h : Text.isBoundary b t.head? = true) : mayBoundary β q = true := by
  cases β with
  | none => rfl
  | some b' =>
    have hb : b' = b := hβ b' rfl
    subst hb
    cases q with
    | nil =>
      -- no closer is a character of words, so it bounds a word as the end does
      have hclosers : ∀ c ∈ closers, Text.isWordChar c = false := by decide
      cases t with
      | nil => exact h
      | cons c t => simpa [mayBoundary, Text.isBoundary, hclosers c (ht c rfl)] using h
    | cons s q =>
      cases s with
      | char c =>
        obtain ⟨t', rfl, -⟩ := ht
        exact h
      | run => rfl

/-- What matches at the beginning of a text may match in its outline, if the rest may. -/
theorem mayMatch_of_mem {a : Pattern} {rest : Rest} {P : Place → Prop} (hrest : Covers P rest)
    {q : List Segment} {β : Option (Option Char)} {b : Option Char} {t : List Char}
    (hβ : Knows β b) (ht : Outlines q t) {m : Match} (hm : m ∈ allMatches a ⟨b, t⟩)
    (hP : P m.stop) : mayMatch a β q rest = true := by
  induction a generalizing rest P q β b t m with
  | empty =>
    rw [allMatches, List.mem_singleton] at hm
    subst hm
    exact hrest _ _ _ _ hβ ht hP
  | one k =>
    cases t with
    | nil => cases hm
    | cons c t =>
      rw [allMatches] at hm
      split at hm
      · cases hm
      · next c' t' heq =>
        cases heq
        split at hm
        · next hk =>
          rw [List.mem_singleton] at hm
          subst hm
          exact mayOne_of_holds hrest ht hk hP
        · cases hm
  | many k =>
    rcases stop_of_mem_manyMatches hm with hm | ⟨d, hd, hk, hbefore⟩
    · cases hm
    · have hplace : m.stop = ⟨d.getLast?.or b, m.stop.after⟩ := by
        rw [← hbefore]
      have hd' : t = d ++ m.stop.after := hd
      rw [hd'] at ht
      rw [hplace] at hP
      exact mayMany_of_holds hrest hβ ht hk hP
  | boundary =>
    rw [allMatches] at hm
    split at hm
    · next h =>
      rw [List.mem_singleton] at hm
      subst hm
      rw [mayMatch, Bool.and_eq_true]
      exact ⟨mayBoundary_of_isBoundary hβ ht h, hrest _ _ _ _ hβ ht hP⟩
    · cases hm
  | seq a c iha ihc =>
    rw [allMatches, List.mem_flatMap] at hm
    obtain ⟨m₁, hm₁, hm⟩ := hm
    rw [List.mem_map] at hm
    obtain ⟨m₂, hm₂, rfl⟩ := hm
    refine iha (P := fun p => ∃ m ∈ allMatches c p, P m.stop) ?_ hβ ht hm₁ ⟨m₂, hm₂, hP⟩
    rintro β' q' b' t' hβ' ht' ⟨m', hm', hP'⟩
    exact ihc hrest hβ' ht' hm' hP'
  | either a c iha ihc =>
    rw [mayMatch, Bool.or_eq_true]
    rcases List.mem_append.mp hm with hm | hm
    · exact Or.inl (iha hrest hβ ht hm hP)
    · exact Or.inr (ihc hrest hβ ht hm hP)
  | capture a ih =>
    rw [allMatches, List.mem_map] at hm
    obtain ⟨m', hm', rfl⟩ := hm
    exact ih hrest hβ ht hm' hP

/-- The pattern matches nowhere in a text of the outline, before it ends. -/
def quiet (a : Pattern) : Option (Option Char) → List Segment → Bool
  | _, [] => !mayMatch a none [] fun _ _ => true
  | β, .char c :: q =>
    !mayMatch a β (.char c :: q) (fun _ _ => true) && quiet a (some (some c)) q
  | _, .run :: q => !mayMatch a none (.run :: q) (fun _ _ => true) && quiet a none q

end Pattern

/-! ### Rewording in outline -/

namespace Replacement

variable (r : Replacement)

theorem matchAt_of_not_mayMatch {q : List Segment} {β : Option (Option Char)} {b : Option Char}
    {t : List Char} (h : (!mayMatch r.pattern β q fun _ _ => true) = true) (hβ : Knows β b)
    (ht : Outlines q t) : r.matchAt ⟨b, t⟩ = none := by
  have hnone : allMatches r.pattern ⟨b, t⟩ = [] := by
    rw [List.eq_nil_iff_forall_not_mem]
    intro m hm
    have hmay := mayMatch_of_mem (P := fun _ => True) (fun _ _ _ _ _ _ _ => rfl) hβ ht hm trivial
    rw [hmay] at h
    cases h
  rw [matchAt, firstMatch, hnone]
  rfl

/-- A replacement without a match in an outline keeps it. -/
theorem passFrom_of_quiet {q : List Segment} {β : Option (Option Char)} {b : Option Char}
    {t : List Char} (h : quiet r.pattern β q = true) (hβ : Knows β b) (ht : Outlines q t) :
    Outlines q (r.passFrom b 0 t) := by
  induction q generalizing β b t with
  | nil =>
    cases t with
    | nil => exact ht
    | cons c t =>
      have hnone : r.matchAt ⟨b, c :: t⟩ = none := r.matchAt_of_not_mayMatch (β := none) h nofun ht
      rw [passFrom, hnone]
      exact ht
  | cons s q ih =>
    cases s with
    | char c =>
      rw [quiet, Bool.and_eq_true] at h
      have hnone := r.matchAt_of_not_mayMatch h.1 hβ ht
      obtain ⟨t', rfl, ht'⟩ := ht
      rw [passFrom, hnone]
      exact ⟨_, rfl, ih h.2 (by simp [Knows]) ht'⟩
    | run =>
      rw [quiet, Bool.and_eq_true] at h
      obtain ⟨d, t', rfl, hd, ht'⟩ := ht
      have hnone : ∀ d₁ d₂ b', d = d₁ ++ d₂ → d₂ ≠ [] → r.matchAt ⟨b', d₂ ++ t'⟩ = none := by
        rintro d₁ d₂ b' rfl -
        refine r.matchAt_of_not_mayMatch (β := none) h.1 nofun ⟨d₂, t', rfl, ?_, ht'⟩
        exact fun c hc => hd c (List.mem_append_right _ hc)
      obtain ⟨b', hpass⟩ := r.passFrom_append b d t' hnone
      rw [hpass]
      exact ⟨d, _, rfl, hd, ih h.2 nofun ht'⟩

theorem apply_of_quiet {q : List Segment} {t : List Char}
    (h : quiet r.pattern (some none) q = true) (ht : Outlines q t) : Outlines q (r.apply t) := by
  have hpass {t : List Char} (ht : Outlines q t) : Outlines q (r.pass t) :=
    r.passFrom_of_quiet h (by simp [Knows]) ht
  have hsettle (n : Nat) {t : List Char} (ht : Outlines q t) : Outlines q (r.settle n t) := by
    induction n generalizing t with
    | zero => exact ht
    | succ n ih =>
      rw [settle]
      split
      · exact ht
      · exact ih (hpass ht)
  rw [apply]
  split
  · exact hsettle _ ht
  · exact hpass ht

end Replacement

/-- No replacement of the wording has a match in the outline. -/
def steady (q : List Segment) : Bool :=
  Wording.rules.all fun r => quiet r.pattern (some none) q

/-- Rewording keeps an outline in which no replacement has a match. -/
theorem reworded_of_steady {q : List Segment} (h : steady q = true) {t : List Char}
    (ht : Outlines q t) : Outlines q (Wording.reworded t) := by
  rw [Wording.reworded]
  rw [steady, List.all_eq_true] at h
  generalize Wording.rules = rs at h
  induction rs generalizing t with
  | nil => exact ht
  | cons r rs ih =>
    rw [List.foldl_cons]
    exact ih (r.apply_of_quiet (h r (by simp)) ht) fun r' hr' => h r' (List.mem_cons_of_mem _ hr')

end Reckon
