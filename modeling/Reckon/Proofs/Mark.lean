/-
What tells texts apart.

A text is marked by a word behind the characters of amounts at its front, or behind an article. A
marked outline is kept by all replacements of the wording and holds letters that no formula has, so
a text of this outline is no formula. The word itself can be read off the text, so two texts with
different words are different.

* `marked`, `not_scan_of_marked` : outlines that no formula has.
* `begins`, `outlines_begins_unwords` : texts that begin with a word.
* `lead`, `lead_of_outlines` : the first word of a text, read off its outline.
-/
import Reckon.Proofs.Legible

namespace Reckon

open Text

/-! ### Marked outlines -/

/-- Rewording keeps the outline, and no formula has it. -/
def marked (q : List Segment) : Bool :=
  Formula.illegible q && steady q

theorem not_scan_of_marked {q : List Segment} {s : List Char} (hq : marked q = true)
    (hs : Outlines q (collapse (lower s))) (ts : List Formula.Token) :
    Formula.scan (Wording.normalForm s) ≠ .ok ts := by
  rw [marked, Bool.and_eq_true] at hq
  exact Formula.not_scan_of_outlines hq.2 hq.1 hs ts

theorem quiet_of_append {a : Pattern} {q q' : List Segment} {β : Option (Option Char)}
    (h : Pattern.quiet a β (q ++ .run :: q') = true) (β' : Option (Option Char)) :
    Pattern.quiet a β' (.run :: q') = true := by
  induction q generalizing β with
  | nil => exact h
  | cons s q ih =>
    cases s with
    | char c | run =>
      rw [List.cons_append, Pattern.quiet, Bool.and_eq_true] at h
      exact ih h.2

/-- From a stretch of characters of amounts on, the outline is marked by itself. -/
theorem marked_of_append {q q' : List Segment} (hq : marked (q ++ .run :: q') = true)
    (hq' : Formula.illegible q' = true) : marked (.run :: q') = true := by
  rw [marked, Bool.and_eq_true, steady, List.all_eq_true] at hq ⊢
  exact ⟨hq', fun r hr => quiet_of_append (hq.2 r hr) _⟩

/-! ### Texts that begin with a word -/

/-- The word, perhaps behind characters of amounts. -/
def begins (w : List Char) : List Segment :=
  .run :: outline w

theorem Outlines.append_word {q : List Segment} {t : List Char} (ht : Outlines q t)
    (w : List Char) : Outlines (outline w ++ q) (w ++ t) := by
  induction w with
  | nil => exact ht
  | cons c w ih => exact ⟨w ++ t, rfl, ih⟩

theorem outlines_begins {d : List Char} (hd : ∀ c ∈ d, c ∈ runChars) (w : List Char)
    {t : List Char} (ht : ∀ c ∈ t.head?, c ∈ closers) : Outlines (begins w) (d ++ (w ++ t)) := by
  have hend : Outlines [] t := ht
  have hword := hend.append_word w
  rw [List.append_nil] at hword
  exact ⟨d, w ++ t, rfl, hd, hword⟩

theorem outlines_begins_unwords {d : List Char} (hd : ∀ c ∈ d, c ∈ runChars) (w : List Char)
    (ws : List (List Char)) : Outlines (begins w) (d ++ unwords (w :: ws)) := by
  by_cases hws : ws = []
  · subst hws
    have hend := outlines_begins hd w (t := []) (by simp)
    rw [List.append_nil] at hend
    rwa [unwords_singleton]
  · rw [unwords_cons hws]
    exact outlines_begins hd w (by simp [closers])

/-! ### First words -/

/-- The first word of a text, with the characters of amounts in front of it left out. It ends where
a text may go on behind its outline. -/
def lead (t : List Char) : List Char :=
  (t.dropWhile runChars.contains).takeWhile fun c => !closers.contains c

/-- The beginning of the outline, up to a character that may close it. -/
def knownWord : List Segment → Option (List Char)
  | [] => some []
  | .char c :: q => if closers.contains c then some [] else (knownWord q).map (c :: ·)
  | .run :: _ => none

/-- The first word of the texts of an outline, where the outline tells it. -/
def leadOf : List Segment → Option (List Char)
  | [] => none
  | .run :: q => leadOf q
  | .char c :: q => if runChars.contains c then leadOf q else knownWord (.char c :: q)

theorem takeWhile_of_knownWord {q : List Segment} {t w : List Char} (ht : Outlines q t)
    (hq : knownWord q = some w) : (t.takeWhile fun c => !closers.contains c) = w := by
  induction q generalizing t w with
  | nil =>
    cases hq
    cases t with
    | nil => rfl
    | cons c t =>
      have hc : c ∈ closers := ht c rfl
      rw [List.takeWhile_cons_of_neg (by simpa using hc)]
  | cons s q ih =>
    cases s with
    | run => cases hq
    | char c =>
      obtain ⟨t', rfl, ht'⟩ := ht
      rw [knownWord] at hq
      split at hq
      · next hc =>
        cases hq
        rw [List.takeWhile_cons_of_neg (by simpa using hc)]
      · next hc =>
        obtain ⟨w', hw', rfl⟩ := Option.map_eq_some_iff.mp hq
        rw [List.takeWhile_cons_of_pos (by simpa using hc), ih ht' hw']

theorem lead_of_outlines {q : List Segment} {t w : List Char} (ht : Outlines q t)
    (hq : leadOf q = some w) : lead t = w := by
  induction q generalizing t with
  | nil => cases hq
  | cons s q ih =>
    cases s with
    | run =>
      obtain ⟨d, t', rfl, hd, ht'⟩ := ht
      have hlead := ih ht' hq
      rwa [lead, List.dropWhile_append_of_pos fun c hc => by simpa using hd c hc]
    | char c =>
      rw [leadOf] at hq
      split at hq
      · next hc =>
        obtain ⟨t', rfl, ht'⟩ := ht
        rw [lead, List.dropWhile_cons_of_pos hc]
        exact ih ht' hq
      · next hc =>
        have hword := takeWhile_of_knownWord ht hq
        obtain ⟨t', rfl, -⟩ := ht
        rwa [lead, List.dropWhile_cons_of_neg hc]

/-- The first words of both outlines are known and differ. -/
def differ (q q' : List Segment) : Bool :=
  (leadOf q).any fun w => (leadOf q').any fun w' => w != w'

theorem not_outlines_of_differ {q q' : List Segment} {t : List Char} (h : differ q q' = true)
    (ht : Outlines q t) : ¬ Outlines q' t := by
  intro ht'
  rw [differ, Option.any_eq_true] at h
  obtain ⟨w, hw, h⟩ := h
  rw [Option.any_eq_true] at h
  obtain ⟨w', hw', hne⟩ := h
  have heq : w = w' := (lead_of_outlines ht hw).symm.trans (lead_of_outlines ht' hw')
  simp [heq] at hne

end Reckon
