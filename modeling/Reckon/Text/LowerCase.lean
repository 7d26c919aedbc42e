/-
Lower-casing of whole texts.

Each character is replaced by its lower-case form, which for one letter (`İ`) has two characters.
The capital sigma is the only letter whose form depends on its place: at the end of a word it
becomes `ς`, elsewhere `σ`. It is at the end of a word when, case-ignorable characters looked
through, a cased character stands before it and none after it.

* `lowerChar` : the form of one character without regard to its place.
* `lower` : the form of a text.
* `lower_of_ascii` : on ASCII, the characters one by one.
-/
import Reckon.Text.Casing

namespace Reckon.Text

/-- The lower-case form of a character outside of any text. -/
def lowerChar (c : Char) : List Char :=
  if c.toNat < 128 then [c.toLower]
  else if c = 'İ' then ['i', '\u0307']
  else
    match lowerRuns.find? (·.holds c.toNat) with
    | some r => [Char.ofNat (c.toNat + r.shift).toNat]
    | none => [c]

/-- The first character that is not case-ignorable is cased. -/
def meetsCased (s : List Char) : Bool :=
  match s.dropWhile isCaseIgnorable with
  | [] => false
  | c :: _ => isCased c

/-- The lower-case form of the rest `s` of a text, of which `before` are the characters already
passed, the nearest first. -/
def lowerAfter (before : List Char) : List Char → List Char
  | [] => []
  | c :: s =>
    let form :=
      if c = 'Σ' then [if meetsCased before && !meetsCased s then 'ς' else 'σ'] else lowerChar c
    form ++ lowerAfter (c :: before) s

/-- The lower-case form of a text. -/
def lower (s : List Char) : List Char :=
  lowerAfter [] s

theorem lowerAfter_of_ascii (before s : List Char) (h : ∀ c ∈ s, c.toNat < 128) :
    lowerAfter before s = s.map Char.toLower := by
  induction s generalizing before with
  | nil => rfl
  | cons c s ih =>
    have hc : c.toNat < 128 := h c (by simp)
    have hs : c ≠ 'Σ' := by
      rintro rfl
      exact absurd hc (by decide)
    simp [lowerAfter, hs, lowerChar, hc, ih (c :: before) fun d hd => h d (by simp [hd])]

theorem lower_of_ascii (s : List Char) (h : ∀ c ∈ s, c.toNat < 128) :
    lower s = s.map Char.toLower :=
  lowerAfter_of_ascii [] s h

end Reckon.Text
