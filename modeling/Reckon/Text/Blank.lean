/-
Blanks, and the words that they separate.

A blank is a character with the White_Space property. A text is read as the list of its words, the
maximal runs of other characters; its collapsed form writes the words with one space between.

* `words_eq_nil_iff` : a text has no word exactly when it holds blanks alone.
* `not_isBlank_of_mem_words` : no word holds a blank.
* `forall_isBlank` : what is said of all blanks, told from the table.
-/
import Reckon.Text.CharSet

namespace Reckon.Text

/-- The characters with the White_Space property. -/
def blanks : CharSet where
  ranges := [(0x0009, 0x000d), (0x0020, 0x0020), (0x0085, 0x0085), (0x00a0, 0x00a0),
    (0x1680, 0x1680), (0x2000, 0x200a), (0x2028, 0x2029), (0x202f, 0x202f), (0x205f, 0x205f),
    (0x3000, 0x3000)]

/-- A character with the White_Space property. -/
def isBlank (c : Char) : Bool :=
  blanks.contains c

/-- The text without the blanks at its front. -/
def trimFront (s : List Char) : List Char :=
  s.dropWhile isBlank

/-- The text without the blanks at its back. -/
def trimBack (s : List Char) : List Char :=
  (s.reverse.dropWhile isBlank).reverse

/-- The text without the blanks at either end. -/
def trim (s : List Char) : List Char :=
  trimBack (trimFront s)

/-- The text without any blank. -/
def dropBlanks (s : List Char) : List Char :=
  s.filter fun c => !isBlank c

/-- The character put in front of the first word. -/
def extendFirst (c : Char) : List (List Char) → List (List Char)
  | [] => [[c]]
  | w :: ws => (c :: w) :: ws

/-- The words of a text: a character that is no blank belongs to the word that follows it at once,
and is a word of its own when a blank or the end follows. -/
def words : List Char → List (List Char)
  | [] => []
  | c :: s =>
    if isBlank c then words s
    else if s.head?.all isBlank then [c] :: words s
    else extendFirst c (words s)

/-- The words with one space between neighbours. -/
def unwords (ws : List (List Char)) : List Char :=
  List.intercalate [' '] ws

/-- The text with every run of blanks made one space, and none at its ends. -/
def collapse (s : List Char) : List Char :=
  unwords (words s)

theorem forall_isBlank {p : Char → Prop}
    (h : ∀ r ∈ blanks.ranges, ∀ n ∈ List.range' r.1 (r.2 + 1 - r.1), p (Char.ofNat n)) {c : Char}
    (hc : isBlank c = true) : p c := by
  obtain ⟨r, hr, hfirst, hlast⟩ := (CharSet.contains_iff _ _).mp hc
  have hp := h r hr c.toNat (List.mem_range'_1.mpr (by omega))
  rwa [Char.ofNat_toNat] at hp

theorem not_isBlank_of_mem_words {s w : List Char} (hw : w ∈ words s) :
    ∀ c ∈ w, isBlank c = false := by
  induction s generalizing w with
  | nil => simp [words] at hw
  | cons a s ih =>
    rw [words] at hw
    split at hw
    · exact ih hw
    · rename_i ha
      have ha' : isBlank a = false := by simpa using ha
      split at hw
      · rcases List.mem_cons.mp hw with rfl | hw
        · simpa using ha'
        · exact ih hw
      · cases hws : words s with
        | nil =>
          rw [hws] at hw
          simp only [extendFirst, List.mem_singleton] at hw
          subst hw
          simpa using ha'
        | cons v vs =>
          rw [hws] at hw
          rcases List.mem_cons.mp hw with rfl | hw
          · intro c hc
            rcases List.mem_cons.mp hc with rfl | hc
            · exact ha'
            · exact ih (by simp [hws]) c hc
          · exact ih (by simp [hws, hw])

theorem extendFirst_ne_nil (c : Char) (ws : List (List Char)) : extendFirst c ws ≠ [] := by
  cases ws <;> simp [extendFirst]

theorem words_eq_nil_iff (s : List Char) : words s = [] ↔ ∀ c ∈ s, isBlank c = true := by
  induction s with
  | nil => simp [words]
  | cons a s ih =>
    rw [words]
    split
    · rename_i ha
      simp [ha, ih]
    · rename_i ha
      split <;> simp [ha, extendFirst_ne_nil]

end Reckon.Text
