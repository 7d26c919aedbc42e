/-
Patterns of characters, and where they match.

A pattern is matched at a place of a text. Its meaning is the list of all its matches there, the
preferred one first: an alternative prefers its left side, a repetition prefers to go on, and a
sequence prefers what its first part prefers. Matching takes the first of the list.

Repetition is over one class of characters, so a pattern has finitely many matches at a place and
`matches` is structural recursion on the pattern.

* `Pattern.allMatches` : the matches at a place, the preferred one first.
* `Pattern.firstMatch` : the preferred match.
* `Pattern.Sound` and `Pattern.sound` : what a match takes and what it leaves make up the text.
-/
import Reckon.Text.Blank
import Reckon.Text.Digit
import Reckon.Text.WordChar

namespace Reckon

open Text

/-- The classes of characters that patterns are made of. -/
inductive CharClass
  | only (c : Char)
  | oneOf (cs : List Char)
  | digit
  | blank
  deriving Repr, DecidableEq

/-- The class holds the character. -/
def CharClass.holds : CharClass → Char → Bool
  | .only d, c => c == d
  | .oneOf cs, c => cs.contains c
  | .digit, c => isDecimalDigit c
  | .blank, c => isBlank c

/-- What a text has to look like from a place on. -/
inductive Pattern
  /-- Nothing is asked for. -/
  | empty
  /-- One character of the class. -/
  | one (k : CharClass)
  /-- Any number of characters of the class, as many as possible preferred. -/
  | many (k : CharClass)
  /-- The place is where a word begins or ends. -/
  | boundary
  | seq (p q : Pattern)
  | either (p q : Pattern)
  /-- What the pattern takes is kept. -/
  | capture (p : Pattern)
  deriving Repr, DecidableEq

/-- A place in a text: the character before it, if there is one, and the characters after it. -/
structure Place where
  before : Option Char
  after : List Char

/-- A stretch of a text: its first `size` characters from a place on. -/
structure Stretch where
  start : List Char
  size : Nat

/-- The characters of a stretch. -/
def Stretch.chars (x : Stretch) : List Char :=
  x.start.take x.size

/-- A match: the place where it ends, how many characters it takes, and the stretches it keeps in
the order in which they begin. -/
structure Match where
  stop : Place
  size : Nat
  captures : List Stretch

namespace Pattern

/-- The matches of a repetition, of which `n` characters are taken and the shorter ones found. -/
def manyMatches (k : CharClass) (before : Option Char) (n : Nat) (shorter : List Match) :
    List Char → List Match
  | [] => ⟨⟨before, []⟩, n, []⟩ :: shorter
  | c :: s =>
    let here : Match := ⟨⟨before, c :: s⟩, n, []⟩
    if k.holds c then manyMatches k (some c) (n + 1) (here :: shorter) s else here :: shorter

/-- The matches at a place, the preferred one first. -/
def allMatches : Pattern → Place → List Match
  | empty, p => [⟨p, 0, []⟩]
  | one k, p =>
    match p.after with
    | [] => []
    | c :: s => if k.holds c then [⟨⟨some c, s⟩, 1, []⟩] else []
  | many k, p => manyMatches k p.before 0 [] p.after
  | boundary, p => if isBoundary p.before p.after.head? then [⟨p, 0, []⟩] else []
  | seq a b, p =>
    (allMatches a p).flatMap fun m =>
      (allMatches b m.stop).map fun m' =>
        ⟨m'.stop, m.size + m'.size, m.captures ++ m'.captures⟩
  | either a b, p => allMatches a p ++ allMatches b p
  | capture a, p =>
    (allMatches a p).map fun m => { m with captures := ⟨p.after, m.size⟩ :: m.captures }

/-- The preferred match at a place. -/
def firstMatch (a : Pattern) (p : Place) : Option Match :=
  (allMatches a p).head?

/-! ### Building patterns -/

instance : Append Pattern := ⟨seq⟩

/-- One character of a class and any more of it. -/
def atLeastOne (k : CharClass) : Pattern :=
  one k ++ many k

/-- The pattern or nothing. -/
def optional (p : Pattern) : Pattern :=
  either p empty

/-- Exactly these characters. -/
def text (s : String) : Pattern :=
  s.toList.foldr (fun c p => one (.only c) ++ p) empty

/-- One of the texts, an earlier one preferred. -/
def anyOf : List String → Pattern
  | [] => one (.oneOf [])
  | [s] => text s
  | s :: ss => either (text s) (anyOf ss)

/-- One of the texts, standing as a word or as words of its own. -/
def phrase (ss : List String) : Pattern :=
  boundary ++ anyOf ss ++ boundary

/-- Any number of blanks. -/
def blanks : Pattern :=
  many .blank

/-! ### What a match says about the text -/

/-- The match takes `m.size` characters after the place and stops behind them. -/
def Sound (p : Place) (m : Match) : Prop :=
  m.size ≤ p.after.length ∧ m.stop.after = p.after.drop m.size

theorem sound_manyMatches (k : CharClass) (t : List Char) (s : List Char) (before : Option Char)
    (n : Nat) (shorter : List Match) (hn : n ≤ t.length) (hs : s = t.drop n)
    (hshorter : ∀ m ∈ shorter, m.size ≤ t.length ∧ m.stop.after = t.drop m.size) :
    ∀ m ∈ manyMatches k before n shorter s,
      m.size ≤ t.length ∧ m.stop.after = t.drop m.size := by
  induction s generalizing before n shorter with
  | nil =>
    intro m hm
    rw [manyMatches] at hm
    rcases List.mem_cons.mp hm with rfl | hm
    · exact ⟨hn, hs⟩
    · exact hshorter m hm
  | cons c s ih =>
    have hcons : ∀ m ∈ (⟨⟨before, c :: s⟩, n, []⟩ :: shorter : List Match),
        m.size ≤ t.length ∧ m.stop.after = t.drop m.size := by
      intro m hm
      rcases List.mem_cons.mp hm with rfl | hm
      · exact ⟨hn, hs⟩
      · exact hshorter m hm
    intro m hm
    simp only [manyMatches] at hm
    split at hm
    · refine ih (some c) (n + 1) _ ?_ ?_ hcons m hm
      · have hlen : (t.drop n).length = t.length - n := List.length_drop
        rw [← hs, List.length_cons] at hlen
        omega
      · rw [← List.tail_drop, ← hs, List.tail_cons]
    · exact hcons m hm

theorem sound (a : Pattern) (p : Place) : ∀ m ∈ allMatches a p, Sound p m := by
  induction a generalizing p with
  | empty =>
    intro m hm
    simp only [allMatches, List.mem_singleton] at hm
    subst hm
    exact ⟨Nat.zero_le _, rfl⟩
  | one k =>
    intro m hm
    simp only [allMatches] at hm
    split at hm
    · simp at hm
    · rename_i c s hp
      split at hm
      · rw [List.mem_singleton] at hm
        subst hm
        simp [Sound, hp]
      · simp at hm
  | many k =>
    intro m hm
    exact sound_manyMatches k p.after p.after p.before 0 [] (Nat.zero_le _) rfl (by simp) m hm
  | boundary =>
    intro m hm
    simp only [allMatches] at hm
    split at hm
    · rw [List.mem_singleton] at hm
      subst hm
      exact ⟨Nat.zero_le _, rfl⟩
    · simp at hm
  | seq a b iha ihb =>
    intro m hm
    simp only [allMatches, List.mem_flatMap, List.mem_map] at hm
    obtain ⟨m₁, h₁, m₂, h₂, rfl⟩ := hm
    obtain ⟨hlen₁, hstop₁⟩ := iha p m₁ h₁
    obtain ⟨hlen₂, hstop₂⟩ := ihb m₁.stop m₂ h₂
    rw [hstop₁, List.length_drop] at hlen₂
    refine ⟨?_, ?_⟩
    · show m₁.size + m₂.size ≤ p.after.length
      omega
    · show m₂.stop.after = p.after.drop (m₁.size + m₂.size)
      rw [hstop₂, hstop₁, List.drop_drop]
  | either a b iha ihb =>
    intro m hm
    rcases List.mem_append.mp hm with h | h
    · exact iha p m h
    · exact ihb p m h
  | capture a ih =>
    intro m hm
    simp only [allMatches, List.mem_map] at hm
    obtain ⟨m', h', rfl⟩ := hm
    exact ih p m' h'

end Pattern

end Reckon
