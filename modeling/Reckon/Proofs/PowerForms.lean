/-
Powers and scientific notation in written formulas.

Two of the replacements of the wording find something in a formula that has been written: the one
for powers of literals, and before it the one for scientific notation, a literal times a power
of 10.

* `Exponent`, `exponent?`, `power?`, `scientific?` : what the two look for, among items.
* `Powers`, `Grouped` : the items with powers, and with scientific notation, replaced.
-/
import Reckon.Proofs.Spelling

namespace Reckon.Formula

/-- The exponent of a power of a literal: a literal, or a minus sign directly in front of one. -/
structure Exponent where
  negative : Bool
  literal : Literal

/-- The items of an exponent. -/
def Exponent.items (e : Exponent) (spaced : Bool) : List Item :=
  if e.negative then [⟨spaced, .negate⟩, ⟨false, .number e.literal⟩]
  else [⟨spaced, .number e.literal⟩]

/-- The characters of an exponent. -/
def Exponent.chars (e : Exponent) : List Char :=
  (if e.negative then ['-'] else []) ++ e.literal.chars

/-- The exponent in front of some items, and what follows it. -/
def exponent? : List Item → Option (Exponent × List Item)
  | ⟨_, .number k⟩ :: is => some (⟨false, k⟩, is)
  | ⟨_, .negate⟩ :: ⟨false, .number k⟩ :: is => some (⟨true, k⟩, is)
  | _ => none

/-- A power of a literal, and what follows it. -/
structure Power where
  base : Literal
  exponent : Exponent
  rest : List Item

/-- The power of a literal in front of some items. -/
def power? : List Item → Option Power
  | ⟨_, .number n⟩ :: ⟨_, .binary .pow⟩ :: is =>
    (exponent? is).map fun (e, rest) => ⟨n, e, rest⟩
  | _ => none

/-- The items that stand for a power. -/
def Power.items (p : Power) (spaced : Bool) : List Item :=
  [⟨spaced, .function .pow⟩, ⟨false, .leftParen⟩, ⟨false, .number p.base⟩, ⟨false, .comma⟩] ++
    p.exponent.items false ++ [⟨false, .rightParen⟩]

/-- Scientific notation in front of some items: a literal times a power of the literal `10`. -/
def scientific? : List Item → Option (Literal × Power)
  | ⟨_, .number n⟩ :: ⟨_, .binary .mul⟩ :: is =>
    ((power? is).filter fun p => p.base.chars = ['1', '0']).map fun p => (n, p)
  | _ => none

/-- The items that stand for scientific notation. -/
def scientificItems (n : Literal) (p : Power) (spaced : Bool) : List Item :=
  [⟨spaced, .leftParen⟩, ⟨false, .number n⟩, ⟨true, .binary .mul⟩] ++ p.items true ++
    [⟨false, .rightParen⟩]

/-- The items with every power of a literal replaced, from the front. -/
inductive Powers : List Item → List Item → Prop
  | nil : Powers [] []
  | keep {i : Item} {is is' : List Item} (hi : power? (i :: is) = none) (h : Powers is is') :
      Powers (i :: is) (i :: is')
  | power {i : Item} {is is' : List Item} {p : Power} (hp : power? (i :: is) = some p)
      (h : Powers p.rest is') : Powers (i :: is) (p.items i.spaced ++ is')

/-- The place behind a lexeme leads: it begins a formula, an argument, what stands in parentheses or
a summand, signs apart. -/
def leadsAfter (lead : Bool) : Lexeme → Bool
  | .binary .add => true
  | .binary .sub => true
  | .leftParen => true
  | .comma => true
  | .negate => lead
  | _ => false

/-- The items with scientific notation replaced, from the front, where every place that has it
leads and has a whole exponent; `lead` tells whether the first place leads. -/
inductive Grouped : Bool → List Item → List Item → Prop
  | nil {lead : Bool} : Grouped lead [] []
  | keep {lead : Bool} {i : Item} {is is' : List Item} (hi : scientific? (i :: is) = none)
      (h : Grouped (leadsAfter lead i.lexeme) is is') : Grouped lead (i :: is) (i :: is')
  | group {i : Item} {is is' : List Item} {n : Literal} {p : Power}
      (hs : scientific? (i :: is) = some (n, p)) (hwhole : p.exponent.literal.fraction = [])
      (h : Grouped false p.rest is') : Grouped true (i :: is) (scientificItems n p i.spaced ++ is')

/-! ### Where powers stand -/

/-- No exponent of a power operator is itself followed by a power operator. -/
def Unchained : List Item → Prop
  | [] => True
  | i :: is => (i.lexeme = .binary .pow → ∀ e rest, exponent? is = some (e, rest) →
      ∀ j ∈ rest.head?, j.lexeme ≠ .binary .pow) ∧ Unchained is

/-- No function stands directly in front of a power of a literal. -/
def Unrooted : List Item → Prop
  | [] => True
  | i :: is => (∀ f, i.lexeme = .function f → power? is = none) ∧ Unrooted is

/-! ### What has been found -/

theorem spell_append (is js : List Item) : spell (is ++ js) = spell is ++ spell js :=
  List.flatMap_append

theorem tokens_append (is js : List Item) : tokens (is ++ js) = tokens is ++ tokens js :=
  List.map_append

theorem Exponent.spell_items (e : Exponent) (spaced : Bool) :
    spell (e.items spaced) = space spaced ++ e.chars := by
  rw [items, chars]
  cases e.negative <;> simp [spell, Item.chars, Lexeme.chars, space]

theorem items_of_exponent? {is rest : List Item} {e : Exponent}
    (h : exponent? is = some (e, rest)) : ∃ sp, is = e.items sp ++ rest := by
  unfold exponent? at h
  split at h
  · next sp k is =>
    cases h
    exact ⟨sp, rfl⟩
  · next sp k is =>
    cases h
    exact ⟨sp, rfl⟩
  · cases h

theorem items_of_power? {is : List Item} {p : Power} (h : power? is = some p) :
    ∃ sp sp₁ sp₂, is = ⟨sp, .number p.base⟩ :: ⟨sp₁, .binary .pow⟩ ::
      (p.exponent.items sp₂ ++ p.rest) := by
  unfold power? at h
  split at h
  · next sp n sp₁ is =>
    rw [Option.map_eq_some_iff] at h
    obtain ⟨⟨e, rest⟩, he, rfl⟩ := h
    obtain ⟨sp₂, rfl⟩ := items_of_exponent? he
    exact ⟨sp, sp₁, sp₂, rfl⟩
  · cases h

theorem items_of_scientific? {is : List Item} {n : Literal} {p : Power}
    (h : scientific? is = some (n, p)) :
    p.base.chars = ['1', '0'] ∧ ∃ sp sp₁ sp₂ sp₃ sp₄,
      is = ⟨sp, .number n⟩ :: ⟨sp₁, .binary .mul⟩ :: ⟨sp₂, .number p.base⟩ ::
        ⟨sp₃, .binary .pow⟩ :: (p.exponent.items sp₄ ++ p.rest) := by
  unfold scientific? at h
  split at h
  · next sp n sp₁ is =>
    rw [Option.map_eq_some_iff] at h
    obtain ⟨p, hp, hnp⟩ := h
    cases hnp
    rw [Option.filter_eq_some_iff, decide_eq_true_eq] at hp
    obtain ⟨sp₂, sp₃, sp₄, rfl⟩ := items_of_power? hp.1
    exact ⟨hp.2, sp, sp₁, sp₂, sp₃, sp₄, rfl⟩
  · cases h

end Reckon.Formula
