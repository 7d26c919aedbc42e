/-
What a pattern takes.

Apart from the places where words begin and end, a pattern stands for the texts that it takes
together with what it keeps of them. From that are read off, without looking at a match: which
characters a match begins and ends with, and whether it takes any. Two more facts are about the
choice between matches. A pattern that begins with digits has a match one digit earlier as well, and
a match that ends with digits, as many as possible, stops in front of no digit.

* `Takes`, `exists_takes` : the texts of a pattern, and the text of a match.
* `anywhere`, `exists_match_of_takes` : patterns that match wherever one of their texts stands.
* `heads`, `lasts`, `consumes` : what is known about the ends of those texts.
* `Extends`, `extends_of_beginsWithDigits` : matches that could begin one digit earlier.
* `Stops` : matches behind which there is no digit.
-/
import Reckon.Proofs.Search
import Reckon.Proofs.Weight

namespace Reckon

open Text

namespace Pattern

/-! ### The texts of a pattern -/

/-- The pattern takes the text `x` and keeps the parts `ks` of it, wherever words begin or end. -/
def Takes : Pattern → List Char → List (List Char) → Prop
  | empty, x, ks => x = [] ∧ ks = []
  | one k, x, ks => (∃ c, k.holds c = true ∧ x = [c]) ∧ ks = []
  | many k, x, ks => (∀ c ∈ x, k.holds c = true) ∧ ks = []
  | boundary, x, ks => x = [] ∧ ks = []
  | seq a b, x, ks => ∃ x₁ x₂ ks₁ ks₂,
      x = x₁ ++ x₂ ∧ ks = ks₁ ++ ks₂ ∧ Takes a x₁ ks₁ ∧ Takes b x₂ ks₂
  | either a b, x, ks => Takes a x ks ∨ Takes b x ks
  | capture a, x, ks => ∃ ls, Takes a x ls ∧ ks = x :: ls

/-- The matches of a repetition: each takes some characters of the class. -/
theorem mem_manyMatches {k : CharClass} {before : Option Char} {n : Nat} {shorter : List Match}
    {s : List Char} {m : Match} : m ∈ manyMatches k before n shorter s ↔ m ∈ shorter ∨
      ∃ d t, s = d ++ t ∧ (∀ c ∈ d, k.holds c = true) ∧
        m = ⟨⟨d.getLast?.or before, t⟩, n + d.length, []⟩ := by
  induction s generalizing before n shorter with
  | nil =>
    rw [manyMatches, List.mem_cons, or_comm]
    refine or_congr Iff.rfl ⟨?_, ?_⟩
    · rintro rfl
      exact ⟨[], [], rfl, by simp, rfl⟩
    · rintro ⟨d, t, hs, -, rfl⟩
      obtain ⟨rfl, rfl⟩ := List.append_eq_nil_iff.mp hs.symm
      rfl
  | cons c s ih =>
    have hlength (d : List Char) : n + (c :: d).length = n + 1 + d.length := by
      rw [List.length_cons]
      omega
    rw [manyMatches]
    split
    · next hc =>
      rw [ih, List.mem_cons]
      constructor
      · rintro ((rfl | hm) | ⟨d, t, rfl, hd, rfl⟩)
        · exact Or.inr ⟨[], c :: s, rfl, by simp, rfl⟩
        · exact Or.inl hm
        · exact Or.inr ⟨c :: d, t, rfl, List.forall_mem_cons.mpr ⟨hc, hd⟩, by
            rw [getLast?_cons_or, hlength]⟩
      · rintro (hm | ⟨d, t, hs, hd, rfl⟩)
        · exact Or.inl (Or.inr hm)
        · cases d with
          | nil =>
            rw [List.nil_append] at hs
            subst hs
            exact Or.inl (Or.inl rfl)
          | cons c' d =>
            obtain ⟨rfl, rfl⟩ := List.cons_eq_cons.mp hs
            exact Or.inr ⟨d, t, rfl, fun e he => hd e (List.mem_cons_of_mem _ he), by
              rw [getLast?_cons_or, hlength]⟩
    · next hc =>
      rw [List.mem_cons, or_comm]
      refine or_congr Iff.rfl ⟨?_, ?_⟩
      · rintro rfl
        exact ⟨[], c :: s, rfl, by simp, rfl⟩
      · rintro ⟨d, t, hs, hd, rfl⟩
        cases d with
        | nil =>
          rw [List.nil_append] at hs
          subst hs
          rfl
        | cons c' d =>
          obtain ⟨rfl, -⟩ := List.cons_eq_cons.mp hs
          exact absurd (hd c (by simp)) hc

theorem or_getLast?_append (x y : List Char) (b : Option Char) :
    (x ++ y).getLast?.or b = y.getLast?.or (x.getLast?.or b) := by
  rw [List.getLast?_append, Option.or_assoc]

/-- The text of a match. -/
theorem exists_takes {a : Pattern} {p : Place} {m : Match} (h : m ∈ allMatches a p) :
    ∃ x, p.after = x ++ m.stop.after ∧ m.size = x.length ∧
      m.stop.before = x.getLast?.or p.before ∧ Takes a x (m.captures.map Stretch.chars) := by
  induction a generalizing p m with
  | empty =>
    rw [allMatches, List.mem_singleton] at h
    subst h
    exact ⟨[], rfl, rfl, rfl, rfl, rfl⟩
  | one k =>
    obtain ⟨before, s⟩ := p
    cases s with
    | nil => cases h
    | cons c s =>
      rw [allMatches] at h
      dsimp only at h
      split at h
      · next hc =>
        rw [List.mem_singleton] at h
        subst h
        exact ⟨[c], rfl, rfl, rfl, ⟨c, hc, rfl⟩, rfl⟩
      · cases h
  | many k =>
    rw [allMatches, mem_manyMatches] at h
    obtain ⟨d, t, hs, hd, rfl⟩ := h.resolve_left List.not_mem_nil
    exact ⟨d, hs, Nat.zero_add _, rfl, hd, rfl⟩
  | boundary =>
    rw [allMatches] at h
    split at h
    · rw [List.mem_singleton] at h
      subst h
      exact ⟨[], rfl, rfl, rfl, rfl, rfl⟩
    · cases h
  | seq a b iha ihb =>
    obtain ⟨m₁, h₁, h⟩ := List.mem_flatMap.mp h
    obtain ⟨m₂, h₂, rfl⟩ := List.mem_map.mp h
    obtain ⟨x, hx, hsize, hlast, htakes⟩ := iha h₁
    obtain ⟨y, hy, hsize', hlast', htakes'⟩ := ihb h₂
    refine ⟨x ++ y, ?_, ?_, ?_, x, y, _, _, rfl, List.map_append, htakes, htakes'⟩
    · rw [List.append_assoc, ← hy, hx]
    · rw [List.length_append, hsize, hsize']
    · rw [hlast', hlast, or_getLast?_append]
  | either a b iha ihb =>
    rcases List.mem_append.mp h with h | h
    · obtain ⟨x, hx, hsize, hlast, htakes⟩ := iha h
      exact ⟨x, hx, hsize, hlast, Or.inl htakes⟩
    · obtain ⟨x, hx, hsize, hlast, htakes⟩ := ihb h
      exact ⟨x, hx, hsize, hlast, Or.inr htakes⟩
  | capture a ih =>
    obtain ⟨m', h', rfl⟩ := List.mem_map.mp h
    obtain ⟨x, hx, hsize, hlast, htakes⟩ := ih h'
    refine ⟨x, hx, hsize, hlast, _, htakes, ?_⟩
    rw [List.map_cons]
    congr 1
    show p.after.take m'.size = x
    rw [hx, hsize, List.take_left]

/-- The pattern does not ask where words begin or end. -/
def anywhere : Pattern → Bool
  | boundary => false
  | seq a b => anywhere a && anywhere b
  | either a b => anywhere a && anywhere b
  | capture a => anywhere a
  | _ => true

/-- Such a pattern has a match wherever one of its texts stands. -/
theorem exists_match_of_takes {a : Pattern} (ha : a.anywhere = true) {x : List Char}
    {ks : List (List Char)} (h : Takes a x ks) (before : Option Char) (t : List Char) :
    ∃ m ∈ allMatches a ⟨before, x ++ t⟩, m.stop.after = t := by
  induction a generalizing x ks before t with
  | empty =>
    obtain ⟨rfl, -⟩ := h
    exact ⟨_, List.mem_singleton_self _, rfl⟩
  | one k =>
    obtain ⟨⟨c, hc, rfl⟩, -⟩ := h
    exact ⟨⟨⟨some c, t⟩, 1, []⟩, by simp [allMatches, hc], rfl⟩
  | many k => exact ⟨_, mem_manyMatches.mpr (.inr ⟨x, t, rfl, h.1, rfl⟩), rfl⟩
  | boundary => cases ha
  | seq a b iha ihb =>
    rw [anywhere, Bool.and_eq_true] at ha
    obtain ⟨x, y, _, _, rfl, -, hx, hy⟩ := h
    obtain ⟨⟨⟨o, s⟩, n, ms⟩, h₁, hstop⟩ := iha ha.1 hx before (y ++ t)
    -- the second text stands where the first match stops
    obtain rfl : s = y ++ t := hstop
    obtain ⟨m₂, h₂, hstop₂⟩ := ihb ha.2 hy o t
    rw [List.append_assoc]
    exact ⟨_, List.mem_flatMap.mpr ⟨_, h₁, List.mem_map_of_mem h₂⟩, hstop₂⟩
  | either a b iha ihb =>
    rw [anywhere, Bool.and_eq_true] at ha
    rcases h with h | h
    · obtain ⟨m, hm, hstop⟩ := iha ha.1 h before t
      exact ⟨m, List.mem_append_left _ hm, hstop⟩
    · obtain ⟨m, hm, hstop⟩ := ihb ha.2 h before t
      exact ⟨m, List.mem_append_right _ hm, hstop⟩
  | capture a ih =>
    obtain ⟨ls, h, -⟩ := h
    obtain ⟨m, hm, hstop⟩ := ih ha h before t
    exact ⟨_, List.mem_map_of_mem hm, hstop⟩

theorem takes_append_assoc {a b c : Pattern} {x : List Char} {ks : List (List Char)} :
    Takes (a ++ b ++ c) x ks ↔ Takes (a ++ (b ++ c)) x ks := by
  constructor
  · rintro ⟨_, z, _, ms, rfl, rfl, ⟨x, y, ks, ls, rfl, rfl, hx, hy⟩, hz⟩
    exact ⟨x, y ++ z, ks, ls ++ ms, List.append_assoc .., List.append_assoc .., hx, y, z, ls, ms,
      rfl, rfl, hy, hz⟩
  · rintro ⟨x, _, ks, _, rfl, rfl, hx, y, z, ls, ms, rfl, rfl, hy, hz⟩
    exact ⟨x ++ y, z, ks ++ ls, ms, (List.append_assoc ..).symm, (List.append_assoc ..).symm,
      ⟨x, y, ks, ls, rfl, rfl, hx, hy⟩, hz⟩

theorem kept_of_plain {a : Pattern} (ha : a.plain = true) {x : List Char} {ks : List (List Char)}
    (h : Takes a x ks) : ks = [] := by
  induction a generalizing x ks with
  | empty | one | many | boundary => exact h.2
  | seq a b iha ihb =>
    rw [plain, Bool.and_eq_true] at ha
    obtain ⟨x, y, ks, ls, rfl, rfl, hx, hy⟩ := h
    rw [iha ha.1 hx, ihb ha.2 hy, List.append_nil]
  | either a b iha ihb =>
    rw [plain, Bool.and_eq_true] at ha
    exact h.elim (iha ha.1) (ihb ha.2)
  | capture a => cases ha

theorem takes_text {w : String} {x : List Char} {ks : List (List Char)} (h : Takes (text w) x ks) :
    x = w.toList := by
  rw [text] at h
  generalize w.toList = cs at h
  induction cs generalizing x ks with
  | nil => exact h.1
  | cons c cs ih =>
    obtain ⟨_, y, _, ls, rfl, -, ⟨⟨d, hd, rfl⟩, -⟩, hy⟩ := h
    rw [ih hy, show d = c from beq_iff_eq.mp hd]
    rfl

theorem takes_text_self (w : String) : Takes (text w) w.toList [] := by
  rw [text]
  generalize w.toList = cs
  induction cs with
  | nil => exact ⟨rfl, rfl⟩
  | cons c cs ih => exact ⟨[c], cs, [], [], rfl, rfl, ⟨⟨c, beq_self_eq_true c, rfl⟩, rfl⟩, ih⟩

theorem takes_anyOf {ws : List String} {x : List Char} {ks : List (List Char)}
    (h : Takes (anyOf ws) x ks) : ∃ w ∈ ws, x = w.toList := by
  induction ws with
  | nil =>
    obtain ⟨⟨c, hc, -⟩, -⟩ := h
    cases hc
  | cons w ws ih =>
    cases ws with
    | nil => exact ⟨w, by simp, takes_text h⟩
    | cons v ws =>
      rcases h with h | h
      · exact ⟨w, by simp, takes_text h⟩
      · obtain ⟨u, hu, hx⟩ := ih h
        exact ⟨u, List.mem_cons_of_mem _ hu, hx⟩

/-! ### The ends of those texts -/

/-- Every text of the pattern has a character. -/
def consumes : Pattern → Bool
  | one _ => true
  | seq a b => consumes a || consumes b
  | either a b => consumes a && consumes b
  | capture a => consumes a
  | _ => false

/-- What the texts of the pattern begin with is of a class with the property, if they begin with
anything. -/
def heads (f : CharClass → Bool) : Pattern → Bool
  | one k => f k
  | many k => f k
  | seq a b => heads f a && (consumes a || heads f b)
  | either a b => heads f a && heads f b
  | capture a => heads f a
  | _ => true

/-- What the texts of the pattern end with is of a class with the property, if they end with
anything. -/
def lasts (f : CharClass → Bool) : Pattern → Bool
  | one k => f k
  | many k => f k
  | seq a b => lasts f b && (consumes b || lasts f a)
  | either a b => lasts f a && lasts f b
  | capture a => lasts f a
  | _ => true

theorem ne_nil_of_consumes {a : Pattern} (ha : a.consumes = true) {x : List Char}
    {ks : List (List Char)} (h : Takes a x ks) : x ≠ [] := by
  induction a generalizing x ks with
  | one k =>
    obtain ⟨⟨c, -, rfl⟩, -⟩ := h
    exact List.cons_ne_nil c []
  | empty | many | boundary => cases ha
  | seq a b iha ihb =>
    obtain ⟨x, y, ks, ls, rfl, -, hx, hy⟩ := h
    rw [consumes, Bool.or_eq_true] at ha
    intro hnil
    obtain ⟨hnil, hnil'⟩ := List.append_eq_nil_iff.mp hnil
    exact ha.elim (fun ha => iha ha hx hnil) fun hb => ihb hb hy hnil'
  | either a b iha ihb =>
    rw [consumes, Bool.and_eq_true] at ha
    exact h.elim (iha ha.1) (ihb ha.2)
  | capture a ih =>
    obtain ⟨ls, h, -⟩ := h
    exact ih ha h

section Ends

variable {f : CharClass → Bool} {good : Char → Prop}
  (hf : ∀ k c, f k = true → k.holds c = true → good c)

include hf

theorem good_head {a : Pattern} (ha : a.heads f = true) {x : List Char} {ks : List (List Char)}
    (h : Takes a x ks) : ∀ c ∈ x.head?, good c := by
  induction a generalizing x ks with
  | empty | boundary =>
    rw [h.1]
    exact fun c hc => nomatch hc
  | one k =>
    obtain ⟨⟨c, hc, rfl⟩, -⟩ := h
    rintro _ ⟨⟩
    exact hf k c ha hc
  | many k => exact fun c hc => hf k c ha (h.1 c (List.mem_of_mem_head? hc))
  | seq a b iha ihb =>
    obtain ⟨x, y, ks, ls, rfl, -, hx, hy⟩ := h
    rw [heads, Bool.and_eq_true, Bool.or_eq_true] at ha
    intro c hc
    rw [List.head?_append] at hc
    cases x with
    | nil =>
      rcases ha.2 with hconsumes | hb
      · exact absurd rfl (ne_nil_of_consumes hconsumes hx)
      · exact ihb hb hy c hc
    | cons d x => exact iha ha.1 hx c hc
  | either a b iha ihb =>
    rw [heads, Bool.and_eq_true] at ha
    exact h.elim (iha ha.1) (ihb ha.2)
  | capture a ih =>
    obtain ⟨ls, h, -⟩ := h
    exact ih ha h

theorem good_last {a : Pattern} (ha : a.lasts f = true) {x : List Char} {ks : List (List Char)}
    (h : Takes a x ks) : ∀ c ∈ x.getLast?, good c := by
  induction a generalizing x ks with
  | empty | boundary =>
    rw [h.1]
    exact fun c hc => nomatch hc
  | one k =>
    obtain ⟨⟨c, hc, rfl⟩, -⟩ := h
    rintro _ ⟨⟩
    exact hf k c ha hc
  | many k => exact fun c hc => hf k c ha (h.1 c (List.mem_of_mem_getLast? hc))
  | seq a b iha ihb =>
    obtain ⟨x, y, ks, ls, rfl, -, hx, hy⟩ := h
    rw [lasts, Bool.and_eq_true, Bool.or_eq_true] at ha
    intro c hc
    rw [List.getLast?_append] at hc
    rcases List.eq_nil_or_concat y with rfl | ⟨y, d, rfl⟩
    · rcases ha.2 with hconsumes | hb
      · exact absurd rfl (ne_nil_of_consumes hconsumes hy)
      · exact iha hb hx c hc
    · refine ihb ha.1 hy c ?_
      simpa using hc
  | either a b iha ihb =>
    rw [lasts, Bool.and_eq_true] at ha
    exact h.elim (iha ha.1) (ihb ha.2)
  | capture a ih =>
    obtain ⟨ls, h, -⟩ := h
    exact ih ha h

end Ends

/-! ### Words at the ends -/

theorem isBoundary_begin {a b : Pattern} {p : Place} {m : Match}
    (h : m ∈ allMatches (boundary ++ a ++ b) p) : isBoundary p.before p.after.head? = true := by
  obtain ⟨m₁, h₁, -⟩ := List.mem_flatMap.mp h
  obtain ⟨m₀, h₀, -⟩ := List.mem_flatMap.mp h₁
  rw [allMatches] at h₀
  split at h₀
  · next hboundary => exact hboundary
  · cases h₀

theorem isBoundary_end {a : Pattern} {p : Place} {m : Match}
    (h : m ∈ allMatches (a ++ boundary) p) :
    isBoundary m.stop.before m.stop.after.head? = true := by
  obtain ⟨m₁, -, h⟩ := List.mem_flatMap.mp h
  obtain ⟨m₂, h₂, rfl⟩ := List.mem_map.mp h
  rw [allMatches] at h₂
  split at h₂
  · next hboundary =>
    rw [List.mem_singleton] at h₂
    rw [h₂]
    exact hboundary
  · cases h₂

/-! ### Matches that could begin one digit earlier -/

/-- Where the pattern has a match behind a digit, it has one that takes the digit as well. -/
def Extends (a : Pattern) : Prop :=
  ∀ (b : Option Char) (c : Char) (s : List Char) (m : Match), CharClass.digit.holds c = true →
    m ∈ allMatches a ⟨some c, s⟩ → ∃ m' ∈ allMatches a ⟨b, c :: s⟩, m'.stop = m.stop

theorem extends_digits : Extends (atLeastOne .digit) := by
  intro b c s m hc hm
  obtain ⟨m₁, h₁, hm⟩ := List.mem_flatMap.mp hm
  obtain ⟨m₂, h₂, rfl⟩ := List.mem_map.mp hm
  rw [allMatches] at h₁
  dsimp only at h₁
  split at h₁
  · cases h₁
  · next d s' =>
    split at h₁
    · next hd =>
      rw [List.mem_singleton] at h₁
      subst h₁
      rw [allMatches, mem_manyMatches] at h₂
      obtain ⟨e, t, rfl, he, rfl⟩ := h₂.resolve_left List.not_mem_nil
      have hfirst : (⟨⟨some c, d :: (e ++ t)⟩, 1, []⟩ : Match) ∈
          allMatches (one .digit) ⟨b, c :: d :: (e ++ t)⟩ := by
        simp [allMatches, hc]
      -- the digit in front is the one that has to be there, and the rest are the repetition
      have hmore : (⟨⟨(d :: e).getLast?.or (some c), t⟩, 0 + (d :: e).length, []⟩ : Match) ∈
          allMatches (many .digit) ⟨some c, d :: (e ++ t)⟩ := by
        rw [allMatches, mem_manyMatches]
        exact Or.inr ⟨d :: e, t, rfl, List.forall_mem_cons.mpr ⟨hd, he⟩, rfl⟩
      refine ⟨_, List.mem_flatMap.mpr ⟨_, hfirst, List.mem_map.mpr ⟨_, hmore, rfl⟩⟩, ?_⟩
      show (⟨(d :: e).getLast?.or (some c), t⟩ : Place) = ⟨e.getLast?.or (some d), t⟩
      rw [getLast?_cons_or]
    · cases h₁

theorem Extends.append {a : Pattern} (ha : Extends a) (b : Pattern) : Extends (a ++ b) := by
  intro b' c s m hc hm
  obtain ⟨m₁, h₁, hm⟩ := List.mem_flatMap.mp hm
  obtain ⟨m₂, h₂, rfl⟩ := List.mem_map.mp hm
  obtain ⟨m', h', hstop⟩ := ha b' c s m₁ hc h₁
  exact ⟨_, List.mem_flatMap.mpr ⟨m', h', List.mem_map.mpr ⟨m₂, by rwa [hstop], rfl⟩⟩, rfl⟩

theorem Extends.capture {a : Pattern} (ha : Extends a) : Extends (capture a) := by
  intro b c s m hc hm
  obtain ⟨m₁, h₁, rfl⟩ := List.mem_map.mp hm
  obtain ⟨m', h', hstop⟩ := ha b c s m₁ hc h₁
  exact ⟨_, List.mem_map.mpr ⟨m', h', rfl⟩, hstop⟩

/-- The pattern begins with digits, as many as there are. -/
def beginsWithDigits : Pattern → Bool
  | seq a b => a == one .digit && b == many .digit || beginsWithDigits a
  | capture a => beginsWithDigits a
  | _ => false

theorem extends_of_beginsWithDigits {a : Pattern} (h : a.beginsWithDigits = true) : Extends a := by
  induction a with
  | seq a b iha =>
    rw [beginsWithDigits, Bool.or_eq_true, Bool.and_eq_true] at h
    rcases h with ⟨ha, hb⟩ | ha
    · rw [beq_iff_eq.mp ha, beq_iff_eq.mp hb]
      exact extends_digits
    · exact (iha ha).append b
  | capture a iha => exact (iha h).capture
  | empty | one | many | boundary | either => cases h

/-! ### Matches behind which there is no digit -/

/-- The preferred match of the pattern stops in front of no digit. -/
def Stops (a : Pattern) : Prop :=
  ∀ (p : Place) (m : Match), firstMatch a p = some m →
    ∀ c ∈ m.stop.after.head?, CharClass.digit.holds c = false

/-- The preferred match of a sequence ends as a preferred match of its second part. -/
theorem exists_firstMatch_append {a b : Pattern} {p : Place} {m : Match}
    (h : firstMatch (a ++ b) p = some m) :
    ∃ m₁ ∈ allMatches a p, ∃ m₂, firstMatch b m₁.stop = some m₂ ∧ m.stop = m₂.stop := by
  rw [firstMatch_eq_search, search_append, search] at h
  obtain ⟨m₁, h₁, h⟩ := List.exists_of_findSome?_eq_some h
  refine ⟨m₁, h₁, ?_⟩
  rw [firstMatch]
  rw [search] at h
  cases hb : allMatches b m₁.stop with
  | nil =>
    rw [hb] at h
    cases h
  | cons m₂ ms =>
    rw [hb, List.findSome?_cons] at h
    exact ⟨m₂, rfl, by rw [← Option.some.inj h]⟩

theorem Stops.append {b : Pattern} (hb : Stops b) (a : Pattern) : Stops (a ++ b) := by
  intro p m h
  obtain ⟨m₁, -, m₂, h₂, hstop⟩ := exists_firstMatch_append h
  rw [hstop]
  exact hb _ m₂ h₂

theorem Stops.capture {a : Pattern} (ha : Stops a) : Stops (capture a) := by
  intro p m h
  rw [firstMatch, allMatches, List.head?_map, Option.map_eq_some_iff] at h
  obtain ⟨m', h', rfl⟩ := h
  show ∀ c ∈ m'.stop.after.head?, _
  exact ha p m' h'

theorem stops_digits : Stops (atLeastOne .digit) := by
  refine Stops.append ?_ _
  intro p m h
  obtain ⟨before, s⟩ := p
  have hd : ∀ c ∈ s.takeWhile CharClass.digit.holds, CharClass.digit.holds c = true :=
    fun c hc => List.all_eq_true.mp List.all_takeWhile c hc
  have hs : ∀ c ∈ (s.dropWhile CharClass.digit.holds).head?, CharClass.digit.holds c = false := by
    intro c hc
    have hnot := List.head?_dropWhile_not CharClass.digit.holds s
    rw [Option.mem_def.mp hc] at hnot
    exact hnot
  -- the longest of the matches comes first
  obtain ⟨b, others, heq, -⟩ := manyMatches_append .digit hd hs before 0 []
  rw [List.takeWhile_append_dropWhile] at heq
  rw [firstMatch, allMatches, heq, List.head?_cons, Option.some.injEq] at h
  rw [← h]
  exact hs

/-- A part that may be left out does not stand in the way: the preferred match is found behind the
preferred match of the part before it. -/
theorem Stops.optional {a b : Pattern} (ha : Stops a) (hb : Stops b) :
    Stops (a ++ Pattern.optional b) := by
  intro p m h
  obtain ⟨m₁, h₁, m₂, h₂, hstop⟩ : ∃ m₁, firstMatch a p = some m₁ ∧
      ∃ m₂, firstMatch (Pattern.optional b) m₁.stop = some m₂ ∧ m.stop = m₂.stop := by
    rw [firstMatch_eq_search, search_append, search] at h
    cases hall : allMatches a p with
    | nil =>
      rw [hall] at h
      cases h
    | cons m₁ ms =>
      refine ⟨m₁, by rw [firstMatch, hall]; rfl, ?_⟩
      rw [hall, List.findSome?_cons, search] at h
      -- leaving the part out is always possible, so no other match of the first part is tried
      cases hopt : allMatches (Pattern.optional b) m₁.stop with
      | nil => exact absurd (List.append_eq_nil_iff.mp hopt).2 (List.cons_ne_nil _ _)
      | cons m₂ ms' =>
        rw [hopt, List.findSome?_cons] at h
        exact ⟨m₂, by rw [firstMatch, hopt]; rfl, by rw [← Option.some.inj h]⟩
  rw [hstop]
  rw [firstMatch, Pattern.optional, allMatches, List.head?_append] at h₂
  cases hmore : (allMatches b m₁.stop).head? with
  | some m₃ =>
    rw [hmore] at h₂
    cases h₂
    exact hb _ _ hmore
  | none =>
    rw [hmore] at h₂
    cases h₂
    show ∀ c ∈ m₁.stop.after.head?, _
    exact ha p m₁ h₁

end Pattern

end Reckon
