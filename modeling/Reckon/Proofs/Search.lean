/-
Looking for a match.

The matches of a pattern at a place are looked through in order until a test accepts one. For a
sequence, what comes behind is the test for its first part, so a whole pattern is searched from the
front. Where the test takes every match, or refuses every place at which a repetition could go on,
only the longest repetition counts.

* `search` : the search, with one equation for each way of building patterns.
* `search_many` : repetitions whose longest match decides.
* `mem_allMatches_text`, `search_text` : given characters.
* `Pattern.misfits`, `allMatches_of_misfits` : texts of an alphabet on which a pattern has no match.
* `passFrom_append`, `passFrom_of_match` : what a replacement does to the front of a text.
-/
import Mathlib.Data.List.Chain
import Reckon.Pattern.Replacement

namespace Reckon

/-- The class has none of these characters; a class of all digits or blanks counts as having
some. -/
def CharClass.misfits (fits : Char → Bool) : CharClass → Bool
  | .only c => !fits c
  | .oneOf cs => cs.all fun c => !fits c
  | .digit => false
  | .blank => false

/-- Behind its first character a text ends as before, or with this character. -/
theorem getLast?_cons_or (c : Char) (s : List Char) (before : Option Char) :
    (c :: s).getLast?.or before = s.getLast?.or (some c) := by
  rw [List.getLast?_cons]
  cases s.getLast? <;> rfl

namespace Pattern

variable {β : Type}

theorem findSome?_flatMap {α γ : Type} (f : α → List γ) (g : γ → Option β) (l : List α) :
    (l.flatMap f).findSome? g = l.findSome? fun x => (f x).findSome? g := by
  induction l with
  | nil => rfl
  | cons x l ih =>
    rw [List.flatMap_cons, List.findSome?_append, ih, List.findSome?_cons]
    cases (f x).findSome? g <;> rfl

/-- What the test gives for the first match of the pattern that it accepts. -/
def search (a : Pattern) (p : Place) (test : Match → Option β) : Option β :=
  (allMatches a p).findSome? test

theorem firstMatch_eq_search (a : Pattern) (p : Place) : firstMatch a p = search a p some := by
  rw [firstMatch, search]
  cases allMatches a p <;> rfl

theorem search_append (a b : Pattern) (p : Place) (test : Match → Option β) :
    search (a ++ b) p test = search a p fun m => search b m.stop fun m' =>
      test ⟨m'.stop, m.size + m'.size, m.captures ++ m'.captures⟩ := by
  show ((allMatches a p).flatMap _).findSome? test = _
  rw [findSome?_flatMap, search]
  congr 1
  funext m
  rw [List.findSome?_map]
  rfl

theorem search_either (a b : Pattern) (p : Place) (test : Match → Option β) :
    search (either a b) p test = (search a p test).or (search b p test) :=
  List.findSome?_append

theorem search_empty (p : Place) (test : Match → Option β) :
    search empty p test = test ⟨p, 0, []⟩ := by
  simp [search, allMatches]

theorem search_optional (a : Pattern) (p : Place) (test : Match → Option β) :
    search (Pattern.optional a) p test = (search a p test).or (test ⟨p, 0, []⟩) := by
  rw [Pattern.optional, search_either, search_empty]

theorem search_capture (a : Pattern) (p : Place) (test : Match → Option β) :
    search (capture a) p test =
      search a p fun m => test { m with captures := ⟨p.after, m.size⟩ :: m.captures } := by
  rw [search, allMatches, List.findSome?_map]
  rfl

theorem search_one_of_holds {k : CharClass} {before : Option Char} {c : Char} {s : List Char}
    (h : k.holds c = true) (test : Match → Option β) :
    search (one k) ⟨before, c :: s⟩ test = test ⟨⟨some c, s⟩, 1, []⟩ := by
  simp [search, allMatches, h]

theorem search_one_of_not_holds {k : CharClass} {before : Option Char} {s : List Char}
    (h : ∀ c ∈ s.head?, k.holds c = false) (test : Match → Option β) :
    search (one k) ⟨before, s⟩ test = none := by
  cases s with
  | nil => rfl
  | cons c s => simp [search, allMatches, h c rfl]

/-! ### Repetitions -/

/-- The longest of the matches of a repetition comes first; the others stop where it could have
gone on. -/
theorem manyMatches_append (k : CharClass) {d s : List Char} (hd : ∀ c ∈ d, k.holds c = true)
    (hs : ∀ c ∈ s.head?, k.holds c = false) (before : Option Char) (n : Nat)
    (shorter : List Match) :
    ∃ b others, manyMatches k before n shorter (d ++ s) =
        ⟨⟨b, s⟩, n + d.length, []⟩ :: (others ++ shorter) ∧
      ∀ m ∈ others, ∃ c r, c ∈ d ∧ m.stop.after = c :: r := by
  induction d generalizing before n shorter with
  | nil =>
    refine ⟨before, [], ?_, by simp⟩
    cases s with
    | nil => rfl
    | cons c s => simp [manyMatches, hs c rfl]
  | cons c d ih =>
    obtain ⟨b, others, heq, hothers⟩ := ih (fun e he => hd e (List.mem_cons_of_mem _ he)) (some c)
      (n + 1) (⟨⟨before, c :: (d ++ s)⟩, n, []⟩ :: shorter)
    refine ⟨b, others ++ [⟨⟨before, c :: (d ++ s)⟩, n, []⟩], ?_, ?_⟩
    · rw [List.cons_append, manyMatches, if_pos (hd c (by simp)), heq, List.length_cons]
      simp only [List.append_assoc, List.singleton_append]
      rw [Nat.add_assoc, Nat.add_comm 1]
    · intro m hm
      rcases List.mem_append.mp hm with hm | hm
      · obtain ⟨e, r, he, hstop⟩ := hothers m hm
        exact ⟨e, r, List.mem_cons_of_mem _ he, hstop⟩
      · rw [List.mem_singleton] at hm
        subst hm
        exact ⟨c, d ++ s, by simp, rfl⟩

/-- The test takes every match, or none that stops in front of one of these characters. -/
def Decides (test : Match → Option β) (d : List Char) : Prop :=
  (∀ m, (test m).isSome) ∨ ∀ m c r, c ∈ d → m.stop.after = c :: r → test m = none

theorem Decides.mono {test : Match → Option β} {d e : List Char} (h : Decides test e)
    (hd : ∀ c ∈ d, c ∈ e) : Decides test d :=
  h.imp_right fun hnone m c r hc => hnone m c r (hd c hc)

/-- A test of two matches behind one another decides on the second one. -/
theorem Decides.behind {test : Match → Option β} {d : List Char} (h : Decides test d) (n : Nat)
    (ks : List Stretch) : Decides (fun m => test ⟨m.stop, n + m.size, ks ++ m.captures⟩) d :=
  h.imp (fun hsome _ => hsome _) fun hnone _ c r hc hstop => hnone _ c r hc hstop

theorem search_many (k : CharClass) {d s : List Char} (hd : ∀ c ∈ d, k.holds c = true)
    (hs : ∀ c ∈ s.head?, k.holds c = false) (before : Option Char) {test : Match → Option β}
    (htest : Decides test d) :
    ∃ b, search (many k) ⟨before, d ++ s⟩ test = test ⟨⟨b, s⟩, d.length, []⟩ := by
  obtain ⟨b, others, heq, hothers⟩ := manyMatches_append k hd hs before 0 []
  refine ⟨b, ?_⟩
  rw [search, allMatches, heq, List.append_nil, Nat.zero_add, List.findSome?_cons]
  cases hlongest : test ⟨⟨b, s⟩, d.length, []⟩ with
  | some x => rfl
  | none =>
    show others.findSome? test = none
    rw [List.findSome?_eq_none_iff]
    intro m hm
    rcases htest with htest | htest
    · have htaken := htest ⟨⟨b, s⟩, d.length, []⟩
      rw [hlongest] at htaken
      cases htaken
    · obtain ⟨c, r, hc, hstop⟩ := hothers m hm
      exact htest m c r hc hstop

/-! ### Given characters -/

/-- The match in a text that goes on with these characters. -/
theorem allMatches_text_append (w : String) (before : Option Char) (s : List Char) :
    allMatches (text w) ⟨before, w.toList ++ s⟩ =
      [⟨⟨w.toList.getLast?.or before, s⟩, w.toList.length, []⟩] := by
  rw [text]
  generalize w.toList = cs
  induction cs generalizing before with
  | nil => rfl
  | cons c cs ih =>
    rw [List.foldr_cons]
    show (allMatches (one (.only c)) ⟨before, c :: (cs ++ s)⟩).flatMap _ = _
    rw [allMatches]
    simp [CharClass.holds, ih, getLast?_cons_or, Nat.add_comm]

/-- A text that does not go on with these characters. -/
theorem allMatches_text_of_not (w : String) (p : Place) (h : ¬ w.toList <+: p.after) :
    allMatches (text w) p = [] := by
  rw [text]
  revert h
  generalize w.toList = cs
  intro h
  induction cs generalizing p with
  | nil => exact absurd List.nil_prefix h
  | cons c cs ih =>
    obtain ⟨before, s⟩ := p
    rw [List.foldr_cons]
    show (allMatches (one (.only c)) ⟨before, s⟩).flatMap _ = _
    cases s with
    | nil => rfl
    | cons d s =>
      by_cases hcd : d = c
      · subst hcd
        have hrest := ih ⟨some d, s⟩ fun hpre => h (List.cons_prefix_cons.mpr ⟨rfl, hpre⟩)
        simp [allMatches, CharClass.holds, hrest]
      · simp [allMatches, CharClass.holds, hcd]

/-- Given characters have one match, where the text goes on with them. -/
theorem mem_allMatches_text {w : String} {p : Place} {m : Match} :
    m ∈ allMatches (text w) p ↔ ∃ t, p.after = w.toList ++ t ∧
      m = ⟨⟨w.toList.getLast?.or p.before, t⟩, w.toList.length, []⟩ := by
  obtain ⟨before, s⟩ := p
  by_cases h : w.toList <+: s
  · obtain ⟨t, rfl⟩ := h
    rw [allMatches_text_append, List.mem_singleton]
    simp
  · rw [allMatches_text_of_not w _ h]
    constructor
    · nofun
    · rintro ⟨t, rfl, -⟩
      exact absurd (List.prefix_append ..) h

theorem search_text (w : String) (before : Option Char) (s : List Char)
    (test : Match → Option β) :
    ∃ b, search (text w) ⟨before, w.toList ++ s⟩ test =
      test ⟨⟨b, s⟩, w.toList.length, []⟩ := by
  refine ⟨w.toList.getLast?.or before, ?_⟩
  rw [search, allMatches_text_append]
  simp

theorem search_text_of_not (w : String) (p : Place) (test : Match → Option β)
    (h : ¬ w.toList <+: p.after) : search (text w) p test = none := by
  rw [search, allMatches_text_of_not w p h]
  rfl

/-! ### Texts without a match -/

/-- The patterns ask for one character each, and the two do not join. -/
def clash (joins : Char → Char → Bool) : Pattern → Pattern → Bool
  | one (.only c), seq (one (.only d)) _ => !joins c d
  | _, _ => false

/-- The pattern asks for a character that does not fit, or for two characters in a row that do not
join. -/
def misfits (fits : Char → Bool) (joins : Char → Char → Bool) : Pattern → Bool
  | empty => false
  | one k => k.misfits fits
  | many _ => false
  | boundary => false
  | seq a b =>
    misfits fits joins a || misfits fits joins b || clash joins a b
  | either a b => misfits fits joins a && misfits fits joins b
  | capture a => misfits fits joins a

/-- All characters of the text fit, and neighbours join. -/
structure Fits (fits : Char → Bool) (joins : Char → Char → Bool) (s : List Char) : Prop where
  chars : ∀ c ∈ s, fits c = true
  pairs : s.IsChain fun c d => joins c d = true

theorem Fits.drop {fits : Char → Bool} {joins : Char → Char → Bool} {s : List Char}
    (h : Fits fits joins s) (n : Nat) : Fits fits joins (s.drop n) :=
  ⟨fun c hc => h.chars c (List.mem_of_mem_drop hc), h.pairs.drop n⟩

theorem Fits.cons {fits : Char → Bool} {joins : Char → Char → Bool} {c : Char} {s : List Char}
    (h : Fits fits joins s) (hc : fits c = true) (hjoins : ∀ d ∈ s.head?, joins c d = true) :
    Fits fits joins (c :: s) :=
  ⟨List.forall_mem_cons.mpr ⟨hc, h.chars⟩, h.pairs.cons hjoins⟩

theorem flatMap_of_clash {fits : Char → Bool} {joins : Char → Char → Bool} {a b : Pattern}
    {p : Place} {f : Match → Match → Match} (hpair : clash joins a b = true)
    (hp : Fits fits joins p.after) :
    ((allMatches a p).flatMap fun m => (allMatches b m.stop).map (f m)) = [] := by
  obtain ⟨before, s⟩ := p
  unfold clash at hpair
  split at hpair
  · next c d r =>
    rw [List.flatMap_eq_nil_iff]
    intro m hm
    cases s with
    | nil => simp [allMatches] at hm
    | cons c' s =>
      by_cases hc : c' = c
      · subst hc
        simp only [allMatches, CharClass.holds, BEq.rfl, if_pos, List.mem_singleton] at hm
        subst hm
        cases s with
        | nil => rfl
        | cons d' s =>
          have hjoin : joins c' d' = true := by simpa using hp.pairs.rel
          have hd : d' ≠ d := by
            rintro rfl
            simp [hjoin] at hpair
          simp [allMatches, CharClass.holds, hd]
      · simp [allMatches, CharClass.holds, hc] at hm
  · cases hpair

/-- A pattern that asks for what a text cannot have does not match in it. -/
theorem allMatches_of_misfits {fits : Char → Bool} {joins : Char → Char → Bool} {a : Pattern}
    (ha : misfits fits joins a = true) {p : Place} (hp : Fits fits joins p.after) :
    allMatches a p = [] := by
  induction a generalizing p with
  | empty => cases ha
  | many k => cases ha
  | boundary => cases ha
  | one k =>
    obtain ⟨before, s⟩ := p
    cases s with
    | nil => rfl
    | cons c s =>
      have hc : fits c = true := hp.chars c (by simp)
      have hk : k.holds c = false := by
        cases k with
        | only d =>
          simp only [misfits, CharClass.misfits, Bool.not_eq_true'] at ha
          rw [CharClass.holds, beq_eq_false_iff_ne]
          rintro rfl
          simp [hc] at ha
        | oneOf cs =>
          simp only [misfits, CharClass.misfits, List.all_eq_true, Bool.not_eq_true'] at ha
          rw [CharClass.holds, ← Bool.not_eq_true, List.contains_iff_mem]
          intro hmem
          simp [ha c hmem] at hc
        | digit => cases ha
        | blank => cases ha
      simp [allMatches, hk]
  | either a b iha ihb =>
    rw [misfits, Bool.and_eq_true] at ha
    rw [allMatches, iha ha.1 hp, ihb ha.2 hp, List.append_nil]
  | capture a ih =>
    rw [allMatches, ih ha hp, List.map_nil]
  | seq a b iha ihb =>
    rw [misfits, Bool.or_eq_true, Bool.or_eq_true] at ha
    rw [allMatches]
    rcases ha with (ha | hb) | hpair
    · rw [iha ha hp, List.flatMap_nil]
    · rw [List.flatMap_eq_nil_iff]
      intro m hm
      have hstop := (sound a p m hm).2
      rw [ihb hb (by rw [hstop]; exact hp.drop _), List.map_nil]
    · exact flatMap_of_clash hpair hp

end Pattern

/-! ### Replacing at the front of a text -/

namespace Replacement

variable (r : Replacement)

/-- The characters of a match that has been replaced are passed over. -/
theorem passFrom_skip (before : Option Char) (d s : List Char) :
    ∃ b, r.passFrom before d.length (d ++ s) = r.passFrom b 0 s := by
  induction d generalizing before with
  | nil => exact ⟨before, rfl⟩
  | cons c d ih => exact ih (some c)

/-- Where no match begins, the characters are kept. -/
theorem passFrom_append (before : Option Char) (d s : List Char)
    (h : ∀ d₁ d₂ b, d = d₁ ++ d₂ → d₂ ≠ [] → r.matchAt ⟨b, d₂ ++ s⟩ = none) :
    ∃ b, r.passFrom before 0 (d ++ s) = d ++ r.passFrom b 0 s := by
  induction d generalizing before with
  | nil => exact ⟨before, rfl⟩
  | cons c d ih =>
    obtain ⟨b, hb⟩ := ih (some c) fun d₁ d₂ b hd => h (c :: d₁) d₂ b (by rw [hd, List.cons_append])
    refine ⟨b, ?_⟩
    have hnone : r.matchAt ⟨before, c :: (d ++ s)⟩ = none := h [] (c :: d) before rfl (by simp)
    rw [List.cons_append, passFrom, hnone, hb, List.cons_append]

/-- Where a match begins, its output takes its place. -/
theorem passFrom_of_matchAt {before : Option Char} {d s : List Char} {m : Match}
    (h : r.matchAt ⟨before, d ++ s⟩ = some m) (hsize : m.size = d.length) :
    ∃ b, r.passFrom before 0 (d ++ s) = r.fill m ++ r.passFrom b 0 s := by
  have hpos : 0 < m.size := by
    rw [matchAt, Option.filter_eq_some_iff] at h
    simpa using h.2
  cases d with
  | nil => exact absurd hsize (by simp; omega)
  | cons c d =>
    obtain ⟨b, hb⟩ := r.passFrom_skip (some c) d s
    refine ⟨b, ?_⟩
    rw [List.cons_append] at h ⊢
    rw [passFrom, h]
    show r.fill m ++ r.passFrom (some c) (m.size - 1) (d ++ s) = _
    rw [hsize, List.length_cons, Nat.add_sub_cancel, hb]

/-- On a text that cannot have what the pattern asks for, the replacement does nothing. -/
theorem apply_of_misfits {fits : Char → Bool} {joins : Char → Char → Bool}
    (hr : Pattern.misfits fits joins r.pattern = true) {s : List Char}
    (hs : Pattern.Fits fits joins s) : r.apply s = s := by
  have hpass : r.pass s = s := by
    obtain ⟨b, hb⟩ := r.passFrom_append none s [] fun d₁ d₂ b hd _ => by
      have hfits : Pattern.Fits fits joins (d₂ ++ []) := by
        have hdrop := hs.drop d₁.length
        rwa [hd, List.drop_left, ← List.append_nil d₂] at hdrop
      rw [matchAt, Pattern.firstMatch, Pattern.allMatches_of_misfits hr hfits]
      rfl
    simpa [pass, passFrom] using hb
  rw [apply]
  split
  · exact r.settle_of_pass_eq_self _ s hpass
  · exact hpass

theorem foldl_apply_of_misfits {fits : Char → Bool} {joins : Char → Char → Bool}
    {rs : List Replacement} (hrs : ∀ r ∈ rs, r.pattern.misfits fits joins = true) {s : List Char}
    (hs : Pattern.Fits fits joins s) : rs.foldl (fun t r => r.apply t) s = s := by
  induction rs with
  | nil => rfl
  | cons r rs ih =>
    rw [List.foldl_cons, r.apply_of_misfits (hrs r (by simp)) hs]
    exact ih fun r' hr' => hrs r' (List.mem_cons_of_mem _ hr')

end Replacement

end Reckon
