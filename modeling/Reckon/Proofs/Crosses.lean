/-
Products written with an `x` between digits.

Two products can share a digit: in `2x3x4` both crosses need the `3`, so one pass replaces only one
of them, and passes are made until nothing changes. What is left in the end does not depend on how
the passes fall. A cross between digits is bounded by these digits, so two of them do not overlap,
and a star in the place of one is bounded by the same digits and leaves the others as they are. The
passes end as if all crosses of the text had been replaced at once.

* `Crossing` : a cross between digits in a text; `Crossing.maximal` : it cannot be made longer.
* `Between.locate_behind`, `crossing_append` : the crosses of a text in which a stretch is bounded
  by digits.
* `Chunk`, `Exact`, `AtOnce` : a text cut at its crosses, and all of them replaced at once.
* `exists_exact`, `AtOnce.unique` : there is one way to cut a text.
* `atOnce_of_star`, `atOnce_of_pass` : one replacement, or one pass, makes no difference to what
  becomes of all.
* `crossing_of_passFrom`, `apply_eq_twice` : what one pass leaves, and why two are enough.
* `settles_iff_atOnce` : pass after pass, until nothing changes.
-/
import Reckon.Proofs.Surroundings

namespace Reckon.Wording

open Text hiding blanks
open Pattern hiding words

/-! ### Crosses between digits -/

/-- Blanks, one `x` and blanks. -/
def IsCross (g : List Char) : Prop :=
  ∃ d e, (∀ c ∈ d, isBlank c = true) ∧ (∀ c ∈ e, isBlank c = true) ∧ g = d ++ 'x' :: e

/-- The text ends with a digit. -/
def DigitLast (u : List Char) : Prop :=
  ∃ u' c, isDecimalDigit c = true ∧ u = u' ++ [c]

/-- The text begins with a digit. -/
def DigitHead (v : List Char) : Prop :=
  ∃ c v', isDecimalDigit c = true ∧ v = c :: v'

/-- In the text `s` the cross `g` stands between `u` and `v`, with a digit next to it on both
sides. -/
structure Crossing (s u g v : List Char) : Prop where
  split : s = u ++ (g ++ v)
  cross : IsCross g
  front : DigitLast u
  back : DigitHead v

/-- The stretch `m` between `u` and `v` has characters but no digit, and a digit is next to it on
both sides. -/
structure Between (u m v : List Char) : Prop where
  ne_nil : m ≠ []
  noDigit : ∀ c ∈ m, isDecimalDigit c = false
  front : DigitLast u
  back : DigitHead v

theorem DigitLast.of_append {x y : List Char} (h : DigitLast (x ++ y)) (hy : y ≠ []) :
    DigitLast y := by
  obtain ⟨w, c, hc, heq⟩ := h
  obtain ⟨y, d, rfl⟩ := (List.eq_nil_or_concat y).resolve_left hy
  rw [List.concat_eq_append, ← List.append_assoc] at heq
  obtain ⟨-, hd⟩ := List.append_inj' heq rfl
  exact ⟨y, c, hc, by rw [List.concat_eq_append, hd]⟩

theorem DigitLast.singleton {c : Char} (h : DigitLast [c]) : isDecimalDigit c = true := by
  obtain ⟨u, d, hd, heq⟩ := h
  obtain ⟨-, hc⟩ := List.append_inj' (show [] ++ [c] = u ++ [d] from heq) rfl
  obtain ⟨rfl, -⟩ := List.cons_eq_cons.mp hc
  exact hd

theorem DigitLast.append {y : List Char} (h : DigitLast y) (x : List Char) :
    DigitLast (x ++ y) := by
  obtain ⟨y, c, hc, rfl⟩ := h
  exact ⟨x ++ y, c, hc, (List.append_assoc ..).symm⟩

theorem DigitHead.of_append {x y : List Char} (h : DigitHead (x ++ y)) (hx : x ≠ []) :
    DigitHead x := by
  obtain ⟨c, w, hc, heq⟩ := h
  obtain ⟨d, x, rfl⟩ := List.exists_cons_of_ne_nil hx
  obtain ⟨rfl, -⟩ := List.cons_eq_cons.mp heq
  exact ⟨d, x, hc, rfl⟩

theorem DigitHead.append {x : List Char} (h : DigitHead x) (y : List Char) :
    DigitHead (x ++ y) := by
  obtain ⟨c, x, hc, rfl⟩ := h
  exact ⟨c, x ++ y, hc, rfl⟩

theorem IsCross.noDigit {g : List Char} (h : IsCross g) : ∀ c ∈ g, isDecimalDigit c = false := by
  obtain ⟨d, e, hd, he, rfl⟩ := h
  intro c hc
  rcases List.mem_append.mp hc with hc | hc
  · exact not_isDecimalDigit_of_isBlank (hd c hc)
  · rcases List.mem_cons.mp hc with rfl | hc
    · decide
    · exact not_isDecimalDigit_of_isBlank (he c hc)

theorem IsCross.ne_nil {g : List Char} (h : IsCross g) : g ≠ [] := by
  obtain ⟨d, e, -, -, rfl⟩ := h
  simp

theorem Crossing.between {s u g v : List Char} (h : Crossing s u g v) : Between u g v :=
  ⟨h.cross.ne_nil, h.cross.noDigit, h.front, h.back⟩

/-! ### Stretches bounded by digits -/

theorem not_digitLast {x y : List Char} (h : ∀ c ∈ x ++ y, isDecimalDigit c = false) :
    ¬ DigitLast x := by
  rintro ⟨x, c, hc, rfl⟩
  rw [h c (by simp)] at hc
  cases hc

theorem not_digitHead {x y : List Char} (h : ∀ c ∈ x ++ y, isDecimalDigit c = false) :
    ¬ DigitHead y := by
  rintro ⟨c, y, hc, rfl⟩
  rw [h c (by simp)] at hc
  cases hc

/-- Two stretches without digits that begin at the same place are the same, if a digit is behind
each of them. -/
theorem eq_of_append_eq {m v m' v' : List Char} (hm : ∀ c ∈ m, isDecimalDigit c = false)
    (hm' : ∀ c ∈ m', isDecimalDigit c = false) (hv : DigitHead v) (hv' : DigitHead v')
    (hs : m ++ v = m' ++ v') : m = m' ∧ v = v' := by
  -- what one has more than the other would begin with a digit
  rcases List.append_eq_append_iff.mp hs with ⟨b, rfl, rfl⟩ | ⟨b, rfl, rfl⟩
  · by_cases hb : b = []
    · subst hb
      simp
    · exact absurd (hv.of_append hb) (not_digitHead hm')
  · by_cases hb : b = []
    · subst hb
      simp
    · exact absurd (hv'.of_append hb) (not_digitHead hm)

/-- A stretch that does not begin before another one is the same, or it lies behind it. -/
theorem Between.locate_behind {u m v a m' v' : List Char} (h : Between u m v)
    (h' : Between (u ++ a) m' v') (hs : m ++ v = a ++ (m' ++ v')) :
    (a = [] ∧ m' = m ∧ v' = v) ∨ ∃ b, a = m ++ b ∧ v = b ++ (m' ++ v') ∧ DigitHead b ∧
      DigitLast b := by
  by_cases ha : a = []
  · subst ha
    obtain ⟨rfl, rfl⟩ := eq_of_append_eq h.noDigit h'.noDigit h.back h'.back hs
    exact .inl ⟨rfl, rfl, rfl⟩
  have hlast : DigitLast a := h'.front.of_append ha
  rcases List.append_eq_append_iff.mp hs with ⟨b, rfl, rfl⟩ | ⟨b, rfl, -⟩
  · have hb : b ≠ [] := by
      rintro rfl
      rw [List.append_nil] at hlast
      exact not_digitLast (y := []) (by simpa using h.noDigit) hlast
    exact .inr ⟨b, rfl, rfl, h.back.of_append hb, hlast.of_append hb⟩
  · exact absurd hlast (not_digitLast h.noDigit)

/-- The crosses of a text in which a stretch is bounded by digits: those before it, those behind it,
and the stretch itself if it is one. -/
theorem crossing_append {u m v : List Char} (h : Between u m v) {u' g v' : List Char} :
    Crossing (u ++ (m ++ v)) u' g v' ↔ (∃ b, Crossing u u' g b ∧ v' = b ++ (m ++ v)) ∨
      (u' = u ∧ g = m ∧ v' = v ∧ IsCross m) ∨ ∃ b, Crossing v b g v' ∧ u' = u ++ (m ++ b) := by
  constructor
  · intro hc
    rcases List.append_eq_append_iff.mp hc.split with ⟨a, rfl, hs⟩ | ⟨a, rfl, hs⟩
    · rcases h.locate_behind hc.between hs with ⟨rfl, rfl, rfl⟩ | ⟨b, rfl, rfl, -, hb⟩
      · exact .inr (.inl ⟨by simp, rfl, rfl, hc.cross⟩)
      · exact .inr (.inr ⟨b, ⟨rfl, hc.cross, hb, hc.back⟩, rfl⟩)
    · rcases hc.between.locate_behind h hs with ⟨rfl, rfl, rfl⟩ | ⟨b, rfl, rfl, hb, -⟩
      · exact .inr (.inl ⟨by simp, rfl, rfl, hc.cross⟩)
      · exact .inl ⟨b, ⟨rfl, hc.cross, hc.front, hb⟩, rfl⟩
  · rintro (⟨b, hc, rfl⟩ | ⟨rfl, rfl, rfl, hcross⟩ | ⟨b, hc, rfl⟩)
    · exact ⟨by simp [hc.split], hc.cross, hc.front, hc.back.append _⟩
    · exact ⟨rfl, hcross, h.front, h.back⟩
    · refine ⟨by simp [hc.split], hc.cross, ?_, hc.back⟩
      rw [← List.append_assoc]
      exact hc.front.append _

/-- A cross between digits cannot be made longer. -/
theorem Crossing.maximal {s u g v a b u' v' : List Char} (h : Crossing s u g v) (hu : u = u' ++ a)
    (hv : v = b ++ v') (hcross : IsCross (a ++ (g ++ b))) : a = [] ∧ b = [] := by
  have hno := hcross.noDigit
  constructor
  · by_contra ha
    rw [hu] at h
    obtain ⟨a, c, hc, rfl⟩ := h.front.of_append ha
    rw [hno c (by simp)] at hc
    cases hc
  · by_contra hb
    rw [hv] at h
    obtain ⟨c, b, hc, rfl⟩ := h.back.of_append hb
    rw [hno c (by simp)] at hc
    cases hc

/-! ### Texts cut at their crosses -/

/-- A part of a text: a character that is kept, or a cross that is replaced. -/
inductive Chunk
  | kept (c : Char)
  | cross (g : List Char)

/-- The characters of a part. -/
def Chunk.old : Chunk → List Char
  | kept c => [c]
  | cross g => g

/-- What is put in the place of a part. -/
def Chunk.new : Chunk → List Char
  | kept c => [c]
  | cross _ => ['*']

/-- The text that the parts make up. -/
def oldText (ps : List Chunk) : List Char :=
  ps.flatMap Chunk.old

/-- The text with every cross among the parts replaced. -/
def newText (ps : List Chunk) : List Char :=
  ps.flatMap Chunk.new

/-- One of the parts is the cross `g`, and the others make up `u` before it and `v` behind it. -/
def CrossAt (ps : List Chunk) (u g v : List Char) : Prop :=
  ∃ qs rs, ps = qs ++ .cross g :: rs ∧ oldText qs = u ∧ oldText rs = v

/-- The crosses among the parts are those that stand between digits in the text. -/
def Exact (ps : List Chunk) : Prop :=
  ∀ u g v, CrossAt ps u g v ↔ Crossing (oldText ps) u g v

/-- The text `t` is the text `s` with every cross between digits replaced by a star, all at once. -/
def AtOnce (s t : List Char) : Prop :=
  ∃ ps, Exact ps ∧ oldText ps = s ∧ newText ps = t

@[simp] theorem oldText_cons (p : Chunk) (ps : List Chunk) :
    oldText (p :: ps) = p.old ++ oldText ps :=
  rfl

@[simp] theorem oldText_append (ps qs : List Chunk) :
    oldText (ps ++ qs) = oldText ps ++ oldText qs :=
  List.flatMap_append

@[simp] theorem newText_cons (p : Chunk) (ps : List Chunk) :
    newText (p :: ps) = p.new ++ newText ps :=
  rfl

@[simp] theorem newText_append (ps qs : List Chunk) :
    newText (ps ++ qs) = newText ps ++ newText qs :=
  List.flatMap_append

theorem crossAt_append {qs rs : List Chunk} {p : Chunk} {u g v : List Char} :
    CrossAt (qs ++ p :: rs) u g v ↔ (∃ b, CrossAt qs u g b ∧ v = b ++ (p.old ++ oldText rs)) ∨
      (u = oldText qs ∧ p = .cross g ∧ v = oldText rs) ∨
      ∃ b, CrossAt rs b g v ∧ u = oldText qs ++ (p.old ++ b) := by
  constructor
  · rintro ⟨as, bs, heq, rfl, rfl⟩
    rcases List.append_eq_append_iff.mp heq with ⟨cs, rfl, hrest⟩ | ⟨cs, rfl, hrest⟩
    · cases cs with
      | nil =>
        obtain ⟨rfl, rfl⟩ := List.cons_eq_cons.mp hrest
        exact .inr (.inl ⟨by simp, rfl, rfl⟩)
      | cons q cs =>
        obtain ⟨rfl, rfl⟩ := List.cons_eq_cons.mp hrest
        exact .inr (.inr ⟨oldText cs, ⟨cs, bs, rfl, rfl, rfl⟩, by simp⟩)
    · cases cs with
      | nil =>
        obtain ⟨rfl, rfl⟩ := List.cons_eq_cons.mp hrest
        exact .inr (.inl ⟨by simp, rfl, rfl⟩)
      | cons q cs =>
        obtain ⟨rfl, rfl⟩ := List.cons_eq_cons.mp hrest
        exact .inl ⟨oldText cs, ⟨as, cs, rfl, rfl, rfl⟩, by simp⟩
  · rintro (⟨b, ⟨as, bs, rfl, rfl, rfl⟩, rfl⟩ | ⟨rfl, rfl, rfl⟩ | ⟨b, ⟨as, bs, rfl, rfl, rfl⟩, rfl⟩)
    · exact ⟨as, bs ++ p :: rs, by simp, rfl, by simp⟩
    · exact ⟨qs, rs, rfl, rfl, rfl⟩
    · exact ⟨qs ++ p :: as, bs, by simp, by simp, rfl⟩

/-- Texts that are cut at all their crosses make one together with what stands between them. -/
theorem Exact.append {qs rs : List Chunk} {p : Chunk} (hq : Exact qs) (hr : Exact rs)
    (hbetween : Between (oldText qs) p.old (oldText rs))
    (hp : ∀ g, p = .cross g ↔ g = p.old ∧ IsCross p.old) : Exact (qs ++ p :: rs) := by
  intro u g v
  have hself : (u = oldText qs ∧ p = .cross g ∧ v = oldText rs) ↔
      (u = oldText qs ∧ g = p.old ∧ v = oldText rs ∧ IsCross p.old) := by
    rw [hp g]
    tauto
  have hfront : (∃ b, CrossAt qs u g b ∧ v = b ++ (p.old ++ oldText rs)) ↔
      ∃ b, Crossing (oldText qs) u g b ∧ v = b ++ (p.old ++ oldText rs) :=
    exists_congr fun b => and_congr_left' (hq u g b)
  have hback : (∃ b, CrossAt rs b g v ∧ u = oldText qs ++ (p.old ++ b)) ↔
      ∃ b, Crossing (oldText rs) b g v ∧ u = oldText qs ++ (p.old ++ b) :=
    exists_congr fun b => and_congr_left' (hr b g v)
  rw [crossAt_append, hself, hfront, hback, oldText_append, oldText_cons, crossing_append hbetween]

theorem Exact.append_cross {qs rs : List Chunk} {g : List Char} (hq : Exact qs) (hr : Exact rs)
    (hcross : Crossing (oldText qs ++ (g ++ oldText rs)) (oldText qs) g (oldText rs)) :
    Exact (qs ++ .cross g :: rs) := by
  refine hq.append hr hcross.between fun g' => ?_
  constructor
  · intro heq
    cases heq
    exact ⟨rfl, hcross.cross⟩
  · rintro ⟨rfl, -⟩
    rfl

theorem IsCross.star_not_mem {g : List Char} (h : IsCross g) : '*' ∉ g := by
  have hstar : isBlank '*' = false := by decide
  obtain ⟨d, e, hd, he, rfl⟩ := h
  intro hmem
  rcases List.mem_append.mp hmem with hmem | hmem
  · rw [hd _ hmem] at hstar
    cases hstar
  · rcases List.mem_cons.mp hmem with heq | hmem
    · cases heq
    · rw [he _ hmem] at hstar
      cases hstar

theorem between_star {u v : List Char} (hu : DigitLast u) (hv : DigitHead v) :
    Between u ['*'] v := by
  refine ⟨by simp, ?_, hu, hv⟩
  decide

theorem Exact.append_star {qs rs : List Chunk} (hq : Exact qs) (hr : Exact rs)
    (hfront : DigitLast (oldText qs)) (hback : DigitHead (oldText rs)) :
    Exact (qs ++ .kept '*' :: rs) := by
  refine hq.append hr (between_star hfront hback) fun g => ?_
  constructor
  · intro heq
    cases heq
  · rintro ⟨-, hcross⟩
    exact absurd (List.mem_singleton_self '*') hcross.star_not_mem

/-! ### One way to cut a text -/

/-- A text without crosses between digits is kept. -/
theorem exact_kept {s : List Char} (h : ∀ u g v, ¬ Crossing s u g v) :
    Exact (s.map .kept) ∧ oldText (s.map .kept) = s ∧ newText (s.map .kept) = s := by
  have hold : oldText (s.map .kept) = s := by
    rw [oldText, List.flatMap_map]
    exact List.flatMap_singleton' s
  have hnew : newText (s.map .kept) = s := by
    rw [newText, List.flatMap_map]
    exact List.flatMap_singleton' s
  refine ⟨fun u g v => ?_, hold, hnew⟩
  rw [hold]
  refine iff_of_false ?_ (h u g v)
  rintro ⟨qs, rs, heq, -, -⟩
  have hmem : Chunk.cross g ∈ s.map Chunk.kept := by simp [heq]
  simp at hmem

theorem atOnce_self {s : List Char} (h : ∀ u g v, ¬ Crossing s u g v) : AtOnce s s :=
  ⟨s.map .kept, exact_kept h⟩

/-- Every text can be cut at its crosses. -/
theorem exists_exact (s : List Char) : ∃ ps, Exact ps ∧ oldText ps = s := by
  -- by induction on the length: what stands before a cross and what stands behind it are shorter
  induction hn : s.length using Nat.strong_induction_on generalizing s with
  | _ n ih =>
    subst hn
    by_cases hnone : ∀ u g v, ¬ Crossing s u g v
    · obtain ⟨hexact, hold, -⟩ := exact_kept hnone
      exact ⟨_, hexact, hold⟩
    · push Not at hnone
      obtain ⟨u, g, v, hcross⟩ := hnone
      have hlength : s.length = u.length + (g.length + v.length) := by simp [hcross.split]
      have hpos : 0 < g.length := List.length_pos_of_ne_nil hcross.cross.ne_nil
      obtain ⟨qs, hq, rfl⟩ := ih u.length (by omega) u rfl
      obtain ⟨rs, hr, rfl⟩ := ih v.length (by omega) v rfl
      obtain rfl := hcross.split
      exact ⟨_, hq.append_cross hr hcross, by simp [Chunk.old]⟩

theorem crossAt_cons {ps : List Chunk} {p : Chunk} {u g v : List Char} :
    CrossAt (p :: ps) u g v ↔ (u = [] ∧ p = .cross g ∧ v = oldText ps) ∨
      ∃ b, CrossAt ps b g v ∧ u = p.old ++ b := by
  have hnil (b : List Char) : ¬ CrossAt [] u g b := by
    rintro ⟨qs, rs, heq, -, -⟩
    simp at heq
  have happend : CrossAt ([] ++ p :: ps) u g v ↔ _ := crossAt_append
  simpa [hnil, oldText] using happend

theorem crossAt_head {ps : List Chunk} {p : Chunk} (hp : p.old ≠ []) {g v : List Char} :
    CrossAt (p :: ps) [] g v ↔ p = .cross g ∧ v = oldText ps := by
  rw [crossAt_cons]
  simp [hp]

theorem crossAt_tail {ps : List Chunk} {p : Chunk} (hp : p.old ≠ []) {u g v : List Char} :
    CrossAt (p :: ps) (p.old ++ u) g v ↔ CrossAt ps u g v := by
  rw [crossAt_cons]
  simp [hp]

/-- The text and its crosses tell where it is cut. -/
theorem eq_of_crossAt {ps qs : List Chunk} (hps : ∀ p ∈ ps, p.old ≠ []) (hqs : ∀ q ∈ qs, q.old ≠ [])
    (htext : oldText ps = oldText qs) (hsame : ∀ u g v, CrossAt ps u g v ↔ CrossAt qs u g v) :
    ps = qs := by
  induction ps generalizing qs with
  | nil =>
    cases qs with
    | nil => rfl
    | cons q qs => exact absurd (List.append_eq_nil_iff.mp htext.symm).1 (hqs q (by simp))
  | cons p ps ih =>
    have hp : p.old ≠ [] := hps p (by simp)
    cases qs with
    | nil => exact absurd (List.append_eq_nil_iff.mp htext).1 hp
    | cons q qs =>
      have hq : q.old ≠ [] := hqs q (by simp)
      have hpq : p = q := by
        cases p with
        | cross g =>
          have hcross := (hsame [] g (oldText ps)).mp ((crossAt_head hp).mpr ⟨rfl, rfl⟩)
          exact ((crossAt_head hq).mp hcross).1.symm
        | kept c =>
          cases q with
          | cross g =>
            have hcross := (hsame [] g (oldText qs)).mpr ((crossAt_head hq).mpr ⟨rfl, rfl⟩)
            exact ((crossAt_head hp).mp hcross).1
          | kept d => exact congrArg Chunk.kept (List.cons_eq_cons.mp htext).1
      subst hpq
      have hrest : oldText ps = oldText qs := List.append_cancel_left htext
      have hsame' (u g v : List Char) : CrossAt ps u g v ↔ CrossAt qs u g v := by
        rw [← crossAt_tail hp, hsame, crossAt_tail hp]
      rw [ih (fun p h => hps p (by simp [h])) (fun q h => hqs q (by simp [h])) hrest hsame']

theorem Exact.old_ne_nil {ps : List Chunk} (h : Exact ps) : ∀ p ∈ ps, p.old ≠ [] := by
  intro p hp
  cases p with
  | kept c => simp [Chunk.old]
  | cross g =>
    obtain ⟨qs, rs, rfl⟩ := List.append_of_mem hp
    have hcross := (h _ g _).mp ⟨qs, rs, rfl, rfl, rfl⟩
    exact hcross.cross.ne_nil

theorem Exact.unique {ps qs : List Chunk} (hp : Exact ps) (hq : Exact qs)
    (htext : oldText ps = oldText qs) : ps = qs := by
  refine eq_of_crossAt hp.old_ne_nil hq.old_ne_nil htext fun u g v => ?_
  rw [hp, hq, htext]

/-- Only one text comes from replacing all crosses at once. -/
theorem AtOnce.unique {s t t' : List Char} (h : AtOnce s t) (h' : AtOnce s t') : t = t' := by
  obtain ⟨ps, hp, hold, rfl⟩ := h
  obtain ⟨qs, hq, hold', rfl⟩ := h'
  rw [hp.unique hq (hold.trans hold'.symm)]

/-! ### From one replacement to all -/

/-- One cross replaced beforehand makes no difference to what becomes of all. -/
theorem atOnce_of_star {u g v t : List Char} (hcross : Crossing (u ++ (g ++ v)) u g v)
    (h : AtOnce (u ++ ('*' :: v)) t) : AtOnce (u ++ (g ++ v)) t := by
  obtain ⟨qs, hq, rfl⟩ := exists_exact u
  obtain ⟨rs, hr, rfl⟩ := exists_exact v
  have hstar : AtOnce (oldText qs ++ ('*' :: oldText rs)) (newText qs ++ ('*' :: newText rs)) :=
    ⟨_, hq.append_star hr hcross.front hcross.back, by simp [Chunk.old], by simp [Chunk.new]⟩
  rw [h.unique hstar]
  exact ⟨_, hq.append_cross hr hcross, by simp [Chunk.old], by simp [Chunk.new]⟩

theorem takes_cross {g : List Char} : crossPattern.Takes g [] ↔ IsCross g := by
  constructor
  · rintro ⟨_, e, _, _, rfl, -, ⟨d, x, _, _, rfl, -, hd, hx⟩, he⟩
    rw [takes_text hx]
    exact ⟨d, e, hd.1, he.1, by simp⟩
  · rintro ⟨d, e, hd, he, rfl⟩
    refine ⟨d ++ "x".toList, e, [], [], by simp, rfl, ?_, he, rfl⟩
    exact ⟨d, "x".toList, [], [], rfl, rfl, ⟨hd, rfl⟩, takes_text_self "x"⟩

/-- Only one replacement is repeated. -/
theorem repeated_rules : rules.filter Replacement.repeats = [timesRule] := rfl

theorem timesRule_mem_rules : timesRule ∈ rules := by
  have hmem : timesRule ∈ rules.filter Replacement.repeats := by simp [repeated_rules]
  exact List.mem_of_mem_filter hmem

/-- Where no cross stands between digits, a pass changes nothing. -/
theorem pass_of_not_crossing {s : List Char} (h : ∀ u g v, ¬ Crossing s u g v) :
    timesRule.pass s = s := by
  refine Replacement.passFrom_of_idle (z := []) ?_
  rintro u v d ks q rfl - htakes - heq
  obtain ⟨c, g, c', hc, hg, hc', rfl, -⟩ := takes_times.mp htakes
  refine h (u ++ [c]) g (c' :: q) ⟨?_, takes_cross.mp hg, ⟨u, c, hc, rfl⟩, ⟨c', q, hc', rfl⟩⟩
  rw [List.append_nil] at heq
  simp [heq]

/-- A cross is found from the digit in front of it, if there is one behind it. -/
theorem matchAt_cross_ne_none {c : Char} {g v : List Char} (hc : isDecimalDigit c = true)
    (hg : IsCross g) (hv : DigitHead v) (before : Option Char) :
    timesRule.matchAt ⟨before, c :: (g ++ v)⟩ ≠ none := by
  obtain ⟨c', v, hc', rfl⟩ := hv
  have htakes : timesRule.pattern.Takes (c :: (g ++ [c'])) [[c], [c']] :=
    takes_times.mpr ⟨c, g, c', hc, takes_cross.mpr hg, hc', rfl, rfl⟩
  obtain ⟨m, hm, -⟩ := exists_match_of_takes (by decide) htakes before v
  have hplace : c :: (g ++ [c']) ++ v = c :: (g ++ c' :: v) := by simp
  intro hnone
  rw [hplace, Replacement.allMatches_of_matchAt rfl hnone] at hm
  cases hm

/-- What a match of the rule takes and what it leaves. -/
theorem exists_cross_of_found {z d t : List Char} {m : Match} (h : timesRule.Found z d t m) :
    ∃ c g c', isDecimalDigit c = true ∧ IsCross g ∧ isDecimalDigit c' = true ∧
      d = [c] ++ (g ++ [c']) ∧ timesRule.fill m = [c] ++ ['*', c'] := by
  obtain ⟨c, g, c', hc, hg, hc', rfl, hks⟩ := takes_times.mp h.takes
  exact ⟨c, g, c', hc, takes_cross.mp hg, hc', rfl, fill_times hks⟩

/-- What becomes of all crosses after a pass becomes of them before it. -/
theorem atOnce_of_pass {s t : List Char} (h : AtOnce (timesRule.pass s) t) : AtOnce s t := by
  -- undone one after another, the replacements of the pass make no difference
  refine Replacement.pass_reflects (Φ := fun y => AtOnce y t) ?_ h
  intro z d y m _ hm hnew
  obtain ⟨c, g, c', hc, hg, hc', rfl, hfill⟩ := exists_cross_of_found hm
  rw [hfill] at hnew
  generalize timesRule.passFrom (z ++ ([c] ++ (g ++ [c']))).getLast? 0 y = y' at hnew ⊢
  have hcross : Crossing ((z ++ [c]) ++ (g ++ c' :: y')) (z ++ [c]) g (c' :: y') :=
    ⟨rfl, hg, ⟨z, c, hc, rfl⟩, ⟨c', y', hc', rfl⟩⟩
  have hold := atOnce_of_star hcross (by simpa using hnew)
  simpa using hold

/-! ### Two passes -/

theorem Crossing.prepend {s u g v : List Char} (h : Crossing s u g v) (y : List Char) :
    Crossing (y ++ s) (y ++ u) g v :=
  ⟨by rw [h.split, List.append_assoc], h.cross, h.front.append y, h.back⟩

theorem Crossing.of_prepend {s y u g v : List Char} (h : Crossing (y ++ s) (y ++ u) g v)
    (hu : u ≠ []) : Crossing s u g v := by
  refine ⟨?_, h.cross, h.front.of_append hu, h.back⟩
  have hsplit := h.split
  rw [List.append_assoc] at hsplit
  exact List.append_cancel_left hsplit

/-- A pass keeps the first character. -/
theorem exists_passFrom_cons (z : List Char) (c : Char) (s : List Char) :
    ∃ t, timesRule.passFrom z.getLast? 0 (c :: s) = c :: t := by
  cases hm : timesRule.matchAt ⟨z.getLast?, c :: s⟩ with
  | none => exact ⟨_, Replacement.passFrom_eq_cons hm⟩
  | some m =>
    obtain ⟨d, t, hs, hne, hfound⟩ := Replacement.exists_found hm
    obtain ⟨e, g, c', -, -, -, rfl, hfill⟩ := exists_cross_of_found hfound
    obtain ⟨rfl, -⟩ := List.cons_eq_cons.mp hs
    rw [hs, hfound.passFrom_eq hne, hfill]
    exact ⟨_, rfl⟩

/-- The class is that of the digits. -/
def isDigitClass (k : CharClass) : Bool :=
  k == .digit

theorem isDecimalDigit_of_isDigitClass (k : CharClass) (c : Char) (hk : isDigitClass k = true)
    (hc : k.holds c = true) : isDecimalDigit c = true := by
  rw [show k = .digit from beq_iff_eq.mp hk] at hc
  exact hc

/-- A text is a stretch without digits, and nothing or a digit behind it. -/
theorem exists_stretch (s : List Char) :
    ∃ m w, (∀ c ∈ m, isDecimalDigit c = false) ∧ (w = [] ∨ DigitHead w) ∧ s = m ++ w := by
  induction s with
  | nil => exact ⟨[], [], nofun, .inl rfl, rfl⟩
  | cons c s ih =>
    by_cases hc : isDecimalDigit c = true
    · exact ⟨[], c :: s, nofun, .inr ⟨c, s, hc, rfl⟩, rfl⟩
    · obtain ⟨m, w, hm, hw, rfl⟩ := ih
      exact ⟨c :: m, w, List.forall_mem_cons.mpr ⟨by simpa using hc, hm⟩, hw, rfl⟩

/-- A stretch without digits that stands in front of a digit after a pass stood there before it. -/
theorem exists_of_passFrom_eq {z s g v : List Char} (hg : ∀ c ∈ g, isDecimalDigit c = false)
    (hv : DigitHead v) (h : timesRule.passFrom z.getLast? 0 s = g ++ v) :
    ∃ w, DigitHead w ∧ s = g ++ w := by
  obtain ⟨m, w, hm, hw, rfl⟩ := exists_stretch s
  have hidle : timesRule.pattern.Idle m w :=
    idle_of_heads isDecimalDigit_of_isDigitClass (by decide) (fun c hc => by simp [hm c hc]) w
  rw [Replacement.passFrom_append_of_idle hidle] at h
  rcases hw with rfl | ⟨c, w, hc, rfl⟩
  · rw [Replacement.passFrom, List.append_nil] at h
    exact absurd hv (not_digitHead (by rwa [← h]))
  · obtain ⟨t, ht⟩ := exists_passFrom_cons (z ++ m) c w
    rw [ht] at h
    obtain ⟨rfl, -⟩ := eq_of_append_eq hm hg ⟨c, t, hc, rfl⟩ hv h
    exact ⟨c :: w, ⟨c, w, hc, rfl⟩, rfl⟩

/-- A star is neither a cross nor a digit, so a cross behind a digit and a star lies behind the
digit that follows the star. -/
theorem Crossing.behind_star {c c' : Char} {y u g v : List Char}
    (h : Crossing ([c] ++ ['*', c'] ++ y) u g v) :
    ∃ u', u = c :: '*' :: c' :: u' ∧ y = u' ++ (g ++ v) := by
  rcases u with _ | ⟨e, _ | ⟨f, _ | ⟨k, u⟩⟩⟩
  · obtain ⟨u, d, -, hd⟩ := h.front
    simp at hd
  · obtain ⟨-, hsplit⟩ := List.cons_eq_cons.mp h.split
    obtain ⟨d, g, rfl⟩ := List.exists_cons_of_ne_nil h.cross.ne_nil
    obtain ⟨rfl, -⟩ := List.cons_eq_cons.mp hsplit
    exact absurd (by simp) h.cross.star_not_mem
  · obtain ⟨-, hsplit⟩ := List.cons_eq_cons.mp h.split
    obtain ⟨rfl, -⟩ := List.cons_eq_cons.mp hsplit
    have hstar : isDecimalDigit '*' = true :=
      DigitLast.singleton (DigitLast.of_append (x := [e]) h.front (by simp))
    exact absurd hstar (by decide)
  · obtain ⟨rfl, hrest⟩ := List.cons_eq_cons.mp h.split
    obtain ⟨rfl, hrest'⟩ := List.cons_eq_cons.mp hrest
    obtain ⟨rfl, hsplit⟩ := List.cons_eq_cons.mp hrest'
    exact ⟨u, rfl, hsplit⟩

/-- A cross that a pass leaves has lost the digit in front of it to the cross before. -/
theorem crossing_of_passFrom {z s u g v : List Char}
    (h : Crossing (timesRule.passFrom z.getLast? 0 s) u g v) :
    ∃ u' c x g' w, u = u' ++ ['*', c] ∧ IsCross g' ∧ Crossing s (x ++ (g' ++ [c])) g w := by
  induction z, s using Replacement.search_induction (r := timesRule) generalizing u g v with
  | hnil z =>
    obtain ⟨u, c, -, rfl⟩ := h.front
    simpa [Replacement.passFrom] using h.split
  | @hskip z c s hnone ih =>
    rw [Replacement.passFrom_eq_cons hnone] at h
    cases u with
    | nil =>
      obtain ⟨u, d, -, hd⟩ := h.front
      simp at hd
    | cons d u =>
      obtain ⟨rfl, hsplit⟩ := List.cons_eq_cons.mp h.split
      by_cases hu : u = []
      · -- the search would have found this cross
        subst hu
        obtain ⟨w, hw, rfl⟩ := exists_of_passFrom_eq h.cross.noDigit h.back hsplit
        exact absurd hnone (matchAt_cross_ne_none h.front.singleton h.cross hw _)
      · obtain ⟨u', c', x, g', w, rfl, hg', hcross⟩ :=
          ih (Crossing.of_prepend (y := [c]) h hu)
        exact ⟨c :: u', c', c :: x, g', w, rfl, hg', hcross.prepend [c]⟩
  | @hfound z d t m hne hm ih =>
    obtain ⟨c, g₀, c', hc, hg₀, hc', rfl, hfill⟩ := exists_cross_of_found hm
    rw [hm.passFrom_eq hne, hfill] at h
    obtain ⟨u, rfl, hsplit⟩ := h.behind_star
    by_cases hu : u = []
    · subst hu
      obtain ⟨w, hw, rfl⟩ := exists_of_passFrom_eq h.cross.noDigit h.back hsplit
      refine ⟨[c], c', [c], g₀, w, rfl, hg₀, ⟨rfl, h.cross, ⟨[c] ++ g₀, c', hc', ?_⟩, hw⟩⟩
      exact (List.append_assoc ..).symm
    · obtain ⟨u', d, x, g', w, rfl, hg', hcross⟩ :=
        ih (Crossing.of_prepend (y := [c, '*', c']) h hu)
      refine ⟨[c, '*', c'] ++ u', d, [c] ++ (g₀ ++ [c']) ++ x, g', w, rfl, hg', ?_⟩
      rw [List.append_assoc _ x]
      exact hcross.prepend _

/-- Two passes leave no cross between digits. -/
theorem not_crossing_twice (s u g v : List Char) :
    ¬ Crossing (timesRule.pass (timesRule.pass s)) u g v := by
  intro h
  obtain ⟨-, c, x, g', w, -, hg', hfirst⟩ := crossing_of_passFrom (z := []) h
  obtain ⟨u', c', -, -, -, hu, -, -⟩ := crossing_of_passFrom (z := []) hfirst
  -- in between, the cross before the digit would end with the star
  obtain ⟨y, d, rfl⟩ := (List.eq_nil_or_concat g').resolve_left hg'.ne_nil
  have hlast : (x ++ y) ++ [d, c] = u' ++ ['*', c'] := by simpa using hu
  obtain ⟨-, hd⟩ := List.append_inj' hlast rfl
  obtain ⟨rfl, -⟩ := List.cons_eq_cons.mp hd
  exact absurd (by simp) hg'.star_not_mem

theorem atOnce_twice (s : List Char) : AtOnce s (timesRule.pass (timesRule.pass s)) :=
  atOnce_of_pass (atOnce_of_pass (atOnce_self (not_crossing_twice s)))

/-- Two passes are enough. -/
theorem apply_eq_twice (s : List Char) : timesRule.apply s = timesRule.pass (timesRule.pass s) := by
  have hfixed := pass_of_not_crossing (not_crossing_twice s)
  have hsettles : timesRule.Settles s (timesRule.pass (timesRule.pass s)) :=
    Replacement.settles_iterate (n := 2) hfixed
  exact ((Replacement.settles_iff (usesUp_of_mem_rules timesRule_mem_rules) rfl).mp hsettles).symm

/-- Pass after pass is made until nothing changes. This ends, with two passes that change the text
at most, and what is left is the text with every cross between digits replaced by a star, all at
once. -/
theorem settles_iff_atOnce (s : List Char) :
    timesRule.apply s = timesRule.pass (timesRule.pass s) ∧
      timesRule.Settles s (timesRule.apply s) ∧ ∀ t, timesRule.Settles s t ↔ AtOnce s t := by
  have hsettles {t : List Char} : timesRule.Settles s t ↔ t = timesRule.apply s :=
    Replacement.settles_iff (usesUp_of_mem_rules timesRule_mem_rules) rfl
  refine ⟨apply_eq_twice s, hsettles.mpr rfl, fun t => ?_⟩
  rw [hsettles, apply_eq_twice]
  constructor
  · rintro rfl
    exact atOnce_twice s
  · intro h
    exact h.unique (atOnce_twice s)

example : timesRule.apply "2x3x 4".toList = "2*3*4".toList := by decide +kernel

end Reckon.Wording
