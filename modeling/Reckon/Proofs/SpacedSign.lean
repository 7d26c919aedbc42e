/-
Blanks around a sign.

How many blanks stand around a sign makes no difference to the words of the text if the sign stands
alone anyway. Nor does it to a replacement: a pattern in which the sign is followed by another
character than a blank passes over it, and the pattern for a product takes any blanks around it.

* `Spaced`, `Stretched` : a sign that stands alone, and texts that differ in the blanks around it.
* `Spaced.pass_of_tight` : replacements that pass over the sign.
* `Factors.search_product` : the search for a product sees no difference either.
* `ForProduct.passFrom`, `Stretched.pass_of_product` : what becomes of the two texts if products are
  replaced.
-/
import Reckon.Proofs.StandAlone

namespace Reckon

open Text hiding blanks
open Pattern hiding words

/-! ### Signs that stand alone -/

/-- Between `u` and `v` stands the sign `c`, on each side a blank or the end of the text. -/
def Spaced (c : Char) (u v s : List Char) : Prop :=
  ∃ d e, (∀ x ∈ d, isBlank x = true) ∧ (∀ x ∈ e, isBlank x = true) ∧ BlankLast (u ++ d) ∧
    BlankHead (e ++ v) ∧ s = (u ++ d) ++ ([c] ++ (e ++ v))

/-- The texts are the same, or they differ in the blanks around a sign that stands alone. -/
def Stretched (c : Char) (s s' : List Char) : Prop :=
  s = s' ∨ ∃ u v, Spaced c u v s ∧ Spaced c u v s'

section Ends

variable {r : Replacement} (hheads : r.pattern.heads CharClass.nonblank = true)
  (hkeeps : r.KeepsBlanks)

include hheads hkeeps

/-- A replacement that passes over the sign leaves it alone. -/
theorem Spaced.pass_of_tight {c : Char} (hc : isWordChar c = false)
    (htight : r.pattern.tight c = true) {u v s : List Char} (h : Spaced c u v s) :
    Spaced c (r.pass u) (r.pass v) (r.pass s) := by
  obtain ⟨d, e, hd, he, hlast, hhead, rfl⟩ := h
  obtain ⟨d', hd', hfront, -⟩ := hkeeps u d hd
  have hback := Replacement.pass_blanks_append hheads he v
  have hlast' := hkeeps.blankLast_pass hlast
  have hhead' := Replacement.blankHead_pass hheads hhead
  have hside : NoWord ([c] ++ (e ++ v)).head? := by simpa [NoWord] using hc
  rw [hfront] at hlast'
  rw [hback] at hhead'
  refine ⟨d', e, hd', he, hlast', hhead', ?_⟩
  rw [Replacement.pass_around hheads (.inl hside) hlast hhead (clear_of_tight htight hhead _)
    (idle_of_tight htight hhead), hfront, hback]

theorem Stretched.pass_of_tight {c : Char} (hc : isWordChar c = false)
    (htight : r.pattern.tight c = true) {s s' : List Char} (h : Stretched c s s') :
    Stretched c (r.pass s) (r.pass s') := by
  rcases h with rfl | ⟨u, v, h, h'⟩
  · exact .inl rfl
  · exact .inr ⟨_, _, h.pass_of_tight hheads hkeeps hc htight,
      h'.pass_of_tight hheads hkeeps hc htight⟩

end Ends

/-- A blank in front of a text ends the last word before it, as the beginning does. -/
theorem words_append_of_blankLast {x : List Char} (hx : BlankLast x) (t : List Char) :
    words (x ++ t) = words x ++ words t := by
  rcases List.eq_nil_or_concat x with rfl | ⟨x, c, rfl⟩
  · rfl
  · rw [List.concat_eq_append] at hx ⊢
    have hc : ∀ e ∈ [c], isBlank e = true := by simpa using hx c (by simp)
    rw [List.append_assoc, words_append_blanks x hc (List.cons_ne_nil c []),
      words_append_right x (blankHead_of_blanks hc), (words_eq_nil_iff [c]).mpr hc, List.append_nil]

theorem Spaced.words_eq {c : Char} (hc : isBlank c = false) {u v s : List Char}
    (h : Spaced c u v s) : words s = words u ++ [c] :: words v := by
  obtain ⟨d, e, hd, he, hlast, hhead, rfl⟩ := h
  have hsign : IsWord [c] := ⟨List.cons_ne_nil c [], by simpa using hc⟩
  have hfront : words (u ++ d) = words u := by
    rw [words_append_right u (blankHead_of_blanks hd), (words_eq_nil_iff d).mpr hd, List.append_nil]
  rw [words_append_of_blankLast hlast, words_append hsign (by rwa [Option.all_eq_true]),
    words_append_left he, hfront]

/-- The blanks around the sign make no difference to the text with single spaces. -/
theorem Stretched.collapse_eq {c : Char} (hc : isBlank c = false) {s s' : List Char}
    (h : Stretched c s s') : collapse s = collapse s' := by
  rcases h with rfl | ⟨u, v, h, h'⟩
  · rfl
  · rw [collapse, collapse, h.words_eq hc, h'.words_eq hc]

/-! ### Products -/

namespace Pattern

variable {β : Type}

theorem search_assoc (a b c : Pattern) (p : Place) (test : Match → Option β) :
    search (a ++ b ++ c) p test = search (a ++ (b ++ c)) p test := by
  simp only [search_append, Nat.add_assoc, List.append_assoc]

/-- The pattern finds nothing where it cannot begin. -/
theorem search_of_heads {b : Pattern} (hconsumes : b.consumes = true)
    (hheads : b.heads CharClass.nonblank = true) {p : Place}
    (hp : ∀ c ∈ p.after.head?, isBlank c = true) (test : Match → Option β) :
    search b p test = none := by
  refine List.findSome?_eq_none_iff.mpr fun m hm => ?_
  obtain ⟨x, hafter, -, -, htakes⟩ := exists_takes hm
  obtain ⟨c, x, rfl⟩ := List.exists_cons_of_ne_nil (ne_nil_of_consumes hconsumes htakes)
  have hno := good_head CharClass.not_isBlank_of_nonblank hheads htakes c rfl
  rw [hp c (by rw [hafter]; rfl)] at hno
  cases hno

/-- All blanks are taken in front of a pattern that does not begin with one. -/
theorem search_blanks {b : Pattern} (hconsumes : b.consumes = true)
    (hheads : b.heads CharClass.nonblank = true) {d s : List Char}
    (hd : ∀ c ∈ d, isBlank c = true) (hs : ∀ c ∈ s.head?, isBlank c = false) (o : Option Char)
    (test : Match → Option β) :
    search (blanks ++ b) ⟨o, d ++ s⟩ test = search b ⟨d.getLast?.or o, s⟩ fun m =>
      test ⟨m.stop, d.length + m.size, m.captures⟩ := by
  obtain ⟨o', others, heq, hothers⟩ := manyMatches_append .blank hd hs o 0 []
  have hlast : o' = d.getLast?.or o := by
    have hmem : (⟨⟨o', s⟩, 0 + d.length, []⟩ : Match) ∈ manyMatches .blank o 0 [] (d ++ s) := by
      rw [heq]
      exact .head _
    obtain ⟨d', t, hsplit, -, hm⟩ := (mem_manyMatches.mp hmem).resolve_left List.not_mem_nil
    injection hm with hstop hsize
    injection hstop with ho ht
    rw [ho, (List.append_inj hsplit (by omega)).1]
  have hnone : others.findSome? (fun m => search b m.stop fun m' =>
      test ⟨m'.stop, m.size + m'.size, m.captures ++ m'.captures⟩) = none := by
    refine List.findSome?_eq_none_iff.mpr fun m hm => ?_
    obtain ⟨c, t, hc, hstop⟩ := hothers m hm
    refine search_of_heads hconsumes hheads (fun e he => ?_) _
    rw [hstop] at he
    cases he
    exact hd c hc
  have hfirst {test : Match → Option β} {m : Match} {ms : List Match}
      (h : ms.findSome? test = none) : (m :: ms).findSome? test = test m := by
    rw [List.findSome?_cons, h]
    cases test m <;> rfl
  rw [search_append, search, blanks, allMatches, heq, List.append_nil, hfirst hnone, hlast,
    Nat.zero_add]
  rfl

/-- What goes on behind the first factor of a product: the sign, with any blanks around it, and the
second factor. -/
def timesFactor (b : Pattern) : Pattern :=
  blanks ++ (text "*" ++ (blanks ++ b))

/-- The class has neither blanks nor the sign. -/
def factorly (k : CharClass) : Bool :=
  k.nonblank && k.lacks ['*']

theorem good_of_factorly (k : CharClass) (c : Char) (hk : factorly k = true)
    (hc : k.holds c = true) : isBlank c = false ∧ c ≠ '*' := by
  rw [factorly, Bool.and_eq_true] at hk
  have hno := CharClass.not_mem_of_lacks ['*'] k c hk.2 hc
  exact ⟨CharClass.not_isBlank_of_nonblank k c hk.1 hc, by simpa using hno⟩

/-- Blanks and the sign are in no such class, and no word. -/
theorem not_good_of_sign {c : Char} (hc : isBlank c = true ∨ c = '*') :
    ¬ (isBlank c = false ∧ c ≠ '*') := by
  rintro ⟨hblank, hsign⟩
  rcases hc with hc | hc
  · rw [hc] at hblank
    cases hblank
  · exact hsign hc

theorem isWordChar_of_sign {c : Char} (hc : isBlank c = true ∨ c = '*') : isWordChar c = false := by
  rcases hc with hc | rfl
  · exact isWordChar_of_isBlank hc
  · decide +kernel

/-- The patterns are those of two factors: the sign is in neither, and there are no blanks in the
first one and at the ends of the second one. -/
structure Factors (a b : Pattern) : Prop where
  every : a.every factorly = true
  consumes' : b.consumes = true
  every' : b.every (CharClass.lacks ['*']) = true
  heads' : b.heads CharClass.nonblank = true
  lasts' : b.lasts CharClass.nonblank = true

/-- The sign, with any blanks around it, in front of `v`. -/
def TimesThen (v t : List Char) : Prop :=
  ∃ d e, (∀ c ∈ d, isBlank c = true) ∧ (∀ c ∈ e, isBlank c = true) ∧ t = d ++ '*' :: (e ++ v)

/-- Whether a match ends within the first `n` characters, where it ends and what it keeps. -/
def outcome (n : ℕ) (m : Match) : (ℕ ⊕ List Char) × List (List Char) :=
  (if m.size ≤ n then .inl m.size else .inr m.stop.after, m.captures.map Stretch.chars)

theorem outcome_near {n : ℕ} {m m' : Match} (hle : m.size ≤ n) (hsize : m'.size = m.size)
    (hkept : m'.captures.map Stretch.chars = m.captures.map Stretch.chars) :
    outcome n m = outcome n m' := by
  rw [outcome, outcome, hsize, hkept, if_pos hle, if_pos hle]

theorem outcome_far {n : ℕ} {m m' : Match} (hlt : n < m.size) (hlt' : n < m'.size)
    (hstop : m'.stop.after = m.stop.after)
    (hkept : m'.captures.map Stretch.chars = m.captures.map Stretch.chars) :
    outcome n m = outcome n m' := by
  rw [outcome, outcome, hstop, hkept, if_neg (by omega), if_neg (by omega)]

theorem outcome_cases {n : ℕ} {m m' : Match} (h : outcome n m' = outcome n m) :
    m.size ≤ n ∧ m'.size = m.size ∨ n < m.size ∧ m'.stop.after = m.stop.after := by
  have hends := congrArg Prod.fst h
  rw [outcome, outcome] at hends
  by_cases hle : m.size ≤ n
  · by_cases hle' : m'.size ≤ n
    · rw [if_pos hle, if_pos hle'] at hends
      exact .inl ⟨hle, Sum.inl.inj hends⟩
    · rw [if_pos hle, if_neg hle'] at hends
      cases hends
  · by_cases hle' : m'.size ≤ n
    · rw [if_neg hle, if_pos hle'] at hends
      cases hends
    · rw [if_neg hle, if_neg hle'] at hends
      exact .inr ⟨by omega, Sum.inr.inj hends⟩

theorem not_blanks_of_getLast? {x : List Char} (hne : x ≠ [])
    (hlast : ∀ c ∈ x.getLast?, isBlank c = false) : ¬ ∀ c ∈ x, isBlank c = true := by
  intro hblanks
  have hmem := List.getLast_mem hne
  have hno := hlast _ (List.getLast_mem_getLast? hne)
  rw [hblanks _ hmem] at hno
  cases hno

section Product

variable {a b : Pattern} (hfactors : Factors a b) {v t t' : List Char}

theorem TimesThen.head_eq (h : TimesThen v t) : ∀ c ∈ t.head?, isBlank c = true ∨ c = '*' := by
  obtain ⟨d, e, hd, -, rfl⟩ := h
  cases d with
  | nil =>
    rintro _ ⟨⟩
    exact .inr rfl
  | cons c d =>
    rintro _ ⟨⟩
    exact .inl (hd c (by simp))

theorem TimesThen.noWord (h : TimesThen v t) : NoWord t.head? :=
  fun c hc => isWordChar_of_sign (h.head_eq c hc)

include hfactors

theorem Factors.clear_first (ht : TimesThen v t) (x : List Char) : Clear a x t :=
  clear_of_every good_of_factorly hfactors.every
    (fun c hc => not_good_of_sign (ht.head_eq c hc)) x

/-- Behind a part of the second factor with more than blanks there is no sign. -/
theorem Factors.not_mem_of_takes {d₁ d₂ : List Char} {ks : List (List Char)}
    (h : Takes (timesFactor b) (d₁ ++ d₂) ks) (hmore : ¬ ∀ c ∈ d₁, isBlank c = true) :
    '*' ∉ d₂ := by
  obtain ⟨b₁, _, _, _, hsplit, -, ⟨hb₁, -⟩, w, _, _, _, rfl, -, htext, b₂, y, _, _, rfl, -,
    ⟨hb₂, -⟩, hy⟩ := h
  rw [show w = ['*'] from takes_text htext, List.singleton_append] at hsplit
  rcases List.append_eq_append_iff.mp hsplit with ⟨x, rfl, -⟩ | ⟨x, rfl, hrest⟩
  · exact absurd (fun c hc => hb₁ c (List.mem_append_left x hc)) hmore
  cases x with
  | nil =>
    rw [List.append_nil] at hmore
    exact absurd hb₁ hmore
  | cons c x =>
    -- the only sign is in the first part
    obtain ⟨-, hrest⟩ := List.cons_eq_cons.mp hrest
    intro hmem
    have hthere : '*' ∈ b₂ ++ y := by
      rw [hrest]
      exact List.mem_append_right x hmem
    rcases List.mem_append.mp hthere with hmem | hmem
    · exact absurd (hb₂ '*' hmem) (by decide)
    · exact good_of_every (CharClass.not_mem_of_lacks ['*']) hfactors.every' hy '*' hmem (by simp)

/-- The second factor does not go on from what ends with no blank into blanks and the sign. -/
theorem Factors.clear_timesFactor (ht : TimesThen v t) {x : List Char}
    (hx : ∀ c ∈ x.getLast?, isBlank c = false) : Clear (timesFactor b) x t := by
  obtain ⟨d, e, hd, -, rfl⟩ := ht
  rintro u d₁ d₂ ks q rfl hne₁ hne₂ htakes heq
  have hlasts : (timesFactor b).lasts CharClass.nonblank = true := by
    show (b.lasts CharClass.nonblank && (b.consumes || _) && (b.consumes || _) && (true || _)) = true
    rw [hfactors.lasts', hfactors.consumes']
    rfl
  have hlast := good_last CharClass.not_isBlank_of_nonblank hlasts htakes
  have hmore₁ := not_blanks_of_getLast? hne₁ fun c hc =>
    hx c (by rw [List.getLast?_append, Option.mem_def.mp hc]; rfl)
  have hmore₂ := not_blanks_of_getLast? hne₂ fun c hc =>
    hlast c (by rw [List.getLast?_append, Option.mem_def.mp hc]; rfl)
  have hno := hfactors.not_mem_of_takes htakes hmore₁
  -- without the sign what is left of the second factor ends in the blanks in front of it
  rcases List.append_eq_append_iff.mp heq with ⟨x, rfl, hback⟩ | ⟨x, rfl, -⟩
  · cases x with
    | nil =>
      rw [List.append_nil] at hmore₂
      exact hmore₂ hd
    | cons c x =>
      obtain ⟨rfl, -⟩ := List.cons_eq_cons.mp hback
      exact hno (by simp)
  · exact hmore₂ fun c hc => hd c (List.mem_append_left x hc)

/-- In front of the sign the second factor is searched for behind it and the blanks around it. -/
theorem Factors.search_timesFactor (hv : ∀ c ∈ v.head?, isBlank c = false) (ht : TimesThen v t)
    (o : Option Char) : ∃ x n, NoWord x ∧ 0 < n ∧ ∀ test : Match → Option β,
      search (timesFactor b) ⟨o, t⟩ test =
        search b ⟨x, v⟩ fun m => test ⟨m.stop, n + m.size, m.captures⟩ := by
  obtain ⟨d, e, hd, he, rfl⟩ := ht
  have hconsumes : (text "*" ++ (blanks ++ b)).consumes = true := rfl
  have hsign (s : List Char) (o : Option Char) (test : Match → Option β) :
      search (text "*" ++ (blanks ++ b)) ⟨o, '*' :: s⟩ test =
        search (blanks ++ b) ⟨some '*', s⟩ fun m => test ⟨m.stop, 1 + m.size, m.captures⟩ := by
    have hmatches : allMatches (text "*") ⟨o, '*' :: s⟩ = [⟨⟨some '*', s⟩, 1, []⟩] :=
      allMatches_text_append "*" o s
    rw [search_append, search, hmatches, List.findSome?_singleton]
    rfl
  refine ⟨e.getLast?.or (some '*'), d.length + (1 + e.length), ?_, by omega, fun test => ?_⟩
  · intro c hc
    refine isWordChar_of_sign ?_
    rcases Option.or_eq_some_iff.mp hc with hlast | ⟨-, hsign⟩
    · exact .inl (he c (List.mem_of_mem_getLast? hlast))
    · exact .inr (Option.some_inj.mp hsign).symm
  · rw [timesFactor, search_blanks hconsumes rfl hd (by rintro _ ⟨⟩; decide), hsign,
      search_blanks hfactors.consumes' hfactors.heads' he hv]
    simp only [Nat.add_assoc]

section Behind

variable {ks ks' : List Stretch} (hks : ks'.map Stretch.chars = ks.map Stretch.chars)

include hks

/-- Where the first factor ends in front of the sign, the second one is searched for behind it. -/
theorem Factors.search_at_sign (hv : ∀ c ∈ v.head?, isBlank c = false) (ht : TimesThen v t)
    (ht' : TimesThen v t') (o o' : Option Char) (n : ℕ) :
    search (timesFactor b) ⟨o, t⟩
        (fun m => some (outcome n ⟨m.stop, n + m.size, ks ++ m.captures⟩)) =
      search (timesFactor b) ⟨o', t'⟩
        fun m => some (outcome n ⟨m.stop, n + m.size, ks' ++ m.captures⟩) := by
  obtain ⟨e, i, he, hi, hsearch⟩ := hfactors.search_timesFactor hv ht o
  obtain ⟨e', i', he', hi', hsearch'⟩ := hfactors.search_timesFactor hv ht' o'
  rw [hsearch, hsearch']
  have hnone {o : Option Char} (m : Match) (hm : m ∈ allMatches b ⟨o, v ++ []⟩) :
      m.size ≤ v.length := by
    rw [← List.append_nil v]
    exact (sound b _ m hm).1
  have hsame : search b ⟨e, v ++ []⟩
        (fun m => some (outcome n ⟨m.stop, n + (i + m.size), ks ++ m.captures⟩)) =
      search b ⟨e', v ++ []⟩
        fun m => some (outcome n ⟨m.stop, n + (i' + m.size), ks' ++ m.captures⟩) := by
    refine search_local rfl b (he.sameKind he') v
      ⟨fun m hm hlt => absurd (hnone m hm) (Nat.not_le.mpr hlt),
        fun m hm hlt => absurd (hnone m hm) (Nat.not_le.mpr hlt), fun m _ m' _ halike => ?_⟩
    obtain ⟨-, hkept, ⟨z, -, hstop, hstop'⟩, -⟩ := halike
    refine congrArg some (outcome_far ?_ ?_ (hstop'.trans hstop.symm) ?_)
    · show n < n + (i + m.size)
      omega
    · show n < n + (i' + m'.size)
      omega
    · rw [List.map_append, List.map_append, hks, hkept]
  simpa only [List.append_nil] using hsame

/-- Where it ends before, the second factor does not reach the sign. -/
theorem Factors.search_before_sign (ht : TimesThen v t) (ht' : TimesThen v t') {y : List Char}
    (hne : y ≠ []) (hy : ∀ c ∈ y.getLast?, isBlank c = false) {o o' : Option Char}
    (ho : SameKind o o') {i n : ℕ} (hn : i + y.length = n) :
    search (timesFactor b) ⟨o, y ++ t⟩
        (fun m => some (outcome n ⟨m.stop, i + m.size, ks ++ m.captures⟩)) =
      search (timesFactor b) ⟨o', y ++ t'⟩
        fun m => some (outcome n ⟨m.stop, i + m.size, ks' ++ m.captures⟩) := by
  refine search_local (ht.noWord.sameKind ht'.noWord) (timesFactor b) ho y
    ⟨fun m hm hlt => ?_, fun m hm hlt => ?_, fun m _ m' _ halike => ?_⟩
  · exact absurd ((hfactors.clear_timesFactor ht hy).size_le hne hm) (Nat.not_le.mpr hlt)
  · exact absurd ((hfactors.clear_timesFactor ht' hy).size_le hne hm) (Nat.not_le.mpr hlt)
  · obtain ⟨hsize, hkept, ⟨z, hrest, -, -⟩, -⟩ := halike
    refine congrArg some (outcome_near ?_ (congrArg (i + ·) hsize) ?_)
    · show i + m.size ≤ n
      omega
    · rw [List.map_append, List.map_append, hks, hkept]

end Behind

/-- The blanks around the sign make no difference to the search for a product. -/
theorem Factors.search_product (hv : ∀ c ∈ v.head?, isBlank c = false) (ht : TimesThen v t)
    (ht' : TimesThen v t') {x : List Char} (hne : x ≠ [])
    (hx : ∀ c ∈ x.getLast?, isBlank c = false) {o o' : Option Char} (ho : SameKind o o') :
    search (a ++ timesFactor b) ⟨o, x ++ t⟩ (fun m => some (outcome x.length m)) =
      search (a ++ timesFactor b) ⟨o', x ++ t'⟩ fun m => some (outcome x.length m) := by
  rw [search_append, search_append]
  refine search_local (ht.noWord.sameKind ht'.noWord) a ho x
    ⟨fun m hm hlt => ?_, fun m hm hlt => ?_, fun m hm m' hm' halike => ?_⟩
  · exact absurd ((hfactors.clear_first ht x).size_le hne hm) (Nat.not_le.mpr hlt)
  · exact absurd ((hfactors.clear_first ht' x).size_le hne hm) (Nat.not_le.mpr hlt)
  obtain ⟨d, hd, -⟩ := exists_takes hm
  obtain ⟨hsize, hcaptures, ⟨y, hlength, hstop, hstop'⟩, hbefore⟩ := halike
  obtain ⟨⟨o₂, s⟩, n, ks⟩ := m
  obtain ⟨⟨o₂', s'⟩, n', ks'⟩ := m'
  dsimp only at hd hsize hcaptures hlength hstop hstop' hbefore ⊢
  subst hsize hstop hstop'
  by_cases hy : y = []
  · subst hy
    obtain rfl : n' = x.length := hlength
    exact hfactors.search_at_sign hcaptures hv ht ht' o₂ o₂' x.length
  · have hback : x = d ++ y := by
      rw [← List.append_assoc] at hd
      exact List.append_cancel_right hd
    have hlast : ∀ c ∈ y.getLast?, isBlank c = false := fun c hc =>
      hx c (by rw [hback, List.getLast?_append, Option.mem_def.mp hc]; rfl)
    exact hfactors.search_before_sign hcaptures ht ht' hy hlast hbefore hlength

end Product

end Pattern

namespace Replacement

/-- The replacement is for products of these factors. -/
structure ForProduct (r : Replacement) (a b : Pattern) : Prop where
  factors : Factors a b
  consumes : r.pattern.consumes = true
  heads : r.pattern.heads factorly = true
  lasts : r.pattern.lasts (· == .digit) = true
  search_eq : ∀ {β : Type} (p : Place) (test : Match → Option β),
    search r.pattern p test = search (a ++ timesFactor b) p test

section Product

variable {r : Replacement} {a b : Pattern} (hr : r.ForProduct a b) {v t t' : List Char}

include hr

theorem ForProduct.outcome_matchAt (hv : ∀ c ∈ v.head?, isBlank c = false) (ht : TimesThen v t)
    (ht' : TimesThen v t') {x : List Char} (hne : x ≠ [])
    (hx : ∀ c ∈ x.getLast?, isBlank c = false) {o o' : Option Char} (ho : SameKind o o') :
    (r.matchAt ⟨o, x ++ t⟩).map (outcome x.length) =
      (r.matchAt ⟨o', x ++ t'⟩).map (outcome x.length) := by
  have hsearch := hr.factors.search_product hv ht ht' hne hx ho
  rw [matchAt_eq_firstMatch hr.consumes, matchAt_eq_firstMatch hr.consumes, firstMatch_eq_search,
    firstMatch_eq_search, search, search, List.map_findSome?, List.map_findSome?]
  rw [← hr.search_eq, ← hr.search_eq] at hsearch
  exact hsearch

/-- A product ends with a digit. -/
theorem ForProduct.isWordChar_last {z d q : List Char} {m : Match} (h : Found r z d q m) :
    (z ++ d).getLast?.any isWordChar = true := by
  obtain ⟨w, c, rfl⟩ := (List.eq_nil_or_concat d).resolve_left
    (ne_nil_of_consumes hr.consumes h.takes)
  have hword := good_last CharClass.isWordChar_of_digit hr.lasts h.takes c (by simp)
  simpa using hword

/-- A match in one text has one in the other that is replaced by the same: both end in front of the
cut, or the same text is left behind both. -/
theorem ForProduct.exists_found (hv : ∀ c ∈ v.head?, isBlank c = false) (ht : TimesThen v t)
    (ht' : TimesThen v t') {x : List Char} (hne : x ≠ [])
    (hx : ∀ c ∈ x.getLast?, isBlank c = false) {z w : List Char}
    (hz : SameKind z.getLast? w.getLast?) {m : Match}
    (hm : r.matchAt ⟨z.getLast?, x ++ t⟩ = some m) :
    ∃ m' d d' q q', r.fill m' = r.fill m ∧ d ≠ [] ∧ d' ≠ [] ∧ x ++ t = d ++ q ∧ x ++ t' = d' ++ q' ∧
      Found r z d q m ∧ Found r w d' q' m' ∧
      (q = q' ∨ d = d' ∧ ∃ y, x = d ++ y ∧ q = y ++ t ∧ q' = y ++ t') := by
  have hsame := hr.outcome_matchAt hv ht ht' hne hx hz
  rw [hm, Option.map_some, eq_comm, Option.map_eq_some_iff] at hsame
  obtain ⟨m', hm', hsame⟩ := hsame
  obtain ⟨d, q, hsplit, hd, hfound⟩ := Replacement.exists_found hm
  obtain ⟨d', q', hsplit', hd', hfound'⟩ := Replacement.exists_found hm'
  refine ⟨m', d, d', q, q', fill_of_kept (congrArg Prod.snd hsame), hd, hd', hsplit, hsplit', hfound,
    hfound', ?_⟩
  rcases outcome_cases hsame with ⟨hle, hsize⟩ | ⟨-, hstop⟩
  · rw [hfound.size] at hle
    rw [hfound.size, hfound'.size] at hsize
    obtain ⟨y, rfl⟩ : d <+: x :=
      List.prefix_of_prefix_length_le (hsplit ▸ List.prefix_append d q) (List.prefix_append x t) hle
    rw [List.append_assoc] at hsplit hsplit'
    obtain ⟨rfl, rfl⟩ := List.append_inj hsplit' hsize.symm
    exact .inr ⟨rfl, y, rfl, (List.append_cancel_left hsplit).symm, rfl⟩
  · rw [hfound.stop, hfound'.stop] at hstop
    exact .inl hstop.symm

/-- Up to the blanks around the sign the two texts are replaced in the same way, and if a match lies
across them, behind them too. -/
theorem ForProduct.passFrom (hv : ∀ c ∈ v.head?, isBlank c = false) (ht : TimesThen v t)
    (ht' : TimesThen v t') (x : List Char) (hx : ∀ c ∈ x.getLast?, isBlank c = false)
    {z w : List Char} (hz : SameKind z.getLast? w.getLast?) :
    (∃ p, (x = [] → p = []) ∧
      r.passFrom z.getLast? 0 (x ++ t) = p ++ r.passFrom (z ++ x).getLast? 0 t ∧
      r.passFrom w.getLast? 0 (x ++ t') = p ++ r.passFrom (w ++ x).getLast? 0 t') ∨
    r.passFrom z.getLast? 0 (x ++ t) = r.passFrom w.getLast? 0 (x ++ t') := by
  induction hn : x.length using Nat.strong_induction_on generalizing x z w with
  | _ n ih =>
    subst hn
    cases x with
    | nil => exact .inl ⟨[], fun _ => rfl, by simp, by simp⟩
    | cons c x =>
      cases hm : r.matchAt ⟨z.getLast?, (c :: x) ++ t⟩ with
      | none =>
        have hm' := hr.outcome_matchAt hv ht ht' (List.cons_ne_nil c x) hx hz
        rw [hm, Option.map_none, eq_comm, Option.map_eq_none_iff] at hm'
        rw [List.cons_append] at hm hm'
        have hrest := ih x.length (by simp) x (fun d hd => hx d (List.mem_getLast?_cons hd))
          (z := z ++ [c]) (w := w ++ [c]) (by rw [List.getLast?_concat, List.getLast?_concat]; rfl)
          rfl
        rw [List.cons_append, List.cons_append, passFrom_eq_cons hm, passFrom_eq_cons hm']
        rcases hrest with ⟨p, -, hfront, hfront'⟩ | hsame
        · refine .inl ⟨c :: p, nofun, ?_, ?_⟩
          · rw [hfront, List.append_assoc]
            rfl
          · rw [hfront', List.append_assoc]
            rfl
        · exact .inr (congrArg (c :: ·) hsame)
      | some m =>
        obtain ⟨m', d, d', q, q', hfill, hne, hne', hsplit, hsplit', hfound, hfound', hcases⟩ :=
          hr.exists_found hv ht ht' (List.cons_ne_nil c x) hx hz hm
        rw [hsplit, hsplit', hfound.passFrom_eq hne, hfound'.passFrom_eq hne', hfill]
        rcases hcases with rfl | ⟨rfl, y, hy, rfl, rfl⟩
        · exact .inr (congrArg (r.fill m ++ ·) (passFrom_congr
            ((hr.isWordChar_last hfound).trans (hr.isWordChar_last hfound').symm) q))
        · have hlast : ∀ e ∈ y.getLast?, isBlank e = false := fun e he =>
            hx e (by rw [hy, List.getLast?_append, Option.mem_def.mp he]; rfl)
          have hlt : y.length < (c :: x).length := by
            rw [hy, List.length_append]
            have hpos := List.length_pos_of_ne_nil hne
            omega
          have hkind : SameKind (z ++ d).getLast? (w ++ d).getLast? := by
            rw [List.getLast?_append, List.getLast?_append]
            exact hz.or d
          rcases ih y.length hlt y hlast hkind rfl with ⟨p, -, hfront, hfront'⟩ | hsame
          · refine .inl ⟨r.fill m ++ p, nofun, ?_, ?_⟩
            · rw [hfront, hy, List.append_assoc, List.append_assoc]
            · rw [hfront', hy, List.append_assoc, List.append_assoc]
          · exact .inr (congrArg (r.fill m ++ ·) hsame)

/-- The sign and the blanks around it are kept, and what is behind them is replaced by itself. -/
theorem ForProduct.passFrom_timesThen {d e : List Char} (hd : ∀ c ∈ d, isBlank c = true)
    (he : ∀ c ∈ e, isBlank c = true) (v z : List Char) :
    r.passFrom z.getLast? 0 (d ++ '*' :: (e ++ v)) = d ++ '*' :: (e ++ r.pass v) := by
  have hchars : ∀ c ∈ d ++ '*' :: e, isBlank c = true ∨ c = '*' := by
    intro c hc
    rcases List.mem_append.mp hc with hc | hc
    · exact .inl (hd c hc)
    · exact (List.mem_cons.mp hc).symm.imp_left (he c)
  have hidle : r.pattern.Idle (d ++ '*' :: e) v :=
    idle_of_heads good_of_factorly hr.heads (fun c hc => not_good_of_sign (hchars c hc)) v
  have hlast : NoWord (z ++ (d ++ '*' :: e)).getLast? := by
    intro c hc
    rw [List.getLast?_append_of_ne_nil _ (by simp)] at hc
    exact isWordChar_of_sign (hchars c (List.mem_of_mem_getLast? hc))
  have hkept := passFrom_append_of_idle hidle z
  rw [passFrom_congr (z := []) (hlast.sameKind noWord_none) v, List.append_assoc, List.append_assoc]
    at hkept
  exact hkept

end Product

end Replacement

/-- The blanks at the end of a text. -/
theorem Text.exists_append_blanks (s : List Char) :
    ∃ t b, s = t ++ b ∧ (∀ c ∈ b, isBlank c = true) ∧ ∀ c ∈ t.getLast?, isBlank c = false := by
  induction s using List.reverseRecOn with
  | nil => exact ⟨[], [], rfl, nofun, nofun⟩
  | append_singleton s c ih =>
    cases hc : isBlank c with
    | false => exact ⟨s ++ [c], [], by simp, nofun, by simpa using hc⟩
    | true =>
      obtain ⟨t, b, rfl, hb, ht⟩ := ih
      refine ⟨t, b ++ [c], by simp, ?_, ht⟩
      simpa [or_imp, forall_and, hc] using hb

theorem Text.eq_nil_of_blankLast {t : List Char} (hlast : BlankLast t)
    (ht : ∀ c ∈ t.getLast?, isBlank c = false) : t = [] := by
  rw [← List.getLast?_eq_none_iff, Option.eq_none_iff_forall_not_mem]
  intro c hc
  have hno := ht c hc
  rw [hlast c hc] at hno
  cases hno

/-- The blanks at the ends of what stands around the sign can be counted to those around it. -/
theorem Spaced.trimmed {c : Char} {t b b' w s : List Char} (hb : ∀ x ∈ b, isBlank x = true)
    (hb' : ∀ x ∈ b', isBlank x = true) (h : Spaced c (t ++ b) (b' ++ w) s) : Spaced c t w s := by
  obtain ⟨d, e, hd, he, hlast, hhead, rfl⟩ := h
  refine ⟨b ++ d, e ++ b', List.forall_mem_append.mpr ⟨hb, hd⟩, List.forall_mem_append.mpr ⟨he, hb'⟩,
    ?_, ?_, ?_⟩
  · rwa [← List.append_assoc]
  · rwa [List.append_assoc]
  · simp only [List.append_assoc]

/-- What becomes of texts that differ in the blanks around a multiplication sign differs in them at
most, if products are replaced. -/
theorem Stretched.pass_of_product {r : Replacement} {a b : Pattern} (hr : r.ForProduct a b)
    (hheads : r.pattern.heads CharClass.nonblank = true) {s s' : List Char}
    (h : Stretched '*' s s') : Stretched '*' (r.pass s) (r.pass s') := by
  rcases h with rfl | ⟨u, v, h, h'⟩
  · exact .inl rfl
  obtain ⟨t, i, rfl, hi, ht⟩ := exists_append_blanks u
  have hv := Text.not_isBlank_head_dropWhile v
  have hj : ∀ c ∈ v.takeWhile isBlank, isBlank c = true := fun c hc =>
    List.all_eq_true.mp List.all_takeWhile c hc
  rw [← List.takeWhile_append_dropWhile (p := isBlank) (l := v)] at h h'
  obtain ⟨d, e, hd, he, hlast, hhead, rfl⟩ := h.trimmed hi hj
  obtain ⟨d', e', hd', he', hlast', hhead', rfl⟩ := h'.trimmed hi hj
  generalize v.dropWhile isBlank = w at hv hhead hhead' ⊢
  have hspaced {p d e : List Char} (hp : t = [] → p = []) (hd : ∀ c ∈ d, isBlank c = true)
      (he : ∀ c ∈ e, isBlank c = true) (hlast : BlankLast (t ++ d)) (hhead : BlankHead (e ++ w)) :
      Spaced '*' p (r.pass w) (p ++ (d ++ '*' :: (e ++ r.pass w))) := by
    refine ⟨d, e, hd, he, .append_blanks hd ?_, ?_, by simp⟩
    · refine or_iff_not_imp_right.mpr fun hnil => ?_
      rw [not_not.mp hnil, List.append_nil] at hlast
      rw [hp (eq_nil_of_blankLast hlast ht)]
      exact nofun
    · rw [← Replacement.pass_blanks_append hheads he]
      exact Replacement.blankHead_pass hheads hhead
  have hboth := hr.passFrom hv ⟨d, e, hd, he, rfl⟩ ⟨d', e', hd', he', rfl⟩ t ht (z := [])
    (w := []) rfl
  rw [hr.passFrom_timesThen hd he, hr.passFrom_timesThen hd' he'] at hboth
  rw [List.append_assoc, List.append_assoc]
  rcases hboth with ⟨p, hp, hfront, hfront'⟩ | hsame
  · refine .inr ⟨p, r.pass w, ?_, ?_⟩
    · have hspaced := hspaced hp hd he hlast hhead
      rwa [← hfront] at hspaced
    · have hspaced := hspaced hp hd' he' hlast' hhead'
      rwa [← hfront'] at hspaced
  · exact .inl hsame

end Reckon
