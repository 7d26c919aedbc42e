/-
Texts cut in two.

What a pattern finds at a place depends on the text up to where its matches end, and beyond that only
on whether a word character follows there; of what stands in front it matters only whether it is a
word character. So where no match lies across a cut, a replacement works on both sides of the cut by
itself.

* `Alike`, `search_local` : a search in two texts that go on in different ways.
* `Pattern.Clear` : no text of a pattern lies across a cut.
* `passFrom_append_of_clear` : a replacement on both sides of a cut.
* `Pattern.Idle`, `passFrom_append_of_idle` : stretches in which no match begins.
-/
import Reckon.Proofs.WordEnds

namespace Reckon

open Text

/-! ### Word characters in front and behind -/

namespace Text

/-- The two characters are word characters, or neither is. -/
def SameKind (o o' : Option Char) : Prop :=
  o.any isWordChar = o'.any isWordChar

theorem noWord_none : NoWord none :=
  nofun

theorem noWord_iff {o : Option Char} : NoWord o ↔ o.any isWordChar = false := by
  cases o with
  | none => simp [NoWord]
  | some c => simp [NoWord]

theorem NoWord.sameKind {o o' : Option Char} (h : NoWord o) (h' : NoWord o') : SameKind o o' :=
  (noWord_iff.mp h).trans (noWord_iff.mp h').symm

theorem SameKind.or {o o' : Option Char} (h : SameKind o o') (x : List Char) :
    SameKind (x.getLast?.or o) (x.getLast?.or o') := by
  cases x.getLast? with
  | none => exact h
  | some c => rfl

theorem isBoundary_congr {o o' e e' : Option Char} (ho : SameKind o o') (he : SameKind e e') :
    isBoundary o e = isBoundary o' e' := by
  rw [isBoundary, isBoundary, ho, he]

end Text

namespace Pattern

variable {β : Type}

/-! ### Searches in two texts -/

/-- Two matches take the same part of `z` and keep the same, in texts in which `z` is followed by `D`
and by `D'`. -/
structure Alike (z D D' : List Char) (m m' : Match) : Prop where
  size : m'.size = m.size
  captures : m'.captures.map Stretch.chars = m.captures.map Stretch.chars
  stop : ∃ t, m.size + t.length = z.length ∧ m.stop.after = t ++ D ∧ m'.stop.after = t ++ D'
  before : SameKind m.stop.before m'.stop.before

section Alike

variable {z D D' : List Char} {m m' : Match}

/-- Two matches that take `x` and keep nothing. -/
theorem alike_of_taken {o o' : Option Char} (ho : SameKind o o') (x z D D' : List Char) :
    Alike (x ++ z) D D' ⟨⟨o, z ++ D⟩, x.length, []⟩ ⟨⟨o', z ++ D'⟩, x.length, []⟩ :=
  ⟨rfl, rfl, ⟨z, List.length_append.symm, rfl, rfl⟩, ho⟩

theorem Alike.size_le (h : Alike z D D' m m') : m.size ≤ z.length := by
  obtain ⟨t, hlength, -, -⟩ := h.stop
  omega

/-- What a second match takes is taken behind the first one. -/
theorem Alike.append {t : List Char} {m₂ m₂' : Match} (h : Alike z D D' m m')
    (ht : m.size + t.length = z.length) (h₂ : Alike t D D' m₂ m₂') :
    Alike z D D' ⟨m₂.stop, m.size + m₂.size, m.captures ++ m₂.captures⟩
      ⟨m₂'.stop, m'.size + m₂'.size, m'.captures ++ m₂'.captures⟩ := by
  obtain ⟨t₂, hlength₂, hstop₂, hstop₂'⟩ := h₂.stop
  refine ⟨?_, ?_, ⟨t₂, ?_, hstop₂, hstop₂'⟩, h₂.before⟩
  · show m'.size + m₂'.size = m.size + m₂.size
    rw [h.size, h₂.size]
  · show (m'.captures ++ m₂'.captures).map _ = (m.captures ++ m₂.captures).map _
    rw [List.map_append, List.map_append, h.captures, h₂.captures]
  · show m.size + m₂.size + t₂.length = z.length
    omega

/-- What is kept of a match lies within the part that is taken. -/
theorem Alike.capture (h : Alike z D D' m m') :
    Alike z D D' { m with captures := ⟨z ++ D, m.size⟩ :: m.captures }
      { m' with captures := ⟨z ++ D', m'.size⟩ :: m'.captures } := by
  refine ⟨h.size, ?_, h.stop, h.before⟩
  show List.take m'.size (z ++ D') :: _ = List.take m.size (z ++ D) :: _
  rw [h.size, List.take_append_of_le_length h.size_le, List.take_append_of_le_length h.size_le]
  exact congrArg _ h.captures

end Alike

theorem mem_manyMatches_of_mem {k : CharClass} {before : Option Char} {n : ℕ}
    {shorter : List Match} {s : List Char} {m : Match} (h : m ∈ shorter) :
    m ∈ manyMatches k before n shorter s :=
  mem_manyMatches.mpr (.inl h)

/-- The longer matches of a repetition come before those that have been found. -/
theorem manyMatches_eq_append (k : CharClass) (before : Option Char) (n : ℕ) (shorter : List Match)
    (s : List Char) : ∃ longer, manyMatches k before n shorter s =
      longer ++ ⟨⟨before, s⟩, n, []⟩ :: shorter ∧ ∀ m ∈ longer, n < m.size := by
  induction s generalizing before n shorter with
  | nil => exact ⟨[], rfl, nofun⟩
  | cons c s ih =>
    rw [manyMatches]
    split
    · obtain ⟨longer, heq, hlonger⟩ := ih (some c) (n + 1) (⟨⟨before, c :: s⟩, n, []⟩ :: shorter)
      refine ⟨longer ++ [⟨⟨some c, s⟩, n + 1, []⟩], by rw [heq, List.append_assoc]; rfl, ?_⟩
      intro m hm
      rcases List.mem_append.mp hm with hm | hm
      · exact (Nat.lt_succ_self n).trans (hlonger m hm)
      · rw [List.mem_singleton.mp hm]
        exact Nat.lt_succ_self n
    · exact ⟨[], rfl, nofun⟩

/-- Two tests say the same of matches that take the same part of `z`, and refuse matches that go on
behind it. -/
structure Agree (z D D' : List Char) (l l' : List Match) (f g : Match → Option β) : Prop where
  far : ∀ m ∈ l, z.length < m.size → f m = none
  far' : ∀ m ∈ l', z.length < m.size → g m = none
  near : ∀ m ∈ l, ∀ m' ∈ l', Alike z D D' m m' → f m = g m'

theorem Agree.mono {z D D' : List Char} {l l' k k' : List Match} {f g : Match → Option β}
    (h : Agree z D D' l l' f g) (hl : ∀ m ∈ k, m ∈ l) (hl' : ∀ m ∈ k', m ∈ l') :
    Agree z D D' k k' f g :=
  ⟨fun m hm => h.far m (hl m hm), fun m hm => h.far' m (hl' m hm),
    fun m hm m' hm' => h.near m (hl m hm) m' (hl' m' hm')⟩

/-- A match of a sequence is a match of its first part and one of the second part behind it. -/
theorem mem_allMatches_seq {a b : Pattern} {p : Place} {m m' : Match} (hm : m ∈ allMatches a p)
    (hm' : m' ∈ allMatches b m.stop) :
    (⟨m'.stop, m.size + m'.size, m.captures ++ m'.captures⟩ : Match) ∈ allMatches (seq a b) p :=
  List.mem_flatMap.mpr ⟨m, hm, List.mem_map_of_mem hm'⟩

/-- A single character is looked for in vain where no match that takes one passes the test. -/
theorem search_one_of_far {k : CharClass} {p : Place} {f : Match → Option β}
    (h : ∀ m ∈ allMatches (one k) p, 0 < m.size → f m = none) : search (one k) p f = none := by
  refine List.findSome?_eq_none_iff.mpr fun m hm => h m hm ?_
  obtain ⟨x, -, hsize, -, htakes⟩ := exists_takes hm
  rw [hsize]
  exact List.length_pos_of_ne_nil (ne_nil_of_consumes rfl htakes)

section Local

variable {D D' : List Char}

/-- Tests for a sequence agree on its second part behind two first parts that are alike. -/
theorem Agree.second {z t : List Char} {a b : Pattern} {p p' : Place} {f g : Match → Option β}
    (h : Agree z D D' (allMatches (seq a b) p) (allMatches (seq a b) p') f g) {m m' : Match}
    (hm : m ∈ allMatches a p) (hm' : m' ∈ allMatches a p') (halike : Alike z D D' m m')
    (ht : m.size + t.length = z.length) :
    Agree t D D' (allMatches b m.stop) (allMatches b m'.stop)
      (fun m₂ => f ⟨m₂.stop, m.size + m₂.size, m.captures ++ m₂.captures⟩)
      (fun m₂ => g ⟨m₂.stop, m'.size + m₂.size, m'.captures ++ m₂.captures⟩) := by
  have hsize := halike.size
  refine ⟨fun m₂ hm₂ hlt => h.far _ (mem_allMatches_seq hm hm₂) ?_,
    fun m₂ hm₂ hlt => h.far' _ (mem_allMatches_seq hm' hm₂) ?_, fun m₂ hm₂ m₂' hm₂' halike₂ => ?_⟩
  · show z.length < m.size + m₂.size
    omega
  · show z.length < m'.size + m₂.size
    omega
  · exact h.near _ (mem_allMatches_seq hm hm₂) _ (mem_allMatches_seq hm' hm₂')
      (halike.append ht halike₂)

/-- Tests for what is kept of a pattern agree on the pattern. -/
theorem Agree.inner {z : List Char} {a : Pattern} {o o' : Option Char} {f g : Match → Option β}
    (h : Agree z D D' (allMatches (capture a) ⟨o, z ++ D⟩) (allMatches (capture a) ⟨o', z ++ D'⟩)
      f g) :
    Agree z D D' (allMatches a ⟨o, z ++ D⟩) (allMatches a ⟨o', z ++ D'⟩)
      (fun m => f { m with captures := ⟨z ++ D, m.size⟩ :: m.captures })
      (fun m => g { m with captures := ⟨z ++ D', m.size⟩ :: m.captures }) :=
  ⟨fun _ hm hlt => h.far _ (List.mem_map_of_mem hm) hlt,
    fun _ hm hlt => h.far' _ (List.mem_map_of_mem hm) hlt,
    fun _ hm _ hm' halike =>
      h.near _ (List.mem_map_of_mem hm) _ (List.mem_map_of_mem hm') halike.capture⟩

theorem findSome?_manyMatches_local (k : CharClass) {o o' : Option Char} (ho : SameKind o o')
    (x z : List Char) {shorter shorter' : List Match} {f g : Match → Option β}
    (hshorter : shorter.findSome? f = shorter'.findSome? g)
    (h : Agree (x ++ z) D D' (manyMatches k o x.length shorter (z ++ D))
      (manyMatches k o' x.length shorter' (z ++ D')) f g) :
    (manyMatches k o x.length shorter (z ++ D)).findSome? f =
      (manyMatches k o' x.length shorter' (z ++ D')).findSome? g := by
  induction z generalizing o o' x shorter shorter' with
  | nil =>
    obtain ⟨longer, heq, hlonger⟩ := manyMatches_eq_append k o x.length shorter D
    obtain ⟨longer', heq', hlonger'⟩ := manyMatches_eq_append k o' x.length shorter' D'
    simp only [List.nil_append, List.append_nil, heq, heq'] at h ⊢
    -- what goes on into the rest of the text is tried in vain
    have hnone : longer.findSome? f = none := List.findSome?_eq_none_iff.mpr fun m hm =>
      h.far m (List.mem_append_left _ hm) (hlonger m hm)
    have hnone' : longer'.findSome? g = none := List.findSome?_eq_none_iff.mpr fun m hm =>
      h.far' m (List.mem_append_left _ hm) (hlonger' m hm)
    have hsame : f ⟨⟨o, D⟩, x.length, []⟩ = g ⟨⟨o', D'⟩, x.length, []⟩ :=
      h.near _ (List.mem_append_right _ (.head _)) _ (List.mem_append_right _ (.head _))
        (by simpa using alike_of_taken ho x [] D D')
    rw [List.findSome?_append, List.findSome?_append, hnone, hnone', Option.none_or, Option.none_or,
      List.findSome?_cons, List.findSome?_cons, hsame, hshorter]
  | cons c z ih =>
    have hhere : Alike (x ++ c :: z) D D' ⟨⟨o, c :: (z ++ D)⟩, x.length, []⟩
        ⟨⟨o', c :: (z ++ D')⟩, x.length, []⟩ :=
      alike_of_taken ho x (c :: z) D D'
    simp only [List.cons_append, manyMatches] at h ⊢
    by_cases hc : k.holds c = true
    · simp only [if_pos hc] at h ⊢
      have hsame := h.near _ (mem_manyMatches_of_mem (.head _)) _
        (mem_manyMatches_of_mem (.head _)) hhere
      have hlength : x.length + 1 = (x ++ [c]).length := by simp
      rw [List.append_cons, hlength] at h
      rw [hlength]
      refine ih rfl (x ++ [c]) ?_ h
      rw [List.findSome?_cons, List.findSome?_cons, hsame, hshorter]
    · simp only [if_neg hc] at h ⊢
      have hsame := h.near _ (.head _) _ (.head _) hhere
      rw [List.findSome?_cons, List.findSome?_cons, hsame, hshorter]

/-- A search does not tell apart two texts that go on in different ways behind `z`, if its tests do
not. -/
theorem search_local (hD : SameKind D.head? D'.head?) (a : Pattern) {o o' : Option Char}
    (ho : SameKind o o') (z : List Char) {f g : Match → Option β}
    (h : Agree z D D' (allMatches a ⟨o, z ++ D⟩) (allMatches a ⟨o', z ++ D'⟩) f g) :
    search a ⟨o, z ++ D⟩ f = search a ⟨o', z ++ D'⟩ g := by
  induction a generalizing o o' z f g with
  | empty =>
    rw [search_empty, search_empty]
    exact h.near _ (.head _) _ (.head _) (alike_of_taken ho [] z D D')
  | one k =>
    cases z with
    | nil => exact (search_one_of_far h.far).trans (search_one_of_far h.far').symm
    | cons c z =>
      by_cases hc : k.holds c = true
      · rw [List.cons_append, List.cons_append, search_one_of_holds hc, search_one_of_holds hc]
        refine h.near _ ?_ _ ?_ (alike_of_taken rfl [c] z D D') <;> simp [allMatches, hc]
      · rw [search_one_of_not_holds (by simpa using hc), search_one_of_not_holds (by simpa using hc)]
  | many k => exact findSome?_manyMatches_local k ho [] z rfl h
  | boundary =>
    have hhead : SameKind (z ++ D).head? (z ++ D').head? := by
      cases z with
      | nil => exact hD
      | cons c z => rfl
    have hsame := isBoundary_congr ho hhead
    rw [search, search]
    simp only [allMatches, hsame] at h ⊢
    split
    · next hboundary =>
      simp only [hboundary, if_true] at h
      have htest := h.near _ (.head _) _ (.head _) (alike_of_taken ho [] z D D')
      rw [List.findSome?_singleton, List.findSome?_singleton, htest]
    · rfl
  | seq a b iha ihb =>
    refine (search_append a b _ f).trans (Eq.trans ?_ (search_append a b _ g).symm)
    refine iha ho z ⟨fun m hm hlt => ?_, fun m hm hlt => ?_, fun m hm m' hm' halike => ?_⟩
    · refine List.findSome?_eq_none_iff.mpr fun m₂ hm₂ => h.far _ (mem_allMatches_seq hm hm₂) ?_
      exact hlt.trans_le (Nat.le_add_right ..)
    · refine List.findSome?_eq_none_iff.mpr fun m₂ hm₂ => h.far' _ (mem_allMatches_seq hm hm₂) ?_
      exact hlt.trans_le (Nat.le_add_right ..)
    · -- the second part is searched for behind what the first one takes
      obtain ⟨t, hlength, hstop, hstop'⟩ := halike.stop
      have hagree := h.second hm hm' halike hlength
      obtain ⟨⟨o₂, s⟩, n, ks⟩ := m
      obtain ⟨⟨o₂', s'⟩, n', ks'⟩ := m'
      dsimp only at hstop hstop'
      subst hstop hstop'
      exact ihb halike.before t hagree
  | either a b iha ihb =>
    rw [search_either, search_either]
    rw [iha ho z (h.mono (fun m hm => List.mem_append_left _ hm)
        (fun m hm => List.mem_append_left _ hm)),
      ihb ho z (h.mono (fun m hm => List.mem_append_right _ hm)
        (fun m hm => List.mem_append_right _ hm))]
  | capture a ih =>
    rw [search_capture, search_capture]
    exact ih ho z h.inner

end Local

/-! ### Cuts -/

/-- No text of the pattern begins in `x` and goes on into `t`. -/
def Clear (a : Pattern) (x t : List Char) : Prop :=
  ∀ u d₁ d₂ ks q, x = u ++ d₁ → d₁ ≠ [] → d₂ ≠ [] → a.Takes (d₁ ++ d₂) ks → t ≠ d₂ ++ q

theorem clear_nil (a : Pattern) (x : List Char) : Clear a x [] :=
  fun _ _ _ _ _ _ _ hne _ hnil => hne (List.append_eq_nil_iff.mp hnil.symm).1

theorem Clear.of_append {a : Pattern} {x v t : List Char} (h : Clear a (x ++ v) t) : Clear a v t :=
  fun u d₁ d₂ ks q hv => h (x ++ u) d₁ d₂ ks q (by rw [hv, List.append_assoc])

theorem Clear.size_le {a : Pattern} {v t : List Char} (h : Clear a v t) (hv : v ≠ [])
    {o : Option Char} {m : Match} (hm : m ∈ allMatches a ⟨o, v ++ t⟩) : m.size ≤ v.length := by
  obtain ⟨d, hd, hsize, -, htakes⟩ := exists_takes hm
  by_contra hlt
  rcases List.append_eq_append_iff.mp hd with ⟨d₂, rfl, ht⟩ | ⟨v₂, rfl, -⟩
  · have hne : d₂ ≠ [] := by
      rintro rfl
      rw [List.append_nil] at hsize
      omega
    exact h [] v d₂ _ _ rfl hv hne htakes ht
  · rw [List.length_append] at hlt
    omega

/-- What a match takes and what it keeps. -/
def taken (m : Match) : ℕ × List (List Char) :=
  (m.size, m.captures.map Stretch.chars)

/-- The preferred match of a stretch is the same in two texts that go on in different ways, if no
text of the pattern lies across where they do. -/
theorem taken_firstMatch {a : Pattern} {o o' : Option Char} {v t t' : List Char}
    (ho : SameKind o o') (ht : SameKind t.head? t'.head?) (hv : v ≠ []) (hclear : Clear a v t)
    (hclear' : Clear a v t') :
    (firstMatch a ⟨o, v ++ t⟩).map taken = (firstMatch a ⟨o', v ++ t'⟩).map taken := by
  rw [firstMatch_eq_search, firstMatch_eq_search, search, search, List.map_findSome?,
    List.map_findSome?]
  refine search_local ht a ho v ⟨fun m hm hlt => ?_, fun m hm hlt => ?_, fun m _ m' _ halike => ?_⟩
  · exact absurd (hclear.size_le hv hm) (Nat.not_le.mpr hlt)
  · exact absurd (hclear'.size_le hv hm) (Nat.not_le.mpr hlt)
  · show some (taken m) = some (taken m')
    rw [taken, taken, halike.size, halike.captures]

end Pattern

namespace Replacement

variable {r : Replacement}

/-- Where every text of the pattern has a character, the preferred match is the one that is
replaced. -/
theorem matchAt_eq_firstMatch (hr : r.pattern.consumes = true) (p : Place) :
    r.matchAt p = r.pattern.firstMatch p := by
  rw [matchAt]
  cases hm : r.pattern.firstMatch p with
  | none => rfl
  | some m =>
    obtain ⟨d, -, hsize, -, htakes⟩ := Pattern.exists_takes (List.mem_of_mem_head? hm)
    have hpos : 0 < m.size := by
      rw [hsize]
      exact List.length_pos_of_ne_nil (Pattern.ne_nil_of_consumes hr htakes)
    rw [Option.filter_some, if_pos (by simpa using hpos)]

theorem fill_of_kept {m m' : Match}
    (h : m'.captures.map Stretch.chars = m.captures.map Stretch.chars) : r.fill m' = r.fill m := by
  rw [fill_eq, fill_eq, h]

theorem taken_matchAt {o o' : Option Char} {v t t' : List Char} (ho : SameKind o o')
    (ht : SameKind t.head? t'.head?) (hv : v ≠ []) (hclear : r.pattern.Clear v t)
    (hclear' : r.pattern.Clear v t') :
    (r.matchAt ⟨o, v ++ t⟩).map Pattern.taken = (r.matchAt ⟨o', v ++ t'⟩).map Pattern.taken := by
  have hfilter (p : Place) : (r.matchAt p).map Pattern.taken =
      ((r.pattern.firstMatch p).map Pattern.taken).filter fun x => 0 < x.1 := by
    rw [matchAt]
    cases r.pattern.firstMatch p with
    | none => rfl
    | some m => by_cases h : 0 < m.size <;> simp [Option.filter, Pattern.taken, h]
  rw [hfilter, hfilter, Pattern.taken_firstMatch ho ht hv hclear hclear']

theorem found_of_size {z d t : List Char} {m : Match} (h : r.matchAt ⟨z.getLast?, d ++ t⟩ = some m)
    (hsize : m.size = d.length) : Found r z d t m := by
  obtain ⟨d', t', hsplit, -, hfound⟩ := exists_found h
  obtain ⟨rfl, rfl⟩ := List.append_inj hsplit (hsize.symm.trans hfound.size)
  exact hfound

/-- A match that does not reach the end of a stretch is there as well when the text goes on in
another way. -/
theorem Found.transfer {z z' d s t t' : List Char} {m : Match} (h : Found r z d (s ++ t) m)
    (hz : SameKind z'.getLast? z.getLast?) (ht : SameKind t'.head? t.head?) (hne : d ≠ [])
    (hclear : r.pattern.Clear (d ++ s) t) (hclear' : r.pattern.Clear (d ++ s) t') :
    ∃ m', Found r z' d (s ++ t') m' ∧ r.fill m' = r.fill m := by
  have hsame := taken_matchAt hz ht (List.append_ne_nil_of_left_ne_nil hne s) hclear' hclear
  rw [List.append_assoc, List.append_assoc, h.matchAt, Option.map_some,
    Option.map_eq_some_iff] at hsame
  obtain ⟨m', hm', htaken⟩ := hsame
  have hsize : m'.size = d.length := (congrArg Prod.fst htaken).trans h.size
  exact ⟨m', found_of_size hm' hsize, fill_of_kept (congrArg Prod.snd htaken)⟩

/-- Where no match lies across a cut, both sides are replaced by themselves. What stands in front may
be another text, if it ends in the same way. -/
theorem passFrom_append_of_clear {z w x t : List Char} (hz : SameKind w.getLast? z.getLast?)
    (ht : NoWord t.head?) (hclear : r.pattern.Clear x t) :
    r.passFrom w.getLast? 0 (x ++ t) =
      r.passFrom z.getLast? 0 x ++ r.passFrom (w ++ x).getLast? 0 t := by
  have hend : SameKind t.head? ([] : List Char).head? := ht.sameKind noWord_none
  induction z, x using search_induction (r := r) generalizing w with
  | hnil z => rw [List.append_nil]; rfl
  | @hskip z c s hnone ih =>
    have hnone' : r.matchAt ⟨w.getLast?, c :: (s ++ t)⟩ = none := by
      have hsame := taken_matchAt hz hend (List.cons_ne_nil c s) hclear (r.pattern.clear_nil _)
      rw [List.append_nil, hnone] at hsame
      exact Option.map_eq_none_iff.mp hsame
    have hrest := ih (w := w ++ [c]) (by rw [List.getLast?_concat, List.getLast?_concat]; rfl)
      (hclear.of_append (x := [c]))
    rw [List.cons_append, passFrom_eq_cons hnone', passFrom_eq_cons hnone, hrest, List.append_assoc]
    rfl
  | @hfound z d s m hne hm ih =>
    obtain ⟨m', hm', hfill⟩ := Found.transfer (t := []) (by rwa [List.append_nil]) hz hend hne
      (r.pattern.clear_nil _) hclear
    have hkind : SameKind (w ++ d).getLast? (z ++ d).getLast? := by
      rw [List.getLast?_append, List.getLast?_append]
      exact hz.or d
    rw [List.append_assoc, hm'.passFrom_eq hne, hm.passFrom_eq hne, hfill,
      ih hkind hclear.of_append, List.append_assoc, List.append_assoc]

/-- Of what stands in front of a text it matters only how it ends. -/
theorem passFrom_congr {z w : List Char} (hz : SameKind w.getLast? z.getLast?) (x : List Char) :
    r.passFrom w.getLast? 0 x = r.passFrom z.getLast? 0 x := by
  have hcut := passFrom_append_of_clear (r := r) (t := []) hz noWord_none (r.pattern.clear_nil x)
  rwa [List.append_nil, passFrom, List.append_nil] at hcut

end Replacement

/-! ### Stretches in which no match begins -/

namespace Pattern

/-- No text of the pattern that has characters begins in `x`, where `t` follows. -/
def Idle (a : Pattern) (x t : List Char) : Prop :=
  ∀ u v d ks q, x = u ++ v → v ≠ [] → a.Takes d ks → d ≠ [] → v ++ t ≠ d ++ q

section Ends

variable {f : CharClass → Bool} {good : Char → Prop}
  (hf : ∀ k c, f k = true → k.holds c = true → good c) {a : Pattern}

include hf

/-- No match begins in characters that the pattern does not begin with. -/
theorem idle_of_heads (ha : a.heads f = true) {x : List Char} (hx : ∀ c ∈ x, ¬ good c)
    (t : List Char) : Idle a x t := by
  rintro u v d ks q rfl hv htakes hne heq
  obtain ⟨c, v, rfl⟩ := List.exists_cons_of_ne_nil hv
  obtain ⟨e, d, rfl⟩ := List.exists_cons_of_ne_nil hne
  obtain rfl : c = e := (List.cons_eq_cons.mp heq).1
  exact hx c (by simp) (good_head hf ha htakes c rfl)

/-- No text of the pattern goes on into characters that it does not end with. -/
theorem clear_of_lasts (ha : a.lasts f = true) {t : List Char} (ht : ∀ c ∈ t, ¬ good c)
    (x : List Char) : Clear a x t := by
  rintro u d₁ d₂ ks q - - hne htakes rfl
  obtain ⟨d₂, c, rfl⟩ := (List.eq_nil_or_concat d₂).resolve_left hne
  exact ht c (by simp) (good_last hf ha htakes c (by simp))

end Ends

end Pattern

namespace Replacement

variable {r : Replacement}

/-- Where no match begins, the characters are kept. -/
theorem passFrom_append_of_idle {x t : List Char} (h : r.pattern.Idle x t) (z : List Char) :
    r.passFrom z.getLast? 0 (x ++ t) = x ++ r.passFrom (z ++ x).getLast? 0 t := by
  induction x generalizing z with
  | nil => rw [List.append_nil]; rfl
  | cons c x ih =>
    have hnone : r.matchAt ⟨z.getLast?, c :: (x ++ t)⟩ = none := by
      cases hm : r.matchAt ⟨z.getLast?, c :: (x ++ t)⟩ with
      | none => rfl
      | some m =>
        obtain ⟨d, q, hsplit, hne, hfound⟩ := exists_found hm
        exact absurd hsplit (h [] (c :: x) d _ q rfl (List.cons_ne_nil c x) hfound.takes hne)
    rw [List.cons_append, passFrom_eq_cons hnone, ih fun u v d ks q hx => h (c :: u) v d ks q (by
      rw [hx, List.cons_append]), List.append_assoc]
    rfl

/-- A text in which no match begins is kept. -/
theorem passFrom_of_idle {x : List Char} (h : r.pattern.Idle x []) (z : List Char) :
    r.passFrom z.getLast? 0 x = x := by
  have hkept := passFrom_append_of_idle h z
  rwa [List.append_nil, passFrom, List.append_nil] at hkept

end Replacement

end Reckon
