/-
Words that stand alone.

A word with blanks around it, or an end of the text, is passed over by a replacement if no text of the
pattern lies across one of its ends or begins in it. This is told from the pattern: from its texts, if
there are finitely many, or from the characters that it can take. Then what stands in front of the
word and what stands behind it are replaced by themselves.

* `pass_append_of_blankLast`, `pass_around` : a text with a word in it that is passed over.
* `blocked` : a text that cannot begin where a word stands.
* `texts?`, `clear_of_texts`, `idle_of_texts` : patterns of finitely many texts.
* `every`, `clear_of_every` : patterns without the first character of a word.
* `passesOver` : either of these.
* `splits`, `tight`, `clear_of_tight`, `idle_of_tight` : patterns in which a character is followed by
  another one than a blank.
-/
import Reckon.Proofs.BlankEnds

namespace Reckon

open Text

/-! ### A word in a text -/

namespace Replacement

variable {r : Replacement} {x t : List Char}

/-- Behind a blank, and at the beginning, a text is replaced by itself if no match lies across. -/
theorem pass_append_of_blankLast (hheads : r.pattern.heads CharClass.nonblank = true)
    (hside : NoWord t.head? ∨ r.pattern.lasts CharClass.nonblank = true) (hx : BlankLast x)
    (hclear : r.pattern.Clear x t) :
    r.pass (x ++ t) = r.pass x ++ r.passFrom x.getLast? 0 t := by
  rcases hside with hword | hlasts
  · exact passFrom_append_of_clear (z := []) (w := []) rfl hword hclear
  rcases List.eq_nil_or_concat x with rfl | ⟨x, c, rfl⟩
  · rfl
  rw [List.concat_eq_append] at hx hclear ⊢
  have hc : ∀ d ∈ [c], isBlank d = true := by simpa using hx c (by simp)
  -- a match that lies across the blank would end with it or lie across what is behind it
  have hbefore : r.pattern.Clear x ([c] ++ t) := by
    rintro u d₁ d₂ ks q rfl hne₁ hne₂ htakes heq
    obtain ⟨e, d₂, rfl⟩ := List.exists_cons_of_ne_nil hne₂
    obtain ⟨rfl, ht⟩ := List.cons_eq_cons.mp heq
    by_cases hnil : d₂ = []
    · subst hnil
      have hlast := Pattern.good_last CharClass.not_isBlank_of_nonblank hlasts htakes c (by simp)
      rw [hc c (by simp)] at hlast
      cases hlast
    · refine hclear u (d₁ ++ [c]) d₂ ks q ?_ (by simp) hnil ?_ ht
      · rw [List.append_assoc]
      · rwa [List.append_assoc]
  have hcut := passFrom_append_of_clear (z := []) (w := []) (t := [c] ++ t) rfl
    (blankHead_of_blanks hc).noWord hbefore
  have hkept := passFrom_append_of_idle (idle_blanks hheads hc t) ([] ++ x)
  rw [hkept, ← List.append_assoc, ← List.append_assoc] at hcut
  rw [pass_append_blanks hheads hlasts x hc]
  exact hcut

/-- A word that is passed over stays where it is, and the texts on both sides of it are replaced by
themselves. -/
theorem pass_around {m y : List Char} (hheads : r.pattern.heads CharClass.nonblank = true)
    (hside : NoWord (m ++ y).head? ∨ r.pattern.lasts CharClass.nonblank = true)
    (hx : BlankLast x) (hy : BlankHead y) (hclear : r.pattern.Clear x (m ++ y))
    (hidle : r.pattern.Idle m y) : r.pass (x ++ (m ++ y)) = r.pass x ++ (m ++ r.pass y) := by
  rw [pass_append_of_blankLast hheads hside hx hclear, passFrom_append_of_idle hidle,
    passFrom_of_blankHead hheads _ hy]

end Replacement

namespace Pattern

variable {a : Pattern} {x y : List Char}

/-! ### Patterns of finitely many texts -/

/-- The text `p` cannot begin where `m` stands with a blank behind it or nothing. -/
def blocked (p m : List Char) : Bool :=
  !p.isPrefixOf m && (!m.isPrefixOf p || (p.drop m.length).head?.any fun c => !isBlank c)

theorem ne_append_of_blocked {p m : List Char} (h : blocked p m = true) (hy : BlankHead y)
    (q : List Char) : m ++ y ≠ p ++ q := by
  rw [blocked, Bool.and_eq_true, Bool.not_eq_true', Bool.or_eq_true, Bool.not_eq_true',
    ← Bool.not_eq_true, ← Bool.not_eq_true, List.isPrefixOf_iff_prefix,
    List.isPrefixOf_iff_prefix] at h
  obtain ⟨hshort, hlong⟩ := h
  intro heq
  rcases List.append_eq_append_iff.mp heq with ⟨d, rfl, rfl⟩ | ⟨d, rfl, -⟩
  · -- what the text has more than the word would begin with the blank
    have hnonblank := hlong.resolve_left (not_not_intro (List.prefix_append m d))
    rw [List.drop_left] at hnonblank
    cases d with
    | nil => cases hnonblank
    | cons c d =>
      have hc : isBlank c = false := by simpa using hnonblank
      rw [hy c rfl] at hc
      cases hc
  · exact hshort (List.prefix_append p d)

/-- The texts of a pattern, if it has finitely many and keeps nothing. -/
def texts? : Pattern → Option (List (List Char))
  | empty => some [[]]
  | one (.only c) => some [[c]]
  | boundary => some [[]]
  | seq a b => do
    let xs ← texts? a
    let ys ← texts? b
    return xs.flatMap fun x => ys.map (x ++ ·)
  | either a b => do
    let xs ← texts? a
    let ys ← texts? b
    return xs ++ ys
  | _ => none

theorem mem_of_texts? {L : List (List Char)} (hL : a.texts? = some L) {d : List Char}
    {ks : List (List Char)} (h : Takes a d ks) : d ∈ L := by
  induction a generalizing L d ks with
  | empty | boundary =>
    cases hL
    exact List.mem_singleton.mpr h.1
  | one k =>
    cases k with
    | only c =>
      cases hL
      obtain ⟨⟨e, he, rfl⟩, -⟩ := h
      rw [show e = c from beq_iff_eq.mp he]
      exact List.mem_singleton.mpr rfl
    | oneOf | digit | blank => cases hL
  | many | capture => cases hL
  | seq a b iha ihb =>
    obtain ⟨xs, hxs, hL⟩ := Option.bind_eq_some_iff.mp hL
    obtain ⟨ys, hys, hL⟩ := Option.bind_eq_some_iff.mp hL
    cases hL
    obtain ⟨x, y, ks, ls, rfl, -, hx, hy⟩ := h
    exact List.mem_flatMap.mpr ⟨x, iha hxs hx, List.mem_map_of_mem (ihb hys hy)⟩
  | either a b iha ihb =>
    obtain ⟨xs, hxs, hL⟩ := Option.bind_eq_some_iff.mp hL
    obtain ⟨ys, hys, hL⟩ := Option.bind_eq_some_iff.mp hL
    cases hL
    exact h.elim (fun h => List.mem_append_left _ (iha hxs h))
      fun h => List.mem_append_right _ (ihb hys h)

/-- None of the texts goes on with the word behind a blank. -/
def missesFront (L : List (List Char)) (m : List Char) : Bool :=
  L.all fun p => (List.range p.length).all fun n =>
    n == 0 || !(p.take n).getLast?.all isBlank || blocked (p.drop n) m

/-- None of the texts begins at the word or in it. -/
def missesInside (L : List (List Char)) (m : List Char) : Bool :=
  L.all fun p => (List.range m.length).all fun n => blocked p (m.drop n)

theorem clear_of_texts {L : List (List Char)} (hL : a.texts? = some L) {m : List Char}
    (h : missesFront L m = true) (hx : BlankLast x) (hy : BlankHead y) : Clear a x (m ++ y) := by
  rintro u d₁ d₂ ks q rfl hne₁ hne₂ htakes
  have hsplit := List.all_eq_true.mp h _ (mem_of_texts? hL htakes)
  have hlt : d₁.length < (d₁ ++ d₂).length := by
    have hpos := List.length_pos_of_ne_nil hne₂
    rw [List.length_append]
    omega
  have hthere := List.all_eq_true.mp hsplit d₁.length (List.mem_range.mpr hlt)
  have hblank : d₁.getLast?.all isBlank = true := by
    rw [Option.all_eq_true]
    exact fun c hc => hx c (by rw [List.getLast?_append, Option.mem_def.mp hc]; rfl)
  rw [List.take_left, List.drop_left, hblank, Bool.not_true, Bool.or_false, Bool.or_eq_true,
    beq_iff_eq, List.length_eq_zero_iff] at hthere
  exact ne_append_of_blocked (hthere.resolve_left hne₁) hy q

theorem idle_of_texts {L : List (List Char)} (hL : a.texts? = some L) {m : List Char}
    (h : missesInside L m = true) (hy : BlankHead y) : Idle a m y := by
  rintro u v d ks q rfl hne htakes -
  have hlt : u.length < (u ++ v).length := by
    have hpos := List.length_pos_of_ne_nil hne
    rw [List.length_append]
    omega
  have hthere := List.all_eq_true.mp (List.all_eq_true.mp h d (mem_of_texts? hL htakes)) u.length
    (List.mem_range.mpr hlt)
  rw [List.drop_left] at hthere
  exact ne_append_of_blocked hthere hy q

/-! ### Patterns without the characters of a word -/

/-- All classes of the pattern have the property. -/
def every (f : CharClass → Bool) : Pattern → Bool
  | one k => f k
  | many k => f k
  | seq a b => every f a && every f b
  | either a b => every f a && every f b
  | capture a => every f a
  | _ => true

section Classes

variable {f : CharClass → Bool} {good : Char → Prop}
  (hf : ∀ k c, f k = true → k.holds c = true → good c)

include hf

theorem good_of_every (ha : a.every f = true) {d : List Char} {ks : List (List Char)}
    (h : Takes a d ks) : ∀ c ∈ d, good c := by
  induction a generalizing d ks with
  | empty | boundary =>
    rw [h.1]
    exact nofun
  | one k =>
    obtain ⟨⟨c, hc, rfl⟩, -⟩ := h
    simpa using hf k c ha hc
  | many k => exact fun c hc => hf k c ha (h.1 c hc)
  | seq a b iha ihb =>
    rw [every, Bool.and_eq_true] at ha
    obtain ⟨x, y, ks, ls, rfl, -, hx, hy⟩ := h
    exact List.forall_mem_append.mpr ⟨iha ha.1 hx, ihb ha.2 hy⟩
  | either a b iha ihb =>
    rw [every, Bool.and_eq_true] at ha
    exact h.elim (iha ha.1) (ihb ha.2)
  | capture a ih =>
    obtain ⟨ls, h, -⟩ := h
    exact ih ha h

/-- No text goes on into what begins with a character that the pattern does not take. -/
theorem clear_of_every (ha : a.every f = true) {t : List Char} (ht : ∀ c ∈ t.head?, ¬ good c)
    (x : List Char) : Clear a x t := by
  rintro u d₁ d₂ ks q - - hne htakes rfl
  obtain ⟨c, d₂, rfl⟩ := List.exists_cons_of_ne_nil hne
  exact ht c rfl (good_of_every hf ha htakes c (by simp))

end Classes

/-- This can be told from the pattern: it has finitely many texts, or it does not take the first
character of the word. -/
def passesOver (a : Pattern) (m : List Char) : Bool :=
  (a.texts?.any fun L => missesFront L m && missesInside L m) ||
    (a.every (CharClass.lacks (m.take 1)) && a.heads (CharClass.lacks m))

theorem clear_and_idle_of_passesOver {m : List Char} (hm : m ≠ []) (h : a.passesOver m = true)
    (hx : BlankLast x) (hy : BlankHead y) : Clear a x (m ++ y) ∧ Idle a m y := by
  rw [passesOver, Bool.or_eq_true, Option.any_eq_true, Bool.and_eq_true] at h
  rcases h with ⟨L, hL, htexts⟩ | ⟨hevery, hheads⟩
  · rw [Bool.and_eq_true] at htexts
    exact ⟨clear_of_texts hL htexts.1 hx hy, idle_of_texts hL htexts.2 hy⟩
  · obtain ⟨c, m, rfl⟩ := List.exists_cons_of_ne_nil hm
    refine ⟨clear_of_every (CharClass.not_mem_of_lacks _) hevery ?_ x,
      idle_of_heads (CharClass.not_mem_of_lacks _) hheads (fun d hd hno => hno hd) y⟩
    rintro _ ⟨⟩
    exact not_not_intro (List.mem_singleton.mpr rfl)

/-! ### Characters that are not followed by a blank -/

/-- No character of a class without the first property is directly followed by one of a class without
the second. -/
def splits (f g : CharClass → Bool) : Pattern → Bool
  | many k => f k || g k
  | seq a b => splits f g a && splits f g b && (lasts f a || heads g b)
  | either a b => splits f g a && splits f g b
  | capture a => splits f g a
  | _ => true

theorem isChain_of_splits {f g : CharClass → Bool} {good better : Char → Prop}
    (hf : ∀ k c, f k = true → k.holds c = true → good c)
    (hg : ∀ k c, g k = true → k.holds c = true → better c)
    (ha : a.splits f g = true) {d : List Char} {ks : List (List Char)} (h : Takes a d ks) :
    d.IsChain fun c e => good c ∨ better e := by
  induction a generalizing d ks with
  | empty | boundary =>
    rw [h.1]
    exact .nil
  | one k =>
    obtain ⟨⟨c, -, rfl⟩, -⟩ := h
    exact .singleton c
  | many k =>
    rw [splits, Bool.or_eq_true] at ha
    have hall : ∀ c ∈ d, ∀ e ∈ d, good c ∨ better e := fun c hc e he =>
      ha.imp (fun hk => hf k c hk (h.1 c hc)) fun hk => hg k e hk (h.1 e he)
    exact (List.pairwise_of_forall_mem_list hall).isChain
  | seq a b iha ihb =>
    rw [splits, Bool.and_eq_true, Bool.and_eq_true, Bool.or_eq_true] at ha
    obtain ⟨⟨ha, hb⟩, hends⟩ := ha
    obtain ⟨x, y, ks, ls, rfl, -, hx, hy⟩ := h
    refine List.isChain_append.mpr ⟨iha ha hx, ihb hb hy, fun c hc e he => ?_⟩
    exact hends.imp (fun hlasts => good_last hf hlasts hx c hc)
      fun hheads => good_head hg hheads hy e he
  | either a b iha ihb =>
    rw [splits, Bool.and_eq_true] at ha
    exact h.elim (iha ha.1) (ihb ha.2)
  | capture a ih =>
    obtain ⟨ls, h, -⟩ := h
    exact ih ha h

/-- In the texts of the pattern the character is followed by another one than a blank. -/
def tight (c : Char) (a : Pattern) : Bool :=
  a.splits (CharClass.lacks [c]) CharClass.nonblank && a.lasts (CharClass.lacks [c])

theorem ne_append_of_tight {c : Char} (ha : a.tight c = true) {d₁ d₂ : List Char}
    {ks : List (List Char)} (h : Takes a (d₁ ++ d₂) ks) (hne : d₂ ≠ []) (hy : BlankHead y)
    (q : List Char) : [c] ++ y ≠ d₂ ++ q := by
  rw [tight, Bool.and_eq_true] at ha
  have hchain := isChain_of_splits (CharClass.not_mem_of_lacks [c])
    CharClass.not_isBlank_of_nonblank ha.1 h
  have hlast := good_last (CharClass.not_mem_of_lacks [c]) ha.2 h
  obtain ⟨e, d₂, rfl⟩ := List.exists_cons_of_ne_nil hne
  intro heq
  obtain ⟨rfl, hrest⟩ := List.cons_eq_cons.mp heq
  cases d₂ with
  | nil => exact hlast c (by simp) (by simp)
  | cons e d₂ =>
    have hnonblank := ((List.isChain_append.mp hchain).2.1).rel.resolve_left (by simp)
    rw [hy e (by rw [show y = e :: (d₂ ++ q) from hrest]; rfl)] at hnonblank
    cases hnonblank

theorem clear_of_tight {c : Char} (ha : a.tight c = true) (hy : BlankHead y) (x : List Char) :
    Clear a x ([c] ++ y) :=
  fun _ _ _ _ q _ _ hne htakes => ne_append_of_tight ha htakes hne hy q

theorem idle_of_tight {c : Char} (ha : a.tight c = true) (hy : BlankHead y) : Idle a [c] y := by
  intro u v d ks q huv hv htakes hne
  have hu : u = [] ∧ v = [c] := by
    rcases List.singleton_eq_append_iff.mp huv with ⟨rfl, rfl⟩ | ⟨-, rfl⟩
    · exact ⟨rfl, rfl⟩
    · exact absurd rfl hv
  rw [hu.2]
  have htakes : Takes a ([] ++ d) ks := htakes
  exact ne_append_of_tight ha htakes hne hy q

end Pattern

end Reckon
