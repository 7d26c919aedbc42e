/-
Lower case is settled.

The letters that lower-casing writes are forms of themselves: no run of the table leads to a letter
that another run moves on. So a text in lower case, and any part of one, stays as it is when it is
lower-cased again. Nor does lower-casing see what stands around a text, if it has no case and is not
looked through, such as blanks: a sigma is at the end of a word with them or without them.

* `LowerRun.avoids` : no letter that one run leads to is moved by another.
* `settled_of_mem_lower` : the characters of texts in lower case.
* `lower_eq_flatMap` : lower case character by character.
* `lower_of_settled` : texts of such characters stay as they are.
* `lower_append_cons`, `lower_between` : texts on both sides of a character without case, and texts
  between such characters.
* `wordsOf_trim` : trimming a text does not change its words in lower case.
-/
import Reckon.Proofs.Words

namespace Reckon.Text

/-- The character is its own lower-case form wherever it stands. -/
def Settled (c : Char) : Prop :=
  c ≠ 'Σ' ∧ lowerChar c = [c]

instance : DecidablePred Settled :=
  fun c => inferInstanceAs (Decidable (c ≠ 'Σ' ∧ lowerChar c = [c]))

/-! ### The table -/

/-- The code point to which a run leads from one of its own. -/
def LowerRun.reached (r : LowerRun) (n : Nat) : Nat :=
  (n + r.shift).toNat

/-- No letter that a run leads to is held by another: the stretches lie apart, or every second code
point of one lies between those of the other. -/
def LowerRun.avoids (r r' : LowerRun) : Bool :=
  Nat.blt (r.reached r.last) r'.first || Nat.blt r'.last (r.reached r.first) ||
    (r'.step == 2 && (r.step == 2 || r.first == r.last) && (r.reached r.first - r'.first) % 2 == 1)

/-- The letter `İ`, which no run moves, as a run. -/
def dottedRun : LowerRun :=
  ⟨0x0130, 0x0130, 1, 0⟩

theorem lowerRuns_avoids :
    (lowerRuns.all fun r => (dottedRun :: lowerRuns).all r.avoids) = true := by
  decide +kernel

/-- Only one run, of one letter, leads to ASCII. -/
theorem lowerRuns_ascii : ∀ r ∈ lowerRuns, 128 ≤ r.first + r.shift ∨
    r.first = r.last ∧ Settled (Char.ofNat (r.reached r.first)) := by
  decide +kernel

theorem LowerRun.not_holds_of_avoids {r r' : LowerRun} (h : r.avoids r' = true)
    (hpos : 0 ≤ r.first + r.shift) {n : Nat} (hn : r.holds n = true) :
    r'.holds (r.reached n) = false := by
  simp only [LowerRun.avoids, LowerRun.reached, Bool.or_eq_true, Bool.and_eq_true, Nat.blt_eq,
    beq_iff_eq] at h
  simp only [LowerRun.holds, Bool.and_eq_true, decide_eq_true_eq, beq_iff_eq] at hn
  obtain ⟨⟨hfirst, hlast⟩, hstep⟩ := hn
  rw [← Bool.not_eq_true, LowerRun.holds]
  intro hn'
  simp only [Bool.and_eq_true, decide_eq_true_eq, beq_iff_eq] at hn'
  obtain ⟨⟨hfirst', hlast'⟩, hstep'⟩ := hn'
  rw [LowerRun.reached] at hfirst' hlast' hstep'
  have hreached : ((r.first + r.shift).toNat : Int) = r.first + r.shift := Int.toNat_of_nonneg hpos
  rcases h with (hbelow | habove) | ⟨⟨htwo', htwo | hone⟩, hodd⟩
  · omega
  · omega
  · rw [htwo] at hstep
    rw [htwo'] at hstep'
    omega
  · rw [htwo'] at hstep'
    omega

/-! ### Settled characters -/

theorem settled_toLower {c : Char} (hc : c.toNat < 128) : Settled c.toLower := by
  have hall : ∀ n ∈ List.range 128, Settled (Char.ofNat n).toLower := by decide +kernel
  have hsettled := hall c.toNat (List.mem_range.mpr hc)
  rwa [Char.ofNat_toNat] at hsettled

/-- A letter to which a run leads. -/
theorem settled_of_mem_lowerRuns {r : LowerRun} (hr : r ∈ lowerRuns) {n : Nat}
    (hn : r.holds n = true) : Settled (Char.ofNat (r.reached n)) := by
  rcases lowerRuns_ascii r hr with hbeyond | ⟨hone, hsettled⟩
  · have hnot : ∀ r' ∈ dottedRun :: lowerRuns, r'.holds (r.reached n) = false := by
      intro r' hr'
      have havoids := List.all_eq_true.mp (List.all_eq_true.mp lowerRuns_avoids r hr) r' hr'
      exact LowerRun.not_holds_of_avoids havoids (by omega) hn
    have hlarge : 128 ≤ r.reached n := by
      simp only [LowerRun.holds, Bool.and_eq_true, decide_eq_true_eq] at hn
      rw [LowerRun.reached]
      omega
    generalize r.reached n = m at hnot hlarge ⊢
    by_cases hvalid : m.isValidChar
    · have hm : (Char.ofNat m).toNat = m := by
        rw [Char.ofNat, dif_pos hvalid]
        rfl
      have hdotted : Char.ofNat m ≠ 'İ' := by
        intro h
        have hnat : m = 0x0130 := by rw [← hm, h]; rfl
        have hfalse := hnot dottedRun (List.mem_cons_self ..)
        rw [hnat] at hfalse
        exact absurd hfalse (by decide)
      have hnone : lowerRuns.find? (·.holds m) = none :=
        List.find?_eq_none.mpr fun r' hr' => by simp [hnot r' (List.mem_cons_of_mem _ hr')]
      constructor
      · intro h
        have hnat : m = 0x03a3 := by rw [← hm, h]; rfl
        rw [hnat] at hnone
        exact absurd hnone (by decide)
      · rw [lowerChar, hm, if_neg (by omega), if_neg hdotted, hnone]
    · -- a number that is no code point stands for the null character
      rw [Char.ofNat, dif_neg hvalid]
      decide
  · have hn' : n = r.first := by
      simp only [LowerRun.holds, Bool.and_eq_true, decide_eq_true_eq] at hn
      omega
    rwa [hn']

theorem settled_of_mem_lowerChar {c d : Char} (hc : c ≠ 'Σ') (hd : d ∈ lowerChar c) :
    Settled d := by
  have hc' : lowerChar c = [c] → Settled d := by
    intro h
    rw [h, List.mem_singleton] at hd
    rw [hd]
    exact ⟨hc, h⟩
  rw [lowerChar] at hd hc'
  split at hd
  · next hascii =>
    rw [List.mem_singleton] at hd
    rw [hd]
    exact settled_toLower hascii
  · next hascii =>
    rw [if_neg hascii] at hc'
    split at hd
    · have hall : ∀ d ∈ ['i', '\u0307'], Settled d := by decide
      exact hall d hd
    · next hdotted =>
      rw [if_neg hdotted] at hc'
      split at hd
      · next r hr =>
        rw [List.mem_singleton] at hd
        rw [hd]
        have hholds := List.find?_some hr
        exact settled_of_mem_lowerRuns (List.mem_of_find?_eq_some hr) hholds
      · next hnone => exact hc' (by rw [hnone])

theorem settled_of_mem_lower {s : List Char} {c : Char} (hc : c ∈ lower s) : Settled c := by
  rw [lower] at hc
  generalize [] = before at hc
  induction s generalizing before with
  | nil => cases hc
  | cons d s ih =>
    rw [lowerAfter] at hc
    rcases List.mem_append.mp hc with hc | hc
    · split at hc
      · have hall : ∀ c ∈ ['ς', 'σ'], Settled c := by decide
        refine hall c ?_
        rw [List.mem_singleton] at hc
        rw [hc]
        split <;> simp
      · next hd => exact settled_of_mem_lowerChar hd hc
    · exact ih _ hc

theorem settled_of_isBlank {c : Char} (h : isBlank c = true) : Settled c :=
  forall_isBlank (by decide) h

/-! ### Lower case of parts -/

/-- Without a capital sigma the characters are lower-cased one by one. -/
theorem lower_eq_flatMap {s : List Char} (h : 'Σ' ∉ s) : lower s = s.flatMap lowerChar := by
  have hafter (before : List Char) : lowerAfter before s = s.flatMap lowerChar := by
    induction s generalizing before with
    | nil => rfl
    | cons c s ih =>
      rw [List.mem_cons, not_or] at h
      rw [lowerAfter, if_neg (Ne.symm h.1), ih h.2, List.flatMap_cons]
  exact hafter []

theorem sigma_not_mem {s : List Char} (h : ∀ c ∈ s, Settled c) : 'Σ' ∉ s :=
  fun hmem => (h _ hmem).1 rfl

theorem flatMap_lowerChar {s : List Char} (h : ∀ c ∈ s, Settled c) : s.flatMap lowerChar = s := by
  induction s with
  | nil => rfl
  | cons c s ih =>
    rw [List.flatMap_cons, (h c (by simp)).2, ih fun d hd => h d (List.mem_cons_of_mem _ hd)]
    rfl

/-- A capital sigma leaves a small one. -/
theorem sigma_mem_lower {s : List Char} (h : 'Σ' ∈ s) : 'σ' ∈ lower s ∨ 'ς' ∈ lower s := by
  rw [lower]
  generalize [] = before
  induction s generalizing before with
  | nil => cases h
  | cons c s ih =>
    rw [lowerAfter, List.mem_append, List.mem_append]
    by_cases hc : c = 'Σ'
    · rw [if_pos hc]
      split
      · exact Or.inr (Or.inl (by simp))
      · exact Or.inl (Or.inl (by simp))
    · rcases List.mem_cons.mp h with rfl | h
      · exact absurd rfl hc
      · rcases ih h (c :: before) with hs | hs
        · exact Or.inl (Or.inr hs)
        · exact Or.inr (Or.inr hs)

/-- Lower-casing keeps settled characters. -/
theorem lower_of_settled {s : List Char} (h : ∀ c ∈ s, Settled c) : lower s = s := by
  rw [lower_eq_flatMap (sigma_not_mem h), flatMap_lowerChar h]

/-! ### Lower case between characters without case -/

/-- The character is not lower-cased, and it ends the search for a cased one. -/
def Inert (c : Char) : Prop :=
  Settled c ∧ isCaseIgnorable c = false ∧ isCased c = false

instance : DecidablePred Inert :=
  fun c => inferInstanceAs (Decidable (Settled c ∧ _ ∧ _))

theorem inert_of_isBlank {c : Char} (h : isBlank c = true) : Inert c :=
  ⟨settled_of_isBlank h, forall_isBlank
    (p := fun c => isCaseIgnorable c = false ∧ isCased c = false) (by decide +kernel) h⟩

/-- Behind a text, such a character ends the search. -/
theorem meetsCased_append (s : List Char) {t : List Char} (ht : ∀ c ∈ t.head?, Inert c) :
    meetsCased (s ++ t) = meetsCased s := by
  induction s with
  | nil =>
    cases t with
    | nil => rfl
    | cons c t =>
      obtain ⟨-, hignorable, hcased⟩ := ht c rfl
      simp [meetsCased, hignorable, hcased]
  | cons c s ih =>
    rw [meetsCased, meetsCased] at ih ⊢
    by_cases hc : isCaseIgnorable c = true
    · rwa [List.cons_append, List.dropWhile_cons_of_pos hc, List.dropWhile_cons_of_pos hc]
    · rw [List.cons_append, List.dropWhile_cons_of_neg hc, List.dropWhile_cons_of_neg hc]

/-- In front of such a character a text is lower-cased as in front of the end: a sigma is still at the
end of a word. -/
theorem lowerAfter_append {t : List Char} (ht : ∀ c ∈ t.head?, Inert c) (before s : List Char) :
    lowerAfter before (s ++ t) = lowerAfter before s ++ lowerAfter (s.reverse ++ before) t := by
  induction s generalizing before with
  | nil => rfl
  | cons c s ih =>
    rw [List.cons_append, lowerAfter, lowerAfter, meetsCased_append s ht, ih, List.append_assoc]
    simp

/-- Behind such a character a text is lower-cased as at the beginning. -/
theorem lowerAfter_append_before {b : List Char} (hb : ∀ c ∈ b.head?, Inert c)
    (before s : List Char) : lowerAfter (before ++ b) s = lowerAfter before s := by
  induction s generalizing before with
  | nil => rfl
  | cons c s ih =>
    rw [lowerAfter, lowerAfter, meetsCased_append before hb, ← ih (c :: before), List.cons_append]

theorem lowerAfter_inert {b : List Char} (hb : ∀ c ∈ b, Inert c) (before s : List Char) :
    lowerAfter before (b ++ s) = b ++ lowerAfter (b.reverse ++ before) s := by
  induction b generalizing before with
  | nil => rfl
  | cons c b ih =>
    obtain ⟨⟨hsigma, hform⟩, -⟩ := hb c (by simp)
    rw [List.cons_append, lowerAfter, if_neg hsigma, hform,
      ih (fun d hd => hb d (List.mem_cons_of_mem _ hd))]
    simp

/-- Texts on both sides of such a character are lower-cased by themselves. -/
theorem lower_append_cons {c : Char} (hc : Inert c) (s t : List Char) :
    lower (s ++ c :: t) = lower s ++ c :: lower t := by
  have hsign : ∀ d ∈ [c], Inert d := by simpa using hc
  have hback (before : List Char) : lowerAfter before (c :: t) = c :: lower t := by
    have hkept := lowerAfter_inert hsign before t
    rwa [List.singleton_append, List.singleton_append, List.reverse_singleton,
      List.singleton_append, ← List.nil_append (c :: before),
      lowerAfter_append_before (by simpa using hc)] at hkept
  rw [lower, lowerAfter_append (by simpa using hc), hback]
  rfl

/-- Such characters around a text make no difference to its lower case. -/
theorem lower_between {b b' : List Char} (hb : ∀ c ∈ b, Inert c) (hb' : ∀ c ∈ b', Inert c)
    (s : List Char) : lower (b ++ (s ++ b')) = b ++ (lower s ++ b') := by
  have hkept (before : List Char) : lowerAfter before b' = b' := by
    have hkept := lowerAfter_inert hb' before []
    rwa [List.append_nil, lowerAfter, List.append_nil] at hkept
  have hfront : lowerAfter (b.reverse ++ []) s = lowerAfter [] s := by
    rw [List.append_nil, ← List.nil_append b.reverse]
    exact lowerAfter_append_before
      (fun c hc => hb c (List.mem_reverse.mp (List.mem_of_mem_head? hc))) [] s
  rw [lower, lowerAfter_inert hb, lowerAfter_append fun c hc => hb' c (List.mem_of_mem_head? hc),
    hkept, hfront, lower]

/-- A text has the same words in lower case whether it has been trimmed or not. -/
theorem wordsOf_trim (s : List Char) : wordsOf (trim s) = wordsOf s := by
  obtain ⟨b, b', hs, hb, hb'⟩ := exists_trim s
  have hlower : lower s = b ++ (lower (trim s) ++ b') :=
    (congrArg lower hs).trans (lower_between (fun c hc => inert_of_isBlank (hb c hc))
      (fun c hc => inert_of_isBlank (hb' c hc)) (trim s))
  rw [wordsOf, wordsOf, hlower, words_append_left hb,
    words_append_right _ fun c hc => hb' c (List.mem_of_mem_head? hc),
    (words_eq_nil_iff b').mpr hb', List.append_nil]

end Reckon.Text
