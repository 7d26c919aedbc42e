/-
Words next to digits.

Digits are word characters. So where a pattern asks for the beginning of a word and goes on with a
letter, there is no digit in front of it, and none behind it where it asks for the end. A text that
is no digit at its ends can be put between two others without a run of digits growing.

* `CharClass.undigit`, `CharClass.wordly` : classes without digits, and classes of letters.
* `isWordChar_of_isDecimalDigit` : digits of any script are word characters.
* `NoWord`, `noWord_front`, `noWord_back`, `noWord_around` : what stands around a word of its own.
* `Parts` : texts that part the runs around them.
-/
import Reckon.Proofs.DigitRuns

namespace Reckon

open Text

/-! ### Classes of characters -/

/-- The class has no ASCII digit. -/
def CharClass.undigit : CharClass → Bool
  | .only c => !c.isDigit
  | .oneOf cs => cs.all fun c => !c.isDigit
  | .digit => false
  | .blank => true

/-- The class has word characters alone. Digits are left out. -/
def CharClass.wordly : CharClass → Bool
  | .only c => isWordChar c
  | .oneOf cs => cs.all isWordChar
  | .digit => false
  | .blank => false

theorem CharClass.isDigit_of_undigit (k : CharClass) (c : Char) (hk : k.undigit = true)
    (hc : k.holds c = true) : c.isDigit = false := by
  cases k with
  | only d =>
    rw [show c = d from beq_iff_eq.mp hc]
    simpa [undigit] using hk
  | oneOf cs =>
    have hmem : c ∈ cs := by simpa [holds] using hc
    simpa using List.all_eq_true.mp hk c hmem
  | digit => cases hk
  | blank => exact not_isDigit_of_isBlank hc

theorem CharClass.isWordChar_of_wordly (k : CharClass) (c : Char) (hk : k.wordly = true)
    (hc : k.holds c = true) : isWordChar c = true := by
  cases k with
  | only d =>
    rw [show c = d from beq_iff_eq.mp hc]
    exact hk
  | oneOf cs =>
    have hmem : c ∈ cs := by simpa [holds] using hc
    exact List.all_eq_true.mp hk c hmem
  | digit | blank => cases hk

namespace Text

theorem isWordChar_of_isDigit {c : Char} (h : c.isDigit = true) : isWordChar c = true := by
  have hlt : c.toNat < 128 := by
    simp only [Char.isDigit, Bool.and_eq_true, decide_eq_true_eq] at h
    have hle : c.val.toNat ≤ 57 := UInt32.le_iff_toNat_le.mp h.2
    show c.val.toNat < 128
    omega
  rw [isWordChar, if_pos hlt, Char.isAlphanum, h, Bool.or_true, Bool.true_or]

theorem wordChars_decimalDigits : ∀ r ∈ decimalDigits.ranges, ∃ r' ∈ wordChars.ranges,
    r'.1 ≤ r.1 ∧ r.2 ≤ r'.2 := by
  decide +kernel

/-- The decimal digits of all scripts are word characters. -/
theorem isWordChar_of_isDecimalDigit {c : Char} (h : isDecimalDigit c = true) :
    isWordChar c = true := by
  rw [isDecimalDigit] at h
  split at h
  · exact isWordChar_of_isDigit h
  · -- beyond ASCII both classes are tables of ranges, and each range of digits lies in one of words
    next hge =>
    obtain ⟨r, hr, hfirst, hlast⟩ := (CharSet.contains_iff _ _).mp h
    obtain ⟨r', hr', hfirst', hlast'⟩ := wordChars_decimalDigits r hr
    rw [isWordChar, if_neg hge, CharSet.contains_iff]
    exact ⟨r', hr', hfirst'.trans hfirst, hlast.trans hlast'⟩

/-! ### Where words begin and end -/

/-- There is no word character. -/
def NoWord (o : Option Char) : Prop :=
  ∀ c ∈ o, isWordChar c = false

instance (o : Option Char) : Decidable (NoWord o) :=
  inferInstanceAs (Decidable (∀ c ∈ o, _))

theorem NoWord.noDigit {o : Option Char} (h : NoWord o) : NoDigit o := by
  intro c hc
  by_contra hd
  have hword := isWordChar_of_isDigit (c := c) (by simpa using hd)
  rw [h c hc] at hword
  cases hword

theorem noWord_of_isBoundary {c : Char} {o : Option Char} (hc : isWordChar c = true)
    (h : isBoundary (some c) o = true) : NoWord o := by
  rintro d rfl
  rw [isBoundary, Option.any_some, Option.any_some, hc] at h
  cases hd : isWordChar d with
  | false => rfl
  | true =>
    rw [hd] at h
    cases h

end Text

theorem CharClass.isWordChar_of_digit (k : CharClass) (c : Char) (hk : (k == .digit) = true)
    (hc : k.holds c = true) : isWordChar c = true := by
  rw [beq_iff_eq.mp hk] at hc
  exact isWordChar_of_isDecimalDigit hc

/-- All texts of the pattern have characters, and letters at both ends. -/
def Pattern.words (a : Pattern) : Bool :=
  a.consumes && a.heads CharClass.wordly && a.lasts CharClass.wordly

namespace Replacement

variable {r : Replacement}

/-- A match that begins a word has no word character in front of it. -/
theorem noWord_front (hconsumes : r.pattern.consumes = true)
    (hheads : r.pattern.heads CharClass.wordly = true) {a b : Pattern} {z d t : List Char}
    {m : Match} (h : Found r z d t m)
    (hm : m ∈ Pattern.allMatches (.boundary ++ a ++ b) ⟨z.getLast?, d ++ t⟩) :
    NoWord z.getLast? := by
  obtain ⟨c, d, rfl⟩ :=
    List.exists_cons_of_ne_nil (Pattern.ne_nil_of_consumes hconsumes h.takes)
  have hword : isWordChar c = true :=
    Pattern.good_head CharClass.isWordChar_of_wordly hheads h.takes c rfl
  have hbegin := Pattern.isBoundary_begin hm
  rw [isBoundary_comm] at hbegin
  exact noWord_of_isBoundary hword hbegin

/-- A match that ends a word has no word character behind it. -/
theorem noWord_back {good : CharClass → Bool}
    (hgood : ∀ k c, good k = true → k.holds c = true → isWordChar c = true)
    (hconsumes : r.pattern.consumes = true) (hlasts : r.pattern.lasts good = true) {a : Pattern}
    {z d t : List Char} {m : Match} (h : Found r z d t m)
    (hm : m ∈ Pattern.allMatches (a ++ .boundary) ⟨z.getLast?, d ++ t⟩) : NoWord t.head? := by
  obtain ⟨w, c, rfl⟩ := (List.eq_nil_or_concat d).resolve_left
    (Pattern.ne_nil_of_consumes hconsumes h.takes)
  have hword : isWordChar c = true := Pattern.good_last hgood hlasts h.takes c (by simp)
  have hend := Pattern.isBoundary_end hm
  rw [h.stop, show (z ++ w.concat c).getLast? = some c by simp] at hend
  exact noWord_of_isBoundary hword hend

/-- A rest that begins with no word character keeps what it begins with, when words are replaced. -/
theorem head_passFrom_of_noWord (hheads : r.pattern.heads CharClass.wordly = true)
    {z t : List Char} (ht : NoWord t.head?) :
    (r.passFrom z.getLast? 0 t).head? = t.head? := by
  cases hm : r.matchAt ⟨z.getLast?, t⟩ with
  | none => exact head_passFrom hm
  | some m =>
    obtain ⟨d, t, rfl, hne, hm⟩ := exists_found hm
    obtain ⟨c, d, rfl⟩ := List.exists_cons_of_ne_nil hne
    have hword : isWordChar c = true :=
      Pattern.good_head CharClass.isWordChar_of_wordly hheads hm.takes c rfl
    rw [ht c rfl] at hword
    cases hword

/-- Around a word of its own that is replaced there is no word character, before and after. -/
theorem noWord_around (hwords : r.pattern.words = true) {a : Pattern} {z d t : List Char}
    {m : Match} (h : Found r z d t m)
    (hm : m ∈ Pattern.allMatches (.boundary ++ a ++ .boundary) ⟨z.getLast?, d ++ t⟩) :
    NoWord z.getLast? ∧ NoWord (r.passFrom (z ++ d).getLast? 0 t).head? := by
  rw [Pattern.words, Bool.and_eq_true, Bool.and_eq_true] at hwords
  obtain ⟨⟨hconsumes, hheads⟩, hlasts⟩ := hwords
  have ht : NoWord t.head? := noWord_back CharClass.isWordChar_of_wordly hconsumes hlasts h hm
  refine ⟨noWord_front hconsumes hheads h hm, ?_⟩
  rwa [head_passFrom_of_noWord hheads ht]

end Replacement

/-! ### Texts that part runs -/

/-- The text has characters, and is no digit at either end. -/
structure Parts (d : List Char) : Prop where
  ne_nil : d ≠ []
  head : NoDigit d.head?
  last : NoDigit d.getLast?

/-- All texts of the pattern have characters, and none is a digit at either end. -/
def Pattern.parts (a : Pattern) : Bool :=
  a.consumes && a.heads CharClass.undigit && a.lasts CharClass.undigit

theorem Pattern.consumes_of_parts {a : Pattern} (ha : a.parts = true) : a.consumes = true := by
  rw [parts, Bool.and_eq_true, Bool.and_eq_true] at ha
  exact ha.1.1

theorem Pattern.parts_of_takes {a : Pattern} (ha : a.parts = true) {x : List Char}
    {ks : List (List Char)} (h : a.Takes x ks) : Parts x := by
  rw [parts, Bool.and_eq_true, Bool.and_eq_true] at ha
  obtain ⟨⟨hconsumes, hheads⟩, hlasts⟩ := ha
  exact ⟨ne_nil_of_consumes hconsumes h, good_head CharClass.isDigit_of_undigit hheads h,
    good_last CharClass.isDigit_of_undigit hlasts h⟩

/-- A text without digits that has characters. -/
theorem parts_of_noDigit {d : List Char} (hne : d ≠ []) (hd : ∀ c ∈ d, c.isDigit = false) :
    Parts d :=
  ⟨hne, fun c hc => hd c (List.mem_of_mem_head? hc), fun c hc => hd c (List.mem_of_mem_getLast? hc)⟩

/-- What stands around a text without digits at its ends. -/
theorem Parts.isRun_iff {r d : List Char} (hd : Parts d) (z y : List Char) :
    IsRun r (z ++ (d ++ y)) ↔ IsRun r z ∨ IsRun r d ∨ IsRun r y := by
  have hhead : NoDigit (d ++ y).head? := by
    rw [List.head?_append_of_ne_nil _ hd.ne_nil]
    exact hd.head
  rw [isRun_append (Or.inr hhead), isRun_append (Or.inl hd.last)]

end Reckon
