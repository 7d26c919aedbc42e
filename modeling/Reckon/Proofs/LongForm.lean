/-
The long form of a date identifies it.

The long form is a row of parts: weekday, day, month, year, hour and minute. Weekdays and months come
from tables, in which no entry begins another one once what follows it is counted in, and numbers end
where the first character that is no digit stands. So a text is the long form of one date only, up to
the second, and in one language.

* `longForm_eq` : the parts in both languages.
* `eq_of_begins_weekday`, `eq_of_begins_month` : the entries of the tables are told from their
  beginnings.
* `intText_injective` : years of any sign.
* `longForm_eq_iff` : which dates have the same long form.
-/
import Reckon.DatePhrase.Resolve
import Reckon.Proofs.DayNumber
import Reckon.Proofs.DisplayText

namespace Reckon.DatePhrase

open Calendar Number

/-! ### Numbers -/

/-- What stands before a separator is known if it does not hold the separator itself. -/
theorem eq_of_append_separator {c : Char} {a a' b b' : List Char} (ha : c ∉ a) (ha' : c ∉ a')
    (h : a ++ c :: b = a' ++ c :: b') : a = a' ∧ b = b' := by
  induction a generalizing a' with
  | nil =>
    cases a' with
    | nil => exact ⟨rfl, List.tail_eq_of_cons_eq h⟩
    | cons d a' => exact absurd (List.mem_cons.mpr (.inl (List.head_eq_of_cons_eq h))) ha'
  | cons d a ih =>
    cases a' with
    | nil => exact absurd (List.mem_cons.mpr (.inl (List.head_eq_of_cons_eq h).symm)) ha
    | cons d' a' =>
      obtain ⟨hd, htail⟩ := List.cons_eq_cons.mp h
      obtain ⟨hinit, hrest⟩ := ih (List.not_mem_of_not_mem_cons ha)
        (List.not_mem_of_not_mem_cons ha') htail
      exact ⟨by rw [hd, hinit], hrest⟩

theorem natText_toList (n : ℕ) : (natText n).toList = digits n :=
  String.toList_ofList

theorem natText_injective {n n' : ℕ} (h : natText n = natText n') : n = n' := by
  rw [← digitsValue_digits n, ← digitsValue_digits n', String.ofList_inj.mp h]

theorem not_mem_natText {c : Char} (hc : c.isDigit = false) (n : ℕ) : c ∉ (natText n).toList := by
  rw [natText_toList]
  intro hmem
  rw [isDigit_of_mem_digits hmem] at hc
  cases hc

theorem not_mem_intText {c : Char} (hc : c.isDigit = false) (hminus : c ≠ '-') (n : ℤ) :
    c ∉ (intText n).toList := by
  rw [intText]
  split
  · rw [String.toList_append, List.mem_append, not_or]
    exact ⟨by simpa using hminus, not_mem_natText hc _⟩
  · exact not_mem_natText hc _

/-- The texts of two numbers with different signs differ in their first characters. -/
theorem minus_natText_ne (m n : ℕ) : "-" ++ natText m ≠ natText n := by
  intro h
  refine not_mem_natText (c := '-') (by decide) n ?_
  rw [← h, String.toList_append]
  exact List.mem_append_left _ (by decide)

theorem intText_injective {n n' : ℤ} (h : intText n = intText n') : n = n' := by
  rw [intText, intText] at h
  split at h <;> split at h
  · have habs := natText_injective (String.append_right_inj _ |>.mp h)
    omega
  · exact absurd h (minus_natText_ne _ _)
  · exact absurd h.symm (minus_natText_ne _ _)
  · have habs := natText_injective h
    omega

/-- The hour and the minute are read off the clock. -/
theorem clockText_injective {t t' : TimeOfDay} (h : clockText t = clockText t') :
    t.hour = t'.hour ∧ t.minute = t'.minute := by
  have hparts (t : TimeOfDay) : (clockText t).toList =
      paddedDigits 2 t.hour ++ ':' :: paddedDigits 2 t.minute := by
    simp [clockText]
  have hcolon (n : ℕ) : ':' ∉ paddedDigits 2 n :=
    fun hmem => absurd (isDigit_of_mem_paddedDigits hmem) (by decide)
  have heq := congrArg String.toList h
  rw [hparts, hparts] at heq
  obtain ⟨hhour, hminute⟩ := eq_of_append_separator (hcolon _) (hcolon _) heq
  constructor
  · rw [← digitsValue_paddedDigits 2 t.hour, hhour, digitsValue_paddedDigits]
  · rw [← digitsValue_paddedDigits 2 t.minute, hminute, digitsValue_paddedDigits]

/-! ### Names -/

/-- A weekday as the long form begins with it. -/
def Language.weekdayPhrase (l : Language) (w : Weekday) : List Char :=
  (capitalized (l.weekdayName w)).toList ++ [',', ' ']

/-- A month as the long form has it between the day and the year. -/
def Language.monthPhrase (l : Language) (m : ℕ) : List Char :=
  match l with
  | .en => (capitalized (l.monthName m)).toList ++ [' ']
  | .es => "de ".toList ++ (l.monthName m).toList ++ " de ".toList

/-- No weekday begins another one, in either language. -/
theorem eq_of_begins_weekday {l l' : Language} {w w' : Weekday}
    (h : l.weekdayPhrase w <+: l'.weekdayPhrase w') : l = l' ∧ w = w' := by
  rw [← List.isPrefixOf_iff_prefix] at h
  revert h
  cases l <;> cases l' <;> cases w <;> cases w' <;> decide +kernel

/-- No month begins another one of the same language. -/
theorem eq_of_begins_month {l : Language} {m m' : ℕ} (hm : 1 ≤ m ∧ m ≤ 12)
    (hm' : 1 ≤ m' ∧ m' ≤ 12) (h : l.monthPhrase m <+: l.monthPhrase m') : m = m' := by
  have htable : ∀ m ∈ List.range' 1 12, ∀ m' ∈ List.range' 1 12,
      (l.monthPhrase m).isPrefixOf (l.monthPhrase m') → m = m' := by
    cases l <;> decide +kernel
  exact htable m (List.mem_range'_1.mpr (by omega)) m' (List.mem_range'_1.mpr (by omega))
    (List.isPrefixOf_iff_prefix.mpr h)

/-! ### The long form -/

namespace Resolved

/-- The parts of the long form. -/
theorem longForm_eq (r : Resolved) : r.longForm.toList =
    r.language.weekdayPhrase r.moment.date.weekday ++
      ((natText r.moment.date.day).toList ++ ' ' ::
        (r.language.monthPhrase r.moment.date.month ++
          ((intText r.moment.date.year).toList ++ ',' ::
            (' ' :: (clockText r.moment.time).toList)))) := by
  obtain ⟨⟨d, t⟩, l⟩ := r
  cases l <;> simp [longForm, toString, Language.weekdayPhrase, Language.monthPhrase]

/-- Two dates have the same long form if language, date, hour and minute are the same, and only
then. -/
theorem longForm_eq_iff (r r' : Resolved) : r.longForm = r'.longForm ↔
    r.language = r'.language ∧ r.moment.date = r'.moment.date ∧
      r.moment.time.hour = r'.moment.time.hour ∧
      r.moment.time.minute = r'.moment.time.minute := by
  obtain ⟨⟨d, t⟩, l⟩ := r
  obtain ⟨⟨d', t'⟩, l'⟩ := r'
  constructor
  · intro h
    have hparts := congrArg String.toList h
    rw [longForm_eq, longForm_eq] at hparts
    have hweekday : l = l' ∧ d.weekday = d'.weekday := by
      rcases List.prefix_or_prefix_of_prefix (List.prefix_append _ _)
        (hparts ▸ List.prefix_append _ _) with hprefix | hprefix
      · exact (eq_of_begins_weekday hprefix).imp Eq.symm Eq.symm
      · exact eq_of_begins_weekday hprefix
    obtain ⟨rfl, hsame⟩ := hweekday
    simp only [hsame] at hparts
    obtain ⟨hday, hrest⟩ := eq_of_append_separator (not_mem_natText (by decide) _)
      (not_mem_natText (by decide) _) (List.append_cancel_left hparts)
    have hmonth : d.month = d'.month := by
      rcases List.prefix_or_prefix_of_prefix (List.prefix_append _ _)
        (hrest ▸ List.prefix_append _ _) with hprefix | hprefix
      · exact (eq_of_begins_month d'.month_mem d.month_mem hprefix).symm
      · exact eq_of_begins_month d.month_mem d'.month_mem hprefix
    rw [hmonth] at hrest
    obtain ⟨hyear, hclock⟩ := eq_of_append_separator
      (not_mem_intText (by decide) (by decide) _) (not_mem_intText (by decide) (by decide) _)
      (List.append_cancel_left hrest)
    have hdate : d = d' := Date.ext (intText_injective (String.toList_inj.mp hyear)) hmonth
      (natText_injective (String.toList_inj.mp hday))
    exact ⟨rfl, hdate, clockText_injective
      (String.toList_inj.mp (List.tail_eq_of_cons_eq hclock))⟩
  · rintro ⟨rfl, rfl, hhour, hminute⟩
    have hhour : t.hour = t'.hour := hhour
    have hminute : t.minute = t'.minute := hminute
    have hclock : clockText t = clockText t' := by
      rw [clockText, clockText, hhour, hminute]
    simp only [longForm, hclock]

end Resolved

end Reckon.DatePhrase
