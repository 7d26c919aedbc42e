/-
Texts of timestamps.

A timestamp is written in one order of fields, each of a fixed width: the date, a mark, the time,
perhaps a fraction of seconds, and the offset from UTC. A text is accepted exactly when it is
written this way, and what it stands for are the fields that it is written from.

* `Number.paddedDigits_digitsValue` : digits are the padded digits of their value.
* `OffsetText`, `Stamp` : how offsets and timestamps are written.
* `Timestamp.readOffset?_eq_some_iff` : the offsets that are read.
* `Timestamp.parse?_eq_some_iff` : the texts that are accepted, and what they stand for.
-/
import Mathlib
import Reckon.Command.Timestamp
import Reckon.Proofs.CivilTime
import Reckon.Proofs.DisplayText
import Reckon.Proofs.Lexicon

namespace Reckon

open Calendar

/-! ### Digits of a fixed width -/

namespace Number

theorem exists_digit {c : Char} (hc : c.isDigit = true) :
    digitValue c < 10 ∧ c.toNat = 48 + digitValue c := by
  rw [Char.isDigit, Bool.and_eq_true, decide_eq_true_eq, decide_eq_true_eq] at hc
  have hlow : 48 ≤ c.toNat := hc.1
  have hhigh : c.toNat ≤ 57 := hc.2
  rw [digitValue, show '0'.toNat = 48 from rfl]
  omega

/-- Among digits of one width only one is read as a number. -/
theorem digitsValue_injective {ds es : List Char} (hds : ∀ c ∈ ds, c.isDigit = true)
    (hes : ∀ c ∈ es, c.isDigit = true) (hlength : ds.length = es.length)
    (h : digitsValue ds = digitsValue es) : ds = es := by
  induction ds using List.reverseRecOn generalizing es with
  | nil => exact (List.length_eq_zero_iff.mp hlength.symm).symm
  | append_singleton ds c ih =>
    rcases List.eq_nil_or_concat es with rfl | ⟨es, e, rfl⟩
    · simp at hlength
    · rw [List.concat_eq_append] at hes hlength h ⊢
      rw [digitsValue_append_singleton, digitsValue_append_singleton] at h
      obtain ⟨hclt, hc⟩ := exists_digit (hds c (by simp))
      obtain ⟨helt, he⟩ := exists_digit (hes e (by simp))
      -- the last digits are the remainders by ten
      have hlast : c = e := Char.toNat_inj.mp (by omega)
      have hinit : ds = es := by
        refine ih (fun x hx => hds x (by simp [hx])) (fun x hx => hes x (by simp [hx])) ?_ ?_
        · simpa using hlength
        · omega
      rw [hlast, hinit]

theorem digitsValue_lt {ds : List Char} (hds : ∀ c ∈ ds, c.isDigit = true) :
    digitsValue ds < 10 ^ ds.length := by
  induction ds using List.reverseRecOn with
  | nil => decide
  | append_singleton ds c ih =>
    have hlt := ih fun x hx => hds x (by simp [hx])
    have hc := (exists_digit (hds c (by simp))).1
    rw [digitsValue_append_singleton, List.length_append, List.length_singleton, pow_succ]
    omega

theorem paddedDigits_digitsValue {ds : List Char} (hne : ds ≠ [])
    (hds : ∀ c ∈ ds, c.isDigit = true) : paddedDigits ds.length (digitsValue ds) = ds :=
  digitsValue_injective (fun _ => isDigit_of_mem_paddedDigits) hds
    (length_paddedDigits (List.length_pos_of_ne_nil hne) (digitsValue_lt hds))
    (digitsValue_paddedDigits _ _)

end Number

namespace Command

open Number

/-! ### How timestamps are written -/

/-- How an offset from UTC is written. -/
inductive OffsetText
  | utc (c : Char) (hc : c ∈ ['Z', 'z'])
  | apart (sign : Char) (hour minute : ℕ) (hsign : sign ∈ ['+', '-', '−']) (hhour : hour < 24)
    (hminute : minute < 60)

namespace OffsetText

/-- The letter for UTC, or a sign with hours and minutes. -/
def chars : OffsetText → List Char
  | utc c _ => [c]
  | apart sign hour minute _ _ _ =>
    sign :: (paddedDigits 2 hour ++ ':' :: paddedDigits 2 minute)

/-- The seconds ahead of UTC. -/
def seconds : OffsetText → ℤ
  | utc _ _ => 0
  | apart sign hour minute _ _ _ =>
    if sign = '+' then 3600 * hour + 60 * minute else -(3600 * hour + 60 * minute)

theorem head_chars (x : OffsetText) : ∀ c ∈ x.chars.head?, c.isDigit = false ∧ c ≠ '.' := by
  have hnone {c : Char} (h : c ∈ ['Z', 'z'] ∨ c ∈ ['+', '-', '−']) :
      c.isDigit = false ∧ c ≠ '.' := by
    simp only [List.mem_cons, List.not_mem_nil, or_false] at h
    rcases h with (rfl | rfl) | (rfl | rfl | rfl) <;> decide
  intro c hc
  cases x with
  | utc z hz =>
    obtain rfl := Option.some.inj hc
    exact hnone (Or.inl hz)
  | apart sign hour minute hsign hhour hminute =>
    obtain rfl := Option.some.inj hc
    exact hnone (Or.inr hsign)

end OffsetText

/-- How a timestamp is written. A second of 60 is a leap second. The fraction of the seconds has any
number of digits, or none and no point. -/
structure Stamp where
  /-- The civil time, with the second before a leap second in its place. -/
  civil : Moment
  year_mem : 0 ≤ civil.date.year ∧ civil.date.year < 10000
  mark : Char
  mark_mem : mark ∈ ['T', 't', ' ']
  second : ℕ
  second_eq : civil.time.second = if second = 60 then 59 else second
  fraction : List Char
  isDigit_fraction : ∀ c ∈ fraction, c.isDigit = true
  offset : OffsetText

/-- A fraction of seconds behind its point. -/
def fractionChars : List Char → List Char
  | [] => []
  | ds => '.' :: ds

/-- The fields in their order, each with all its digits. -/
def Stamp.chars (x : Stamp) : List Char :=
  paddedDigits 4 x.civil.date.year.toNat ++ '-' :: (paddedDigits 2 x.civil.date.month ++
    '-' :: (paddedDigits 2 x.civil.date.day ++ x.mark :: (paddedDigits 2 x.civil.time.hour ++
      ':' :: (paddedDigits 2 x.civil.time.minute ++ ':' :: (paddedDigits 2 x.second ++
        (fractionChars x.fraction ++ x.offset.chars))))))

/-! ### How timestamps are read -/

namespace Timestamp

theorem readDigits?_eq_some_iff {n v : ℕ} (hn : 0 < n) {s r : List Char} :
    readDigits? n s = some (v, r) ↔ v < 10 ^ n ∧ s = paddedDigits n v ++ r := by
  rw [readDigits?]
  constructor
  · intro h
    split at h
    · next hdigits =>
      obtain ⟨hlength, hall⟩ := hdigits
      obtain ⟨rfl, rfl⟩ := Prod.mk.inj (Option.some.inj h)
      have hds : ∀ c ∈ s.take n, c.isDigit = true := List.all_eq_true.mp hall
      have hne : s.take n ≠ [] := by
        intro hnil
        rw [hnil] at hlength
        exact hn.ne hlength
      have hlt := digitsValue_lt hds
      have hpad := paddedDigits_digitsValue hne hds
      rw [hlength] at hlt hpad
      exact ⟨hlt, by rw [hpad, List.take_append_drop]⟩
    · cases h
  · rintro ⟨hlt, rfl⟩
    have hlength := length_paddedDigits hn hlt
    rw [List.take_left' hlength, List.drop_left' hlength, digitsValue_paddedDigits, if_pos]
    exact ⟨hlength, List.all_eq_true.mpr fun c => isDigit_of_mem_paddedDigits⟩

theorem readMark?_eq_some_iff {cs s r : List Char} :
    readMark? cs s = some r ↔ ∃ c ∈ cs, s = c :: r := by
  cases s with
  | nil => simp [readMark?]
  | cons c s =>
    rw [readMark?]
    constructor
    · intro h
      split at h
      · next hc => exact ⟨c, List.contains_iff_mem.mp hc, by rw [Option.some.inj h]⟩
      · cases h
    · rintro ⟨c, hc, hs⟩
      obtain ⟨rfl, rfl⟩ := List.cons_eq_cons.mp hs
      rw [if_pos (List.contains_iff_mem.mpr hc)]

/-- A fraction is read over to its end. -/
theorem exists_fraction {s r : List Char} (h : skipFraction? s = some r) :
    ∃ ds, (∀ c ∈ ds, c.isDigit = true) ∧ s = fractionChars ds ++ r := by
  rw [skipFraction?.eq_def] at h
  split at h
  · next s =>
    obtain ⟨ds, rest, hspan, hs, hds, -⟩ := Formula.exists_spanDigits s
    rw [hspan] at h
    cases ds with
    | nil => cases h
    | cons d ds =>
      obtain rfl := Option.some.inj h
      exact ⟨d :: ds, hds, congrArg ('.' :: ·) hs⟩
  · exact ⟨[], nofun, Option.some.inj h⟩

/-- What follows the seconds is read over up to the offset. -/
theorem skipFraction?_fractionChars {ds r : List Char} (hds : ∀ c ∈ ds, c.isDigit = true)
    (hr : ∀ c ∈ r.head?, c.isDigit = false ∧ c ≠ '.') :
    skipFraction? (fractionChars ds ++ r) = some r := by
  cases ds with
  | nil =>
    show skipFraction? r = some r
    rw [skipFraction?.eq_def]
    split
    · exact absurd rfl (hr '.' rfl).2
    · rfl
  | cons d ds =>
    have hspan := Formula.spanDigits_append hds fun c hc => (hr c hc).1
    show skipFraction? ('.' :: (d :: ds ++ r)) = some r
    rw [skipFraction?, hspan]

theorem readDigits?_paddedDigits {n v : ℕ} (hn : 0 < n) (hv : v < 10 ^ n) (r : List Char) :
    readDigits? n (paddedDigits n v ++ r) = some (v, r) :=
  (readDigits?_eq_some_iff hn).mpr ⟨hv, rfl⟩

theorem bind_eq_some {α β : Type} {x : Option α} {f : α → Option β} {a : α} {b : β}
    (ha : x = some a) (hb : f a = some b) : x >>= f = some b := by
  rw [ha]
  exact hb

/-- A number of a fixed width and the mark behind it. -/
theorem exists_mark {n v : ℕ} (hn : 0 < n) {cs s r r' : List Char}
    (hv : readDigits? n s = some (v, r)) (hmark : readMark? cs r = some r') :
    ∃ c ∈ cs, s = paddedDigits n v ++ c :: r' := by
  obtain ⟨c, hc, rfl⟩ := readMark?_eq_some_iff.mp hmark
  exact ⟨c, hc, ((readDigits?_eq_some_iff hn).mp hv).2⟩

theorem readOffsetSize?_eq_some_iff {s : List Char} {n : ℤ} :
    readOffsetSize? s = some n ↔ ∃ hour minute : ℕ, hour < 24 ∧ minute < 60 ∧
      s = paddedDigits 2 hour ++ ':' :: paddedDigits 2 minute ∧ 3600 * hour + 60 * minute = n := by
  constructor
  · intro h
    rw [readOffsetSize?] at h
    obtain ⟨⟨hour, s₁⟩, hhour, h⟩ := Option.bind_eq_some_iff.mp h
    obtain ⟨s₂, hcolon, h⟩ := Option.bind_eq_some_iff.mp h
    obtain ⟨⟨minute, s₃⟩, hminute, h⟩ := Option.bind_eq_some_iff.mp h
    obtain ⟨-, hs⟩ := (readDigits?_eq_some_iff two_pos).mp hhour
    obtain ⟨c, hc, hs₁⟩ := readMark?_eq_some_iff.mp hcolon
    obtain ⟨-, hs₂⟩ := (readDigits?_eq_some_iff two_pos).mp hminute
    dsimp only at h
    split at h
    · next hrange =>
      obtain ⟨hhour, hminute, hend⟩ := hrange
      refine ⟨hour, minute, hhour, hminute, ?_, ?_⟩
      · rw [hs, hs₁, hs₂, List.isEmpty_iff.mp hend, List.append_nil, List.mem_singleton.mp hc]
      · rw [← Option.some.inj h]
        push_cast
        rfl
    · cases h
  · rintro ⟨hour, minute, hhour, hminute, rfl, rfl⟩
    have hfirst : readDigits? 2 (paddedDigits 2 hour ++ ':' :: paddedDigits 2 minute) =
        some (hour, ':' :: paddedDigits 2 minute) :=
      (readDigits?_eq_some_iff two_pos).mpr ⟨by omega, rfl⟩
    have hsecond : readDigits? 2 (paddedDigits 2 minute) = some (minute, []) :=
      (readDigits?_eq_some_iff two_pos).mpr ⟨by omega, (List.append_nil _).symm⟩
    have hmark : readMark? [':'] (':' :: paddedDigits 2 minute) = some (paddedDigits 2 minute) :=
      rfl
    simp only [readOffsetSize?, hfirst, hmark, hsecond, Option.bind_eq_bind, Option.bind_some]
    rw [if_pos ⟨hhour, hminute, rfl⟩]
    push_cast
    rfl

theorem readOffset?_eq_some_iff {s : List Char} {n : ℤ} :
    readOffset? s = some n ↔ ∃ x : OffsetText, x.chars = s ∧ x.seconds = n := by
  constructor
  · intro h
    rw [readOffset?.eq_def] at h
    split at h
    · exact ⟨.utc 'Z' (by decide), rfl, Option.some.inj h⟩
    · exact ⟨.utc 'z' (by decide), rfl, Option.some.inj h⟩
    · obtain ⟨hour, minute, hhour, hminute, rfl, rfl⟩ := readOffsetSize?_eq_some_iff.mp h
      exact ⟨.apart '+' hour minute (by decide) hhour hminute, rfl, rfl⟩
    · obtain ⟨m, hm, rfl⟩ := Option.map_eq_some_iff.mp h
      obtain ⟨hour, minute, hhour, hminute, rfl, rfl⟩ := readOffsetSize?_eq_some_iff.mp hm
      exact ⟨.apart '-' hour minute (by decide) hhour hminute, rfl, rfl⟩
    · obtain ⟨m, hm, rfl⟩ := Option.map_eq_some_iff.mp h
      obtain ⟨hour, minute, hhour, hminute, rfl, rfl⟩ := readOffsetSize?_eq_some_iff.mp hm
      exact ⟨.apart '−' hour minute (by decide) hhour hminute, rfl, rfl⟩
    · cases h
  · rintro ⟨x, rfl, rfl⟩
    cases x with
    | utc c hc =>
      simp only [List.mem_cons, List.not_mem_nil, or_false] at hc
      rcases hc with rfl | rfl <;> rfl
    | apart sign hour minute hsign hhour hminute =>
      have hsize := readOffsetSize?_eq_some_iff.mpr ⟨hour, minute, hhour, hminute, rfl, rfl⟩
      simp only [List.mem_cons, List.not_mem_nil, or_false] at hsign
      rcases hsign with rfl | rfl | rfl
      · exact hsize
      · exact Option.map_eq_some_iff.mpr ⟨_, hsize, rfl⟩
      · exact Option.map_eq_some_iff.mpr ⟨_, hsize, rfl⟩

/-- What is accepted is written as a timestamp. -/
theorem exists_stamp {s : List Char} {t : Timestamp} (h : parse? s = some t) :
    ∃ x : Stamp, x.chars = s ∧ ⟨x.civil, x.offset.seconds⟩ = t := by
  rw [parse?] at h
  obtain ⟨⟨y, s₁⟩, hy, h⟩ := Option.bind_eq_some_iff.mp h
  obtain ⟨s₂, hdash, h⟩ := Option.bind_eq_some_iff.mp h
  obtain ⟨⟨m, s₃⟩, hm, h⟩ := Option.bind_eq_some_iff.mp h
  obtain ⟨s₄, hdash', h⟩ := Option.bind_eq_some_iff.mp h
  obtain ⟨⟨d, s₅⟩, hd, h⟩ := Option.bind_eq_some_iff.mp h
  obtain ⟨s₆, hmark, h⟩ := Option.bind_eq_some_iff.mp h
  obtain ⟨⟨hour, s₇⟩, hhour, h⟩ := Option.bind_eq_some_iff.mp h
  obtain ⟨s₈, hcolon, h⟩ := Option.bind_eq_some_iff.mp h
  obtain ⟨⟨minute, s₉⟩, hminute, h⟩ := Option.bind_eq_some_iff.mp h
  obtain ⟨s₁₀, hcolon', h⟩ := Option.bind_eq_some_iff.mp h
  obtain ⟨⟨second, s₁₁⟩, hsecond, h⟩ := Option.bind_eq_some_iff.mp h
  obtain ⟨s₁₂, hfraction, h⟩ := Option.bind_eq_some_iff.mp h
  obtain ⟨offset, hoffset, h⟩ := Option.bind_eq_some_iff.mp h
  obtain ⟨date, hdate, h⟩ := Option.bind_eq_some_iff.mp h
  obtain ⟨time, htime, h⟩ := Option.bind_eq_some_iff.mp h
  -- the fields and marks, from the front
  have hylt := ((readDigits?_eq_some_iff four_pos).mp hy).1
  obtain ⟨c₁, hc₁, hs⟩ := exists_mark four_pos hy hdash
  obtain ⟨c₂, hc₂, hs₂⟩ := exists_mark two_pos hm hdash'
  obtain ⟨mark, hmem, hs₄⟩ := exists_mark two_pos hd hmark
  obtain ⟨c₃, hc₃, hs₆⟩ := exists_mark two_pos hhour hcolon
  obtain ⟨c₄, hc₄, hs₈⟩ := exists_mark two_pos hminute hcolon'
  have hs₁₀ := ((readDigits?_eq_some_iff two_pos).mp hsecond).2
  obtain ⟨ds, hds, hs₁₁⟩ := exists_fraction hfraction
  obtain ⟨zone, hs₁₂, hseconds⟩ := readOffset?_eq_some_iff.mp hoffset
  obtain ⟨hyear, hmonth, hday⟩ := Date.of?_eq_some_iff.mp hdate
  obtain ⟨hhour', hminute', hsecond'⟩ := TimeOfDay.of?_eq_some_iff.mp htime
  have hrange : 0 ≤ date.year ∧ date.year < 10000 := by omega
  have hyear' : date.year.toNat = y := by omega
  refine ⟨⟨⟨date, time⟩, hrange, mark, hmem, second, hsecond', ds, hds, zone⟩, ?_, ?_⟩
  · rw [hs, hs₂, hs₄, hs₆, hs₈, hs₁₀, hs₁₁, ← hs₁₂, List.mem_singleton.mp hc₁,
      List.mem_singleton.mp hc₂, List.mem_singleton.mp hc₃, List.mem_singleton.mp hc₄, ← hmonth,
      ← hday, ← hhour', ← hminute', ← hyear']
    rfl
  · rw [← Option.some.inj h, hseconds]

/-- What is written as a timestamp is accepted. -/
theorem parse?_chars (x : Stamp) : parse? x.chars = some ⟨x.civil, x.offset.seconds⟩ := by
  have hyear := x.year_mem
  have hmonth := x.civil.date.month_mem
  have hday := x.civil.date.day_mem.2.trans (monthLength_le _ _)
  have hhour := x.civil.time.hour_lt
  have hminute := x.civil.time.minute_lt
  have hsecond := x.civil.time.second_lt
  have hdate : Date.of? x.civil.date.year.toNat x.civil.date.month x.civil.date.day =
      some x.civil.date := by
    rw [Int.toNat_of_nonneg hyear.1, Date.of?_self]
  have htime : TimeOfDay.of? x.civil.time.hour x.civil.time.minute
      (if x.second = 60 then 59 else x.second) = some x.civil.time :=
    TimeOfDay.of?_eq_some_iff.mpr ⟨rfl, rfl, x.second_eq⟩
  have hoffset : readOffset? x.offset.chars = some x.offset.seconds :=
    readOffset?_eq_some_iff.mpr ⟨x.offset, rfl, rfl⟩
  have hwritten : x.second < 100 := by
    rw [x.second_eq] at hsecond
    split at hsecond <;> omega
  have hdash (r : List Char) : readMark? ['-'] ('-' :: r) = some r := rfl
  have hcolon (r : List Char) : readMark? [':'] (':' :: r) = some r := rfl
  rw [parse?, Stamp.chars]
  -- every field takes its own digits and hands on what stands behind them
  refine bind_eq_some (readDigits?_paddedDigits four_pos (by omega) _) ?_
  refine bind_eq_some (hdash _) ?_
  refine bind_eq_some (readDigits?_paddedDigits two_pos (by omega) _) ?_
  refine bind_eq_some (hdash _) ?_
  refine bind_eq_some (readDigits?_paddedDigits two_pos (by omega) _) ?_
  refine bind_eq_some (readMark?_eq_some_iff.mpr ⟨_, x.mark_mem, rfl⟩) ?_
  refine bind_eq_some (readDigits?_paddedDigits two_pos (by omega) _) ?_
  refine bind_eq_some (hcolon _) ?_
  refine bind_eq_some (readDigits?_paddedDigits two_pos (by omega) _) ?_
  refine bind_eq_some (hcolon _) ?_
  refine bind_eq_some (readDigits?_paddedDigits two_pos hwritten _) ?_
  refine bind_eq_some (skipFraction?_fractionChars x.isDigit_fraction x.offset.head_chars) ?_
  refine bind_eq_some hoffset ?_
  refine bind_eq_some hdate ?_
  exact bind_eq_some htime rfl

theorem parse?_eq_some_iff {s : List Char} {t : Timestamp} :
    parse? s = some t ↔ ∃ x : Stamp, x.chars = s ∧ ⟨x.civil, x.offset.seconds⟩ = t := by
  constructor
  · exact exists_stamp
  · rintro ⟨x, rfl, rfl⟩
    exact parse?_chars x

end Timestamp

end Command

end Reckon
