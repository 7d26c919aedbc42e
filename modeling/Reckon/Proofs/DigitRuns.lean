/-
Runs of digits.

A run of a text is a stretch of digits that cannot be made longer. A text may be cut next to any
other character, and then each of its runs lies on one side of the cut.

* `IsRun` : what a run is.
* `isRun_append` : cutting a text.
* `runs`, `mem_runs` : the runs of a text in their order.
* `isRun_collapse` : collapsing a text keeps its runs.
-/
import Reckon.Proofs.Reflection
import Reckon.Proofs.Words

namespace Reckon.Text

/-! ### Runs of digits -/

/-- There is no digit. -/
def NoDigit (o : Option Char) : Prop :=
  ∀ c ∈ o, c.isDigit = false

/-- The text `r` is a run of digits in the text `s`: digits, with no further digit in front of them
or behind them. -/
def IsRun (r s : List Char) : Prop :=
  r ≠ [] ∧ (∀ c ∈ r, c.isDigit = true) ∧
    ∃ u v, s = u ++ (r ++ v) ∧ NoDigit u.getLast? ∧ NoDigit v.head?

instance (o : Option Char) : Decidable (NoDigit o) :=
  inferInstanceAs (Decidable (∀ c ∈ o, _))

theorem noDigit_none : NoDigit none :=
  fun _ hc => nomatch hc

theorem noDigit_some {c : Char} : NoDigit (some c) ↔ c.isDigit = false :=
  ⟨fun h => h c rfl, fun h _ hd => Option.some.inj hd ▸ h⟩

theorem noDigit_getLast?_append {x y : List Char} (hx : NoDigit x.getLast?)
    (hy : NoDigit y.getLast?) : NoDigit (x ++ y).getLast? := by
  rw [List.getLast?_append]
  cases hlast : y.getLast? with
  | none => exact hx
  | some c =>
    rw [hlast] at hy
    exact hy

theorem noDigit_head?_append {x y : List Char} (hx : NoDigit x.head?) (hy : NoDigit y.head?) :
    NoDigit (x ++ y).head? := by
  cases x with
  | nil => exact hy
  | cons c x => exact hx

theorem noDigit_getLast?_of_append {x y : List Char} (h : NoDigit (x ++ y).getLast?) :
    NoDigit y.getLast? := by
  rw [List.getLast?_append] at h
  cases hlast : y.getLast? with
  | none => exact noDigit_none
  | some c => rwa [hlast] at h

theorem noDigit_head?_of_append {x y : List Char} (h : NoDigit (x ++ y).head?) :
    NoDigit x.head? := by
  cases x with
  | nil => exact noDigit_none
  | cons c x => exact h

/-- Where a text is cut next to another character, each of its runs lies on one side. -/
theorem isRun_append {r a b : List Char} (h : NoDigit a.getLast? ∨ NoDigit b.head?) :
    IsRun r (a ++ b) ↔ IsRun r a ∨ IsRun r b := by
  constructor
  · rintro ⟨hne, hdigits, u, v, hs, hu, hv⟩
    rcases List.append_eq_append_iff.mp hs with ⟨a', rfl, rfl⟩ | ⟨c, rfl, hc⟩
    · exact Or.inr ⟨hne, hdigits, a', v, rfl, noDigit_getLast?_of_append hu, hv⟩
    · rcases List.append_eq_append_iff.mp hc with ⟨a', rfl, rfl⟩ | ⟨c', rfl, rfl⟩
      · exact Or.inl ⟨hne, hdigits, u, a', rfl, hu, noDigit_head?_of_append hv⟩
      · -- the run would have a part on each side
        rcases List.eq_nil_or_concat c with rfl | ⟨w, d, rfl⟩
        · exact Or.inr ⟨hne, hdigits, [], v, rfl, noDigit_none, hv⟩
        · cases c' with
          | nil =>
            rw [List.append_nil] at hne hdigits ⊢
            exact Or.inl ⟨hne, hdigits, u, [], by simp, hu, noDigit_none⟩
          | cons e w' =>
            exfalso
            rcases h with h | h
            · have hd := h d (by simp)
              rw [hdigits d (by simp)] at hd
              cases hd
            · have he := h e (by simp)
              rw [hdigits e (by simp)] at he
              cases he
  · rintro (⟨hne, hdigits, u, v, rfl, hu, hv⟩ | ⟨hne, hdigits, u, v, rfl, hu, hv⟩)
    · refine ⟨hne, hdigits, u, v ++ b, by simp, hu, ?_⟩
      cases v with
      | cons c v => exact hv
      | nil =>
        refine h.resolve_left fun hlast => ?_
        obtain ⟨w, d, rfl⟩ := (List.eq_nil_or_concat r).resolve_left hne
        have hd := hlast d (by simp)
        rw [hdigits d (by simp)] at hd
        cases hd
    · refine ⟨hne, hdigits, a ++ u, v, by simp, ?_, hv⟩
      rcases List.eq_nil_or_concat u with rfl | ⟨u, d, rfl⟩
      · rw [List.append_nil]
        refine h.resolve_right fun hhead => ?_
        obtain ⟨d, w, rfl⟩ := List.exists_cons_of_ne_nil hne
        have hd := hhead d (by simp)
        rw [hdigits d (by simp)] at hd
        cases hd
      · simpa using hu

theorem not_isRun_of_noDigit {r s : List Char} (h : ∀ c ∈ s, c.isDigit = false) : ¬ IsRun r s := by
  rintro ⟨hne, hdigits, u, v, rfl, -, -⟩
  obtain ⟨c, w, rfl⟩ := List.exists_cons_of_ne_nil hne
  have hc := h c (by simp)
  rw [hdigits c (by simp)] at hc
  cases hc

theorem isRun_cons {r s : List Char} {c : Char} (hc : NoDigit (some c)) :
    IsRun r (c :: s) ↔ IsRun r s := by
  have hcut : NoDigit [c].getLast? := hc
  have hempty : ¬ IsRun r [c] := not_isRun_of_noDigit (by simpa using noDigit_some.mp hc)
  rw [← List.singleton_append, isRun_append (Or.inl hcut), or_iff_right hempty]

/-- Digits have one run, all of them. -/
theorem eq_of_isRun {r s : List Char} (h : IsRun r s) (hs : ∀ c ∈ s, c.isDigit = true) : r = s := by
  obtain ⟨-, -, u, v, rfl, hu, hv⟩ := h
  rcases List.eq_nil_or_concat u with rfl | ⟨u, d, rfl⟩
  · cases v with
    | nil => simp
    | cons d v =>
      have hd := hv d rfl
      rw [hs d (by simp)] at hd
      cases hd
  · have hd := hu d (by simp)
    rw [hs d (by simp)] at hd
    cases hd

/-- The runs of a text in their order, where the digits `d` have been read already. -/
def runsAfter (d : List Char) : List Char → List (List Char)
  | [] => if d.isEmpty then [] else [d]
  | c :: s =>
    if c.isDigit then runsAfter (d ++ [c]) s
    else (if d.isEmpty then [] else [d]) ++ runsAfter [] s

theorem mem_runsAfter {r d s : List Char} (hd : ∀ c ∈ d, c.isDigit = true) :
    r ∈ runsAfter d s ↔ IsRun r (d ++ s) := by
  have hread (d : List Char) (hd : ∀ c ∈ d, c.isDigit = true) :
      r ∈ (if d.isEmpty then [] else [d] : List (List Char)) ↔ IsRun r d := by
    constructor
    · intro h
      split at h
      · cases h
      · next hne =>
        rw [List.mem_singleton] at h
        rw [h]
        exact ⟨by simpa using hne, hd, [], [], by simp, noDigit_none, noDigit_none⟩
    · intro h
      have heq := eq_of_isRun h hd
      subst heq
      rw [if_neg (by simpa using h.1)]
      exact List.mem_singleton.mpr rfl
  induction s generalizing d with
  | nil => rw [runsAfter, hread d hd, List.append_nil]
  | cons c s ih =>
    rw [runsAfter]
    split
    · next hc =>
      have hmore : ∀ e ∈ d ++ [c], e.isDigit = true := by
        intro e he
        rcases List.mem_append.mp he with he | he
        · exact hd e he
        · rwa [List.mem_singleton.mp he]
      have hrest := ih hmore
      rwa [List.append_assoc, List.singleton_append] at hrest
    · next hc =>
      have hnone : NoDigit (c :: s).head? := noDigit_some.mpr (by simpa using hc)
      have hrest : r ∈ runsAfter [] s ↔ IsRun r s := ih (d := []) (by simp)
      rw [List.mem_append, hread d hd, hrest, isRun_append (Or.inr hnone), isRun_cons hnone]

/-- The runs of a text. -/
def runs (s : List Char) : List (List Char) :=
  runsAfter [] s

theorem mem_runs {r s : List Char} : r ∈ runs s ↔ IsRun r s :=
  mem_runsAfter fun _ hc => nomatch hc

instance (r s : List Char) : Decidable (IsRun r s) :=
  decidable_of_iff _ mem_runs

/-! ### Blanks -/

theorem not_isDigit_of_isBlank {c : Char} (h : isBlank c = true) : c.isDigit = false :=
  forall_isBlank (p := fun c => c.isDigit = false) (by decide) h

theorem not_isDecimalDigit_of_isBlank {c : Char} (h : isBlank c = true) :
    isDecimalDigit c = false :=
  forall_isBlank (p := fun c => isDecimalDigit c = false) (by decide) h

theorem isRun_words {r s : List Char} : IsRun r s ↔ ∃ w ∈ words s, IsRun r w := by
  -- by induction on the length: a word is passed over at once
  induction hn : s.length using Nat.strong_induction_on generalizing s with
  | _ n ih =>
    subst hn
    cases s with
    | nil =>
      refine iff_of_false (not_isRun_of_noDigit fun _ hc => nomatch hc) ?_
      rintro ⟨w, hw, -⟩
      cases hw
    | cons c s =>
      by_cases hc : isBlank c = true
      · have hnone : NoDigit (some c) := noDigit_some.mpr (not_isDigit_of_isBlank hc)
        rw [words_of_isBlank s hc, ← ih s.length (Nat.lt_succ_self _) rfl, isRun_cons hnone]
      · -- the first word, and the rest behind it
        obtain ⟨w, t, hs, hw, ht⟩ : ∃ w t, c :: s = w ++ t ∧ IsWord w ∧
            t.head?.all isBlank = true := by
          refine ⟨(c :: s).takeWhile fun d => !isBlank d, (c :: s).dropWhile fun d => !isBlank d,
            List.takeWhile_append_dropWhile.symm, ⟨?_, fun d hd => ?_⟩, ?_⟩
          · rw [List.takeWhile_cons_of_pos (by simpa using hc)]
            exact List.cons_ne_nil _ _
          · simpa using List.all_eq_true.mp List.all_takeWhile d hd
          · have hnot := List.head?_dropWhile_not (fun d => !isBlank d) (c :: s)
            cases hhead : ((c :: s).dropWhile fun d => !isBlank d).head? with
            | none => rfl
            | some d =>
              rw [hhead] at hnot
              simpa using hnot
        have hnone : NoDigit t.head? := by
          intro d hd
          rw [Option.mem_def.mp hd] at ht
          exact not_isDigit_of_isBlank ht
        have hlt : t.length < (c :: s).length := by
          have hpos := List.length_pos_of_ne_nil hw.1
          rw [hs, List.length_append]
          omega
        rw [hs, words_append hw ht, isRun_append (Or.inr hnone), ih t.length hlt rfl]
        simp

/-- Collapsing keeps the runs. -/
theorem isRun_collapse {r s : List Char} : IsRun r (collapse s) ↔ IsRun r s := by
  rw [isRun_words, words_collapse, ← isRun_words]

end Reckon.Text
