/-
From one pass to all.

A replacement whose matches can share a character makes pass after pass until the text no longer
changes. This ends: each pass that changes the text makes it lighter, if every match weighs more
than what is put in its place. So the number of passes does not matter as long as it is large
enough.

* `UsesUp` : a repeated replacement uses up characters.
* `apply_eq_iterate`, `pass_apply` : any number of passes that is large enough, after which nothing
  changes.
* `apply_rel` : what one pass carries from two texts to what becomes of them.
* `Settles`, `settles_iff` : passes without a bound on their number.
-/
import Reckon.Proofs.Weight

namespace Reckon.Replacement

variable {r : Replacement}

theorem settle_eq_iterate (n : ℕ) (s : List Char) : r.settle n s = r.pass^[n] s := by
  induction n generalizing s with
  | zero => rfl
  | succ n ih =>
    rw [settle, Function.iterate_succ_apply, ← ih]
    split
    · next hsame => rw [hsame, r.settle_of_pass_eq_self n s hsame]
    · rfl

theorem weigh_pass_lt {w : Char → ℕ} (hr : r.losesWeight w = true) {s : List Char}
    (h : r.pass s ≠ s) : weigh w (r.pass s) < weigh w s := by
  cases hmeets : r.meets none s with
  | false => exact absurd (r.passFrom_of_not_meets hmeets) h
  | true => exact weigh_passFrom_lt hr hmeets

/-- Where each pass that changes a text makes it lighter, as many passes as the text weighs are
enough. -/
theorem pass_iterate_of_weigh_le {w : Char → ℕ} (hr : r.losesWeight w = true) {n : ℕ}
    {s : List Char} (hn : weigh w s ≤ n) : r.pass (r.pass^[n] s) = r.pass^[n] s := by
  induction n generalizing s with
  | zero =>
    by_contra hne
    exact Nat.not_lt_zero _ ((weigh_pass_lt hr hne).trans_le hn)
  | succ n ih =>
    by_cases hsame : r.pass s = s
    · rw [Function.iterate_fixed hsame, hsame]
    · rw [Function.iterate_succ_apply]
      exact ih (Nat.le_of_lt_succ ((weigh_pass_lt hr hsame).trans_le hn))

/-- If the replacement is repeated, each pass that changes a text uses up characters. -/
def UsesUp (r : Replacement) (w : Char → ℕ) : Prop :=
  r.repeats = true → r.losesWeight w = true ∧ ∀ c, w c ≤ 1

theorem weigh_le_length {w : Char → ℕ} (hw : ∀ c, w c ≤ 1) (s : List Char) :
    weigh w s ≤ s.length := by
  induction s with
  | nil => exact le_rfl
  | cons c s ih =>
    have hc := hw c
    rw [weigh_cons, List.length_cons]
    omega

/-- A repeated replacement makes any number of passes that is large enough. -/
theorem apply_eq_iterate {w : Char → ℕ} (hr : r.UsesUp w) (hrepeats : r.repeats = true)
    {n : ℕ} {s : List Char} (hn : s.length ≤ n) : r.apply s = r.pass^[n] s := by
  obtain ⟨hloses, hw⟩ := hr hrepeats
  obtain ⟨k, rfl⟩ := Nat.exists_eq_add_of_le' hn
  have hfixed := pass_iterate_of_weigh_le hloses (weigh_le_length hw s)
  rw [apply, if_pos hrepeats, settle_eq_iterate, Function.iterate_add_apply,
    Function.iterate_fixed hfixed]

/-- Behind those passes nothing changes. -/
theorem pass_apply {w : Char → ℕ} (hr : r.UsesUp w) (hrepeats : r.repeats = true) (s : List Char) :
    r.pass (r.apply s) = r.apply s := by
  obtain ⟨hloses, hw⟩ := hr hrepeats
  rw [apply_eq_iterate hr hrepeats le_rfl]
  exact pass_iterate_of_weigh_le hloses (weigh_le_length hw s)

/-- What one pass carries from two texts to what becomes of them, the whole replacement does. -/
theorem apply_rel {w : Char → ℕ} (hr : r.UsesUp w) {R : List Char → List Char → Prop}
    (hpass : ∀ s s', R s s' → R (r.pass s) (r.pass s')) {s s' : List Char} (h : R s s') :
    R (r.apply s) (r.apply s') := by
  have hiterate (n : ℕ) : R (r.pass^[n] s) (r.pass^[n] s') := by
    induction n with
    | zero => exact h
    | succ n ih =>
      rw [Function.iterate_succ_apply', Function.iterate_succ_apply']
      exact hpass _ _ ih
  cases hrepeats : r.repeats with
  | false =>
    rw [apply, apply, hrepeats]
    exact hpass _ _ h
  | true =>
    -- the number of passes is the length of the text, so both get as many as the longer one
    rw [apply_eq_iterate hr hrepeats (le_max_left s.length s'.length),
      apply_eq_iterate hr hrepeats (le_max_right s.length s'.length)]
    exact hiterate _

/-! ### Passes without a bound -/

/-- Pass after pass is made on a text until one of them changes nothing, and the second text is what
is left then. -/
inductive Settles (r : Replacement) : List Char → List Char → Prop
  | done {s : List Char} (hsame : r.pass s = s) : Settles r s s
  | again {s t : List Char} (hchanged : r.pass s ≠ s) (hrest : Settles r (r.pass s) t) :
    Settles r s t

theorem Settles.unique {s t t' : List Char} (h : r.Settles s t) (h' : r.Settles s t') : t = t' := by
  induction h with
  | done hsame =>
    cases h' with
    | done _ => rfl
    | again hchanged _ => exact absurd hsame hchanged
  | again hchanged _ ih =>
    cases h' with
    | done hsame => exact absurd hsame hchanged
    | again _ hrest => exact ih hrest

theorem settles_iterate {n : ℕ} {s : List Char} (h : r.pass (r.pass^[n] s) = r.pass^[n] s) :
    r.Settles s (r.pass^[n] s) := by
  induction n generalizing s with
  | zero => exact .done h
  | succ n ih =>
    by_cases hsame : r.pass s = s
    · rw [Function.iterate_fixed hsame]
      exact .done hsame
    · rw [Function.iterate_succ_apply] at h ⊢
      exact .again hsame (ih h)

/-- The passes of a repeated replacement end, and they leave what it makes of the text. -/
theorem settles_iff {w : Char → ℕ} (hr : r.UsesUp w) (hrepeats : r.repeats = true)
    {s t : List Char} : r.Settles s t ↔ t = r.apply s := by
  have hends : r.Settles s (r.apply s) := by
    have hfixed := pass_apply hr hrepeats s
    rw [apply_eq_iterate hr hrepeats le_rfl] at hfixed ⊢
    exact settles_iterate hfixed
  constructor
  · intro h
    exact h.unique hends
  · rintro rfl
    exact hends

end Reckon.Replacement
