/-
Normal forms that are their own normal forms.

A normal form need not be: from `pi^2` comes the power `3.141592653589793^2`, and only when this is
normalized, its call. But each replacement makes the text that it changes lighter, when the
occurrences of `i` and `π` count before all else: the constant goes and never comes back, and what
stands for an operator weighs more than the operator. Only the sign for multiplication that is put
in front of the constant is added, and then the constant is replaced. So a text in which a
replacement has a match is not its own normal form, and normalizing again and again ends.

* `Lighter`, `wellFounded_lighter` : the order of texts.
* `Lightens` : a change that makes lighter what it changes.
* `lightens_reworded` : rewording makes texts lighter.
* `normalForm_eq_self_iff` : the normal forms that are their own normal forms.
* `normalForm_ne_self` : one that is not.
-/
import Reckon.Proofs.Lowered
import Reckon.Proofs.Weight
import Reckon.Proofs.Words
import Reckon.Wording

namespace Reckon.Wording

open Text

/-! ### The order -/

/-- The letter of the constant that no output has, and its sign. -/
def constantWeight (c : Char) : Nat :=
  if c = 'i' ∨ c = 'π' then 1 else 0

/-- The weights of other characters: what stands for an operator weighs more than the operator, and
letters weigh something. -/
def operatorWeight (c : Char) : Nat :=
  if c = 'e' then 7
  else if c ∈ ['^', '×', 'x', '%'] then 4
  else if c = '*' then 3
  else if c = 'r' then 2
  else if c.isLower ∨ c ∈ ['π', '÷', '=', '?', '¿', '!', '¡'] then 1
  else 0

/-- The first text has fewer constants, or no more of them and a smaller weight. -/
def Lighter (s t : List Char) : Prop :=
  weigh constantWeight s < weigh constantWeight t ∨
    weigh constantWeight s ≤ weigh constantWeight t ∧
      weigh operatorWeight s < weigh operatorWeight t

/-- The replacement of the constants with the sign for multiplication left out. -/
def coefficientRule : Replacement where
  pattern := .capture (.one .digit) ++ Pattern.blanks ++
    .capture (.either (Pattern.text "π") (Pattern.text "pi" ++ .boundary))
  output := [.kept 0, .text " * ", .kept 1]

/-- The replacement of the constant by its digits. -/
def constantRule : Replacement where
  pattern := .either (Pattern.text "π") (.boundary ++ Pattern.text "pi" ++ .boundary)
  output := [.text "3.141592653589793"]

/-- The replacements before those of the constant. -/
def frontRules : List Replacement :=
  symbols ++ operatorWords ++ fillers ++ meanings.take 8

/-- The replacements behind those of the constant. -/
def backRules : List Replacement :=
  meanings.drop 10

theorem rules_eq : rules = frontRules ++ [coefficientRule, constantRule] ++ backRules := rfl

theorem keepsWeight_constant : ∀ r ∈ rules, r.keepsWeight constantWeight = true := by
  decide

theorem losesWeight_operator : ∀ r ∈ frontRules ++ backRules,
    r.losesWeight operatorWeight = true := by
  decide

theorem losesWeight_constantRule : constantRule.losesWeight constantWeight = true := by
  decide

theorem Lighter.trans {s t u : List Char} (h : Lighter s t) (h' : Lighter t u) : Lighter s u := by
  rw [Lighter] at *
  omega

theorem not_lighter_self (s : List Char) : ¬ Lighter s s := by
  rw [Lighter]
  omega

theorem wellFounded_lighter : WellFounded Lighter := by
  refine Subrelation.wf (r := InvImage (Prod.Lex (· < ·) (· < ·))
    fun s => (weigh constantWeight s, weigh operatorWeight s)) ?_
    (InvImage.wf _ (Prod.lex Nat.lt_wfRel Nat.lt_wfRel).wf)
  intro s t h
  rcases h with hlt | ⟨hle, hlt⟩
  · exact .left _ _ hlt
  · rcases Nat.lt_or_eq_of_le hle with hlt' | heq
    · exact .left _ _ hlt'
    · rw [InvImage, heq]
      exact .right _ hlt

/-! ### Changes that make texts lighter -/

/-- The change makes texts of this kind lighter and leaves others alone. -/
def Lightens (f : List Char → List Char) (kind : List Char → Prop) : Prop :=
  ∀ s, kind s ∧ Lighter (f s) s ∨ ¬ kind s ∧ f s = s

theorem Lightens.comp {f g : List Char → List Char} {kind kind' : List Char → Prop}
    (hf : Lightens f kind) (hg : Lightens g kind') :
    Lightens (fun s => g (f s)) fun s => kind s ∨ kind' s := by
  intro s
  rcases hf s with ⟨hkind, hlighter⟩ | ⟨hkind, hsame⟩
  · refine Or.inl ⟨Or.inl hkind, ?_⟩
    rcases hg (f s) with ⟨-, hlighter'⟩ | ⟨-, hsame⟩
    · exact hlighter'.trans hlighter
    · rw [← hsame] at hlighter
      exact hlighter
  · dsimp only
    rw [hsame]
    rcases hg s with ⟨hkind', hlighter⟩ | ⟨hkind', hsame'⟩
    · exact Or.inl ⟨Or.inr hkind', hlighter⟩
    · exact Or.inr ⟨fun h => h.elim hkind hkind', hsame'⟩

theorem Lightens.congr {f : List Char → List Char} {kind kind' : List Char → Prop}
    (h : Lightens f kind) (hkinds : ∀ s, kind s ↔ kind' s) : Lightens f kind' := by
  intro s
  rw [← hkinds s]
  exact h s

theorem lightens_foldl {rs : List Replacement}
    (h : ∀ r ∈ rs, Lightens r.apply fun s => r.meets none s = true) :
    Lightens (fun s => rs.foldl (fun t r => r.apply t) s)
      fun s => ∃ r ∈ rs, r.meets none s = true := by
  induction rs with
  | nil => exact fun s => Or.inr ⟨by simp, rfl⟩
  | cons r rs ih =>
    have hrest := ih fun r' hr' => h r' (List.mem_cons_of_mem _ hr')
    exact ((h r (by simp)).comp hrest).congr fun s => by simp

theorem lightens_of_losesWeight {r : Replacement} (hconstant : r.keepsWeight constantWeight = true)
    (hoperator : r.losesWeight operatorWeight = true) :
    Lightens r.apply fun s => r.meets none s = true := by
  intro s
  by_cases hmeets : r.meets none s = true
  · exact Or.inl ⟨hmeets, Or.inr ⟨Replacement.weigh_apply_le hconstant s,
      Replacement.weigh_apply_lt hoperator hmeets⟩⟩
  · exact Or.inr ⟨hmeets, r.apply_of_not_meets (by simpa using hmeets)⟩

/-! ### Constants behind digits -/

/-- The constant is its sign, or its letters at the end of a word. -/
theorem exists_constant_of_mem {p : Place} {m : Match}
    (h : m ∈ (Pattern.either (Pattern.text "π") (Pattern.text "pi" ++ .boundary)).allMatches p) :
    ∃ k t, p.after = k ++ t ∧ m.captures = [] ∧ m.size = k.length ∧
      (k = ['π'] ∨ k = ['p', 'i'] ∧ isBoundary (some 'i') t.head? = true) := by
  rcases List.mem_append.mp h with hsign | hword
  · obtain ⟨t, ht, rfl⟩ := Pattern.mem_allMatches_text.mp hsign
    exact ⟨['π'], t, ht, rfl, rfl, Or.inl rfl⟩
  · obtain ⟨_, hletters, hword⟩ := List.mem_flatMap.mp hword
    obtain ⟨stop, hbound, rfl⟩ := List.mem_map.mp hword
    obtain ⟨t, ht, rfl⟩ := Pattern.mem_allMatches_text.mp hletters
    rw [Pattern.allMatches] at hbound
    split at hbound
    · next hboundary =>
      rw [List.mem_singleton] at hbound
      subst hbound
      exact ⟨['p', 'i'], t, ht, rfl, rfl, Or.inr ⟨rfl, hboundary⟩⟩
    · cases hbound

/-- A match begins with a digit and ends with the constant. -/
theorem parts_of_coefficient {before : Option Char} {c : Char} {s : List Char} {m : Match}
    (h : coefficientRule.matchAt ⟨before, c :: s⟩ = some m) :
    ∃ k d t, s = d ++ t ∧ d.length = m.size - 1 ∧
      coefficientRule.fill m = c :: ' ' :: '*' :: ' ' :: k ∧
      (k = ['π'] ∨ k = ['p', 'i'] ∧ isBoundary (some 'i') t.head? = true) := by
  obtain ⟨hm, -⟩ := Replacement.mem_of_matchAt h
  obtain ⟨_, hfront, hm⟩ := List.mem_flatMap.mp hm
  obtain ⟨_, hback, rfl⟩ := List.mem_map.mp hm
  obtain ⟨_, hdigit, hfront⟩ := List.mem_flatMap.mp hfront
  obtain ⟨gap, hgap, rfl⟩ := List.mem_map.mp hfront
  obtain ⟨digit, hone, rfl⟩ := List.mem_map.mp hdigit
  obtain ⟨constant, hconstant, rfl⟩ := List.mem_map.mp hback
  have hdigit : digit = ⟨⟨some c, s⟩, 1, []⟩ := by
    rw [Pattern.allMatches] at hone
    dsimp only at hone
    split at hone
    · exact List.mem_singleton.mp hone
    · cases hone
  subst hdigit
  have hempty : gap.captures = [] := Pattern.captures_of_plain (a := Pattern.blanks) rfl hgap
  obtain ⟨hsize, hstop⟩ := Pattern.sound _ _ _ hgap
  dsimp only at hsize hstop hconstant ⊢
  have hsplit : s = s.take gap.size ++ gap.stop.after := by
    rw [hstop, List.take_append_drop]
  have hlen : (s.take gap.size).length = gap.size := List.length_take_of_le hsize
  obtain ⟨k, t, hk, hconst, hlength, hcases⟩ := exists_constant_of_mem hconstant
  refine ⟨k, s.take gap.size ++ k, t, ?_, ?_, ?_, hcases⟩
  · rw [List.append_assoc, ← hk, ← hsplit]
  · rw [List.length_append, hlen, hlength]
    omega
  · simp [Replacement.fill, coefficientRule, Piece.chars, Stretch.chars, hempty, hconst, hk,
      hlength]

/-- What comes behind a match begins as before. -/
theorem head_passFrom_coefficient (before : Option Char) (s : List Char) :
    (coefficientRule.passFrom before 0 s).head? = s.head? := by
  cases s with
  | nil => rfl
  | cons c s =>
    rw [Replacement.passFrom]
    cases hm : coefficientRule.matchAt ⟨before, c :: s⟩ with
    | none => rfl
    | some m =>
      obtain ⟨k, d, t, -, -, hfill, -⟩ := parts_of_coefficient hm
      simp [hfill]

theorem isSome_matchAt_constant {k t : List Char}
    (h : k = ['π'] ∨ k = ['p', 'i'] ∧ isBoundary (some 'i') t.head? = true) :
    (constantRule.matchAt ⟨some ' ', k ++ t⟩).isSome = true := by
  have happend (a b : Pattern) : a ++ b = .seq a b := rfl
  have hbegin : isBoundary (some ' ') (some 'p') = true := by decide
  rcases h with rfl | ⟨rfl, hend⟩
  · simp [Replacement.matchAt, Pattern.firstMatch, constantRule, Pattern.allMatches, Pattern.text,
      CharClass.holds, happend]
  · simp [Replacement.matchAt, Pattern.firstMatch, constantRule, Pattern.allMatches, Pattern.text,
      CharClass.holds, happend, hbegin, hend]

/-- Behind the sign that has been put in front of it, the constant is replaced. -/
theorem meets_constant {before : Option Char} {s : List Char}
    (h : coefficientRule.meets before s = true) (b : Option Char) :
    constantRule.meets b (coefficientRule.passFrom before 0 s) = true := by
  induction s generalizing before b with
  | nil => cases h
  | cons c s ih =>
    rw [Replacement.passFrom]
    cases hm : coefficientRule.matchAt ⟨before, c :: s⟩ with
    | none =>
      rw [Replacement.meets, hm] at h
      have hrest := ih h (some c)
      simp [Replacement.meets, hrest]
    | some m =>
      obtain ⟨k, d, t, rfl, hlength, hfill, hk⟩ := parts_of_coefficient hm
      obtain ⟨b', hskip⟩ := coefficientRule.passFrom_skip (some c) d t
      -- the letters still end a word: what follows them keeps its first character
      rw [← head_passFrom_coefficient b' t] at hk
      have hfound := isSome_matchAt_constant hk
      show constantRule.meets b
        (coefficientRule.fill m ++ coefficientRule.passFrom (some c) (m.size - 1) (d ++ t)) = true
      rw [hfill, ← hlength, hskip]
      have hmeets : constantRule.meets (some ' ')
          (k ++ coefficientRule.passFrom b' 0 t) = true := by
        rcases hk with rfl | ⟨rfl, -⟩ <;> exact Bool.or_eq_true_iff.mpr (Or.inl hfound)
      simp [Replacement.meets, hmeets]

theorem lightens_constants :
    Lightens (fun s => constantRule.apply (coefficientRule.apply s))
      fun s => coefficientRule.meets none s = true ∨ constantRule.meets none s = true := by
  intro s
  by_cases hmeets : coefficientRule.meets none s = true
  · -- operators get heavier by the sign put in, but there is one constant less
    have hmem : coefficientRule ∈ rules := by simp [rules_eq]
    have hkept := Replacement.weigh_apply_le (keepsWeight_constant _ hmem) s
    have hlost := Replacement.weigh_apply_lt losesWeight_constantRule (meets_constant hmeets none)
    exact Or.inl ⟨Or.inl hmeets, Or.inl (hlost.trans_le hkept)⟩
  · have hsame : coefficientRule.apply s = s :=
      coefficientRule.apply_of_not_meets (by simpa using hmeets)
    dsimp only
    rw [hsame]
    by_cases hmeets' : constantRule.meets none s = true
    · have hlost := Replacement.weigh_apply_lt losesWeight_constantRule hmeets'
      exact Or.inl ⟨Or.inr hmeets', Or.inl hlost⟩
    · have hsame' := constantRule.apply_of_not_meets (by simpa using hmeets')
      exact Or.inr ⟨fun h => h.elim hmeets hmeets', hsame'⟩

/-- Rewording makes texts lighter in which a replacement has a match, and leaves others alone. -/
theorem lightens_reworded : Lightens reworded fun s => ∃ r ∈ rules, r.meets none s = true := by
  have hsingle : ∀ r ∈ frontRules ++ backRules,
      Lightens r.apply fun s => r.meets none s = true := by
    intro r hr
    have hmem : r ∈ rules := by
      rw [rules_eq]
      rcases List.mem_append.mp hr with hr | hr <;> simp [hr]
    exact lightens_of_losesWeight (keepsWeight_constant r hmem) (losesWeight_operator r hr)
  have hfront := lightens_foldl fun r hr => hsingle r (List.mem_append_left _ hr)
  have hback := lightens_foldl fun r hr => hsingle r (List.mem_append_right _ hr)
  have hall := (hfront.comp lightens_constants).comp hback
  have hfold : reworded = fun s => backRules.foldl (fun t r => r.apply t)
      (constantRule.apply (coefficientRule.apply (frontRules.foldl (fun t r => r.apply t) s))) := by
    funext s
    rw [reworded, rules_eq, List.foldl_append, List.foldl_append, List.foldl_cons, List.foldl_cons,
      List.foldl_nil]
  rw [hfold]
  refine hall.congr fun s => ?_
  simp only [rules_eq, List.mem_append, List.mem_cons, List.not_mem_nil, or_false, or_and_right,
    exists_or, exists_eq_left]

/-! ### Normal forms -/

theorem weigh_reworded_le {w : Char → Nat} (h : ∀ r ∈ rules, r.keepsWeight w = true)
    (s : List Char) : weigh w (reworded s) ≤ weigh w s := by
  rw [reworded]
  generalize rules = rs at h
  induction rs generalizing s with
  | nil => exact le_rfl
  | cons r rs ih =>
    have hrest := ih (r.apply s) fun r' hr' => h r' (List.mem_cons_of_mem _ hr')
    exact hrest.trans (Replacement.weigh_apply_le (h r (by simp)) s)

/-- Only blanks make the difference between a text and its collapsed form. -/
theorem weigh_collapse {w : Char → Nat} (h : ∀ c, isBlank c = true → w c = 0) (s : List Char) :
    weigh w (collapse s) = weigh w s := by
  have hdrop (s : List Char) : weigh w (dropBlanks s) = weigh w s := by
    induction s with
    | nil => rfl
    | cons c s ih =>
      rw [dropBlanks] at ih ⊢
      by_cases hc : isBlank c = true
      · rw [List.filter_cons_of_neg (by simp [hc]), ih, weigh_cons, h c hc, Nat.zero_add]
      · rw [List.filter_cons_of_pos (by simp [hc]), weigh_cons, weigh_cons, ih]
  rw [← hdrop, dropBlanks_collapse, hdrop]

/-- Characters that lower-casing changes weigh something. -/
def unsettledWeight (c : Char) : Nat :=
  if Settled c then 0 else 1

theorem settled_of_mem_normalForm {s : List Char} {c : Char} (hc : c ∈ normalForm s) :
    Settled c := by
  have hrules : ∀ r ∈ rules, r.keepsWeight unsettledWeight = true := by decide
  have hblank : ∀ c, isBlank c = true → unsettledWeight c = 0 :=
    fun c hc => if_pos (settled_of_isBlank hc)
  have hlower : weigh unsettledWeight (lower s) = 0 :=
    (weigh_eq_zero_iff _ _).mpr fun c hc => if_pos (settled_of_mem_lower hc)
  have hle := weigh_reworded_le hrules (collapse (lower s))
  have hnone : weigh unsettledWeight (normalForm s) = 0 := by
    rw [normalForm, weigh_collapse hblank]
    rw [weigh_collapse hblank, hlower] at hle
    omega
  have hweight := (weigh_eq_zero_iff _ _).mp hnone c hc
  rw [unsettledWeight] at hweight
  by_contra hnot
  rw [if_neg hnot] at hweight
  cases hweight

/-- A normal form is in collapsed lower case. -/
theorem collapse_lower_normalForm (s : List Char) :
    collapse (lower (normalForm s)) = normalForm s := by
  rw [lower_of_settled fun _ => settled_of_mem_normalForm, normalForm, collapse, words_collapse]
  rfl

/-- Normalizing makes normal forms lighter in which a replacement has a match, and leaves others
alone. -/
theorem lightens_normalForm (s : List Char) :
    (∃ r ∈ rules, r.meets none (normalForm s) = true) ∧
        Lighter (normalForm (normalForm s)) (normalForm s) ∨
      (¬ ∃ r ∈ rules, r.meets none (normalForm s) = true) ∧
        normalForm (normalForm s) = normalForm s := by
  have hconstant : ∀ c, isBlank c = true → constantWeight c = 0 :=
    fun c => forall_isBlank (p := fun c => constantWeight c = 0) (by decide)
  have hoperator : ∀ c, isBlank c = true → operatorWeight c = 0 :=
    fun c => forall_isBlank (p := fun c => operatorWeight c = 0) (by decide)
  have hform : normalForm (normalForm s) = collapse (reworded (normalForm s)) := by
    rw [normalForm, collapse_lower_normalForm]
  rw [hform]
  rcases lightens_reworded (normalForm s) with ⟨hmeets, hlighter⟩ | ⟨hmeets, hsame⟩
  · refine Or.inl ⟨hmeets, ?_⟩
    rwa [Lighter, weigh_collapse hconstant, weigh_collapse hoperator]
  · refine Or.inr ⟨hmeets, ?_⟩
    rw [hsame, ← collapse_lower_normalForm, collapse, words_collapse]
    rfl

/-- A normal form is its own normal form exactly when no replacement has a match in it, and
normalizing again and again comes to such a form. -/
theorem normalForm_eq_self_iff (s : List Char) :
    (normalForm (normalForm s) = normalForm s ↔
      ∀ r ∈ rules, r.meets none (normalForm s) = false) ∧
    ∃ n, normalForm (normalForm^[n] s) = normalForm^[n] s := by
  constructor
  · rcases lightens_normalForm s with ⟨⟨r, hr, hmeets⟩, hlighter⟩ | ⟨hmeets, hsame⟩
    · constructor
      · intro hsame
        rw [hsame] at hlighter
        exact absurd hlighter (not_lighter_self _)
      · intro hnone
        rw [hnone r hr] at hmeets
        cases hmeets
    · refine ⟨fun _ r hr => ?_, fun _ => hsame⟩
      by_contra hmeet
      exact hmeets ⟨r, hr, by simpa using hmeet⟩
  · -- by induction on the normal form in the order of texts
    have hends (t : List Char) : (∃ u, normalForm u = t) →
        ∃ n, normalForm (normalForm^[n] t) = normalForm^[n] t := by
      induction t using wellFounded_lighter.induction with
      | _ t ih =>
        rintro ⟨u, rfl⟩
        rcases lightens_normalForm u with ⟨-, hlighter⟩ | ⟨-, hsame⟩
        · obtain ⟨n, hn⟩ := ih _ hlighter ⟨_, rfl⟩
          exact ⟨n + 1, by rwa [Function.iterate_succ_apply]⟩
        · exact ⟨0, by rwa [Function.iterate_zero_apply]⟩
    obtain ⟨n, hn⟩ := hends (normalForm s) ⟨s, rfl⟩
    exact ⟨n + 1, by rwa [Function.iterate_succ_apply]⟩

/-- The normal form of `pi^2` is a power, and this has another normal form. -/
theorem normalForm_ne_self : normalForm "pi^2".toList = "3.141592653589793^2".toList ∧
    normalForm "3.141592653589793^2".toList = "pow(3.141592653589793,2)".toList ∧
    normalForm (normalForm "pi^2".toList) ≠ normalForm "pi^2".toList := by
  have hfirst : normalForm "pi^2".toList = "3.141592653589793^2".toList := by decide +kernel
  have hsecond : normalForm "3.141592653589793^2".toList =
      "pow(3.141592653589793,2)".toList := by
    decide +kernel
  refine ⟨hfirst, hsecond, ?_⟩
  rw [hfirst, hsecond]
  decide

end Reckon.Wording
