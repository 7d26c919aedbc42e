/-
Runs of digits across what is dropped.

Words that only make a text a question are dropped, and so are some signs. Between two digits only
the signs can stand, since digits are word characters and a dropped phrase is a word of its own; but
once there is a sign, phrases can stand between it and further signs. Then the digits on both sides
become one run. Nothing else joins runs: what is put in for an operator keeps them apart.

* `Gap`, `Joined` : digits with dropped signs and phrases between them.
* `Joined.insert_sign`, `Joined.insert_phrase` : undoing one drop.
* `isRun_normalForm` : the runs of a normal form.
-/
import Reckon.Proofs.KeptRuns

namespace Reckon.Wording

open Text hiding blanks
open Pattern

/-! ### Digits with gaps -/

/-- The phrases that are dropped. -/
def droppedPhrases : List String :=
  ["what is", "what's", "how much is", "calculate", "equals", "cuánto es", "cuanto es", "calcular",
    "calcula", "igual a", "es"]

/-- The signs that are dropped. -/
def droppedSigns : List Char :=
  ['=', '?', '¿', '!', '¡']

/-- What can be dropped between two digits: signs, and phrases between signs. -/
inductive Gap (ws : List String) : List Char → Prop
  | sign {c : Char} (hc : c ∈ droppedSigns) : Gap ws [c]
  | signs {c : Char} {g : List Char} (hc : c ∈ droppedSigns) (hg : Gap ws g) : Gap ws (c :: g)
  | phrase {c : Char} {w : String} {g : List Char} (hc : c ∈ droppedSigns) (hw : w ∈ ws)
      (hg : Gap ws g) : Gap ws (c :: (w.toList ++ g))

/-- The text has the digits `r`, each followed directly by the next one or with a gap between
them. -/
inductive Joined (ws : List String) : List Char → List Char → Prop
  | digit {c : Char} (hc : c.isDigit = true) : Joined ws [c] [c]
  | next {c : Char} {r x : List Char} (hc : c.isDigit = true) (hx : Joined ws r x) :
      Joined ws (c :: r) (c :: x)
  | across {c : Char} {g r x : List Char} (hc : c.isDigit = true) (hg : Gap ws g)
      (hx : Joined ws r x) : Joined ws (c :: r) (c :: (g ++ x))

/-- The digits `r` stand in the text, with gaps or without, and no further digit is next to
them. -/
def JoinedIn (ws : List String) (r s : List Char) : Prop :=
  ∃ u x v, s = u ++ (x ++ v) ∧ NoDigit u.getLast? ∧ NoDigit v.head? ∧ Joined ws r x

section

variable {ws : List String} {r x : List Char}

theorem Gap.ne_nil {g : List Char} (h : Gap ws g) : g ≠ [] := by
  cases h <;> exact List.cons_ne_nil _ _

theorem Joined.exists_head (h : Joined ws r x) : ∃ c y, x = c :: y ∧ c.isDigit = true := by
  cases h with
  | digit hc => exact ⟨_, _, rfl, hc⟩
  | next hc _ => exact ⟨_, _, rfl, hc⟩
  | across hc _ _ => exact ⟨_, _, rfl, hc⟩

theorem Joined.exists_last (h : Joined ws r x) : ∃ y c, x = y ++ [c] ∧ c.isDigit = true := by
  induction h with
  | @digit c hc => exact ⟨[], c, rfl, hc⟩
  | @next c r x hc hx ih =>
    obtain ⟨y, d, rfl, hd⟩ := ih
    exact ⟨c :: y, d, rfl, hd⟩
  | @across c g r x hc hg hx ih =>
    obtain ⟨y, d, rfl, hd⟩ := ih
    exact ⟨c :: (g ++ y), d, by simp, hd⟩

theorem joined_of_digits (hr : r ≠ []) (hdigits : ∀ c ∈ r, c.isDigit = true) : Joined ws r r := by
  induction r with
  | nil => exact absurd rfl hr
  | cons c r ih =>
    have hc : c.isDigit = true := hdigits c (by simp)
    cases r with
    | nil => exact .digit hc
    | cons d r => exact .next hc (ih (by simp) fun e he => hdigits e (List.mem_cons_of_mem _ he))

theorem Joined.digits (h : Joined ws r x) : r ≠ [] ∧ ∀ c ∈ r, c.isDigit = true := by
  induction h with
  | digit hc => simpa using hc
  | next hc _ ih => exact ⟨by simp, List.forall_mem_cons.mpr ⟨hc, ih.2⟩⟩
  | across hc _ _ ih => exact ⟨by simp, List.forall_mem_cons.mpr ⟨hc, ih.2⟩⟩

/-- The character is neither a digit nor one that can be dropped. -/
def separates (ws : List String) (c : Char) : Bool :=
  !c.isDigit && !droppedSigns.contains c && ws.all fun w => !w.toList.contains c

theorem Gap.not_separates {g : List Char} (h : Gap ws g) :
    ∀ c ∈ g, separates ws c = false := by
  have hsign {c : Char} (hc : c ∈ droppedSigns) : separates ws c = false := by
    simp [separates, hc]
  induction h with
  | sign hc => simpa using hsign hc
  | signs hc _ ih => exact List.forall_mem_cons.mpr ⟨hsign hc, ih⟩
  | phrase hc hw _ ih =>
    refine List.forall_mem_cons.mpr ⟨hsign hc, List.forall_mem_append.mpr ⟨fun d hd => ?_, ih⟩⟩
    simpa [separates] using fun _ _ => ⟨_, hw, hd⟩

/-- No character that separates stands in digits with gaps. -/
theorem Joined.not_separates (h : Joined ws r x) : ∀ c ∈ x, separates ws c = false := by
  have hdigit {c : Char} (hc : c.isDigit = true) : separates ws c = false := by
    simp [separates, hc]
  induction h with
  | digit hc => simpa using hdigit hc
  | next hc _ ih => exact List.forall_mem_cons.mpr ⟨hdigit hc, ih⟩
  | across hc hg _ ih =>
    exact List.forall_mem_cons.mpr
      ⟨hdigit hc, List.forall_mem_append.mpr ⟨hg.not_separates, ih⟩⟩

end

theorem joinedIn_of_isRun {r s : List Char} (h : IsRun r s) (ws : List String) :
    JoinedIn ws r s := by
  obtain ⟨hne, hdigits, u, v, hs, hu, hv⟩ := h
  exact ⟨u, r, v, hs, hu, hv, joined_of_digits hne hdigits⟩

/-! ### Undoing one drop -/

/-- Where a text can be put into any gap, or makes one between two digits, it can be put between two
characters of digits with gaps. The places are those with the right neighbours. -/
theorem Joined.insert {ws : List String} {w : List Char} (ok : Option Char → Prop)
    (hgap : ∀ {c d g₁ g₂}, Char.isDigit c = true → Char.isDigit d = true →
      (g₁ ++ g₂ = [] ∨ Gap ws (g₁ ++ g₂)) → ok (c :: g₁).getLast? → ok (g₂ ++ [d]).head? →
        Gap ws (g₁ ++ (w ++ g₂)))
    {r x₁ x₂ : List Char} (h : Joined ws r (x₁ ++ x₂)) (h₁ : x₁ ≠ []) (h₂ : x₂ ≠ [])
    (hlast : ok x₁.getLast?) (hhead : ok x₂.head?) : Joined ws r (x₁ ++ (w ++ x₂)) := by
  generalize hx : x₁ ++ x₂ = x at h
  induction h generalizing x₁ with
  | @digit c hc =>
    obtain ⟨c', x₁, rfl⟩ := List.exists_cons_of_ne_nil h₁
    have hrest : x₁ ++ x₂ = [] := (List.cons_eq_cons.mp hx).2
    exact absurd (List.append_eq_nil_iff.mp hrest).2 h₂
  | @next c r x hc hjoined ih =>
    obtain ⟨c', x₁, rfl⟩ := List.exists_cons_of_ne_nil h₁
    obtain ⟨rfl, rfl⟩ := List.cons_eq_cons.mp hx
    cases x₁ with
    | nil =>
      obtain ⟨d, y, rfl, hd⟩ : ∃ d y, x₂ = d :: y ∧ d.isDigit = true := hjoined.exists_head
      have hnew : Gap ws ([] ++ (w ++ [])) := hgap hc hd (Or.inl rfl) hlast hhead
      rw [List.nil_append, List.append_nil] at hnew
      have hjoined' := Joined.across hc hnew hjoined
      exact hjoined'
    | cons d x₁ => exact .next hc (ih (List.cons_ne_nil d x₁) hlast rfl)
  | @across c g r x hc hg hjoined ih =>
    obtain ⟨c', x₁, rfl⟩ := List.exists_cons_of_ne_nil h₁
    obtain ⟨rfl, hrest⟩ := List.cons_eq_cons.mp hx
    -- behind the gap, or within it
    by_cases hbehind : ∃ a, a ≠ [] ∧ x₁ = g ++ a ∧ x = a ++ x₂
    · obtain ⟨a, hne, rfl, rfl⟩ := hbehind
      have hlast' : ok a.getLast? := by
        rwa [← List.cons_append, List.getLast?_append_of_ne_nil _ hne] at hlast
      have hjoined' := Joined.across hc hg (ih hne hlast' rfl)
      simpa using hjoined'
    · obtain ⟨a, rfl, rfl⟩ : ∃ a, g = x₁ ++ a ∧ x₂ = a ++ x := by
        rcases List.append_eq_append_iff.mp hrest with ⟨a, hg', hx₂⟩ | ⟨a, hx₁, hx'⟩
        · exact ⟨a, hg', hx₂⟩
        · have hnil : a = [] := by
            by_contra hne
            exact hbehind ⟨a, hne, hx₁, hx'⟩
          subst hnil
          exact ⟨[], by simpa using hx₁.symm, by simpa using hx'.symm⟩
      obtain ⟨d, y, rfl, hd⟩ := hjoined.exists_head
      have hhead' : ok (a ++ [d]).head? := by
        cases a <;> exact hhead
      have hjoined' := Joined.across hc (hgap hc hd (Or.inr hg) hlast hhead') hjoined
      simpa using hjoined'

theorem Gap.signs_of_nil {g : List Char} (h : Gap [] g) : ∀ c ∈ g, c ∈ droppedSigns := by
  induction h with
  | sign hc => simpa using hc
  | signs hc _ ih => exact List.forall_mem_cons.mpr ⟨hc, ih⟩
  | phrase _ hw => cases hw

theorem gap_of_signs {ws : List String} {g : List Char} (hg : g ≠ [])
    (h : ∀ c ∈ g, c ∈ droppedSigns) : Gap ws g := by
  induction g with
  | nil => exact absurd rfl hg
  | cons c g ih =>
    have hc : c ∈ droppedSigns := h c (by simp)
    cases g with
    | nil => exact .sign hc
    | cons d g => exact .signs hc (ih (by simp) fun e he => h e (List.mem_cons_of_mem _ he))

/-- Before phrases are put back, a sign can be put between any two characters. -/
theorem Joined.insert_sign {c : Char} (hc : c ∈ droppedSigns) {r x₁ x₂ : List Char}
    (h : Joined [] r (x₁ ++ x₂)) (h₁ : x₁ ≠ []) (h₂ : x₂ ≠ []) :
    Joined [] r (x₁ ++ ([c] ++ x₂)) := by
  refine Joined.insert (fun _ => True) (fun {_ _ g₁ g₂} _ _ hg _ _ => ?_) h h₁ h₂ trivial
    trivial
  have hsigns : ∀ e ∈ g₁ ++ g₂, e ∈ droppedSigns := by
    rcases hg with hnil | hg
    · simp [hnil]
    · exact hg.signs_of_nil
  refine gap_of_signs (by simp) fun e he => ?_
  rcases List.mem_append.mp he with he | he
  · exact hsigns e (List.mem_append_left _ he)
  · rcases List.mem_cons.mp he with rfl | he
    · exact hc
    · exact hsigns e (List.mem_append_right _ he)

/-- The phrases begin and end with word characters, and within them no two others are next to each
other. -/
def Wordlike (ws : List String) : Prop :=
  ∀ w ∈ ws, ¬ NoWord w.toList.head? ∧ ¬ NoWord w.toList.getLast? ∧
    w.toList.IsChain fun c d => isWordChar c = true ∨ isWordChar d = true

instance (ws : List String) : Decidable (Wordlike ws) :=
  inferInstanceAs (Decidable (∀ w ∈ ws, _))

/-- At every place of such a phrase, its ends included, there is a word character of the phrase. -/
theorem Wordlike.not_free {ws : List String} (hws : Wordlike ws) {v : String} (hv : v ∈ ws)
    {a b : List Char} (hsplit : v.toList = a ++ b) (ha : a = [] ∨ NoWord a.getLast?)
    (hb : b = [] ∨ NoWord b.head?) : False := by
  obtain ⟨hhead, hlast, hchain⟩ := hws v hv
  rw [hsplit] at hhead hlast hchain
  cases a with
  | nil =>
    rcases hb with rfl | hb
    · exact hhead nofun
    · exact hhead hb
  | cons d a =>
    have hd : NoWord (d :: a).getLast? := ha.resolve_left (List.cons_ne_nil d a)
    cases b with
    | nil => exact hlast (by rwa [List.append_nil])
    | cons e b =>
      have he : NoWord (e :: b).head? := hb.resolve_left (List.cons_ne_nil e b)
      obtain ⟨f, hf⟩ : ∃ f, (d :: a).getLast? = some f := ⟨_, List.getLast?_cons⟩
      rcases (List.isChain_append.mp hchain).2.2 f hf e rfl with hword | hword
      · rw [hd f hf] at hword
        cases hword
      · rw [he e rfl] at hword
        cases hword

theorem noWord_last_of_cons {c : Char} {a : List Char} (h : NoWord (c :: a).getLast?) :
    a = [] ∨ NoWord a.getLast? := by
  cases a with
  | nil => exact .inl rfl
  | cons d a => exact .inr (by rwa [List.getLast?_cons_cons] at h)

theorem Gap.insert_phrase {ws : List String} (hws : Wordlike ws) {w : String} (hw : w ∈ ws)
    {g₁ g₂ : List Char} (h : Gap ws (g₁ ++ g₂)) (h₁ : g₁ ≠ []) (h₂ : g₂ ≠ [])
    (hlast : NoWord g₁.getLast?) (hhead : NoWord g₂.head?) : Gap ws (g₁ ++ (w.toList ++ g₂)) := by
  generalize hg : g₁ ++ g₂ = g at h
  induction h generalizing g₁ with
  | @sign c hc =>
    obtain ⟨c', g₁, rfl⟩ := List.exists_cons_of_ne_nil h₁
    have hrest : g₁ ++ g₂ = [] := (List.cons_eq_cons.mp hg).2
    exact absurd (List.append_eq_nil_iff.mp hrest).2 h₂
  | @signs c g hc hgap ih =>
    obtain ⟨c', g₁, rfl⟩ := List.exists_cons_of_ne_nil h₁
    obtain ⟨rfl, rfl⟩ := List.cons_eq_cons.mp hg
    cases g₁ with
    | nil => exact .phrase hc hw hgap
    | cons d g₁ => exact .signs hc (ih (List.cons_ne_nil d g₁) hlast rfl)
  | @phrase c v g hc hv hgap ih =>
    obtain ⟨c', g₁, rfl⟩ := List.exists_cons_of_ne_nil h₁
    obtain ⟨rfl, hrest⟩ := List.cons_eq_cons.mp hg
    have hbehind := noWord_last_of_cons hlast
    -- the place is behind the phrase, not at its end and not within it
    rcases List.append_eq_append_iff.mp hrest with ⟨a, hsplit, rfl⟩ | ⟨a, rfl, rfl⟩
    · refine (hws.not_free hv hsplit hbehind ?_).elim
      cases a with
      | nil => exact .inl rfl
      | cons e a => exact .inr hhead
    · have hne : a ≠ [] := by
        rintro rfl
        rw [List.append_nil] at hbehind
        exact hws.not_free hv (List.append_nil _).symm hbehind (.inl rfl)
      have hlast' : NoWord a.getLast? := by
        rwa [← List.cons_append, List.getLast?_append_of_ne_nil _ hne] at hlast
      have hgap' := Gap.phrase hc hv (ih hne hlast' rfl)
      simpa using hgap'

/-- Where no word characters are next to it, a phrase can be put between two characters. -/
theorem Joined.insert_phrase {ws : List String} (hws : Wordlike ws) {w : String} (hw : w ∈ ws)
    {r x₁ x₂ : List Char} (h : Joined ws r (x₁ ++ x₂)) (h₁ : x₁ ≠ []) (h₂ : x₂ ≠ [])
    (hlast : NoWord x₁.getLast?) (hhead : NoWord x₂.head?) :
    Joined ws r (x₁ ++ (w.toList ++ x₂)) := by
  refine Joined.insert NoWord (fun {c d g₁ g₂} hc hd hg hlast hhead => ?_) h h₁ h₂ hlast hhead
  have hdigit {e : Char} (he : e.isDigit = true) (hnone : NoWord (some e)) : False := by
    have hword := hnone e rfl
    rw [isWordChar_of_isDigit he] at hword
    cases hword
  -- next to a digit there is no such place
  cases g₁ with
  | nil => exact absurd hlast (hdigit hc)
  | cons e g₁ =>
    cases g₂ with
    | nil => exact absurd hhead (hdigit hd)
    | cons f g₂ =>
      have hgap := hg.resolve_left (by simp)
      exact hgap.insert_phrase hws hw (List.cons_ne_nil e g₁) (List.cons_ne_nil f g₂)
        (by rwa [List.getLast?_cons_cons] at hlast) hhead

/-! ### Undoing one match -/

/-- Digits with gaps lie on one side of a text without digits, or reach over it. -/
theorem Joined.locate {ws : List String} {r z o y u x v : List Char}
    (ho : ∀ c ∈ o, c.isDigit = false) (hx : Joined ws r x) (h : z ++ (o ++ y) = u ++ (x ++ v)) :
    (∃ a, z = u ++ (x ++ a) ∧ v = a ++ (o ++ y)) ∨
      (∃ a, u = z ++ (o ++ a) ∧ y = a ++ (x ++ v)) ∨
      ∃ x₁ x₂, x₁ ≠ [] ∧ x₂ ≠ [] ∧ z = u ++ x₁ ∧ y = x₂ ++ v ∧ x = x₁ ++ (o ++ x₂) := by
  -- the ends are digits, so nothing of the text without digits is there
  have hfront {p q : List Char} (hpq : x = p ++ q) (hp : ∀ c ∈ p, c.isDigit = false) : p = [] := by
    obtain ⟨c, x', hx', hc⟩ := hx.exists_head
    cases p with
    | nil => rfl
    | cons e p =>
      have he := hp e (by simp)
      rw [hx', List.cons_append, List.cons_eq_cons] at hpq
      rw [← hpq.1, hc] at he
      cases he
  have hback {p q : List Char} (hpq : x = q ++ p) (hp : ∀ c ∈ p, c.isDigit = false) : p = [] := by
    obtain ⟨x', c, hx', hc⟩ := hx.exists_last
    rcases List.eq_nil_or_concat p with rfl | ⟨p, e, rfl⟩
    · rfl
    · have he := hp e (by simp)
      rw [hx', List.concat_eq_append, ← List.append_assoc] at hpq
      rw [← List.singleton_inj.mp (List.append_inj' hpq rfl).2, hc] at he
      cases he
  rcases List.append_eq_append_iff.mp h with ⟨a, rfl, hrest⟩ | ⟨a, rfl, hrest⟩
  · -- it begins behind the front
    rcases List.append_eq_append_iff.mp hrest with ⟨b, rfl, rfl⟩ | ⟨b, rfl, hb⟩
    · exact Or.inr (Or.inl ⟨b, rfl, rfl⟩)
    · rcases List.append_eq_append_iff.mp hb with ⟨e, rfl, -⟩ | ⟨e, rfl, rfl⟩
      · have hnil := hback (List.nil_append x).symm fun c hc => ho c (by simp [hc])
        obtain ⟨c, x', hx', -⟩ := hx.exists_head
        exact absurd (hx'.symm.trans hnil) (List.cons_ne_nil c x')
      · obtain rfl := hfront rfl fun c hc => ho c (List.mem_append_right _ hc)
        exact Or.inr (Or.inl ⟨[], by simp, rfl⟩)
  · rcases List.append_eq_append_iff.mp hrest with ⟨b, rfl, rfl⟩ | ⟨b, rfl, hb⟩
    · exact Or.inl ⟨b, rfl, rfl⟩
    · -- it begins in the front and goes on behind it
      rcases List.append_eq_append_iff.mp hb with ⟨e, rfl, rfl⟩ | ⟨e, rfl, rfl⟩
      · by_cases ha : a = []
        · subst ha
          obtain rfl := hfront (List.nil_append (o ++ e)) ho
          exact Or.inr (Or.inl ⟨[], by simp, rfl⟩)
        · by_cases he : e = []
          · subst he
            obtain rfl := hback (by rw [List.append_nil]) ho
            exact Or.inl ⟨[], by simp, rfl⟩
          · exact Or.inr (Or.inr ⟨a, e, ha, he, rfl, rfl, rfl⟩)
      · obtain rfl := hback rfl fun c hc => ho c (List.mem_append_left _ hc)
        exact Or.inl ⟨[], by simp, rfl⟩

section

variable {ws : List String} {r : List Char}

/-- What has no digits can be put back where it was: next to digits with gaps, or within them if
that is possible. -/
theorem JoinedIn.undo {z o d y : List Char} (ho : ∀ c ∈ o, c.isDigit = false) (hd : Parts d)
    (hwithin : ∀ {u x₁ x₂ v}, x₁ ≠ [] → x₂ ≠ [] → z = u ++ x₁ → y = x₂ ++ v →
      Joined ws r (x₁ ++ (o ++ x₂)) → Joined ws r (x₁ ++ (d ++ x₂)))
    (h : JoinedIn ws r (z ++ (o ++ y))) : JoinedIn ws r (z ++ (d ++ y)) := by
  obtain ⟨u, x, v, hs, hu, hv, hx⟩ := h
  rcases hx.locate ho hs with ⟨a, rfl, rfl⟩ | ⟨a, rfl, rfl⟩ | ⟨x₁, x₂, h₁, h₂, rfl, rfl, rfl⟩
  · refine ⟨u, x, a ++ (d ++ y), by simp, hu, ?_, hx⟩
    refine noDigit_head?_append (noDigit_head?_of_append hv) ?_
    rw [List.head?_append_of_ne_nil _ hd.ne_nil]
    exact hd.head
  · refine ⟨z ++ (d ++ a), x, v, by simp, ?_, hv, hx⟩
    rw [← List.append_assoc] at hu ⊢
    refine noDigit_getLast?_append ?_ (noDigit_getLast?_of_append hu)
    rw [List.getLast?_append_of_ne_nil _ hd.ne_nil]
    exact hd.last
  · exact ⟨u, x₁ ++ (d ++ x₂), v, by simp, hu, hv, hwithin h₁ h₂ rfl rfl hx⟩

/-- What is put in for an operator keeps digits apart. -/
theorem joinedIn_of_operator {rule : Replacement} {o : String} (houtput : rule.output = [.text o])
    (hparts : rule.pattern.parts = true) (ho : ∀ c ∈ o.toList, c.isDigit = false)
    (hseparates : o.toList.any (separates ws) = true) {s : List Char}
    (h : JoinedIn ws r (rule.apply s)) : JoinedIn ws r s := by
  refine Replacement.apply_reflects (fun {z d t m} _ hm hnew => ?_) h
  have hfill : rule.fill m = o.toList := by
    rw [Replacement.fill_eq, houtput]
    exact List.append_nil _
  rw [hfill] at hnew
  refine hnew.undo ho (parts_of_takes hparts hm.takes) fun _ _ _ _ hjoined => ?_
  -- the output would stand within the digits
  obtain ⟨c, hc, hsep⟩ := List.any_eq_true.mp hseparates
  rw [hjoined.not_separates c (by simp [hc])] at hsep
  cases hsep

/-- Multiplication with `x` between two digits. -/
def timesRule : Replacement where
  pattern := capture (one .digit) ++ blanks ++ text "x" ++ blanks ++ capture (one .digit)
  output := [.kept 0, .text "*", .kept 1]
  repeats := true

/-- What stands between the digits: an `x` with any blanks around it. -/
def crossPattern : Pattern :=
  blanks ++ text "x" ++ blanks

theorem takes_times {x : List Char} {ks : List (List Char)} :
    timesRule.pattern.Takes x ks ↔ ∃ c g c', isDecimalDigit c = true ∧ crossPattern.Takes g [] ∧
      isDecimalDigit c' = true ∧ x = c :: (g ++ [c']) ∧ ks = [[c], [c']] := by
  constructor
  · rintro ⟨_, _, _, _, rfl, rfl, hfront, _, ⟨⟨c', hc', rfl⟩, rfl⟩, rfl⟩
    simp only [takes_append_assoc] at hfront
    obtain ⟨_, g, _, gs, rfl, rfl, ⟨_, ⟨⟨c, hc, rfl⟩, rfl⟩, rfl⟩, hg⟩ := hfront
    obtain rfl := kept_of_plain (by decide) hg
    exact ⟨c, g, c', hc, takes_append_assoc.mpr hg, hc', by simp, rfl⟩
  · rintro ⟨c, g, c', hc, hg, hc', rfl, rfl⟩
    refine ⟨c :: g, [c'], [[c]], [[c']], by simp, rfl, ?_, [], ⟨⟨c', hc', rfl⟩, rfl⟩, rfl⟩
    simp only [takes_append_assoc]
    exact ⟨[c], g, [[c]], [], rfl, rfl, ⟨[], ⟨⟨c, hc, rfl⟩, rfl⟩, rfl⟩, takes_append_assoc.mp hg⟩

theorem fill_times {m : Match} {c c' : Char} (h : m.captures.map Stretch.chars = [[c], [c']]) :
    timesRule.fill m = [c] ++ ("*".toList ++ [c']) := by
  rw [Replacement.fill_eq, h]
  rfl

theorem joinedIn_of_times (hstar : separates ws '*' = true) {s : List Char}
    (h : JoinedIn ws r (timesRule.apply s)) : JoinedIn ws r s := by
  refine Replacement.apply_reflects (fun {z d t m} _ hm hnew => ?_) h
  obtain ⟨c, g, c', -, hg, -, rfl, hks⟩ := takes_times.mp hm.takes
  rw [fill_times hks] at hnew
  generalize timesRule.passFrom (z ++ c :: (g ++ [c'])).getLast? 0 t = y at hnew
  -- the two digits stay where they are
  have hnew' : JoinedIn ws r ((z ++ [c]) ++ ("*".toList ++ (c' :: y))) := by simpa using hnew
  have hold := hnew'.undo (by decide) (parts_of_takes (by decide) hg) fun _ _ _ _ hjoined => ?_
  · simpa using hold
  · rw [hjoined.not_separates '*' (by simp)] at hstar
    cases hstar

end

/-- The signs are dropped. -/
def signRule : Replacement where
  pattern := one (.oneOf droppedSigns)
  output := []

theorem joinedIn_of_signs {r s : List Char} (h : JoinedIn [] r (signRule.apply s)) :
    JoinedIn [] r s := by
  refine Replacement.apply_reflects (fun {z d t m} _ hm hnew => ?_) h
  obtain ⟨⟨c, hc, rfl⟩, -⟩ := hm.takes
  have hsign : c ∈ droppedSigns := by simpa [CharClass.holds] using hc
  have hparts : Parts [c] := parts_of_takes (by decide) hm.takes
  have hfill : signRule.fill m = [] := rfl
  rw [hfill] at hnew
  exact hnew.undo (by simp) hparts fun h₁ h₂ _ _ hjoined => Joined.insert_sign hsign hjoined h₁ h₂

theorem wordlike_droppedPhrases : Wordlike droppedPhrases := by
  decide

theorem JoinedIn.of_nil {r s : List Char} (h : JoinedIn [] r s) (ws : List String) :
    JoinedIn ws r s := by
  obtain ⟨u, x, v, hs, hu, hv, hx⟩ := h
  refine ⟨u, x, v, hs, hu, hv, ?_⟩
  clear hs
  induction hx with
  | digit hc => exact .digit hc
  | next hc _ ih => exact .next hc ih
  | across hc hg _ ih => exact .across hc (gap_of_signs hg.ne_nil hg.signs_of_nil) ih

theorem joinedIn_of_phrases {r s : List Char}
    (h : JoinedIn droppedPhrases r ((wordReplacement droppedPhrases "").apply s)) :
    JoinedIn droppedPhrases r s := by
  refine Replacement.apply_reflects (fun {z d t m} _ hm hnew => ?_) h
  obtain ⟨w, hw, rfl⟩ : ∃ w ∈ droppedPhrases, d = w.toList := by
    obtain ⟨_, _, _, _, rfl, -, ⟨_, _, _, _, rfl, -, ⟨rfl, -⟩, hd⟩, rfl, -⟩ := hm.takes
    rw [List.nil_append, List.append_nil]
    exact takes_anyOf hd
  obtain ⟨hz, hy⟩ := Replacement.noWord_around (by decide) hm hm.mem
  have hfill : (wordReplacement droppedPhrases "").fill m = [] := rfl
  rw [hfill] at hnew
  refine hnew.undo (by simp) (parts_of_takes (by decide) hm.takes) ?_
  intro u x₁ x₂ v h₁ h₂ hfront hback hjoined
  rw [hfront, List.getLast?_append_of_ne_nil _ h₁] at hz
  rw [hback, List.head?_append_of_ne_nil _ h₂] at hy
  exact hjoined.insert_phrase wordlike_droppedPhrases hw h₁ h₂ hz hy

theorem joinedIn_of_mem_operators {rule : Replacement} (hrule : rule ∈ symbols ++ operatorWords)
    {r s : List Char} (h : JoinedIn droppedPhrases r (rule.apply s)) :
    JoinedIn droppedPhrases r s := by
  simp only [symbols, operatorWords, List.cons_append, List.nil_append, List.mem_cons,
    List.not_mem_nil, or_false] at hrule
  rcases hrule with rfl | rfl | rfl | rfl | rfl | rfl | rfl | rfl
  case inr.inr.inr.inl => exact joinedIn_of_times (by decide) h
  all_goals exact joinedIn_of_operator rfl (by decide) (by decide) (by decide) h

/-! ### Normal forms -/

theorem rules_eq_dropping : rules = (symbols ++ operatorWords) ++
    ([wordReplacement droppedPhrases "", signRule] ++ meanings) := rfl

theorem pi_mem_of_collapse {s : List Char} (h : 'π' ∈ collapse s) : 'π' ∈ s := by
  have hblank : ∀ c, isBlank c = true → piWeight c = 0 :=
    fun c => forall_isBlank (p := fun c => piWeight c = 0) (by decide)
  rwa [pi_mem_iff, weigh_collapse hblank, ← pi_mem_iff] at h

/-- The digits `r` stand in the text with gaps between them, and no further digit is next to
them. -/
def FusedIn (r s : List Char) : Prop :=
  ∃ u x v, s = u ++ (x ++ v) ∧ NoDigit u.getLast? ∧ NoDigit v.head? ∧
    Joined droppedPhrases r x ∧ x ≠ r

/-- The runs of a normal form are those of the text in lower case and those of the numbers that are
put in, and digits between which only signs were dropped, or phrases between signs. Left out is the
run of the constant's digits where further digits follow its sign. -/
theorem isRun_normalForm {r s : List Char} (h : IsRun r (normalForm s))
    (hfraction : 'π' ∈ lower s → ¬ (piFraction <+: r ∧ r ≠ piFraction)) :
    IsRun r (lower s) ∨ IsConstantRun r ∨ FusedIn r (collapse (lower s)) := by
  by_cases hr : IsConstantRun r
  · exact Or.inr (Or.inl hr)
  rw [normalForm, isRun_collapse, reworded, rules_eq_dropping, List.foldl_append,
    List.foldl_append] at h
  have hmeanings := isRun_of_meanings hr (fun hpi => hfraction ?_) h
  · rw [List.foldl_cons, List.foldl_cons, List.foldl_nil] at hmeanings
    have hsigns := joinedIn_of_signs (joinedIn_of_isRun hmeanings [])
    have hjoined : JoinedIn droppedPhrases r (collapse (lower s)) :=
      foldl_reflects (JoinedIn droppedPhrases r)
        (fun rule hrule _ => joinedIn_of_mem_operators hrule)
        (joinedIn_of_phrases (hsigns.of_nil droppedPhrases))
    obtain ⟨u, x, v, hs, hu, hv, hx⟩ := hjoined
    by_cases hxr : x = r
    · subst hxr
      exact Or.inl (isRun_collapse.mp ⟨hx.digits.1, hx.digits.2, u, v, hs, hu, hv⟩)
    · exact Or.inr (Or.inr ⟨u, x, v, hs, hu, hv, hx, hxr⟩)
  · -- the sign for the constant was there from the beginning
    have hpi' : 'π' ∈ (symbols ++ operatorWords ++ fillers).foldl (fun t rule => rule.apply t)
        (collapse (lower s)) := by
      rw [List.foldl_append]
      exact hpi
    refine pi_mem_of_collapse (pi_mem_of_foldl (fun rule hrule => ?_) hpi')
    rw [rules]
    exact List.mem_append_left _ hrule

theorem fusedIn_question : IsRun "12".toList (normalForm "1=es?2".toList) ∧
    'π' ∉ lower "1=es?2".toList ∧ FusedIn "12".toList (collapse (lower "1=es?2".toList)) := by
  have hrun : IsRun "12".toList (normalForm "1=es?2".toList) := by decide +kernel
  have hpi : 'π' ∉ lower "1=es?2".toList := by decide +kernel
  refine ⟨hrun, hpi, ?_⟩
  rcases isRun_normalForm hrun fun hmem => absurd hmem hpi with hkept | hconstant | hfused
  · exact absurd hkept (by decide +kernel)
  · exact absurd hconstant (by decide +kernel)
  · exact hfused

/-- The digits around a sign that is dropped become one run, which the text did not have. -/
theorem isRun_equals_dropped : IsRun "12".toList (normalForm "1=2".toList) ∧
    ¬ IsRun "12".toList (lower "1=2".toList) ∧ ¬ IsConstantRun "12".toList := by
  refine ⟨?_, ?_, ?_⟩ <;> decide +kernel

end Reckon.Wording
