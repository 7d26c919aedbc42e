/-
What replacing does to the weight of a text.

Characters have weights, and a text weighs what its characters weigh together. The stretches that a
match keeps are still there after the replacement. So it is enough to compare what every match of
the pattern weighs beside them with what the output puts beside them. This is computed from the
replacement alone.

* `weigh` : the weight of a text.
* `Pattern.least`, `Pattern.least_add_le` : what every match of a pattern weighs at least.
* `Replacement.meets` : a replacement has a match in a text.
* `Replacement.apply_of_not_meets` : without a match it does nothing.
* `Replacement.weigh_apply_le`, `Replacement.weigh_apply_lt` : texts after a replacement.
-/
import Reckon.Proofs.Search

namespace Reckon

variable (w : Char → Nat)

/-- What the characters of a text weigh together. -/
def weigh : List Char → Nat
  | [] => 0
  | c :: s => w c + weigh s

@[simp] theorem weigh_nil : weigh w [] = 0 := rfl

@[simp] theorem weigh_cons (c : Char) (s : List Char) : weigh w (c :: s) = w c + weigh w s := rfl

@[simp] theorem weigh_append (s t : List Char) : weigh w (s ++ t) = weigh w s + weigh w t := by
  induction s with
  | nil => simp
  | cons c s ih => rw [List.cons_append, weigh_cons, weigh_cons, ih, Nat.add_assoc]

theorem weigh_eq_zero_iff (s : List Char) : weigh w s = 0 ↔ ∀ c ∈ s, w c = 0 := by
  induction s with
  | nil => simp
  | cons c s ih => rw [weigh_cons, Nat.add_eq_zero_iff, ih, List.forall_mem_cons]

/-! ### Weights of matches -/

/-- The least weight of these characters. -/
def leastOf : List Char → Nat
  | [] => 0
  | [c] => w c
  | c :: cs => min (w c) (leastOf cs)

theorem leastOf_le {cs : List Char} {c : Char} (h : c ∈ cs) : leastOf w cs ≤ w c := by
  induction cs using leastOf.induct with
  | case1 => cases h
  | case2 d =>
    rw [List.mem_singleton] at h
    rw [leastOf, h]
  | case3 d cs hne ih =>
    rw [leastOf.eq_3 w d cs hne]
    rcases List.mem_cons.mp h with rfl | h
    · exact min_le_left ..
    · exact (min_le_right ..).trans (ih h)

/-- What a character of the class weighs at least. Digits and blanks count as nothing. -/
def CharClass.least : CharClass → Nat
  | .only c => w c
  | .oneOf cs => leastOf w cs
  | .digit => 0
  | .blank => 0

theorem CharClass.least_le {k : CharClass} {c : Char} (h : k.holds c = true) : k.least w ≤ w c := by
  cases k with
  | only d =>
    have hd : c = d := by simpa [holds] using h
    rw [hd]
    exact le_rfl
  | oneOf cs => exact leastOf_le w (by simpa [holds] using h)
  | digit | blank => exact Nat.zero_le _

namespace Pattern

/-- What a match weighs at least beside the stretches that it keeps. -/
def least : Pattern → Nat
  | empty => 0
  | one k => k.least w
  | many _ => 0
  | boundary => 0
  | seq a b => least a + least b
  | either a b => min (least a) (least b)
  | capture _ => 0

/-- Nothing is kept. -/
def plain : Pattern → Bool
  | seq a b => plain a && plain b
  | either a b => plain a && plain b
  | capture _ => false
  | _ => true

/-- No stretch is kept within another. -/
def flat : Pattern → Bool
  | seq a b => flat a && flat b
  | either a b => flat a && flat b
  | capture a => plain a
  | _ => true

theorem captures_of_mem_manyMatches {k : CharClass} {before : Option Char} {n : Nat}
    {shorter : List Match} (hshorter : ∀ m ∈ shorter, m.captures = []) {s : List Char} {m : Match}
    (hm : m ∈ manyMatches k before n shorter s) : m.captures = [] := by
  induction s generalizing before n shorter with
  | nil =>
    rcases List.mem_cons.mp hm with rfl | hm
    · rfl
    · exact hshorter m hm
  | cons c s ih =>
    have hcons : ∀ m ∈ (⟨⟨before, c :: s⟩, n, []⟩ :: shorter : List Match), m.captures = [] :=
      List.forall_mem_cons.mpr ⟨rfl, hshorter⟩
    rw [manyMatches] at hm
    split at hm
    · exact ih hcons hm
    · exact hcons m hm

theorem captures_of_plain {a : Pattern} (ha : a.plain = true) {p : Place} {m : Match}
    (hm : m ∈ allMatches a p) : m.captures = [] := by
  induction a generalizing p m with
  | empty =>
    rw [allMatches, List.mem_singleton] at hm
    rw [hm]
  | one k =>
    rw [allMatches] at hm
    split at hm
    · cases hm
    · split at hm
      · rw [List.mem_singleton] at hm
        rw [hm]
      · cases hm
  | many k => exact captures_of_mem_manyMatches (fun _ h => absurd h List.not_mem_nil) hm
  | boundary =>
    rw [allMatches] at hm
    split at hm
    · rw [List.mem_singleton] at hm
      rw [hm]
    · cases hm
  | seq a b iha ihb =>
    rw [plain, Bool.and_eq_true] at ha
    obtain ⟨m₁, h₁, hm⟩ := List.mem_flatMap.mp hm
    obtain ⟨m₂, h₂, rfl⟩ := List.mem_map.mp hm
    rw [iha ha.1 h₁, ihb ha.2 h₂]
    rfl
  | either a b iha ihb =>
    rw [plain, Bool.and_eq_true] at ha
    rcases List.mem_append.mp hm with hm | hm
    · exact iha ha.1 hm
    · exact ihb ha.2 hm
  | capture a ih => cases ha

end Pattern

/-- What kept stretches weigh together. -/
def weighKept (xs : List Stretch) : Nat :=
  weigh w (xs.flatMap Stretch.chars)

theorem weighKept_cons (x : Stretch) (xs : List Stretch) :
    weighKept w (x :: xs) = weigh w x.chars + weighKept w xs := by
  rw [weighKept, List.flatMap_cons, weigh_append, weighKept]

theorem weighKept_append (xs ys : List Stretch) :
    weighKept w (xs ++ ys) = weighKept w xs + weighKept w ys := by
  rw [weighKept, List.flatMap_append, weigh_append, weighKept, weighKept]

namespace Pattern

/-- A match weighs what it keeps and what the pattern weighs at least. -/
theorem least_add_le {a : Pattern} (ha : a.flat = true) {p : Place} {m : Match}
    (hm : m ∈ allMatches a p) :
    a.least w + weighKept w m.captures ≤ weigh w (p.after.take m.size) := by
  induction a generalizing p m with
  | empty =>
    rw [allMatches, List.mem_singleton] at hm
    subst hm
    exact Nat.zero_le _
  | one k =>
    obtain ⟨before, s⟩ := p
    cases s with
    | nil => cases hm
    | cons c s =>
      simp only [allMatches] at hm
      split at hm
      · next hk =>
        rw [List.mem_singleton] at hm
        subst hm
        simpa [weighKept, least] using CharClass.least_le w hk
      · cases hm
  | many k =>
    rw [captures_of_plain (a := many k) rfl hm]
    exact Nat.zero_le _
  | boundary =>
    rw [captures_of_plain (a := boundary) rfl hm]
    exact Nat.zero_le _
  | seq a b iha ihb =>
    rw [flat, Bool.and_eq_true] at ha
    obtain ⟨m₁, h₁, hm⟩ := List.mem_flatMap.mp hm
    obtain ⟨m₂, h₂, rfl⟩ := List.mem_map.mp hm
    have hfirst := iha ha.1 h₁
    have hsecond := ihb ha.2 h₂
    -- what the second part takes begins where the first one stops
    rw [(sound a p m₁ h₁).2] at hsecond
    rw [least, List.take_add, weigh_append, weighKept_append]
    omega
  | either a b iha ihb =>
    rw [flat, Bool.and_eq_true] at ha
    rw [least]
    rcases List.mem_append.mp hm with hm | hm
    · have hleft := iha ha.1 hm
      omega
    · have hright := ihb ha.2 hm
      omega
  | capture a ih =>
    obtain ⟨m', hm', rfl⟩ := List.mem_map.mp hm
    have hplain : a.plain = true := ha
    rw [captures_of_plain hplain hm']
    simp [least, weighKept, Stretch.chars]

end Pattern

/-! ### Weights of outputs -/

/-- What the given texts of an output weigh together. -/
def weighTexts : List Piece → Nat
  | [] => 0
  | .text s :: ps => weigh w s.toList + weighTexts ps
  | .kept _ :: ps => weighTexts ps

/-- The kept stretches are put out once each at most, in their order from this one on. -/
def inOrder (i : Nat) : List Piece → Bool
  | [] => true
  | .text _ :: ps => inOrder i ps
  | .kept j :: ps => i == j && inOrder (i + 1) ps

theorem weigh_flatMap_chars {ps : List Piece} {i : Nat} (h : inOrder i ps = true) (m : Match) :
    weigh w (ps.flatMap (Piece.chars m)) ≤ weighTexts w ps + weighKept w (m.captures.drop i) := by
  induction ps generalizing i with
  | nil => exact Nat.zero_le _
  | cons p ps ih =>
    rw [List.flatMap_cons, weigh_append]
    cases p with
    | text s =>
      have hrest := ih h
      rw [Piece.chars, weighTexts]
      omega
    | kept j =>
      rw [inOrder, Bool.and_eq_true, beq_iff_eq] at h
      obtain ⟨rfl, h⟩ := h
      have hrest := ih h
      have hkept : weighKept w (m.captures.drop i) =
          weigh w (Piece.chars m (.kept i)) + weighKept w (m.captures.drop (i + 1)) := by
        rw [Piece.chars]
        -- a stretch that the match does not have puts out nothing
        by_cases hi : i < m.captures.length
        · rw [List.drop_eq_getElem_cons hi, List.getElem?_eq_getElem hi, weighKept_cons]
          rfl
        · rw [List.drop_eq_nil_of_le (by omega), List.drop_eq_nil_of_le (by omega),
            List.getElem?_eq_none (by omega)]
          rfl
      rw [weighTexts]
      omega

/-! ### Weights of texts -/

namespace Replacement

variable (r : Replacement)

/-- Some place of the rest of a text has a match. The character before it is `before`. -/
def meets (before : Option Char) : List Char → Bool
  | [] => false
  | c :: s => (r.matchAt ⟨before, c :: s⟩).isSome || meets (some c) s

theorem passFrom_of_not_meets {before : Option Char} {s : List Char}
    (h : r.meets before s = false) : r.passFrom before 0 s = s := by
  induction s generalizing before with
  | nil => rfl
  | cons c s ih =>
    rw [meets, Bool.or_eq_false_iff, Option.isSome_eq_false_iff, Option.isNone_iff_eq_none] at h
    rw [passFrom, h.1]
    exact congrArg (c :: ·) (ih h.2)

/-- A replacement without a match does nothing. -/
theorem apply_of_not_meets {s : List Char} (h : r.meets none s = false) : r.apply s = s := by
  have hpass : r.pass s = s := r.passFrom_of_not_meets h
  rw [apply]
  split
  · exact r.settle_of_pass_eq_self _ s hpass
  · exact hpass

/-- Each match weighs at least as much as its output. -/
def keepsWeight : Bool :=
  r.pattern.flat && inOrder 0 r.output && decide (weighTexts w r.output ≤ r.pattern.least w)

/-- Each match weighs more than its output. -/
def losesWeight : Bool :=
  r.keepsWeight w && decide (weighTexts w r.output < r.pattern.least w)

variable {w r}

theorem mem_of_matchAt {p : Place} {m : Match} (h : r.matchAt p = some m) :
    m ∈ Pattern.allMatches r.pattern p ∧ 0 < m.size := by
  rw [matchAt, Option.filter_eq_some_iff] at h
  exact ⟨List.mem_of_mem_head? h.1, by simpa using h.2⟩

theorem weigh_fill_add_le (h : r.keepsWeight w = true) {p : Place} {m : Match}
    (hm : r.matchAt p = some m) :
    weigh w (r.fill m) + r.pattern.least w ≤
      weighTexts w r.output + weigh w (p.after.take m.size) := by
  rw [keepsWeight, Bool.and_eq_true, Bool.and_eq_true] at h
  have hfill := weigh_flatMap_chars w h.1.2 m
  have hmatch := Pattern.least_add_le w h.1.1 (mem_of_matchAt hm).1
  rw [List.drop_zero] at hfill
  rw [fill]
  omega

theorem weigh_take_add_drop (c : Char) (s : List Char) {n : Nat} (hn : 0 < n) :
    weigh w ((c :: s).take n) + weigh w (s.drop (n - 1)) = weigh w (c :: s) := by
  obtain ⟨n, rfl⟩ := Nat.exists_eq_add_of_lt hn
  rw [← weigh_append, Nat.zero_add, Nat.add_sub_cancel, List.take_succ_cons, List.cons_append,
    List.take_append_drop]

theorem weigh_passFrom_le (h : r.keepsWeight w = true) (before : Option Char) (skip : Nat)
    (s : List Char) : weigh w (r.passFrom before skip s) ≤ weigh w (s.drop skip) := by
  have hle : weighTexts w r.output ≤ r.pattern.least w := by
    rw [keepsWeight, Bool.and_eq_true, decide_eq_true_eq] at h
    exact h.2
  induction s generalizing before skip with
  | nil => rw [passFrom, List.drop_nil]
  | cons c s ih =>
    cases skip with
    | succ skip => exact ih (some c) skip
    | zero =>
      rw [passFrom, List.drop_zero]
      cases hm : r.matchAt ⟨before, c :: s⟩ with
      | none =>
        have hrest := ih (some c) 0
        rw [weigh_cons, weigh_cons]
        rw [List.drop_zero] at hrest
        omega
      | some m =>
        have hfill := weigh_fill_add_le h hm
        have hrest := ih (some c) (m.size - 1)
        have hsplit := weigh_take_add_drop (w := w) c s (mem_of_matchAt hm).2
        dsimp only at hfill ⊢
        rw [weigh_append]
        omega

theorem weigh_passFrom_lt (h : r.losesWeight w = true) {before : Option Char} {s : List Char}
    (hmeets : r.meets before s = true) : weigh w (r.passFrom before 0 s) < weigh w s := by
  rw [losesWeight, Bool.and_eq_true, decide_eq_true_eq] at h
  induction s generalizing before with
  | nil => cases hmeets
  | cons c s ih =>
    rw [passFrom]
    cases hm : r.matchAt ⟨before, c :: s⟩ with
    | none =>
      rw [meets, hm, Option.isSome_none, Bool.false_or] at hmeets
      have hrest := ih hmeets
      rw [weigh_cons, weigh_cons]
      omega
    | some m =>
      have hfill := weigh_fill_add_le h.1 hm
      have hrest := weigh_passFrom_le h.1 (some c) (m.size - 1) s
      have hsplit := weigh_take_add_drop (w := w) c s (mem_of_matchAt hm).2
      dsimp only at hfill ⊢
      rw [weigh_append]
      omega

theorem weigh_settle_le (h : r.keepsWeight w = true) (n : Nat) (s : List Char) :
    weigh w (r.settle n s) ≤ weigh w s := by
  induction n generalizing s with
  | zero => exact le_rfl
  | succ n ih =>
    rw [settle]
    split
    · exact le_rfl
    · exact (ih _).trans (weigh_passFrom_le h none 0 s)

theorem weigh_apply_le (h : r.keepsWeight w = true) (s : List Char) :
    weigh w (r.apply s) ≤ weigh w s := by
  rw [apply]
  split
  · exact weigh_settle_le h _ s
  · exact weigh_passFrom_le h none 0 s

/-- A text with a match is lighter after the replacement. -/
theorem weigh_apply_lt (h : r.losesWeight w = true) {s : List Char}
    (hmeets : r.meets none s = true) : weigh w (r.apply s) < weigh w s := by
  have hpass : weigh w (r.pass s) < weigh w s := weigh_passFrom_lt h hmeets
  rw [apply]
  split
  · cases s with
    | nil => cases hmeets
    | cons c s =>
      have hchanged : r.pass (c :: s) ≠ c :: s := fun hsame => by
        rw [hsame] at hpass
        exact lt_irrefl _ hpass
      rw [losesWeight, Bool.and_eq_true] at h
      -- the first pass counts, and the later ones add nothing
      have hsettle : r.settle (c :: s).length (c :: s) = r.settle s.length (r.pass (c :: s)) :=
        if_neg hchanged
      rw [hsettle]
      exact (weigh_settle_le h.1 _ _).trans_lt hpass
  · exact hpass

end Replacement

end Reckon
