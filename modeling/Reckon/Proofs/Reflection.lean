/-
What a text was before it was replaced.

A replacement makes its matches from the front, each in the text as it was before. Undone in the
same order, each match is put back between a front that is the old text already and a rest that is
still the new text. A property of texts that every such step carries from the new text to the old one is
carried by the whole replacement.

* `Found` : a match between the two parts of a text around it.
* `search_induction` : the places of a text, told in the order of the search.
* `passFrom_reflects`, `pass_reflects`, `apply_reflects` : properties that go from the new text to the
  old one.
* `head_passFrom` : what the rest begins with.
-/
import Reckon.Proofs.TakenText

namespace Reckon

open Text

namespace Replacement

variable {r : Replacement}

/-- The match `m` takes `d` between `z` and `t`. -/
structure Found (r : Replacement) (z d t : List Char) (m : Match) : Prop where
  matchAt : r.matchAt ⟨z.getLast?, d ++ t⟩ = some m
  stop : m.stop = ⟨(z ++ d).getLast?, t⟩
  takes : r.pattern.Takes d (m.captures.map Stretch.chars)
  size : m.size = d.length

theorem exists_found {z s : List Char} {m : Match} (h : r.matchAt ⟨z.getLast?, s⟩ = some m) :
    ∃ d t, s = d ++ t ∧ d ≠ [] ∧ Found r z d t m := by
  obtain ⟨hm, hpos⟩ := mem_of_matchAt h
  obtain ⟨d, hs, hsize, hlast, htakes⟩ := Pattern.exists_takes hm
  have hne : d ≠ [] := by
    rintro rfl
    rw [hsize] at hpos
    exact Nat.lt_irrefl 0 hpos
  have hstop : m.stop = ⟨(z ++ d).getLast?, m.stop.after⟩ := by
    rw [List.getLast?_append, ← hlast]
  rw [show s = d ++ m.stop.after from hs] at h
  exact ⟨d, m.stop.after, hs, hne, h, hstop, htakes, hsize⟩

theorem Found.mem {z d t : List Char} {m : Match} (h : Found r z d t m) :
    m ∈ r.pattern.allMatches ⟨z.getLast?, d ++ t⟩ :=
  (mem_of_matchAt h.matchAt).1

/-- A pattern that takes something has no match where none of its matches is found. -/
theorem allMatches_of_matchAt (hr : r.pattern.consumes = true) {p : Place}
    (h : r.matchAt p = none) : r.pattern.allMatches p = [] := by
  rw [List.eq_nil_iff_forall_not_mem]
  intro m hm
  obtain ⟨m', hm'⟩ : ∃ m', r.pattern.firstMatch p = some m' := by
    rw [Pattern.firstMatch]
    cases hall : r.pattern.allMatches p with
    | nil =>
      rw [hall] at hm
      cases hm
    | cons m' ms => exact ⟨m', rfl⟩
  obtain ⟨x, -, hsize, -, htakes⟩ := Pattern.exists_takes (List.mem_of_mem_head? hm')
  have hpos : 0 < m'.size := by
    rw [hsize]
    exact List.length_pos_of_ne_nil (Pattern.ne_nil_of_consumes hr htakes)
  rw [matchAt, hm', Option.filter_some, if_pos (by simpa using hpos)] at h
  cases h

/-- The characters of a match that has been replaced are passed over. -/
theorem passFrom_length (before : Option Char) (d s : List Char) :
    r.passFrom before d.length (d ++ s) = r.passFrom (d.getLast?.or before) 0 s := by
  induction d generalizing before with
  | nil => rfl
  | cons c d ih =>
    rw [List.cons_append, List.length_cons, passFrom, ih, getLast?_cons_or]

theorem Found.passFrom_eq {z d t : List Char} {m : Match} (h : Found r z d t m) (hne : d ≠ []) :
    r.passFrom z.getLast? 0 (d ++ t) = r.fill m ++ r.passFrom (z ++ d).getLast? 0 t := by
  obtain ⟨c, d, rfl⟩ := List.exists_cons_of_ne_nil hne
  have hmatch := h.matchAt
  rw [List.cons_append] at hmatch
  rw [List.cons_append, passFrom, hmatch]
  show r.fill m ++ r.passFrom (some c) (m.size - 1) (d ++ t) = _
  rw [h.size, List.length_cons, Nat.add_sub_cancel, passFrom_length, List.getLast?_append,
    getLast?_cons_or]

/-- Where no match begins, the first character is kept. -/
theorem head_passFrom {b : Option Char} {t : List Char} (h : r.matchAt ⟨b, t⟩ = none) :
    (r.passFrom b 0 t).head? = t.head? := by
  cases t with
  | nil => rfl
  | cons c t => rw [passFrom, h, List.head?_cons, List.head?_cons]

/-- The output, told by the parts that are kept. -/
theorem fill_eq (m : Match) : r.fill m = r.output.flatMap fun piece => match piece with
    | .text s => s.toList
    | .kept i => (m.captures.map Stretch.chars)[i]?.getD [] := by
  rw [fill]
  congr 1
  funext piece
  cases piece with
  | text s => rfl
  | kept i =>
    show _ = (m.captures.map Stretch.chars)[i]?.getD []
    rw [Piece.chars, List.getElem?_map]

/-- To say something about all places of a text, it is told from what is behind the next character
where no match begins, and from what is behind the match where one begins. -/
theorem search_induction {motive : List Char → List Char → Prop} (hnil : ∀ z, motive z [])
    (hskip : ∀ {z c s}, r.matchAt ⟨z.getLast?, c :: s⟩ = none → motive (z ++ [c]) s →
      motive z (c :: s))
    (hfound : ∀ {z d t m}, d ≠ [] → Found r z d t m → motive (z ++ d) t → motive z (d ++ t)) :
    ∀ z s, motive z s := by
  intro z s
  -- by induction on the length: a match is passed over at once
  induction hn : s.length using Nat.strong_induction_on generalizing z s with
  | _ n ih =>
    subst hn
    cases s with
    | nil => exact hnil z
    | cons c s =>
      cases hm : r.matchAt ⟨z.getLast?, c :: s⟩ with
      | none => exact hskip hm (ih s.length (Nat.lt_succ_self _) _ s rfl)
      | some m =>
        obtain ⟨d, t, hs, hne, hm⟩ := exists_found hm
        have hlt : t.length < (c :: s).length := by
          have hpos := List.length_pos_of_ne_nil hne
          rw [hs, List.length_append]
          omega
        rw [hs]
        exact hfound hne hm (ih t.length hlt _ t rfl)

theorem passFrom_eq_cons {z s : List Char} {c : Char}
    (h : r.matchAt ⟨z.getLast?, c :: s⟩ = none) :
    r.passFrom z.getLast? 0 (c :: s) = c :: r.passFrom (z ++ [c]).getLast? 0 s := by
  rw [passFrom, h, List.getLast?_concat]

section Reflects

variable {Φ : List Char → Prop}

/-- What each match carries from the new text to the old one, the replacement does. On the way, some
relation between what stands before a place and what stands behind it may be kept up. -/
theorem passFrom_reflects (inv : List Char → List Char → Prop)
    (hskip : ∀ {z c s}, inv z (c :: s) → r.matchAt ⟨z.getLast?, c :: s⟩ = none →
      inv (z ++ [c]) s)
    (hfound : ∀ {z d t m}, inv z (d ++ t) → d ≠ [] → Found r z d t m → inv (z ++ d) t ∧
      (Φ (z ++ (r.fill m ++ r.passFrom (z ++ d).getLast? 0 t)) →
        Φ (z ++ (d ++ r.passFrom (z ++ d).getLast? 0 t)))) (z s : List Char) :
    inv z s → Φ (z ++ r.passFrom z.getLast? 0 s) → Φ (z ++ s) := by
  induction z, s using search_induction (r := r) with
  | hnil z => exact fun _ hnew => hnew
  | hskip hnone ih =>
    intro hinv hnew
    rw [passFrom_eq_cons hnone] at hnew
    have hold := ih (hskip hinv hnone)
    rw [List.append_assoc, List.append_assoc] at hold
    exact hold hnew
  | hfound hne hm ih =>
    intro hinv hnew
    obtain ⟨hinv', hstep⟩ := hfound hinv hne hm
    rw [hm.passFrom_eq hne] at hnew
    have hold := ih hinv'
    rw [List.append_assoc, List.append_assoc] at hold
    exact hold (hstep hnew)

section Passes

variable (hfound : ∀ {z d t m}, d ≠ [] → Found r z d t m →
  Φ (z ++ (r.fill m ++ r.passFrom (z ++ d).getLast? 0 t)) →
    Φ (z ++ (d ++ r.passFrom (z ++ d).getLast? 0 t)))

include hfound

/-- The same for a whole pass, with nothing kept up. -/
theorem pass_reflects {s : List Char} (h : Φ (r.pass s)) : Φ s :=
  passFrom_reflects (fun _ _ => True) (fun _ _ => trivial)
    (fun _ hne hm => ⟨trivial, hfound hne hm⟩) [] s trivial h

/-- The same for all passes of a replacement. -/
theorem apply_reflects {s : List Char} (h : Φ (r.apply s)) : Φ s := by
  have hsettle (n : ℕ) (s : List Char) (h : Φ (r.settle n s)) : Φ s := by
    induction n generalizing s with
    | zero => exact h
    | succ n ih =>
      rw [settle] at h
      split at h
      · exact h
      · exact pass_reflects hfound (ih _ h)
  rw [apply] at h
  split at h
  · exact hsettle _ s h
  · exact pass_reflects hfound h

end Passes

end Reflects

end Replacement

end Reckon
