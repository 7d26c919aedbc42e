/-
Blanks at the ends of texts.

No pattern begins with a blank, so blanks in front of a text are kept when it is replaced. Nor does a
pattern end with one, apart from the phrases at the beginning of a word: these take all blanks behind
them, and their output brings a space of its own. So blanks behind a text are kept as well, or are
swallowed behind a text that ends with a space.

* `CharClass.nonblank`, `CharClass.lacks` : classes without blanks, and without given characters.
* `BlankHead`, `BlankLast` : texts that are blank at an end.
* `pass_blanks_append` : blanks in front.
* `KeepsBlanks` : blanks behind.
* `pass_append_blanks`, `keepsBlanks_lead` : the two kinds of replacements.
-/
import Reckon.Proofs.Cut
import Reckon.Wording

namespace Reckon

open Text

/-! ### Classes -/

namespace CharClass

/-- The class has no blank. -/
def nonblank : CharClass → Bool
  | .only c => !isBlank c
  | .oneOf cs => cs.all fun c => !isBlank c
  | .digit => true
  | .blank => false

/-- The class has none of these characters. -/
def lacks (cs : List Char) : CharClass → Bool
  | .only d => !cs.contains d
  | .oneOf ds => ds.all fun d => !cs.contains d
  | .digit => cs.all fun c => !isDecimalDigit c
  | .blank => cs.all fun c => !isBlank c

theorem not_isBlank_of_nonblank (k : CharClass) (c : Char) (hk : k.nonblank = true)
    (hc : k.holds c = true) : isBlank c = false := by
  cases k with
  | only d =>
    rw [show c = d from beq_iff_eq.mp hc]
    simpa [nonblank] using hk
  | oneOf cs =>
    have hmem : c ∈ cs := by simpa [holds] using hc
    simpa using List.all_eq_true.mp hk c hmem
  | digit =>
    by_contra hblank
    have hno : isDecimalDigit c = false := not_isDecimalDigit_of_isBlank (by simpa using hblank)
    rw [show isDecimalDigit c = true from hc] at hno
    cases hno
  | blank => cases hk

theorem not_mem_of_lacks (cs : List Char) (k : CharClass) (c : Char) (hk : k.lacks cs = true)
    (hc : k.holds c = true) : c ∉ cs := by
  intro hmem
  cases k with
  | only d =>
    rw [show c = d from beq_iff_eq.mp hc] at hmem
    simp [lacks, hmem] at hk
  | oneOf ds =>
    have hd : c ∈ ds := by simpa [holds] using hc
    have hno := List.all_eq_true.mp hk c hd
    simp [hmem] at hno
  | digit =>
    have hno := List.all_eq_true.mp hk c hmem
    rw [show isDecimalDigit c = true from hc] at hno
    cases hno
  | blank =>
    have hno := List.all_eq_true.mp hk c hmem
    rw [show isBlank c = true from hc] at hno
    cases hno

end CharClass

/-! ### Ends of texts -/

namespace Text

/-- The text begins with a blank, if it has any character. -/
def BlankHead (s : List Char) : Prop :=
  ∀ c ∈ s.head?, isBlank c = true

/-- The text ends with a blank, if it has any character. -/
def BlankLast (s : List Char) : Prop :=
  ∀ c ∈ s.getLast?, isBlank c = true

theorem not_nonblank {b : List Char} (hb : ∀ c ∈ b, isBlank c = true) :
    ∀ c ∈ b, ¬ isBlank c = false :=
  fun c hc => by simp [hb c hc]

theorem isWordChar_of_isBlank {c : Char} (h : isBlank c = true) : isWordChar c = false :=
  forall_isBlank (p := fun c => isWordChar c = false) (by decide +kernel) h

theorem BlankHead.noWord {s : List Char} (h : BlankHead s) : NoWord s.head? :=
  fun c hc => isWordChar_of_isBlank (h c hc)

theorem BlankLast.noWord {s : List Char} (h : BlankLast s) : NoWord s.getLast? :=
  fun c hc => isWordChar_of_isBlank (h c hc)

theorem blankHead_of_blanks {b : List Char} (hb : ∀ c ∈ b, isBlank c = true) : BlankHead b :=
  fun c hc => hb c (List.mem_of_mem_head? hc)

theorem blankLast_of_blanks {b : List Char} (hb : ∀ c ∈ b, isBlank c = true) : BlankLast b :=
  fun c hc => hb c (List.mem_of_mem_getLast? hc)

theorem BlankLast.append_blanks {s b : List Char} (hb : ∀ c ∈ b, isBlank c = true)
    (h : BlankLast s ∨ b ≠ []) : BlankLast (s ++ b) := by
  intro c hc
  rw [List.getLast?_append] at hc
  rcases List.eq_nil_or_concat b with rfl | ⟨b, d, rfl⟩
  · exact h.resolve_right (fun hne => hne rfl) c hc
  · rw [List.concat_eq_append, List.getLast?_concat] at hc
    cases hc
    exact hb c (by simp)

end Text

namespace Replacement

variable {r : Replacement}

/-! ### Blanks in front -/

section Front

variable (hheads : r.pattern.heads CharClass.nonblank = true)

include hheads

theorem idle_blanks {b : List Char} (hb : ∀ c ∈ b, isBlank c = true) (t : List Char) :
    r.pattern.Idle b t :=
  Pattern.idle_of_heads CharClass.not_isBlank_of_nonblank hheads
    (not_nonblank hb) t

/-- Blanks in front of a text are kept. -/
theorem pass_blanks_append {b : List Char} (hb : ∀ c ∈ b, isBlank c = true) (s : List Char) :
    r.pass (b ++ s) = b ++ r.pass s := by
  have hkept := passFrom_append_of_idle (idle_blanks hheads hb s) []
  have hfront : r.passFrom b.getLast? 0 s = r.pass s :=
    passFrom_congr (z := []) ((blankLast_of_blanks hb).noWord.sameKind noWord_none) s
  exact hkept.trans (congrArg (b ++ ·) hfront)

/-- A text that begins with a blank is replaced in the same way whatever stands in front of it. -/
theorem passFrom_of_blankHead (z : List Char) {y : List Char} (hy : BlankHead y) :
    r.passFrom z.getLast? 0 y = r.pass y := by
  cases y with
  | nil => rfl
  | cons c y =>
    have hc : ∀ d ∈ [c], isBlank d = true := by simpa using hy c rfl
    have hkept (z : List Char) : r.passFrom z.getLast? 0 ([c] ++ y) =
        [c] ++ r.passFrom (z ++ [c]).getLast? 0 y :=
      passFrom_append_of_idle (idle_blanks hheads hc y) z
    have hboth := (hkept z).trans (Eq.trans ?_ (hkept []).symm)
    · exact hboth
    · rw [List.getLast?_concat, List.getLast?_concat]

theorem blankHead_pass {y : List Char} (hy : BlankHead y) : BlankHead (r.pass y) := by
  cases y with
  | nil => exact hy
  | cons c y =>
    have hc : ∀ d ∈ [c], isBlank d = true := by simpa using hy c rfl
    rw [show c :: y = [c] ++ y from rfl, pass_blanks_append hheads hc]
    exact hy

end Front

/-! ### Blanks behind -/

/-- Blanks behind a text are kept, or they are made less behind a text that ends with a blank. -/
def KeepsBlanks (r : Replacement) : Prop :=
  ∀ s b, (∀ c ∈ b, isBlank c = true) → ∃ b', (∀ c ∈ b', isBlank c = true) ∧
    r.pass (s ++ b) = r.pass s ++ b' ∧ (b' = b ∨ BlankLast (r.pass s))

/-- A text that ends with a blank still does. -/
theorem KeepsBlanks.blankLast_pass (hr : r.KeepsBlanks) {x : List Char} (hx : BlankLast x) :
    BlankLast (r.pass x) := by
  rcases List.eq_nil_or_concat x with rfl | ⟨x, c, rfl⟩
  · exact hx
  · rw [List.concat_eq_append] at hx ⊢
    have hc : ∀ d ∈ [c], isBlank d = true := by simpa using hx c (by simp)
    obtain ⟨b, hb, hpass, rfl | hlast⟩ := hr x [c] hc
    · rw [hpass]
      exact .append_blanks hb (.inr (List.cons_ne_nil c []))
    · rw [hpass]
      exact .append_blanks hb (.inl hlast)

/-- No text of the pattern ends with a blank, so none goes on into blanks. -/
theorem pass_append_blanks (hheads : r.pattern.heads CharClass.nonblank = true)
    (hlasts : r.pattern.lasts CharClass.nonblank = true) (s : List Char) {b : List Char}
    (hb : ∀ c ∈ b, isBlank c = true) : r.pass (s ++ b) = r.pass s ++ b := by
  have hclear : r.pattern.Clear s b :=
    Pattern.clear_of_lasts CharClass.not_isBlank_of_nonblank hlasts
      (not_nonblank hb) s
  have hcut := passFrom_append_of_clear (z := []) (w := []) rfl (blankHead_of_blanks hb).noWord
    hclear
  have hkept : r.passFrom ([] ++ s).getLast? 0 b = b :=
    passFrom_of_idle (idle_blanks hheads hb []) _
  rw [hkept] at hcut
  exact hcut

theorem KeepsBlanks.of_lasts (hheads : r.pattern.heads CharClass.nonblank = true)
    (hlasts : r.pattern.lasts CharClass.nonblank = true) : r.KeepsBlanks :=
  fun s b hb => ⟨b, hb, pass_append_blanks hheads hlasts s hb, .inl rfl⟩

end Replacement

/-! ### Blanks behind a phrase at the beginning of a word -/

/-- The blanks in front of a text end where another character stands. -/
theorem Text.not_isBlank_head_dropWhile (t : List Char) :
    ∀ c ∈ (t.dropWhile isBlank).head?, isBlank c = false := by
  intro c hc
  have hnot := List.head?_dropWhile_not isBlank t
  rw [Option.mem_def.mp hc] at hnot
  exact hnot

/-- Blanks behind what a pattern takes are all taken. -/
theorem Pattern.size_firstMatch_append_blanks (a : Pattern) (p : Place) :
    (firstMatch (a ++ Pattern.blanks) p).map Match.size = (firstMatch a p).map fun m =>
      m.size + (m.stop.after.takeWhile isBlank).length := by
  rw [firstMatch_eq_search, firstMatch_eq_search, search_append, search, search, List.map_findSome?,
    List.map_findSome?]
  congr 1
  funext m
  obtain ⟨⟨before, t⟩, n, ks⟩ := m
  have hdecides : Decides (fun m' => some (⟨m'.stop, n + m'.size, ks ++ m'.captures⟩ : Match))
      (t.takeWhile isBlank) := .inl fun _ => rfl
  obtain ⟨b, hsearch⟩ := search_many .blank (d := t.takeWhile isBlank) (s := t.dropWhile isBlank)
    (fun c hc => List.all_eq_true.mp List.all_takeWhile c hc) (not_isBlank_head_dropWhile t) before
    hdecides
  rw [List.takeWhile_append_dropWhile] at hsearch
  exact congrArg (Option.map Match.size) hsearch

/-- What a phrase takes in front of blanks is what it takes without them, and the blanks are left
behind it. -/
theorem Pattern.left_firstMatch_append_blanks {a : Pattern}
    (hlasts : a.lasts CharClass.nonblank = true) {o : Option Char} {v b : List Char} (hv : v ≠ [])
    (hb : ∀ c ∈ b, isBlank c = true) :
    (firstMatch a ⟨o, v ++ b⟩).map (fun m => (m.size, m.stop.after)) =
      (firstMatch a ⟨o, v⟩).map fun m => (m.size, m.stop.after ++ b) := by
  have hclear : a.Clear v b :=
    clear_of_lasts CharClass.not_isBlank_of_nonblank hlasts (not_nonblank hb) v
  have htaken : (firstMatch a ⟨o, v ++ b⟩).map taken = (firstMatch a ⟨o, v ++ []⟩).map taken :=
    taken_firstMatch rfl ((blankHead_of_blanks hb).noWord.sameKind noWord_none) hv hclear
      (clear_nil _ v)
  rw [List.append_nil] at htaken
  cases hfirst : firstMatch a ⟨o, v⟩ with
  | none =>
    rw [hfirst, Option.map_none, Option.map_eq_none_iff] at htaken
    rw [htaken]
    rfl
  | some m =>
    rw [hfirst, Option.map_some, Option.map_eq_some_iff] at htaken
    obtain ⟨m', hfirst', hsame⟩ := htaken
    have hsize : m'.size = m.size := congrArg Prod.fst hsame
    obtain ⟨hle, hstop⟩ := sound _ _ m (List.mem_of_mem_head? hfirst)
    obtain ⟨-, hstop'⟩ := sound _ _ m' (List.mem_of_mem_head? hfirst')
    rw [hsize, List.drop_append_of_le_length hle] at hstop'
    rw [hfirst', Option.map_some, Option.map_some, hsize, hstop, hstop']

namespace Replacement

section Lead

open Wording

variable {lead : Pattern} {output : String}

theorem fill_lead (m : Match) : (leadReplacement lead output).fill m = output.toList :=
  List.append_nil _

variable (hconsumes : lead.consumes = true)

include hconsumes

/-- The phrase is taken with all blanks behind it. -/
theorem size_matchAt_lead (p : Place) : ((leadReplacement lead output).matchAt p).map Match.size =
    (Pattern.firstMatch (.boundary ++ lead) p).map fun m =>
      m.size + (m.stop.after.takeWhile isBlank).length := by
  have hpattern : (leadReplacement lead output).pattern.consumes = true := by
    simp [leadReplacement, Pattern.consumes, hconsumes, HAppend.hAppend, Append.append]
  rw [← Pattern.size_firstMatch_append_blanks, matchAt_eq_firstMatch hpattern]
  rfl

variable (output) in
/-- The phrase is found in front of blanks where it is found without them. It takes these blanks too
if it leaves nothing in front of them. -/
theorem size_matchAt_lead_append (hlasts : lead.lasts CharClass.nonblank = true) {o : Option Char}
    {v b : List Char} (hv : v ≠ []) (hb : ∀ c ∈ b, isBlank c = true) :
    ((leadReplacement lead output).matchAt ⟨o, v ++ b⟩).map Match.size =
      (((leadReplacement lead output).matchAt ⟨o, v⟩).map Match.size).map fun n =>
        if n = v.length then (v ++ b).length else n := by
  have hleft := Pattern.left_firstMatch_append_blanks (a := .boundary ++ lead) (o := o) (by
    simp [Pattern.lasts, hlasts, HAppend.hAppend, Append.append]) hv hb
  have hsizes : (Pattern.firstMatch (.boundary ++ lead) ⟨o, v ++ b⟩).map
        (fun m => m.size + (m.stop.after.takeWhile isBlank).length) =
      (Pattern.firstMatch (.boundary ++ lead) ⟨o, v⟩).map
        fun m => m.size + ((m.stop.after ++ b).takeWhile isBlank).length := by
    have hmap := congrArg (Option.map fun x => x.1 + (x.2.takeWhile isBlank).length) hleft
    rwa [Option.map_map, Option.map_map] at hmap
  rw [size_matchAt_lead hconsumes, size_matchAt_lead hconsumes, hsizes, Option.map_map]
  cases hfirst : Pattern.firstMatch (.boundary ++ lead) ⟨o, v⟩ with
  | none => rfl
  | some m =>
    obtain ⟨hle, hstop⟩ := Pattern.sound _ _ m (List.mem_of_mem_head? hfirst)
    have hlength : m.size + m.stop.after.length = v.length := by
      rw [hstop, List.length_drop]
      exact Nat.add_sub_cancel' hle
    have hrun : (m.stop.after.takeWhile isBlank).length ≤ m.stop.after.length :=
      (List.takeWhile_prefix isBlank).length_le
    have hall : b.takeWhile isBlank = b := by
      have htake : (b ++ []).takeWhile isBlank = b ++ ([] : List Char).takeWhile isBlank :=
        List.takeWhile_append_of_pos hb
      rwa [List.append_nil, List.takeWhile_nil, List.append_nil] at htake
    rw [Option.map_some, Option.map_some, Function.comp_apply, List.takeWhile_append,
      List.length_append]
    congr 1
    split
    · next heq =>
      rw [List.length_append, hall, if_pos (by omega)]
      omega
    · next hne => rw [if_neg (by omega)]

section Behind

variable (hlasts : lead.lasts CharClass.nonblank = true) {b : List Char}
  (hb : ∀ c ∈ b, isBlank c = true)

include hlasts hb

theorem matchAt_lead_append_of_none {o : Option Char} {v : List Char} (hv : v ≠ [])
    (h : (leadReplacement lead output).matchAt ⟨o, v⟩ = none) :
    (leadReplacement lead output).matchAt ⟨o, v ++ b⟩ = none := by
  have hsize := size_matchAt_lead_append output hconsumes hlasts (o := o) hv hb
  rwa [h, Option.map_none, Option.map_none, Option.map_eq_none_iff] at hsize

/-- At the end of a text, the phrase takes the blanks that are put there. -/
theorem Found.lead_append_nil {z d : List Char} {m : Match} (hne : d ≠ [])
    (h : Found (leadReplacement lead output) z d [] m) :
    ∃ m', Found (leadReplacement lead output) z (d ++ b) [] m' := by
  have hsize := size_matchAt_lead_append output hconsumes hlasts (o := z.getLast?) hne hb
  have hm := h.matchAt
  rw [List.append_nil] at hm
  rw [hm, Option.map_some, Option.map_some, Option.map_eq_some_iff, h.size, if_pos rfl] at hsize
  obtain ⟨m', hm', hsize⟩ := hsize
  exact ⟨m', found_of_size (by rwa [List.append_nil]) hsize⟩

/-- In front of other text, the phrase does not reach the blanks. -/
theorem Found.lead_append {z d s : List Char} {m : Match} (hne : d ≠ []) (hs : s ≠ [])
    (h : Found (leadReplacement lead output) z d s m) :
    ∃ m', Found (leadReplacement lead output) z d (s ++ b) m' := by
  have hsize := size_matchAt_lead_append output hconsumes hlasts (o := z.getLast?)
    (List.append_ne_nil_of_left_ne_nil hne s) hb
  have hlength : d.length ≠ (d ++ s).length := by
    have hpos := List.length_pos_iff.mpr hs
    rw [List.length_append]
    omega
  rw [h.matchAt, Option.map_some, Option.map_some, Option.map_eq_some_iff, h.size,
    if_neg hlength, List.append_assoc] at hsize
  obtain ⟨m', hm', hsize⟩ := hsize
  exact ⟨m', found_of_size hm' hsize⟩

end Behind

/-- What a phrase at the beginning of a word stands for ends with a space, and the blanks behind the
phrase are taken with it. -/
theorem keepsBlanks_lead (hheads : (leadReplacement lead output).pattern.heads CharClass.nonblank)
    (hlasts : lead.lasts CharClass.nonblank = true)
    (houtput : ∃ c ∈ output.toList.getLast?, isBlank c = true) :
    (leadReplacement lead output).KeepsBlanks := by
  intro s b hb
  suffices h : ∀ z : List Char, ∃ b', (∀ c ∈ b', isBlank c = true) ∧
      (leadReplacement lead output).passFrom z.getLast? 0 (s ++ b) =
        (leadReplacement lead output).passFrom z.getLast? 0 s ++ b' ∧
      (b' = b ∨ ∃ c ∈ ((leadReplacement lead output).passFrom z.getLast? 0 s).getLast?,
        isBlank c = true) by
    obtain ⟨b', hb', hpass, hlast⟩ := h []
    refine ⟨b', hb', hpass, hlast.imp_right ?_⟩
    rintro ⟨c, hc, hblank⟩ d hd
    rwa [Option.mem_unique hd hc]
  intro z
  induction z, s using search_induction (r := leadReplacement lead output) with
  | hnil z => exact ⟨b, hb, passFrom_of_idle (idle_blanks hheads hb []) z, .inl rfl⟩
  | @hskip z c s hnone ih =>
    have hnone' := matchAt_lead_append_of_none hconsumes hlasts hb (List.cons_ne_nil c s) hnone
    rw [List.cons_append] at hnone'
    obtain ⟨b', hb', hpass, hlast⟩ := ih
    refine ⟨b', hb', ?_, hlast.imp_right ?_⟩
    · rw [List.cons_append, passFrom_eq_cons hnone', passFrom_eq_cons hnone, hpass,
        List.cons_append]
    · rintro ⟨d, hd, hblank⟩
      rw [passFrom_eq_cons hnone]
      exact ⟨d, List.mem_getLast?_cons hd, hblank⟩
  | @hfound z d s m hne hm ih =>
    rw [hm.passFrom_eq hne, fill_lead]
    by_cases hs : s = []
    · -- the blanks are taken, and the text ends with what the phrase stands for
      subst hs
      obtain ⟨m', hfound⟩ := hm.lead_append_nil hconsumes hlasts hb hne
      have hpass := hfound.passFrom_eq (List.append_ne_nil_of_left_ne_nil hne b)
      rw [List.append_nil, fill_lead] at hpass
      rw [List.append_nil]
      refine ⟨[], nofun, ?_, .inr (by simpa [passFrom] using houtput)⟩
      rw [hpass, List.append_nil]
      rfl
    · obtain ⟨m', hfound⟩ := hm.lead_append hconsumes hlasts hb hne hs
      obtain ⟨b', hb', hpass, hlast⟩ := ih
      refine ⟨b', hb', ?_, hlast.imp_right ?_⟩
      · rw [List.append_assoc, hfound.passFrom_eq hne, fill_lead, hpass,
          List.append_assoc]
      · rintro ⟨e, he, hblank⟩
        exact ⟨e, by rw [List.getLast?_append, Option.mem_def.mp he]; rfl, hblank⟩

end Lead

end Replacement

end Reckon
