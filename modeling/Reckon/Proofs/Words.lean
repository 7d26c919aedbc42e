/-
Words and single spaces.

The words of a text are what is left of it when blanks only separate. Writing words with single
spaces and reading them again gives the same words, so a text in collapsed form stays as it is, and
what follows a beginning without blanks is collapsed again, with a space in front or without one.

* `words_append` : the first word of a text that begins with it.
* `words_append_right`, `words_append_of_head` : the words of two texts.
* `words_unwords` : the words of words that have been written.
* `Tidy.collapse_eq_self` : texts that are in collapsed form.
* `dropBlanks_collapse` : collapsing touches blanks only.
* `rest_of_unwords` : what follows a beginning without blanks.
* `trim_unwords` : words that have been written have no blanks at their ends.
* `words_gap`, `Tidy.append_gap` : the blanks between two texts come down to one space or none.
* `splitOnce?_unwords` : where a text in collapsed form is split at a word.
-/
import Reckon.Text.Split

namespace Reckon.Text

theorem isBlank_space : isBlank ' ' = true := by decide

/-! ### Reading words -/

/-- A word is not empty and holds no blank. -/
def IsWord (w : List Char) : Prop :=
  w ≠ [] ∧ ∀ c ∈ w, isBlank c = false

theorem words_of_isBlank {c : Char} (s : List Char) (hc : isBlank c = true) :
    words (c :: s) = words s := by
  rw [words, if_pos hc]

/-- A text that begins with a word and goes on with a blank or not at all. -/
theorem words_append {w s : List Char} (hw : IsWord w) (hs : s.head?.all isBlank = true) :
    words (w ++ s) = w :: words s := by
  obtain ⟨hne, hblank⟩ := hw
  induction w with
  | nil => exact absurd rfl hne
  | cons c w ih =>
    have hc : ¬ isBlank c = true := by simp [hblank c (by simp)]
    rw [List.cons_append, words, if_neg hc]
    cases w with
    | nil => rw [List.nil_append, if_pos hs]
    | cons d w =>
      have hd : isBlank d = false := hblank d (by simp)
      rw [if_neg (by simp [hd]), ih (by simp) fun e he => hblank e (List.mem_cons_of_mem _ he),
        extendFirst]

theorem IsWord.words_eq {w : List Char} (hw : IsWord w) : words w = [w] := by
  have hwords := words_append (s := []) hw rfl
  rwa [List.append_nil] at hwords

/-- Blanks in front of a text are in no word. -/
theorem words_append_left {b : List Char} (hb : ∀ c ∈ b, isBlank c = true) (s : List Char) :
    words (b ++ s) = words s := by
  induction b with
  | nil => rfl
  | cons c b ih =>
    rw [List.cons_append, words_of_isBlank _ (hb c (by simp)),
      ih fun d hd => hb d (List.mem_cons_of_mem _ hd)]

theorem extendFirst_append (c : Char) {ws : List (List Char)} (h : ws ≠ [])
    (vs : List (List Char)) : extendFirst c (ws ++ vs) = extendFirst c ws ++ vs := by
  obtain ⟨w, ws, rfl⟩ := List.exists_cons_of_ne_nil h
  rfl

/-- A blank, or the end, ends the last word in front of it. -/
theorem words_append_right (s : List Char) {t : List Char}
    (ht : ∀ c ∈ t.head?, isBlank c = true) : words (s ++ t) = words s ++ words t := by
  induction s with
  | nil => rfl
  | cons c s ih =>
    rw [List.cons_append, words, words, ih]
    by_cases hc : isBlank c = true
    · rw [if_pos hc, if_pos hc]
    · rw [if_neg hc, if_neg hc]
      cases s with
      | nil =>
        rw [if_pos (by simpa [Option.all_eq_true] using ht), if_pos (by simp)]
        rfl
      | cons d s =>
        by_cases hd : isBlank d = true
        · rw [if_pos (by simp [hd]), if_pos (by simp [hd])]
          rfl
        · rw [if_neg (by simp [hd]), if_neg (by simp [hd])]
          refine extendFirst_append c ?_ _
          rw [Ne, words_eq_nil_iff]
          exact fun hall => hd (hall d (by simp))

theorem words_append_space (s t : List Char) : words (s ++ ' ' :: t) = words s ++ words t := by
  rw [words_append_right s (by simp [isBlank_space]), words_of_isBlank t isBlank_space]

theorem words_append_blanks (s : List Char) {b : List Char} (hb : ∀ c ∈ b, isBlank c = true)
    (hne : b ≠ []) (t : List Char) : words (s ++ (b ++ t)) = words s ++ words t := by
  obtain ⟨d, b, rfl⟩ := List.exists_cons_of_ne_nil hne
  rw [words_append_right s (by simpa using hb d (by simp)), words_append_left hb]

/-- A word in front of a text that does not begin with a blank becomes part of its first word. -/
theorem words_append_of_head {w s : List Char} (hw : ∀ c ∈ w, isBlank c = false)
    {d : Char} (hd : isBlank d = false) :
    ∃ v vs, words (d :: s) = v :: vs ∧ words (w ++ d :: s) = (w ++ v) :: vs := by
  induction w with
  | nil =>
    have hne : words (d :: s) ≠ [] := by
      rw [Ne, words_eq_nil_iff]
      exact fun hall => by simp [hd] at hall
    obtain ⟨v, vs, hwords⟩ := List.exists_cons_of_ne_nil hne
    exact ⟨v, vs, hwords, hwords⟩
  | cons c w ih =>
    obtain ⟨v, vs, hwords, happend⟩ := ih fun e he => hw e (List.mem_cons_of_mem _ he)
    have hhead : ¬ (w ++ d :: s).head?.all isBlank = true := by
      cases w with
      | nil => simp [hd]
      | cons e w => simp [hw e (by simp)]
    refine ⟨v, vs, hwords, ?_⟩
    rw [List.cons_append, words, if_neg (by simp [hw c (by simp)]), if_neg hhead, happend]
    rfl

theorem isWord_of_mem_words {s w : List Char} (hw : w ∈ words s) : IsWord w := by
  refine ⟨?_, not_isBlank_of_mem_words hw⟩
  induction s with
  | nil => simp [words] at hw
  | cons c s ih =>
    rw [words] at hw
    split at hw
    · exact ih hw
    · split at hw
      · rcases List.mem_cons.mp hw with rfl | hw
        · simp
        · exact ih hw
      · cases hws : words s with
        | nil =>
          rw [hws, extendFirst, List.mem_singleton] at hw
          simp [hw]
        | cons v vs =>
          rw [hws] at hw ih
          rcases List.mem_cons.mp hw with rfl | hw
          · simp
          · exact ih (List.mem_cons_of_mem _ hw)

/-- The characters of the words are characters of the text. -/
theorem mem_of_mem_words {s w : List Char} (hw : w ∈ words s) : ∀ c ∈ w, c ∈ s := by
  induction s generalizing w with
  | nil => simp [words] at hw
  | cons a s ih =>
    intro c hc
    rw [words] at hw
    split at hw
    · exact List.mem_cons_of_mem _ (ih hw c hc)
    · split at hw
      · rcases List.mem_cons.mp hw with rfl | hw
        · rw [List.mem_singleton] at hc
          simp [hc]
        · exact List.mem_cons_of_mem _ (ih hw c hc)
      · cases hws : words s with
        | nil =>
          rw [hws, extendFirst, List.mem_singleton] at hw
          subst hw
          rw [List.mem_singleton] at hc
          simp [hc]
        | cons v vs =>
          rw [hws] at hw ih
          rcases List.mem_cons.mp hw with rfl | hw
          · rcases List.mem_cons.mp hc with rfl | hc
            · simp
            · exact List.mem_cons_of_mem _ (ih (List.mem_cons_self ..) c hc)
          · exact List.mem_cons_of_mem _ (ih (List.mem_cons_of_mem _ hw) c hc)

/-! ### Writing words -/

theorem map_toList_map_ofList (ws : List (List Char)) :
    (ws.map String.ofList).map String.toList = ws := by
  rw [List.map_map]
  exact List.map_id'' (fun w => String.toList_ofList) ws

theorem unwords_singleton (w : List Char) : unwords [w] = w :=
  List.intercalate_singleton

theorem unwords_cons {w : List Char} {ws : List (List Char)} (h : ws ≠ []) :
    unwords (w :: ws) = w ++ ' ' :: unwords ws := by
  obtain ⟨v, vs, rfl⟩ := List.exists_cons_of_ne_nil h
  rw [unwords, List.intercalate_cons_cons, List.append_assoc]
  rfl

theorem unwords_append_cons (v w : List Char) (ws : List (List Char)) :
    unwords ((v ++ w) :: ws) = v ++ unwords (w :: ws) := by
  by_cases h : ws = []
  · subst h
    rw [unwords_singleton, unwords_singleton]
  · rw [unwords_cons h, unwords_cons h, List.append_assoc]

/-- Words that have been written with single spaces are read again. -/
theorem words_unwords {ws : List (List Char)} (h : ∀ w ∈ ws, IsWord w) :
    words (unwords ws) = ws := by
  induction ws with
  | nil => rfl
  | cons w ws ih =>
    have hw : IsWord w := h w (by simp)
    by_cases hws : ws = []
    · rw [hws, unwords_singleton, hw.words_eq]
    · rw [unwords_cons hws, words_append hw (by simp [isBlank_space]),
        words_of_isBlank _ isBlank_space, ih fun v hv => h v (List.mem_cons_of_mem _ hv)]

theorem unwords_ne_nil {ws : List (List Char)} (h : ∀ w ∈ ws, IsWord w) (hne : ws ≠ []) :
    unwords ws ≠ [] := by
  intro hnil
  have hwords := words_unwords h
  rw [hnil] at hwords
  exact hne hwords.symm

theorem words_collapse (s : List Char) : words (collapse s) = words s :=
  words_unwords fun _ hw => isWord_of_mem_words hw

/-- The first of some words that have been written, whatever it is, and what follows it. -/
theorem unwords_eq_append {ws : List (List Char)} (h : ∀ w ∈ ws, IsWord w) :
    ∃ s, (∀ w, unwords (w :: ws) = w ++ s) ∧ words s = ws ∧ (s = [] ∨ s = ' ' :: unwords ws) := by
  by_cases hws : ws = []
  · subst hws
    exact ⟨[], fun w => by rw [unwords_singleton, List.append_nil], rfl, Or.inl rfl⟩
  · refine ⟨' ' :: unwords ws, fun w => unwords_cons hws, ?_, Or.inr rfl⟩
    rw [words_of_isBlank _ isBlank_space, words_unwords h]

/-- What follows a beginning without blanks is written with single spaces again, behind a space
where the beginning is a whole word; its words but the first are words of the whole but the
first. -/
theorem rest_of_unwords {ws : List (List Char)} {a r : List Char} (h : ∀ w ∈ ws, IsWord w)
    (hr : unwords ws = a ++ r) (ha : ∀ c ∈ a, isBlank c = false) :
    (r = unwords (words r) ∨ r = ' ' :: unwords (words r)) ∧
      ∀ v ∈ (words r).tail, v ∈ ws.tail := by
  cases ws with
  | nil =>
    obtain ⟨rfl, rfl⟩ := List.append_eq_nil_iff.mp hr.symm
    exact ⟨Or.inl rfl, by simp [words]⟩
  | cons w ws =>
    have hws : ∀ v ∈ ws, IsWord v := fun v hv => h v (List.mem_cons_of_mem _ hv)
    obtain ⟨s, hs, hwords, hblank⟩ := unwords_eq_append hws
    have hsplit : ∃ v, w = a ++ v ∧ r = v ++ s := by
      rcases List.append_eq_append_iff.mp ((hs w).symm.trans hr) with ⟨v, rfl, rfl⟩ | ⟨v, hv, hr'⟩
      · -- a beginning that ends behind the first word ends at its end
        cases v with
        | nil => exact ⟨[], by simp, rfl⟩
        | cons c v =>
          rcases hblank with hnil | hspace
          · simp at hnil
          · obtain ⟨rfl, -⟩ := List.cons_eq_cons.mp hspace
            exact absurd (ha ' ' (by simp)) (by simp [isBlank_space])
      · exact ⟨v, hv, hr'⟩
    obtain ⟨v, rfl, rfl⟩ := hsplit
    rw [List.tail_cons]
    by_cases hv : v = []
    · subst hv
      rw [List.nil_append, hwords]
      refine ⟨?_, fun _ => List.mem_of_mem_tail⟩
      rcases hblank with rfl | rfl
      · rw [← hwords]
        exact Or.inl rfl
      · exact Or.inr rfl
    · have hword : IsWord v :=
        ⟨hv, fun c hc => (h _ (List.mem_cons_self ..)).2 c (List.mem_append_right _ hc)⟩
      have hhead : s.head?.all isBlank = true := by
        rcases hblank with rfl | rfl
        · rfl
        · simp [isBlank_space]
      rw [words_append hword hhead, hwords, List.tail_cons]
      exact ⟨Or.inl (hs v).symm, fun _ h' => h'⟩

/-! ### Ends -/

theorem unwords_append {vs ws : List (List Char)} (hvs : vs ≠ []) (hws : ws ≠ []) :
    unwords (vs ++ ws) = unwords vs ++ ' ' :: unwords ws := by
  induction vs with
  | nil => exact absurd rfl hvs
  | cons v vs ih =>
    rw [List.cons_append, unwords_cons (by simp [hws])]
    by_cases h : vs = []
    · subst h
      rw [List.nil_append, unwords_singleton]
    · rw [ih h, unwords_cons h, List.append_assoc, List.cons_append]

theorem mem_unwords {ws : List (List Char)} {c : Char} (hc : c ∈ unwords ws) :
    c = ' ' ∨ ∃ w ∈ ws, c ∈ w := by
  induction ws with
  | nil => cases hc
  | cons w ws ih =>
    by_cases hws : ws = []
    · subst hws
      rw [unwords_singleton] at hc
      exact Or.inr ⟨w, by simp, hc⟩
    · rw [unwords_cons hws] at hc
      rcases List.mem_append.mp hc with hc | hc
      · exact Or.inr ⟨w, by simp, hc⟩
      · rcases List.mem_cons.mp hc with rfl | hc
        · exact Or.inl rfl
        · rcases ih hc with rfl | ⟨v, hv, hc⟩
          · exact Or.inl rfl
          · exact Or.inr ⟨v, List.mem_cons_of_mem _ hv, hc⟩

/-- The blanks of a text in collapsed form are spaces. -/
theorem eq_space_of_isBlank {ws : List (List Char)} (h : ∀ w ∈ ws, IsWord w) {c : Char}
    (hc : c ∈ unwords ws) (hblank : isBlank c = true) : c = ' ' := by
  rcases mem_unwords hc with hspace | ⟨w, hw, hc⟩
  · exact hspace
  · rw [(h w hw).2 c hc] at hblank
    cases hblank

theorem head_unwords {ws : List (List Char)} (h : ∀ w ∈ ws, IsWord w) :
    ∀ c ∈ (unwords ws).head?, isBlank c = false := by
  cases ws with
  | nil => nofun
  | cons w ws =>
    obtain ⟨s, hs, -, -⟩ := unwords_eq_append fun v hv => h v (List.mem_cons_of_mem _ hv)
    obtain ⟨hne, hblank⟩ := h w (by simp)
    intro c hc
    rw [hs] at hc
    cases w with
    | nil => exact absurd rfl hne
    | cons d w =>
      cases hc
      exact hblank c (by simp)

theorem getLast_unwords {ws : List (List Char)} (h : ∀ w ∈ ws, IsWord w) :
    ∀ c ∈ (unwords ws).getLast?, isBlank c = false := by
  induction ws with
  | nil => nofun
  | cons w ws ih =>
    have hws : ∀ v ∈ ws, IsWord v := fun v hv => h v (List.mem_cons_of_mem _ hv)
    by_cases hnil : ws = []
    · subst hnil
      rw [unwords_singleton]
      intro c hc
      exact (h w (by simp)).2 c (List.mem_of_mem_getLast? hc)
    · have hne : unwords ws ≠ [] := unwords_ne_nil hws hnil
      rw [unwords_cons hnil, List.getLast?_append, List.getLast?_cons_of_ne_nil hne]
      rw [List.getLast?_eq_some_getLast hne] at ih ⊢
      exact ih hws

theorem takeWhile_unwords {w : List Char} (hw : IsWord w) (ws : List (List Char)) :
    ((unwords (w :: ws)).takeWhile fun c => c ≠ ' ') = w := by
  have hchars : ∀ c ∈ w, decide (c ≠ ' ') = true := by
    intro c hc
    have hblank := hw.2 c hc
    rw [decide_eq_true_eq]
    rintro rfl
    rw [isBlank_space] at hblank
    cases hblank
  have hsplit : ∃ t, unwords (w :: ws) = w ++ t ∧ (t.takeWhile fun c => c ≠ ' ') = [] := by
    by_cases hws : ws = []
    · subst hws
      exact ⟨[], by rw [unwords_singleton, List.append_nil], rfl⟩
    · exact ⟨' ' :: unwords ws, unwords_cons hws, List.takeWhile_cons_of_neg (by simp)⟩
  obtain ⟨t, ht, hnil⟩ := hsplit
  rw [ht, List.takeWhile_append_of_pos hchars, hnil, List.append_nil]

/-- A text is its trimmed form between blanks. -/
theorem exists_trim (s : List Char) : ∃ b b', s = b ++ (trim s ++ b') ∧
    (∀ c ∈ b, isBlank c = true) ∧ ∀ c ∈ b', isBlank c = true := by
  refine ⟨s.takeWhile isBlank, ((trimFront s).reverse.takeWhile isBlank).reverse, ?_, ?_, ?_⟩
  · rw [trim, trimBack, ← List.reverse_append, List.takeWhile_append_dropWhile,
      List.reverse_reverse, trimFront, List.takeWhile_append_dropWhile]
  · exact fun c hc => List.all_eq_true.mp List.all_takeWhile c hc
  · exact fun c hc => List.all_eq_true.mp List.all_takeWhile c (List.mem_reverse.mp hc)

theorem trim_of_ends {s : List Char} (hhead : ∀ c ∈ s.head?, isBlank c = false)
    (hlast : ∀ c ∈ s.getLast?, isBlank c = false) : trim s = s := by
  obtain ⟨b, b', hs, hb, hb'⟩ := exists_trim s
  have hnil : b = [] := by
    cases b with
    | nil => rfl
    | cons c b =>
      rw [hs] at hhead
      have hc := hhead c rfl
      rw [hb c (by simp)] at hc
      cases hc
  have hnil' : b' = [] := by
    by_cases hne : b' = []
    · exact hne
    · rw [hs, List.getLast?_append, List.getLast?_append,
        List.getLast?_eq_some_getLast hne] at hlast
      have hc := hlast _ rfl
      rw [hb' _ (List.getLast_mem hne)] at hc
      cases hc
  rw [hnil, hnil', List.nil_append, List.append_nil] at hs
  exact hs.symm

theorem trim_unwords {ws : List (List Char)} (h : ∀ w ∈ ws, IsWord w) :
    trim (unwords ws) = unwords ws :=
  trim_of_ends (head_unwords h) (getLast_unwords h)

theorem trim_append_blanks {b s b' : List Char} (hb : ∀ c ∈ b, isBlank c = true)
    (hb' : ∀ c ∈ b', isBlank c = true) : trim (b ++ (s ++ b')) = trim s := by
  have hback (t : List Char) : trimBack (t ++ b') = trimBack t := by
    rw [trimBack, List.reverse_append,
      List.dropWhile_append_of_pos fun c hc => hb' c (List.mem_reverse.mp hc), trimBack]
  have hnil : b'.dropWhile isBlank = [] := by
    simpa using @List.dropWhile_append_of_pos _ isBlank b' [] hb'
  rw [trim, trimFront, List.dropWhile_append_of_pos hb, List.dropWhile_append]
  split
  · next hempty => rw [trim, trimFront, List.isEmpty_iff.mp hempty, hnil]
  · exact hback _

theorem trim_append {b n b' : List Char} (hb : ∀ c ∈ b, isBlank c = true) (hn : IsWord n)
    (hb' : ∀ c ∈ b', isBlank c = true) : trim (b ++ (n ++ b')) = n := by
  rw [trim_append_blanks hb hb']
  exact trim_of_ends (fun c hc => hn.2 c (List.mem_of_mem_head? hc))
    fun c hc => hn.2 c (List.mem_of_mem_getLast? hc)

/-! ### Texts in collapsed form -/

/-- A word in front of a text is kept, and so are the words of the text. -/
theorem collapse_append {w s : List Char} (hw : IsWord w) (hs : words s ≠ []) :
    collapse (w ++ s) = w ++ collapse s ∨ collapse (w ++ s) = w ++ ' ' :: collapse s := by
  simp only [collapse]
  by_cases hhead : s.head?.all isBlank = true
  · rw [words_append hw hhead]
    exact Or.inr (unwords_cons hs)
  · cases s with
    | nil => simp at hhead
    | cons d s =>
      obtain ⟨v, vs, hwords, happend⟩ := words_append_of_head (w := w) (s := s) hw.2
        (show isBlank d = false by simpa using hhead)
      rw [happend, hwords]
      exact Or.inl (unwords_append_cons w v vs)

theorem dropBlanks_append (s t : List Char) : dropBlanks (s ++ t) = dropBlanks s ++ dropBlanks t :=
  List.filter_append ..

theorem dropBlanks_of_isWord {w : List Char} (h : ∀ c ∈ w, isBlank c = false) : dropBlanks w = w :=
  List.filter_eq_self.mpr fun c hc => by simp [h c hc]

/-- Writing words puts nothing but blanks between them. -/
theorem dropBlanks_unwords {ws : List (List Char)} (h : ∀ w ∈ ws, IsWord w) :
    dropBlanks (unwords ws) = ws.flatten := by
  induction ws with
  | nil => rfl
  | cons w ws ih =>
    have hws : ∀ v ∈ ws, IsWord v := fun v hv => h v (List.mem_cons_of_mem _ hv)
    have hw := dropBlanks_of_isWord (h w (List.mem_cons_self ..)).2
    by_cases hnil : ws = []
    · subst hnil
      rw [unwords_singleton, hw, List.flatten_singleton]
    · have hspace : dropBlanks [' '] = [] := rfl
      rw [unwords_cons hnil, dropBlanks_append, hw, List.flatten_cons, ← List.singleton_append,
        dropBlanks_append, hspace, ih hws, List.nil_append]

/-- The words of a text are the text without its blanks. -/
theorem flatten_words (s : List Char) : (words s).flatten = dropBlanks s := by
  induction s with
  | nil => rfl
  | cons c s ih =>
    rw [words]
    split
    · next hc => rw [ih, dropBlanks, dropBlanks, List.filter_cons_of_neg (by simp [hc])]
    · next hc =>
      have hcons : dropBlanks (c :: s) = c :: dropBlanks s :=
        List.filter_cons_of_pos (by simpa using hc)
      split
      · rw [List.flatten_cons, ih, hcons]
        rfl
      · cases hws : words s with
        | nil =>
          rw [hws] at ih
          rw [extendFirst, hcons, ← ih]
          rfl
        | cons w ws =>
          rw [hws] at ih
          rw [extendFirst, hcons, ← ih]
          rfl

theorem dropBlanks_collapse (s : List Char) : dropBlanks (collapse s) = dropBlanks s := by
  rw [collapse, dropBlanks_unwords fun _ => isWord_of_mem_words, flatten_words]

/-- A text in which blanks are single spaces between other characters is in collapsed form. -/
inductive Tidy : List Char → Prop
  | last {c : Char} (hc : isBlank c = false) : Tidy [c]
  | next {c d : Char} {s : List Char} (hc : isBlank c = false) (hd : isBlank d = false)
      (h : Tidy (d :: s)) : Tidy (c :: d :: s)
  | space {c : Char} {s : List Char} (hc : isBlank c = false) (h : Tidy s) : Tidy (c :: ' ' :: s)

/-- A character that is no blank in front of a text in collapsed form. -/
theorem Tidy.cons {c : Char} {s : List Char} (hc : isBlank c = false) (h : Tidy s) :
    Tidy (c :: s) := by
  cases h with
  | last hd => exact .next hc hd (.last hd)
  | next hd he h => exact .next hc hd (.next hd he h)
  | space hd h => exact .next hc hd (.space hd h)

theorem tidy_of_isWord {w : List Char} (hw : IsWord w) : Tidy w := by
  obtain ⟨hne, hblank⟩ := hw
  induction w with
  | nil => exact absurd rfl hne
  | cons c w ih =>
    have hc : isBlank c = false := hblank c (by simp)
    cases w with
    | nil => exact .last hc
    | cons d w => exact (ih (by simp) fun e he => hblank e (List.mem_cons_of_mem _ he)).cons hc

theorem Tidy.append {w s : List Char} (hw : ∀ c ∈ w, isBlank c = false) (h : Tidy s) :
    Tidy (w ++ s) := by
  induction w with
  | nil => exact h
  | cons c w ih =>
    exact (ih fun d hd => hw d (List.mem_cons_of_mem _ hd)).cons (hw c (by simp))

theorem Tidy.append_space {w s : List Char} (hw : IsWord w) (h : Tidy s) :
    Tidy (w ++ ' ' :: s) := by
  obtain ⟨hne, hblank⟩ := hw
  induction w with
  | nil => exact absurd rfl hne
  | cons c w ih =>
    have hc : isBlank c = false := hblank c (by simp)
    cases w with
    | nil => exact .space hc h
    | cons d w => exact (ih (by simp) fun e he => hblank e (List.mem_cons_of_mem _ he)).cons hc

theorem Tidy.words_ne_nil {s : List Char} (h : Tidy s) : words s ≠ [] := by
  rw [Ne, words_eq_nil_iff]
  intro hall
  cases h with
  | last hc | next hc | space hc => simp [hc] at hall

theorem unwords_extendFirst (c : Char) {ws : List (List Char)} (h : ws ≠ []) :
    unwords (extendFirst c ws) = c :: unwords ws := by
  obtain ⟨w, ws, rfl⟩ := List.exists_cons_of_ne_nil h
  exact unwords_append_cons [c] w ws

theorem Tidy.collapse_eq_self {s : List Char} (h : Tidy s) : collapse s = s := by
  rw [collapse]
  induction h with
  | last hc => simp [words, hc, unwords_singleton]
  | @next c d s hc hd h ih =>
    rw [words, if_neg (by simp [hc]), if_neg (by simp [hd]),
      unwords_extendFirst c h.words_ne_nil, ih]
  | @space c s hc h ih =>
    rw [words, if_neg (by simp [hc]), if_pos (by simp [isBlank_space]),
      words_of_isBlank _ isBlank_space, unwords_cons h.words_ne_nil, ih]
    rfl

theorem tidy_unwords {ws : List (List Char)} (h : ∀ w ∈ ws, IsWord w) (hne : ws ≠ []) :
    Tidy (unwords ws) := by
  induction ws with
  | nil => exact absurd rfl hne
  | cons w ws ih =>
    have hw : IsWord w := h w (by simp)
    by_cases hws : ws = []
    · rw [hws, unwords_singleton]
      exact tidy_of_isWord hw
    · rw [unwords_cons hws]
      exact (ih (fun v hv => h v (List.mem_cons_of_mem _ hv)) hws).append_space hw

theorem Tidy.trim_eq_self {s : List Char} (h : Tidy s) : trim s = s := by
  rw [← h.collapse_eq_self]
  exact trim_unwords fun _ => isWord_of_mem_words

/-! ### Stretches of blanks -/

/-- The space that is left of a stretch of blanks between other characters, if it has any. -/
def gap (b : List Char) : List Char :=
  if b = [] then [] else [' ']

theorem gap_of_ne_nil {b : List Char} (hb : b ≠ []) : gap b = [' '] :=
  if_neg hb

theorem eq_space_of_mem_gap {b : List Char} {c : Char} (hc : c ∈ gap b) : c = ' ' := by
  unfold gap at hc
  split at hc
  · cases hc
  · exact List.mem_singleton.mp hc

theorem isBlank_of_mem_gap {b : List Char} {c : Char} (hc : c ∈ gap b) : isBlank c = true := by
  rw [eq_space_of_mem_gap hc]
  exact isBlank_space

/-- How many blanks separate two texts, and which ones, does not change their words. -/
theorem words_gap (s : List Char) {b : List Char} (hb : ∀ c ∈ b, isBlank c = true)
    (t : List Char) : words (s ++ (b ++ t)) = words (s ++ (gap b ++ t)) := by
  by_cases hnil : b = []
  · rw [hnil, gap, if_pos rfl]
  · rw [words_append_blanks s hb hnil, gap_of_ne_nil hnil, List.singleton_append,
      words_append_space]

theorem Tidy.append_gap {s t : List Char} (hs : Tidy s) (ht : Tidy t) (b : List Char) :
    Tidy (s ++ (gap b ++ t)) := by
  induction hs with
  | @last c hc =>
    by_cases hnil : b = []
    · rw [hnil, gap, if_pos rfl]
      exact ht.cons hc
    · rw [gap_of_ne_nil hnil]
      exact .space hc ht
  | next hc hd _ ih => exact .next hc hd ih
  | space hc _ ih => exact .space hc ih

/-! ### Splitting at a word -/

theorem splitOnce?_cons_of_not {sep : List Char} {c : Char} {s : List Char}
    (h : stripPrefix? sep (c :: s) = none) :
    splitOnce? sep (c :: s) = (splitOnce? sep s).map fun (a, b) => (c :: a, b) := by
  rw [splitOnce?, h]

/-- What does not hold the first character of a separator is skipped. -/
theorem splitOnce?_append {c : Char} {v : List Char} (hv : ∀ d ∈ v, c ≠ d) (sep s : List Char) :
    splitOnce? (c :: sep) (v ++ s) = (splitOnce? (c :: sep) s).map fun (a, b) => (v ++ a, b) := by
  induction v with
  | nil => simp
  | cons d v ih =>
    have hd : c ≠ d := hv d (by simp)
    rw [List.cons_append, splitOnce?_cons_of_not (by rw [stripPrefix?, if_neg hd]),
      ih fun e he => hv e (List.mem_cons_of_mem _ he), Option.map_map]
    rfl

theorem mem_words_between {w : List Char} (hw : IsWord w) (s r : List Char) :
    w ∈ words (s ++ ' ' :: (w ++ ' ' :: r)) := by
  rw [words_append_space, words_append hw (by simp [isBlank_space])]
  simp

/-- Words are split at the first one that is the given word. -/
theorem splitOnce?_unwords {w : List Char} (hw : IsWord w) {vs : List (List Char)}
    (hvs : ∀ v ∈ vs, IsWord v) (hne : vs ≠ []) (hnot : w ∉ vs) (r : List Char) :
    splitOnce? (' ' :: (w ++ [' '])) (unwords vs ++ ' ' :: (w ++ ' ' :: r)) =
      some (unwords vs, r) := by
  induction vs with
  | nil => exact absurd rfl hne
  | cons v vs ih =>
    have hspace : ∀ d ∈ v, ' ' ≠ d := by
      rintro d hd rfl
      have hblank := (hvs v (by simp)).2 _ hd
      rw [isBlank_space] at hblank
      cases hblank
    have hvs' : ∀ u ∈ vs, IsWord u := fun u hu => hvs u (List.mem_cons_of_mem _ hu)
    have hnot' : w ∉ vs := fun hmem => hnot (List.mem_cons_of_mem _ hmem)
    by_cases hnil : vs = []
    · have hstrip : stripPrefix? (' ' :: (w ++ [' '])) (' ' :: (w ++ ' ' :: r)) = some r :=
        stripPrefix?_eq_some.mpr (by simp)
      rw [hnil, unwords_singleton, splitOnce?_append hspace, splitOnce?, hstrip]
      simp
    · -- another word stands behind the space, so the separator does not
      have hstrip : stripPrefix? (' ' :: (w ++ [' ']))
          (' ' :: (unwords vs ++ ' ' :: (w ++ ' ' :: r))) = none := by
        rw [Option.eq_none_iff_forall_ne_some]
        intro r' hr'
        have heq := stripPrefix?_eq_some.mp hr'
        rw [List.cons_append, List.cons.injEq, List.append_assoc] at heq
        have hwords := congrArg words heq.2
        rw [words_append_space, words_unwords hvs', List.singleton_append,
          words_append (s := ' ' :: r') hw (by simp [isBlank_space])] at hwords
        obtain ⟨u, us, rfl⟩ := List.exists_cons_of_ne_nil hnil
        exact hnot' (by simp [(List.cons.inj hwords).1])
      rw [unwords_cons hnil, List.append_assoc, List.cons_append, splitOnce?_append hspace,
        splitOnce?_cons_of_not hstrip, ih hvs' hnil hnot']
      simp

end Reckon.Text
