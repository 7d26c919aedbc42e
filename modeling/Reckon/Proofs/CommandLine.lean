/-
The query from the command line or from standard input.

Options are given one after another, each as one argument or as two, and they are read one after
another: an option changes what was read before, or asks for something at once, or is wrong use.
What stands behind the options has no part in this. The first word ends the options, and with it all
that follows are words, also those that look like options. The words only matter joined by spaces
and without blanks at the ends, which is how a text on standard input is read as well; so the two
ways to ask cannot be told apart by the outcome.

* `Given` : an option as it is given, and the arguments that give it.
* `readArguments_append` : given options are read apart from what follows them.
* `readArguments_words` : words make the same request as standard input does.
* `run_eq_ofAnswer` : a run looks at its query when nothing before it fails.
* `run_words` : the outcome for words is that for the joined words on standard input.
-/
import Mathlib
import Reckon.Command.Run
import Reckon.Proofs.Words

namespace Reckon.Command

open Calendar Text

/-! ### Options as they are given -/

/-- The argument with a long name, and the value attached to it. -/
def longText (name : String) : Option String → String
  | none => "--" ++ name
  | some value => "--" ++ name ++ "=" ++ value

/-- An option as it is given. -/
inductive Given
  /-- A flag by its name. A value attached to it is wrong use. -/
  | flag (f : Flag) (attached : Option String)
  /-- One dash and letters of flags. -/
  | letters (c : Char) (cs : List Char) (fs : List Flag)
    (h : (c :: cs).mapM Flag.ofLetter? = some fs)
  /-- A setting and its value, attached or as an argument of its own. -/
  | setting (s : Setting) (value : String) (isAttached : Bool)

namespace Given

/-- The arguments that give the option. -/
def args : Given → List String
  | flag f attached => [longText f.name attached]
  | letters c cs _ _ => [String.ofList ('-' :: c :: cs)]
  | setting s value true => [longText s.name (some value)]
  | setting s value false => [longText s.name none, value]

/-- What the option makes of what was read before it. -/
def read (a : Arguments) : Given → Except Misuse (Arguments ⊕ Request)
  | flag f none => setFlags a [f]
  | flag f (some value) => .error ⟨.unwantedValue f value, a.given⟩
  | letters _ _ fs _ => setFlags a fs
  | setting s value isAttached =>
    if isAttached || !startsOption value then (setValue a value s).map .inl
    else .error ⟨.missingValue s, a.given⟩

end Given

/-- The arguments of these options. -/
def argsOf (opts : List Given) : List String :=
  opts.flatMap Given.args

/-- What options make of what was read before them, one after another. -/
def readGiven (a : Arguments) : List Given → Except Misuse (Arguments ⊕ Request)
  | [] => .ok (.inl a)
  | g :: opts => (g.read a).bind (Sum.elim (readGiven · opts) (.ok ∘ Sum.inr))

/-! ### Forms of arguments -/

/-- What stands behind the dashes of a long option. -/
def longChars (n : List Char) (attached : Option String) : List Char :=
  n ++ (attached.map fun value => '=' :: value.toList).getD []

theorem splitLong_longChars {n : List Char} (hn : '=' ∉ n) (attached : Option String) :
    splitLong (longChars n attached) = (String.ofList n, attached) := by
  have hkeep : ∀ c ∈ n, decide (c ≠ '=') = true := by
    intro c hc
    rw [decide_eq_true_eq]
    rintro rfl
    exact hn hc
  -- the name goes up to the first equals sign
  rw [splitLong, longChars, List.dropWhile_append_of_pos hkeep, List.takeWhile_append_of_pos hkeep]
  cases attached with
  | none => simp
  | some v => simp

theorem longForm_setting {name : String} {s : Setting} (hname : '=' ∉ name.toList)
    (hs : Setting.ofName? name = some s) (attached : Option String) :
    longForm (longChars name.toList attached) = .setting s attached := by
  rw [longForm, splitLong_longChars hname, String.ofList_toList]
  simp only [hs]

theorem longForm_flag {name : String} {f : Flag} (hname : '=' ∉ name.toList)
    (hs : Setting.ofName? name = none) (hf : Flag.ofName? name = some f)
    (attached : Option String) :
    longForm (longChars name.toList attached) = .flag f attached := by
  rw [longForm, splitLong_longChars hname, String.ofList_toList]
  simp only [hs, hf]

theorem formOf_longText {name : String} (hne : name.toList ≠ []) (attached : Option String) :
    formOf (longText name attached) = longForm (longChars name.toList attached) := by
  obtain ⟨c, n, hcons⟩ := List.exists_cons_of_ne_nil hne
  have hchars : (longText name attached).toList =
      '-' :: '-' :: longChars name.toList attached := by
    cases attached <;> simp [longText, longChars]
  rw [formOf, hchars, hcons]
  rfl

theorem formOf_setting (s : Setting) (attached : Option String) :
    formOf (longText s.name attached) = .setting s attached := by
  cases s <;> rw [formOf_longText (by decide)] <;> exact longForm_setting (by decide) rfl attached

theorem formOf_flag (f : Flag) (attached : Option String) :
    formOf (longText f.name attached) = .flag f attached := by
  cases f <;> rw [formOf_longText (by decide)] <;> exact longForm_flag (by decide) rfl rfl attached

theorem formOf_letters {c : Char} {cs : List Char} {fs : List Flag}
    (h : (c :: cs).mapM Flag.ofLetter? = some fs) :
    formOf (String.ofList ('-' :: c :: cs)) = .letters fs := by
  -- no flag has the dash for its letter, so these are not two dashes
  have hsingle (ds : List Char) : '-' :: c :: cs ≠ '-' :: '-' :: ds := by
    intro heq
    obtain ⟨rfl, -⟩ := List.cons_eq_cons.mp (List.cons_eq_cons.mp heq).2
    rw [List.mapM_cons] at h
    cases h
  rw [formOf, String.toList_ofList]
  split
  · next heq => exact absurd heq (hsingle _)
  · next heq => exact absurd heq (hsingle _)
  · next heq =>
    rw [List.cons.injEq, List.cons.injEq] at heq
    obtain ⟨-, rfl, rfl⟩ := heq
    rw [h]
  · next hnone => exact absurd rfl (hnone c cs)

/-- An argument that does not begin with a dash is a word. -/
theorem formOf_of_head {arg : String} (h : arg.toList.head? ≠ some '-') : formOf arg = .word := by
  rw [formOf]
  split
  · next heq => exact absurd (by rw [heq]; rfl) h
  · next heq => exact absurd (by rw [heq]; rfl) h
  · next heq => exact absurd (by rw [heq]; rfl) h
  · rfl

/-! ### Reading options -/

section

variable {arg : String} (a : Arguments) (rest : List String)

theorem readArguments_letters {fs : List Flag} (h : formOf arg = .letters fs) :
    readArguments a (arg :: rest) =
      (setFlags a fs).bind (Sum.elim (readArguments · rest) .ok) := by
  simp only [readArguments, h]
  rcases setFlags a fs with e | (a | r) <;> rfl

theorem readArguments_flag {f : Flag} (h : formOf arg = .flag f none) :
    readArguments a (arg :: rest) =
      (setFlags a [f]).bind (Sum.elim (readArguments · rest) .ok) := by
  simp only [readArguments, h]
  rcases setFlags a [f] with e | (a | r) <;> rfl

theorem readArguments_attached {s : Setting} {value : String}
    (h : formOf arg = .setting s (some value)) :
    readArguments a (arg :: rest) = (setValue a value s).bind (readArguments · rest) := by
  simp only [readArguments, h]
  rcases setValue a value s with e | a <;> rfl

theorem readArguments_setting {s : Setting} (value : String) (h : formOf arg = .setting s none) :
    readArguments a (arg :: value :: rest) =
      if startsOption value then .error ⟨.missingValue s, a.given⟩
      else (setValue a value s).bind (readArguments · rest) := by
  simp only [readArguments, h]
  cases startsOption value with
  | true => rfl
  | false => rcases setValue a value s with e | a <;> rfl

end

/-- One option is read apart from what follows it. -/
theorem readArguments_given (a : Arguments) (g : Given) (rest : List String) :
    readArguments a (g.args ++ rest) =
      (g.read a).bind (Sum.elim (readArguments · rest) .ok) := by
  cases g with
  | flag f attached =>
    rw [Given.args, List.singleton_append]
    cases attached with
    | some value => rw [readArguments, formOf_flag]; rfl
    | none => exact readArguments_flag a rest (formOf_flag f none)
  | letters c cs fs h => exact readArguments_letters a rest (formOf_letters h)
  | setting s value isAttached =>
    cases isAttached with
    | true =>
      rw [Given.args, List.singleton_append, readArguments_attached a rest (formOf_setting s _),
        Given.read, Bool.true_or, if_pos rfl]
      rcases setValue a value s with e | b <;> rfl
    | false =>
      rw [Given.args, List.cons_append, List.singleton_append,
        readArguments_setting a rest value (formOf_setting s none), Given.read]
      cases startsOption value with
      | true => rfl
      | false => rcases setValue a value s with e | b <;> rfl

/-- Options are read apart from what follows them. -/
theorem readArguments_append (opts : List Given) (a : Arguments) (rest : List String) :
    readArguments a (argsOf opts ++ rest) =
      (readGiven a opts).bind (Sum.elim (readArguments · rest) .ok) := by
  induction opts generalizing a with
  | nil => rfl
  | cons g opts ih =>
    rw [argsOf, List.flatMap_cons, List.append_assoc, readArguments_given, readGiven]
    -- only an option that adds arguments lets the others be read
    rcases g.read a with e | (a | r)
    · rfl
    · exact ih a
    · rfl

/-! ### Words behind options -/

/-- The words are these still, or no query is asked for. -/
def KeepsWords (words : List String) : Arguments ⊕ Request → Prop
  | .inl a => a.words = words
  | .inr r => ∀ a, r ≠ .run a

theorem keepsWords_setFlags {fs : List Flag} {a : Arguments} {x : Arguments ⊕ Request}
    (h : setFlags a fs = .ok x) : KeepsWords a.words x := by
  induction fs generalizing a with
  | nil =>
    obtain rfl := Except.ok.inj h
    rfl
  | cons f fs ih =>
    cases f with
    | json =>
      rw [setFlags] at h
      split at h
      · cases h
      · exact ih (a := { a.withGiven Flag.json.name with json := true }) h
    | verbose =>
      rw [setFlags] at h
      split at h
      · cases h
      · exact ih (a := { a.withGiven Flag.verbose.name with verbose := true }) h
    | help =>
      obtain rfl := Except.ok.inj h
      exact nofun
    | version =>
      obtain rfl := Except.ok.inj h
      exact nofun

theorem words_setValue {a a' : Arguments} {value : String} {s : Setting}
    (h : setValue a value s = .ok a') : a'.words = a.words := by
  rw [setValue] at h
  split at h
  · cases h
  · split at h
    · cases h
    · obtain rfl := Except.ok.inj h
      cases s <;> rfl

theorem keepsWords_read {g : Given} {a : Arguments} {x : Arguments ⊕ Request}
    (h : g.read a = .ok x) : KeepsWords a.words x := by
  cases g with
  | flag f attached =>
    cases attached with
    | none => exact keepsWords_setFlags h
    | some value => cases h
  | letters c cs fs hfs => exact keepsWords_setFlags h
  | setting s value isAttached =>
    rw [Given.read] at h
    split at h
    · obtain ⟨a', ha', rfl⟩ := map_eq_ok_iff.mp h
      exact words_setValue ha'
    · cases h

theorem keepsWords_readGiven {opts : List Given} {a : Arguments} {x : Arguments ⊕ Request}
    (h : readGiven a opts = .ok x) : KeepsWords a.words x := by
  induction opts generalizing a with
  | nil =>
    obtain rfl := Except.ok.inj h
    rfl
  | cons g opts ih =>
    obtain ⟨y, hy, hx⟩ := bind_eq_ok_iff.mp h
    -- the words after the first option are the words before it
    have hkeep := keepsWords_read hy
    cases y with
    | inl b =>
      have hrest := ih hx
      rwa [show b.words = a.words from hkeep] at hrest
    | inr r =>
      obtain rfl := Except.ok.inj hx
      exact hkeep

/-- The request for an answer with other arguments. -/
def Request.map (f : Arguments → Arguments) : Request → Request
  | run a => run (f a)
  | r => r

/-- Options alone leave the query to standard input. -/
theorem words_of_readArguments {opts : List Given} {a : Arguments}
    (h : readArguments {} (argsOf opts) = .ok (.run a)) : a.words = [] := by
  rw [← List.append_nil (argsOf opts), readArguments_append] at h
  obtain ⟨x, hx, hrun⟩ := bind_eq_ok_iff.mp h
  have hkeep := keepsWords_readGiven hx
  cases x with
  | inl b =>
    cases hrun
    exact hkeep
  | inr r => exact absurd (Except.ok.inj hrun) (hkeep a)

/-- The words behind options are words, whatever they look like. -/
theorem readArguments_words (opts : List Given) {word : String} (words : List String)
    (hword : word.toList.head? ≠ some '-') :
    readArguments {} (argsOf opts ++ word :: words) =
      (readArguments {} (argsOf opts)).map (.map fun a => { a with words := word :: words }) := by
  have halone := readArguments_append opts {} []
  rw [List.append_nil] at halone
  rw [readArguments_append, halone]
  -- the options are read alike, and what they leave is read from the first word on
  cases hread : readGiven {} opts with
  | error e => rfl
  | ok x =>
    cases x with
    | inl a =>
      show readArguments a (word :: words) = .ok (.run { a with words := word :: words })
      rw [readArguments, formOf_of_head hword]
    | inr r =>
      have hkeep := keepsWords_readGiven hread
      cases r with
      | help => rfl
      | version => rfl
      | run a => exact absurd rfl (hkeep a)

/-! ### What a run looks at -/

/-- What a run ends with that looked at its query. -/
def Outcome.ofAnswer (json : Bool) (query : List Char) : Except Error Answer → Outcome
  | .ok r => .answered (answerText json r)
  | .error _ => .unanswered query

theorem answer_eq (w : World) (a : Arguments) : answer w a = do
    let options ← readOptions w a.config
    let zone ← readZone w a.zone
    let now ← readNow w zone a.now
    let query ← readQuery w a.words
    return .ofAnswer a.json query (interpret options now query) := by
  rw [answer]
  refine bind_congr fun options => bind_congr fun zone => bind_congr fun now =>
    bind_congr fun query => ?_
  cases interpret options now query <;> rfl

/-- A run looks at its query when neither the configuration nor the time zone, the time or the
query itself is wrong. -/
theorem answer_eq_ok {w : World} {a : Arguments} {options : Options} {zone : Zone} {now : Moment}
    {query : List Char} (hoptions : readOptions w a.config = .ok options)
    (hzone : readZone w a.zone = .ok zone) (hnow : readNow w zone a.now = .ok now)
    (hquery : readQuery w a.words = .ok query) :
    answer w a = .ok (.ofAnswer a.json query (interpret options now query)) := by
  rw [answer_eq]
  refine bind_eq_ok_iff.mpr ⟨options, hoptions, ?_⟩
  refine bind_eq_ok_iff.mpr ⟨zone, hzone, ?_⟩
  refine bind_eq_ok_iff.mpr ⟨now, hnow, ?_⟩
  exact bind_eq_ok_iff.mpr ⟨query, hquery, rfl⟩

theorem readText_cons (w : World) (word : String) (words : List String) :
    readText w (word :: words) = .ok (" ".intercalate (word :: words)) := rfl

/-- The query is what a text holds between the blanks at its ends. -/
theorem readQuery_eq {w : World} {words : List String} {text : String}
    (htext : readText w words = .ok text) : readQuery w words =
      if (trim text.toList).isEmpty then .error .emptyQuery else .ok (trim text.toList) := by
  rw [readQuery, htext]
  rfl

theorem eq_trim_of_readQuery {w : World} {words : List String} {text : String} {query : List Char}
    (htext : readText w words = .ok text) (h : readQuery w words = .ok query) :
    query = trim text.toList := by
  rw [readQuery_eq htext] at h
  split at h
  · cases h
  · exact (Except.ok.inj h).symm

/-! ### Requests and outcomes -/

/-- What a run ends with, or why it could not look at its query. -/
def Outcome.ofResult : Except Failure Outcome → Outcome
  | .ok r => r
  | .error f => .failed f

theorem run_eq {args : List String} {a : Arguments} (w : World)
    (h : readArguments {} args = .ok (.run a)) : run w args = .ofResult (answer w a) := by
  simp only [run, h]
  cases answer w a <;> rfl

/-- A run whose configuration, time zone, time and query are right ends with what there is to say
about the query. -/
theorem run_eq_ofAnswer {w : World} {args : List String} {a : Arguments} {options : Options}
    {zone : Zone} {now : Moment} {query : List Char} (ha : readArguments {} args = .ok (.run a))
    (hoptions : readOptions w a.config = .ok options) (hzone : readZone w a.zone = .ok zone)
    (hnow : readNow w zone a.now = .ok now) (hquery : readQuery w a.words = .ok query) :
    run w args = .ofAnswer a.json query (interpret options now query) := by
  rw [run_eq w ha, answer_eq_ok hoptions hzone hnow hquery]
  rfl

/-- Runs that differ in the arguments for an answer alone end the same if the answers do. -/
theorem run_congr {w w' : World} {args args' : List String} {r : Except Misuse Request}
    {f g : Arguments → Arguments} (htexts : w.texts = w'.texts)
    (hargs : readArguments {} args = r.map (.map f))
    (hargs' : readArguments {} args' = r.map (.map g))
    (h : ∀ a, r = .ok (.run a) → answer w (f a) = answer w' (g a)) :
    run w args = run w' args' := by
  rcases r with e | (- | - | a)
  · rw [run, run, hargs, hargs', htexts]
    rfl
  · rw [run, run, hargs, hargs', htexts]
    rfl
  · rw [run, run, hargs, hargs']
    rfl
  · rw [run_eq w hargs, run_eq w' hargs', h a rfl]

theorem Outcome.output_eq_empty {r : Outcome} (h : r.exitCode ≠ 0) : r.output = "" := by
  cases r with
  | shown text => exact absurd rfl h
  | answered text => exact absurd rfl h
  | unanswered query => rfl
  | failed f => rfl

theorem Outcome.exitCode_ofAnswer {json : Bool} {query : List Char} {x : Except Error Answer} :
    (Outcome.ofAnswer json query x).exitCode = 0 ↔ ∃ r, x = .ok r := by
  cases x with
  | error e => exact ⟨nofun, nofun⟩
  | ok r => exact ⟨fun _ => ⟨r, rfl⟩, fun _ => rfl⟩

/-! ### Words and standard input -/

/-- Words are read as the text that they are joined to, with any blanks around it. -/
theorem readQuery_words (w : World) (word : String) (words : List String) {b b' : String}
    (hb : ∀ c ∈ b.toList, isBlank c = true) (hb' : ∀ c ∈ b'.toList, isBlank c = true) :
    readQuery { w with input := .ok (b ++ " ".intercalate (word :: words) ++ b') } [] =
      readQuery w (word :: words) := by
  have hinput : readText { w with input := .ok (b ++ " ".intercalate (word :: words) ++ b') } [] =
      .ok (b ++ " ".intercalate (word :: words) ++ b') := rfl
  rw [readQuery_eq hinput, readQuery_eq (readText_cons w word words), String.toList_append,
    String.toList_append, List.append_assoc, trim_append_blanks hb hb']

/-- Words behind options are the query that they would be on standard input, joined by spaces and
with any blanks around: the outcome is the same, with its exit code and what is written. The words
are never read as options, nothing is written to standard output unless the exit code is zero, and
where neither the options nor the configuration, the time zone, the time or the query is wrong, the
exit code is zero exactly when the query has an answer. -/
theorem run_words (w : World) (opts : List Given) (word : String) (words : List String)
    (hword : word.toList.head? ≠ some '-') :
    (∀ b b' : String, (∀ c ∈ b.toList, isBlank c = true) → (∀ c ∈ b'.toList, isBlank c = true) →
        run w (argsOf opts ++ word :: words) =
          run { w with input := .ok (b ++ " ".intercalate (word :: words) ++ b') }
            (argsOf opts)) ∧
      readArguments {} (argsOf opts ++ word :: words) = (readArguments {} (argsOf opts)).map
        (.map fun a => { a with words := word :: words }) ∧
      (∀ args, (run w args).exitCode ≠ 0 → (run w args).output = "") ∧
      ∀ a options zone now query, readArguments {} (argsOf opts) = .ok (.run a) →
        readOptions w a.config = .ok options → readZone w a.zone = .ok zone →
        readNow w zone a.now = .ok now → readQuery w (word :: words) = .ok query →
        query = trim (" ".intercalate (word :: words)).toList ∧
          ((run w (argsOf opts ++ word :: words)).exitCode = 0 ↔
            ∃ r, interpret options now query = .ok r) := by
  have hread := readArguments_words opts words hword
  refine ⟨fun b b' hb hb' => ?_, hread, fun args => Outcome.output_eq_empty,
    fun a options zone now query ha hoptions hzone hnow hquery => ?_⟩
  · -- without words the request stays as it is, and the query comes from the input
    have halone : readArguments {} (argsOf opts) =
        (readArguments {} (argsOf opts)).map (.map id) := by
      rcases readArguments {} (argsOf opts) with e | (- | - | a) <;> rfl
    refine run_congr rfl hread halone fun a ha => ?_
    have hquery := readQuery_words w word words hb hb'
    rw [← words_of_readArguments ha] at hquery
    rw [answer_eq, answer_eq, id, hquery]
    rfl
  · rw [ha] at hread
    refine ⟨eq_trim_of_readQuery (readText_cons w word words) hquery, ?_⟩
    rw [run_eq_ofAnswer hread hoptions hzone hnow hquery]
    exact Outcome.exitCode_ofAnswer

/-- A world without files and input, and with two zones, by a clock that shows the epoch. -/
def stillWorld : World where
  file? _ := .error "no file"
  zone? name :=
    match name with
    | "UTC" => .ok (.fixed 0 (by decide))
    | "Asia/Tokyo" => .ok (.fixed 32400 (by decide))
    | _ => .error "no zone"
  clock := .epoch
  input := .error "no input"
  texts := ⟨"", fun _ => "", fun _ => "", fun _ => "", ""⟩

/-- Two dashes among the words, which do not end the options there: three minus minus one. -/
theorem run_words_dashes :
    "3".toList.head? ≠ some '-' ∧
      run stillWorld ["--now=2026-02-18T14:30:00Z", "-v", "3", "--", "1"] =
        run { stillWorld with input := .ok "\t3 -- 1\n" } ["--now=2026-02-18T14:30:00Z", "-v"] ∧
      (run stillWorld ["--now=2026-02-18T14:30:00Z", "-v", "3", "--", "1"]).exitCode = 0 := by
  let opts : List Given := [.setting .now "2026-02-18T14:30:00Z" true,
    .letters 'v' [] [.verbose] rfl]
  let now : Moment := ⟨⟨2026, 2, 18, by decide, by decide⟩, TimeOfDay.ofSeconds 52200⟩
  have hword : "3".toList.head? ≠ some '-' := by decide
  have hargs : argsOf opts = ["--now=2026-02-18T14:30:00Z", "-v"] := by decide
  have hanswer : (interpret {} now "3 -- 1".toList).toOption =
      some ⟨"4", "Calculation", .calculator⟩ := by
    decide +kernel
  have hanswered : ∃ r, interpret {} now "3 -- 1".toList = .ok r := by
    cases hr : interpret {} now "3 -- 1".toList with
    | error e =>
      rw [hr] at hanswer
      cases hanswer
    | ok r => exact ⟨r, rfl⟩
  obtain ⟨hinput, -, -, hexit⟩ := run_words stillWorld opts "3" ["--", "1"] hword
  have hsame := hinput "\t" "\n" (by decide) (by decide)
  have hexit := (hexit
    { now := some "2026-02-18T14:30:00Z", verbose := true, given := ["now", "verbose"] }
    {} (.fixed 0 (by decide)) now "3 -- 1".toList (by decide) rfl rfl (by decide) (by decide)).2
  rw [hargs] at hsame hexit
  exact ⟨hword, hsame, hexit.mpr hanswered⟩

end Reckon.Command
