import WordAutomata.CommandLine
import WordAutomata.Proofs.Compile
import WordAutomata.Proofs.Dfa.Answers

namespace WordAutomata

/-! What the program says about an expression and some words. The stage that is shown
decides which document is printed, and nothing else: the words are tested on the whole
automaton for one stage and on the minimal one for the others, and these answer alike. -/

namespace CommandLine

/-! ## Arguments

An invocation can be spelled out in full: with long options, and with the words where
nothing else is looked for. The stage may be left out. Whatever is spelled out so is read
as it was meant. -/

def Stage.name : Stage → String
  | nfa => "nfa"
  | dfa => "dfa"
  | minimal => "min"

theorem Stage.ofName?_name (stage : Stage) : ofName? stage.name = some stage := by
  cases stage <;> rfl

def longOption (name value : String) : String :=
  "--" ++ name ++ "=" ++ value

def spell (expression alphabet : String) (stage? : Option Stage) (words : List String) :
    List String :=
  longOption "regex" expression :: longOption "alphabet" alphabet ::
    ((stage?.map fun stage => longOption "stage" stage.name).toList ++ "--" :: words)

example : spell "a-b" "a b" (some .nfa) ["x", "-r"] =
    ["--regex=a-b", "--alphabet=a b", "--stage=nfa", "--", "x", "-r"] := rfl

section

variable {name value : String} {arguments next : Arguments} {rest words : List String}

theorem shape_longOption (plain : '=' ∉ name.toList) :
    shape (longOption name value) = .option name value := by
  have spelled : (longOption name value).toList =
      '-' :: '-' :: (name.toList ++ '=' :: value.toList) := by
    simp [longOption]
  have before : ∀ c ∈ name.toList, decide (c ≠ '=') = true := by
    intro c member
    rw [decide_eq_true_iff]
    intro equal
    exact plain (equal ▸ member)
  have name_eq :
      (name.toList ++ '=' :: value.toList).takeWhile (· ≠ '=') = name.toList := by
    rw [List.takeWhile_append_of_pos before, List.takeWhile_cons_of_neg (by decide),
      List.append_nil]
  have rest_eq : (name.toList ++ '=' :: value.toList).dropWhile (· ≠ '=') =
      '=' :: value.toList := by
    rw [List.dropWhile_append_of_pos before, List.dropWhile_cons_of_neg (by decide)]
  rw [shape, spelled]
  -- An argument that ends after the hyphens would be the separator.
  cases text : name.toList ++ '=' :: value.toList with
  | nil => exact absurd (List.append_eq_nil_iff.mp text).2 (List.cons_ne_nil _ _)
  | cons first more =>
      change shapeOfLong (first :: more) = _
      rw [← text]
      simp only [shapeOfLong, name_eq, rest_eq, String.ofList_toList]

theorem readArguments_longOption (plain : '=' ∉ name.toList)
    (accepted : arguments.set? name value = some next) :
    readArguments arguments (longOption name value :: rest) = readArguments next rest := by
  rw [readArguments.eq_def]
  simp only [shape_longOption plain, accepted, bind, Option.bind_some]

theorem readArguments_separator (arguments : Arguments) (words : List String) :
    readArguments arguments ("--" :: words) =
      some (words.foldl Arguments.addWord arguments) := by
  have separator : shape "--" = .separator := rfl
  rw [readArguments.eq_def]
  simp only [separator]

theorem foldl_addWord (arguments : Arguments) (words : List String) :
    words.foldl Arguments.addWord arguments =
      { arguments with words := words.reverse ++ arguments.words } := by
  induction words generalizing arguments with
  | nil => rfl
  | cons word words induction =>
      rw [List.foldl_cons, induction]
      simp [Arguments.addWord]

end

theorem ofArguments?_spell (expression alphabet : String) (stage? : Option Stage)
    (words : List String) :
    Invocation.ofArguments? (spell expression alphabet stage? words) =
      some ⟨expression, alphabet, stage?.getD .minimal, words⟩ := by
  have read : readArguments .start (spell expression alphabet stage? words) =
      some ⟨some expression, some alphabet, stage?, words.reverse⟩ := by
    rw [spell, readArguments_longOption (by decide) rfl,
      readArguments_longOption (by decide) rfl]
    cases stage? with
    | none =>
        rw [Option.map_none, Option.toList_none, List.nil_append, readArguments_separator,
          foldl_addWord, List.append_nil]
    | some stage =>
        have chosen : Arguments.set? ⟨some expression, some alphabet, none, []⟩ "stage"
            stage.name = some ⟨some expression, some alphabet, some stage, []⟩ := by
          rw [Arguments.set?, Stage.ofName?_name]
          rfl
        rw [Option.map_some, Option.toList_some, List.singleton_append,
          readArguments_longOption (by decide) chosen, readArguments_separator,
          foldl_addWord, List.append_nil]
  rw [Invocation.ofArguments?, read]
  simp [Arguments.invocation?]

/-! ## Lines

A word that is answered has a line on the output, and a word that is not has one among the
errors. -/

def answerLine? (word : String) : Except Error Bool → Option String
  | .ok true => some s!"{word}\taccept\n"
  | .ok false => some s!"{word}\treject\n"
  | .error _ => none

def reportLine? (word : String) : Except Error Bool → Option String
  | .ok _ => none
  | .error error => some s!"{word}\t{error.message}\n"

theorem verdict_eq (dfa : Dfa) (word : String) :
    verdict dfa word = ((answerLine? word (dfa.runText word)).getD "",
      (reportLine? word (dfa.runText word)).getD "") := by
  rw [verdict]
  rcases dfa.runText word with failure | accepted
  · rfl
  · cases accepted <;> rfl

theorem join_map_getD {α : Type} (line? : α → Option String) (values : List α) :
    String.join (values.map fun value => (line? value).getD "") =
      String.join (values.filterMap line?) := by
  induction values with
  | nil => rfl
  | cons value values induction =>
      rw [List.map_cons, String.join_cons, induction]
      cases found : line? value with
      | none => rw [List.filterMap_cons_none found, Option.getD_none, String.empty_append]
      | some line =>
          rw [List.filterMap_cons_some found, Option.getD_some, String.join_cons]

/-! ## Transcripts -/

/-- The stage decides which document is printed. The lines are those of the whole
automaton in any case. -/
theorem Invocation.run_of_ofText {invocation : Invocation} {tree : Regex}
    (read : Regex.ofText (.ofText invocation.alphabet) invocation.expression = .ok tree) :
    invocation.run =
      ⟨0,
        print invocation.stage (.ofRegex tree) (.ofRegex tree)
            (Dfa.ofRegex tree).minimize ++ "\n" ++
          String.join (invocation.words.filterMap fun word =>
            answerLine? word ((Dfa.ofRegex tree).runText word)),
        String.join (invocation.words.filterMap fun word =>
          reportLine? word ((Dfa.ofRegex tree).runText word))⟩ := by
  have tested : ∀ word, (if invocation.stage = .dfa then Dfa.ofRegex tree
      else (Dfa.ofRegex tree).minimize).runText word = (Dfa.ofRegex tree).runText word := by
    intro word
    split
    case isTrue => rfl
    case isFalse => exact (Dfa.inRange_ofRegex tree).runText_minimize word
  simp only [run, read, List.map_map, Function.comp_def, verdict_eq, join_map_getD, tested]

/-- Every stage can be asked for, and one is chosen where none is. However the arguments
are written, the stage they ask for shows in the document only: the exit code, the errors
and what follows the document are fixed by the expression, the alphabet and the words.
An expression that cannot be read ends the program before anything is printed. Otherwise
every word gets one line, which is on the output if the word is answered and among the
errors if it cannot be cut into symbols. -/
theorem transcript_of_stage (expression alphabet : String) (words : List String) :
    (∀ stage? : Option Stage,
      Invocation.ofArguments? (spell expression alphabet stage? words) =
        some ⟨expression, alphabet, stage?.getD .minimal, words⟩) ∧
    ∀ arguments stage,
      Invocation.ofArguments? arguments = some ⟨expression, alphabet, stage, words⟩ →
      match Regex.ofText (.ofText alphabet) expression with
      | .error failure => transcript arguments = ⟨1, "", s!"Error: {failure.message}\n"⟩
      | .ok tree =>
          let dfa := Dfa.ofRegex tree
          (∀ word, (∃ answer, dfa.runText word = .ok answer) ∨
            ∃ fault, dfa.runText word = .error (.usage fault)) ∧
          transcript arguments =
            ⟨0, print stage (.ofRegex tree) dfa dfa.minimize ++ "\n" ++
              String.join (words.filterMap fun word =>
                answerLine? word (dfa.runText word)),
              String.join (words.filterMap fun word =>
                reportLine? word (dfa.runText word))⟩ := by
  refine ⟨fun stage? => ofArguments?_spell expression alphabet stage? words, ?_⟩
  intro arguments stage given
  have whole : transcript arguments =
      Invocation.run ⟨expression, alphabet, stage, words⟩ := by
    rw [transcript, given]
  rw [whole]
  cases read : Regex.ofText (.ofText alphabet) expression with
  | error failure => simp only [Invocation.run, read]
  | ok tree => exact ⟨(Dfa.ofRegex tree).runText_ok_or_usage, Invocation.run_of_ofText read⟩

/-- The state after "b" is a dead end of the whole automaton and no state of the minimal
one. Both reject the word, and both report the word that goes on with a foreign symbol. -/
theorem transcript_of_stage_of_dead_end :
    let whole := ["-r", "ab", "ab", "bc", "--alphabet=a, b", "--stage=dfa", "b"]
    let minimal := spell "ab" "a, b" none ["ab", "bc", "b"]
    let report := "bc\tusage error: input \"bc\" has no alphabet symbol at byte 1\n"
    ∃ wholeDocument minimalDocument : String,
      transcript whole = ⟨0, wholeDocument ++ "\n" ++ "ab\taccept\nb\treject\n", report⟩ ∧
      transcript minimal =
        ⟨0, minimalDocument ++ "\n" ++ "ab\taccept\nb\treject\n", report⟩ := by
  intro whole minimal report
  rcases transcript_of_stage "ab" "a, b" ["ab", "bc", "b"] with ⟨spelled, transcripts⟩
  have read : Regex.ofText (.ofText "a, b") "ab" =
      .ok (.seq (.literal "a") (.literal "b")) := by decide +kernel
  have ofWhole := transcripts whole .dfa (by decide +kernel)
  have ofMinimal := transcripts minimal .minimal (spelled none)
  rw [read] at ofWhole ofMinimal
  let dfa := Dfa.ofRegex (.seq (.literal "a") (.literal "b"))
  have lines : String.join (["ab", "bc", "b"].filterMap fun word =>
      answerLine? word (dfa.runText word)) = "ab\taccept\nb\treject\n" := by decide +kernel
  have reports : String.join (["ab", "bc", "b"].filterMap fun word =>
      reportLine? word (dfa.runText word)) = report := by decide +kernel
  rw [← lines, ← reports]
  exact ⟨_, _, ofWhole.2, ofMinimal.2⟩

end CommandLine

end WordAutomata
