import WordAutomata.Compile
import WordAutomata.Dfa.Document
import WordAutomata.Nfa.Document

namespace WordAutomata

/-! The command line: compile an expression, print the document of one of its
automata, and test words. -/

namespace CommandLine

inductive Stage where
  | nfa
  | dfa
  | minimal
deriving DecidableEq, Repr

def Stage.ofName? : String → Option Stage
  | "nfa" => some nfa
  | "dfa" => some dfa
  | "min" => some minimal
  | _ => none

structure Invocation where
  expression : String
  alphabet : String
  stage : Stage
  words : List String
deriving DecidableEq, Repr

structure Transcript where
  code : UInt8
  output : String
  errors : String
deriving DecidableEq, Repr

/-! ## Work -/

/-- The line about one word: the first part belongs to the output, the second one
to the errors. -/
def verdict (dfa : Dfa) (word : String) : String × String :=
  match dfa.runText word with
  | .ok true => (s!"{word}\taccept\n", "")
  | .ok false => (s!"{word}\treject\n", "")
  | .error error => ("", s!"{word}\t{error.message}\n")

def print (stage : Stage) (nfa : Nfa) (dfa minimal : Dfa) : String :=
  match stage with
  | .nfa => nfa.save
  | .dfa => dfa.save
  | .minimal => minimal.save

def Invocation.run (invocation : Invocation) : Transcript :=
  match Regex.ofText (.ofText invocation.alphabet) invocation.expression with
  | .error error => ⟨1, "", s!"Error: {error.message}\n"⟩
  | .ok expression =>
      let nfa := Nfa.ofRegex expression
      let dfa := Dfa.ofNfa nfa
      let minimal := dfa.minimize
      let tested := if invocation.stage = .dfa then dfa else minimal
      let verdicts := invocation.words.map (verdict tested)
      let printed := print invocation.stage nfa dfa minimal
      ⟨0, printed ++ "\n" ++ String.join (verdicts.map Prod.fst),
        String.join (verdicts.map Prod.snd)⟩

/-! ## Arguments

Options go by a long name, and two of them by a short one as well. Each may be given once.
Its value is part of the argument or the next argument. -/

structure Arguments where
  expression? : Option String
  alphabet? : Option String
  stage? : Option Stage
  /-- The words read so far, latest first. -/
  words : List String

namespace Arguments

def start : Arguments := ⟨none, none, none, []⟩

def set? (arguments : Arguments) (name value : String) : Option Arguments :=
  match name, arguments with
  | "regex", ⟨none, alphabet?, stage?, words⟩ =>
      some ⟨some value, alphabet?, stage?, words⟩
  | "alphabet", ⟨expression?, none, stage?, words⟩ =>
      some ⟨expression?, some value, stage?, words⟩
  | "stage", ⟨expression?, alphabet?, none, words⟩ => do
      let stage ← Stage.ofName? value
      return ⟨expression?, alphabet?, some stage, words⟩
  | _, _ => none

def addWord (arguments : Arguments) (word : String) : Arguments :=
  { arguments with words := word :: arguments.words }

def invocation? (arguments : Arguments) : Option Invocation := do
  return {
    expression := ← arguments.expression?
    alphabet := ← arguments.alphabet?
    stage := arguments.stage?.getD .minimal
    words := arguments.words.reverse }

end Arguments

def longName? : Char → Option String
  | 'r' => some "regex"
  | 'a' => some "alphabet"
  | _ => none

inductive Shape where
  | word
  /-- All arguments after this one are words. -/
  | separator
  | option (name value : String)
  /-- The value of the option is the next argument. -/
  | optionName (name : String)
  | unknown

def shapeOfLong (text : List Char) : Shape :=
  match text.dropWhile (· ≠ '=') with
  | [] => .optionName (String.ofList text)
  | _ :: value => .option (String.ofList (text.takeWhile (· ≠ '='))) (String.ofList value)

def shape (argument : String) : Shape :=
  match argument.toList with
  | ['-', '-'] => .separator
  | '-' :: '-' :: text => shapeOfLong text
  | '-' :: short :: value =>
      match longName? short, value with
      | none, _ => .unknown
      | some name, [] => .optionName name
      | some name, '=' :: value => .option name (String.ofList value)
      | some name, value => .option name (String.ofList value)
  | _ => .word

def readArguments (arguments : Arguments) : List String → Option Arguments
  | [] => some arguments
  | argument :: rest =>
      match shape argument, rest with
      | .word, rest => readArguments (arguments.addWord argument) rest
      | .separator, rest => some (rest.foldl Arguments.addWord arguments)
      | .option name value, rest => do readArguments (← arguments.set? name value) rest
      | .optionName name, value :: rest =>
          match shape value with
          | .word => do readArguments (← arguments.set? name value) rest
          | _ => none
      | _, _ => none

def Invocation.ofArguments? (arguments : List String) : Option Invocation := do
  (← readArguments .start arguments).invocation?

example : Invocation.ofArguments? ["--regex=a-b", "x", "-a", "a b", "--", "--stage=nfa"] =
    some ⟨"a-b", "a b", .minimal, ["x", "--stage=nfa"]⟩ := by decide +kernel

def usage : String :=
  "usage: --regex REGEX --alphabet ALPHABET [--stage nfa|dfa|min] [WORD]...\n"

/-- The whole program, from its arguments to what can be seen of it. -/
def transcript (arguments : List String) : Transcript :=
  match Invocation.ofArguments? arguments with
  | some invocation => invocation.run
  | none => ⟨2, "", usage⟩

end CommandLine

end WordAutomata
