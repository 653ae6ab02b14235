import WordAutomata.Compile

namespace WordAutomata

/-! What the stages of a compilation have to tell about their work. A journaled
stage has the outcome of the plain one, and events beside it. -/

namespace Journal

inductive Detail where
  | trace
  | debug
deriving DecidableEq, Repr

inductive Stage where
  | lexer
  | parser
  | nfa
  | dfa
  | minimize
deriving DecidableEq, Repr

structure Event where
  detail : Detail
  stage : Stage
  text : String
deriving DecidableEq, Repr

end Journal

/-- The outcome of some work and the events on the way to it. The events before
a failure are kept. -/
structure Journal (α : Type) where
  events : List Journal.Event
  outcome : Except Error α

namespace Journal

def bind (journal : Journal α) (next : α → Journal β) : Journal β :=
  match journal.outcome with
  | .error error => ⟨journal.events, .error error⟩
  | .ok value =>
      let later := next value
      ⟨journal.events ++ later.events, later.outcome⟩

instance : Monad Journal where
  pure value := ⟨[], .ok value⟩
  bind := bind

theorem outcome_bind (journal : Journal α) (next : α → Journal β) :
    (journal >>= next).outcome = journal.outcome >>= fun value => (next value).outcome := by
  change (bind journal next).outcome = _
  cases journal with
  | mk events outcome => cases outcome <;> rfl

def silent (outcome : Except Error α) : Journal α := ⟨[], outcome⟩

/-! ## Expressions -/

def literalEvents (position : Nat) : List Token → List Event
  | [] => []
  | token :: rest =>
      let later := literalEvents (position + token.content.length) rest
      match token.kind with
      | .literal => ⟨.trace, .lexer, s!"literal '{token.content}' at {position}"⟩ :: later
      | _ => later

def tokenize (alphabet : Alphabet) (text : String) : Journal (List Token) :=
  let scan := alphabet.scan text
  let literals := literalEvents 0 scan.tokens
  match scan.failure? with
  | some failure => ⟨literals, .error failure⟩
  | none =>
      let summary := s!"lexed {Text.quote text} into {scan.tokens.length} tokens"
      ⟨literals ++ [⟨.debug, .lexer, summary⟩], .ok scan.tokens⟩

theorem outcome_tokenize (alphabet : Alphabet) (text : String) :
    (tokenize alphabet text).outcome = alphabet.tokenize text := by
  simp only [tokenize, Alphabet.tokenize]
  cases alphabet.scan text with
  | mk tokens failure? => cases failure? <;> rfl

def parse (tokens : List Token) : Journal Regex :=
  match Regex.ofTokens tokens with
  | .error error => ⟨[], .error error⟩
  | .ok expression =>
      ⟨[⟨.debug, .parser, s!"parsed {tokens.length} tokens"⟩], .ok expression⟩

theorem outcome_parse (tokens : List Token) :
    (parse tokens).outcome = Regex.ofTokens tokens := by
  simp only [parse]
  split <;> simp [*]

/-! ## Automata -/

def buildNfa (expression : Regex) : Journal Nfa :=
  let nfa := Nfa.ofRegex expression
  ⟨[⟨.debug, .nfa, s!"built NFA with {nfa.size} states"⟩], .ok nfa⟩

def describeStates (set : StateSet) : String :=
  "\x7b" ++ String.intercalate ", " (set.toList.map toString) ++ "\x7d"

example : describeStates (.ofList [5, 0, 2]) = "\x7b0, 2, 5\x7d" := by decide +kernel

def determinize (nfa : Nfa) : Journal Dfa :=
  let subsets := nfa.subsets
  let discoveries := (subsets.zipIdx.drop 1).map fun entry =>
    ⟨.trace, .dfa, s!"discovered state {entry.2} = {describeStates entry.1}"⟩
  let summary :=
    s!"subset construction: {nfa.size} NFA states -> {subsets.length} DFA states"
  ⟨discoveries ++ [⟨.debug, .dfa, summary⟩], .ok (.ofNfa nfa)⟩

def minimize (dfa : Dfa) : Journal Dfa :=
  let useful := dfa.useful
  let rounds := (Partition.refinements dfa useful).zipIdx.map fun entry =>
    ⟨.trace, .minimize, s!"refinement round {entry.2 + 1}: {entry.1.size} classes"⟩
  let partition := Partition.coarsest dfa useful
  let summary := match partition.classOf? dfa.start with
    | none => s!"minimized {dfa.size} states to an automaton accepting nothing"
    | some _ =>
        s!"minimized {dfa.size} states ({useful.length} live) to {partition.size}"
  ⟨rounds ++ [⟨.debug, .minimize, summary⟩], .ok dfa.minimize⟩

def compile (alphabet : Alphabet) (text : String) : Journal Dfa := do
  determinize (← buildNfa (← parse (← tokenize alphabet text)))

/-- Keeping a journal does not change what is compiled. -/
theorem outcome_compile (alphabet : Alphabet) (text : String) :
    (compile alphabet text).outcome = WordAutomata.compile alphabet text := by
  simp only [compile, outcome_bind, outcome_tokenize, outcome_parse,
    WordAutomata.compile, compileNfa, Regex.ofText]
  cases alphabet.tokenize text with
  | error error => rfl
  | ok tokens =>
      simp only [Bind.bind, Except.bind]
      cases Regex.ofTokens tokens <;> rfl

end Journal

end WordAutomata
