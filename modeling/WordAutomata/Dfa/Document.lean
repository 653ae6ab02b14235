import WordAutomata.Dfa
import WordAutomata.Document

namespace WordAutomata.Dfa

/-! The documents of deterministic automata. -/

def stateName (state : Nat) : String := toString state

def toDocument (dfa : Dfa) : DfaDocument where
  start := stateName dfa.start
  states := .ofList (dfa.rows.zipIdx.map fun entry =>
    (stateName entry.2, ⟨dfa.isAccepting entry.2, entry.1.map stateName⟩))

def resolve (names : List String) (name : String) : Except Error Nat :=
  match names.idxOf? name with
  | some state => .ok state
  | none => .error (.document (.undefinedState name))

def rowOfDocument (names : List String) (transitions : OrderedMap String String) :
    Except Error (OrderedMap String Nat) := do
  let entries ← transitions.toList.mapM fun transition => do
    return (transition.1, ← resolve names transition.2)
  return .ofList entries

/-- The automaton that a document describes. States are numbered in the order of
their names, and the alphabet is that of the transitions. -/
def ofDocument (document : DfaDocument) : Except Error Dfa := do
  let names := document.states.keys.toList
  let entries := document.states.values
  let start ← resolve names document.start
  let rows ← entries.mapM fun entry => rowOfDocument names entry.transitions
  return {
    alphabet := .ofList (entries.flatMap fun entry => entry.transitions.keys.toList)
    rows := rows
    start := start
    accepting := .ofList ((entries.zipIdx.filter (·.1.terminating)).map Prod.snd) }

/-! ## Texts -/

def save (dfa : Dfa) : String := dfa.toDocument.write

def load (text : String) : Except Error Dfa := do
  ofDocument (← Document.read text)

end WordAutomata.Dfa
