import WordAutomata.Document
import WordAutomata.Nfa
import WordAutomata.Numbering

namespace WordAutomata.Nfa

/-! The documents of nondeterministic automata. -/

def emptyKey : String := "epsilon"

def reachable (nfa : Nfa) : List Nat :=
  Traversal.breadthFirst nfa.successors nfa.size [nfa.start]

/-- The numbers that states go by in a document: the start state, the final
state, and then the others as they are reached. -/
def numbering (nfa : Nfa) : Numbering :=
  Numbering.empty.addAll (nfa.start :: nfa.final :: nfa.reachable)

/-- The entry of a state. A symbol that is spelled like the key of the empty
label takes its place. -/
def entry (nfa : Nfa) (numbering : Numbering) (state : Nat) :
    Document.Entry (List String) where
  terminating := state = nfa.final
  transitions := .ofList
    (((nfa.rows[state]?).getD .empty).toList.map fun transition =>
      (transition.1.getD emptyKey, transition.2.toList.map numbering.name))

def toDocument (nfa : Nfa) : NfaDocument :=
  let numbering := nfa.numbering
  { start := numbering.name nfa.start
    states := .ofList
      (nfa.reachable.map fun state => (numbering.name state, nfa.entry numbering state)) }

def save (nfa : Nfa) : String := nfa.toDocument.write

end WordAutomata.Nfa
