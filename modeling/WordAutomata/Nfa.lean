import WordAutomata.Alphabet
import WordAutomata.OrderedMap
import WordAutomata.Traversal

namespace WordAutomata

/-! Nondeterministic automata with one start state and one final state. States
are positions in the list of rows. -/

abbrev StateSet := OrderedSet Nat

structure Nfa where
  rows : List (OrderedMap Label StateSet)
  start : Nat
  final : Nat
deriving DecidableEq, Repr

namespace Nfa

def size (nfa : Nfa) : Nat := nfa.rows.length

def targets (nfa : Nfa) (state : Nat) (label : Label) : StateSet :=
  ((nfa.rows[state]?).bind (·.get? label)).getD .empty

def alphabet (nfa : Nfa) : OrderedSet String :=
  .ofList (nfa.rows.flatMap fun row => row.keys.toList.filterMap id)

def successors (nfa : Nfa) (state : Nat) : List Nat :=
  match nfa.rows[state]? with
  | none => []
  | some row => row.values.flatMap OrderedSet.toList

/-! ## Simulation

In place of a state there is the set of all states in which the automaton may be. It is
closed under transitions that read nothing, at the beginning and after every symbol. -/

def closure (nfa : Nfa) (set : StateSet) : StateSet :=
  .ofList (Traversal.breadthFirst (fun state => (nfa.targets state none).toList)
    nfa.size set.toList)

def move (nfa : Nfa) (set : StateSet) (symbol : String) : StateSet :=
  .ofList (set.toList.flatMap fun state => (nfa.targets state (some symbol)).toList)

def initial (nfa : Nfa) : StateSet := nfa.closure (.singleton nfa.start)

def advance (nfa : Nfa) (set : StateSet) (symbol : String) : StateSet :=
  nfa.closure (nfa.move set symbol)

def accepts (nfa : Nfa) (word : List String) : Bool :=
  nfa.final ∈ word.foldl nfa.advance nfa.initial

end Nfa

end WordAutomata
