import WordAutomata.Error
import WordAutomata.OrderedMap
import WordAutomata.Segmentation
import WordAutomata.Traversal

namespace WordAutomata

/-! Deterministic automata over a set of symbols. States are positions in the
list of rows; where a row has no entry for a symbol of the alphabet, the word
is rejected. -/

structure Dfa where
  alphabet : OrderedSet String
  rows : List (OrderedMap String Nat)
  start : Nat
  accepting : OrderedSet Nat
deriving DecidableEq, Repr

namespace Dfa

def size (dfa : Dfa) : Nat := dfa.rows.length

def isAccepting (dfa : Dfa) (state : Nat) : Bool := state ∈ dfa.accepting

def row (dfa : Dfa) (state : Nat) : OrderedMap String Nat :=
  (dfa.rows[state]?).getD .empty

def next? (dfa : Dfa) (state : Nat) (symbol : String) : Option Nat :=
  (dfa.row state).get? symbol

/-! ## Words -/

/-- Run from a state over the symbols of a word. A symbol outside the alphabet
is an error, unless the word has been rejected before it. -/
def runFrom (dfa : Dfa) (state : Nat) : List String → Except Error Bool
  | [] => .ok (dfa.isAccepting state)
  | symbol :: rest =>
      if symbol ∈ dfa.alphabet then
        match dfa.next? state symbol with
        | some target => dfa.runFrom target rest
        | none => .ok false
      else .error (.usage (.foreignSymbol symbol))

def run (dfa : Dfa) (word : List String) : Except Error Bool :=
  dfa.runFrom dfa.start word

/-! ## Texts -/

def split (dfa : Dfa) (text : String) : Except Error (List String) :=
  let cut := Segmentation.cut dfa.alphabet.toList text.toList
  if cut.rest = [] then .ok cut.pieces
  else .error (.usage (.unsplittable text (String.join cut.pieces).utf8ByteSize))

def runText (dfa : Dfa) (text : String) : Except Error Bool := do
  dfa.run (← dfa.split text)

/-! ## States

States are searched forwards from the start state and backwards from the accepting ones,
breadth first and over the sorted symbols. The useful states are those that both searches
find. -/

def reachable (dfa : Dfa) : List Nat :=
  Traversal.breadthFirst (fun state => (dfa.row state).values) dfa.size [dfa.start]

def predecessors (dfa : Dfa) (state : Nat) : List Nat :=
  (List.range dfa.size).filter fun source => state ∈ (dfa.row source).values

def productive (dfa : Dfa) : List Nat :=
  Traversal.breadthFirst dfa.predecessors dfa.size dfa.accepting.toList

def live (dfa : Dfa) : List Bool :=
  let productive := dfa.productive
  (List.range dfa.size).map (· ∈ productive)

def useful (dfa : Dfa) : List Nat :=
  let productive := dfa.productive
  dfa.reachable.filter (· ∈ productive)

end Dfa

end WordAutomata
