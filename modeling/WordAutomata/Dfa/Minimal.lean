import WordAutomata.Dfa.Partition

namespace WordAutomata.Dfa

/-! Minimal automata. States that no accepted word passes are dropped, and
states that no word tells apart are merged. -/

def void (alphabet : OrderedSet String) : Dfa where
  alphabet := alphabet
  rows := [.empty]
  start := 0
  accepting := .empty

/-- The automaton of the classes of a partition. The first member of a class
speaks for all, and transitions that leave the partition are dropped. -/
def quotient (dfa : Dfa) (partition : Partition) (start : Nat) : Dfa where
  alphabet := dfa.alphabet
  rows := partition.classes.map fun members =>
    match members with
    | [] => .empty
    | first :: _ => (dfa.row first).filterMap partition.classOf?
  start := start
  accepting := .ofList
    ((partition.classes.zipIdx.filter fun entry =>
      entry.1.head?.any dfa.isAccepting).map Prod.snd)

def minimize (dfa : Dfa) : Dfa :=
  let partition := Partition.coarsest dfa dfa.useful
  match partition.classOf? dfa.start with
  | none => void dfa.alphabet
  | some start => dfa.quotient partition start

end WordAutomata.Dfa
