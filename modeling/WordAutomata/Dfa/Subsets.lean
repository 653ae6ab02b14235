import WordAutomata.Dfa
import WordAutomata.Nfa

namespace WordAutomata

/-! The subset construction: a deterministic automaton whose states are the sets
of states in which a nondeterministic one may be. -/

namespace Nfa

def subsets (nfa : Nfa) : List StateSet :=
  let symbols := nfa.alphabet.toList
  Traversal.breadthFirst (fun set => symbols.map (nfa.advance set)) (Nat.pow 2 nfa.size)
    [nfa.initial]

end Nfa

namespace Dfa

def ofNfa (nfa : Nfa) : Dfa :=
  let alphabet := nfa.alphabet
  let subsets := nfa.subsets
  { alphabet := alphabet
    rows := subsets.map fun set =>
      .tabulate alphabet fun symbol => subsets.idxOf (nfa.advance set symbol)
    start := 0
    accepting := .ofList
      ((subsets.zipIdx.filter fun entry => nfa.final ∈ entry.1).map Prod.snd) }

end Dfa

end WordAutomata
