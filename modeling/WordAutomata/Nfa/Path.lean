import WordAutomata.Nfa

namespace WordAutomata.Nfa

/-! Runs of a nondeterministic automaton, one transition at a time. -/

inductive Path (nfa : Nfa) : Nat → List String → Nat → Prop
  | nil (state : Nat) : Path nfa state [] state
  | jump {source middle target : Nat} {word : List String} :
      middle ∈ nfa.targets source none → Path nfa middle word target →
      Path nfa source word target
  | read {source middle target : Nat} {symbol : String} {word : List String} :
      middle ∈ nfa.targets source (some symbol) → Path nfa middle word target →
      Path nfa source (symbol :: word) target

namespace Path

variable {nfa : Nfa}

theorem append {source middle target : Nat} {left right : List String}
    (first : nfa.Path source left middle) (second : nfa.Path middle right target) :
    nfa.Path source (left ++ right) target := by
  induction first with
  | nil => exact second
  | jump step _ induction => exact .jump step (induction second)
  | read step _ induction => exact .read step (induction second)

end Path

end WordAutomata.Nfa
