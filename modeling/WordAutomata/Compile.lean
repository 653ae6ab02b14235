import WordAutomata.Dfa.Minimal
import WordAutomata.Dfa.Subsets
import WordAutomata.Nfa.Thompson
import WordAutomata.Regex.Parser

namespace WordAutomata

/-! From the text of an expression over an alphabet to its automata. -/

def compileNfa (alphabet : Alphabet) (text : String) : Except Error Nfa := do
  return .ofRegex (← Regex.ofText alphabet text)

def compile (alphabet : Alphabet) (text : String) : Except Error Dfa := do
  return .ofNfa (← compileNfa alphabet text)

def compileMinimal (alphabet : Alphabet) (text : String) : Except Error Dfa := do
  return (← compile alphabet text).minimize

end WordAutomata
