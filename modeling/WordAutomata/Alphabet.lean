import WordAutomata.OrderedSet
import WordAutomata.Segmentation
import WordAutomata.Text.Blank

namespace WordAutomata

/-- The reserved symbol for the empty word. It may stand in a regular expression
over any alphabet, and no automaton moves on it. -/
def epsilon : String := "ε"

/-! ## Labels

What is read on a transition is a symbol or nothing. A literal that is the reserved symbol
reads nothing. -/

abbrev Label := Option String

namespace Label

def ofLiteral (symbol : String) : Label :=
  if symbol = epsilon then none else some symbol

example : ofLiteral "ε" = none ∧ ofLiteral "a" = some "a" := by decide

end Label

/-! ## Alphabets

A regular expression is written over the symbols of an alphabet. A symbol is a non-empty
text of any length, and the reserved symbol is always one of them. -/

structure Alphabet where
  members : OrderedSet String
  epsilon_mem : epsilon ∈ members
  empty_not_mem : "" ∉ members
deriving DecidableEq

namespace Alphabet

instance : Membership String Alphabet where
  mem alphabet symbol := symbol ∈ alphabet.members

instance (symbol : String) (alphabet : Alphabet) : Decidable (symbol ∈ alphabet) :=
  inferInstanceAs (Decidable (symbol ∈ alphabet.members))

def ofSymbols (symbols : List String) : Alphabet where
  members := (OrderedSet.ofList (symbols.filter (· ≠ ""))).insert epsilon
  epsilon_mem := by simp
  empty_not_mem := by simp [epsilon]

theorem mem_ofSymbols {symbols : List String} {symbol : String} :
    symbol ∈ ofSymbols symbols ↔
      symbol = epsilon ∨ symbol ∈ symbols ∧ symbol ≠ "" := by
  change symbol ∈ (ofSymbols symbols).members ↔ _
  simp [ofSymbols]

def fields (separates : Char → Bool) : List Char → List (List Char)
  | [] => [[]]
  | c :: rest =>
      if separates c then [] :: fields separates rest
      else match fields separates rest with
        | [] => [[c]]
        | first :: others => (c :: first) :: others

def ofText (text : String) : Alphabet :=
  let separates c := Text.isBlank c || c = ','
  ofSymbols ((fields separates text.toList).map String.ofList)

example : (ofText "a, b  STOP,").members.toList = ["STOP", "a", "b", "ε"] := by
  decide +kernel

def symbols (alphabet : Alphabet) : OrderedSet String :=
  alphabet.members.filter (· ≠ epsilon)

@[simp] theorem mem_symbols {alphabet : Alphabet} {symbol : String} :
    symbol ∈ alphabet.symbols ↔ symbol ∈ alphabet ∧ symbol ≠ epsilon := by
  simp only [symbols, OrderedSet.mem_filter, decide_eq_true_eq]
  rfl

def longest? (alphabet : Alphabet) (text : List Char) : Option String :=
  Segmentation.longest? alphabet.members.toList text

end Alphabet

end WordAutomata
