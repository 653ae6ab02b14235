import Mathlib.Computability.Language
import WordAutomata.OrderedSet
import WordAutomata.Regex

namespace WordAutomata.Regex

/-! The words that an expression stands for. -/

open scoped Computability

/-- The language of an expression. The bounds of a repetition are included, and
where the lower one is above the upper one there are as many copies as the
upper one says. -/
def language : Regex → Language String
  | literal symbol => if symbol = epsilon then 1 else {[symbol]}
  | seq left right => left.language * right.language
  | or left right => left.language + right.language
  | star body => body.language∗
  | exactly body count => body.language ^ count.toNat
  | between body low high =>
      {word | ∃ copies, min low.toNat high.toNat ≤ copies ∧ copies ≤ high.toNat ∧
        word ∈ body.language ^ copies}
  | atLeast body low => {word | ∃ copies ≥ low.toNat, word ∈ body.language ^ copies}

/-- The symbols that can occur in a word: those of the literals, except under a
repetition that allows no copy. -/
def symbols : Regex → OrderedSet String
  | literal symbol => if symbol = epsilon then .empty else .singleton symbol
  | seq left right | or left right => .ofList (left.symbols.toList ++ right.symbols.toList)
  | star body | atLeast body _ => body.symbols
  | exactly body count => if count = 0 then .empty else body.symbols
  | between body _ high => if high = 0 then .empty else body.symbols

theorem mem_symbols_seq {left right : Regex} {symbol : String} :
    symbol ∈ (seq left right).symbols ↔ symbol ∈ left.symbols ∨ symbol ∈ right.symbols := by
  rw [symbols, OrderedSet.mem_ofList, List.mem_append]
  exact Iff.rfl

theorem mem_symbols_or {left right : Regex} {symbol : String} :
    symbol ∈ (or left right).symbols ↔ symbol ∈ left.symbols ∨ symbol ∈ right.symbols := by
  rw [symbols, OrderedSet.mem_ofList, List.mem_append]
  exact Iff.rfl

end WordAutomata.Regex
