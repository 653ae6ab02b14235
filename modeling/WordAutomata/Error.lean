import WordAutomata.Count
import WordAutomata.Text.Quoted
import WordAutomata.Token

namespace WordAutomata

/-! Everything that can go wrong between a regular expression and an answer,
as causes, and the one wording of each. -/

inductive LexicalFault where
  | foreignCharacter (found : Char)
  | missingCount (found : Option Char)
  | countTooLarge (digits : String)
  | reversedBounds (low high : Count)
  | missingSeparator (found : Char)
  | missingBrace (found : Char)
  | unclosedRepetition
deriving DecidableEq, Repr

inductive Expected where
  | operand
  | count
  | comma
  | closeBrace
  | closeParen
deriving DecidableEq, Repr

inductive GrammarFault where
  | unexpected (expected : Expected) (found : Token) (index : Nat)
  | incomplete (expected : Expected)
  | leftover (found : Token) (index : Nat)
  | invalidCount (content : String)
  | reversedBounds (low high : Count)
deriving DecidableEq, Repr

inductive UsageFault where
  | unsplittable (input : String) (byte : Nat)
  | foreignSymbol (symbol : String)
deriving DecidableEq, Repr

inductive DocumentFault where
  | undefinedState (name : String)
  | undecodable
deriving DecidableEq, Repr

inductive Error where
  /-- The position counts the characters before the fault. -/
  | lexical (position : Nat) (fault : LexicalFault)
  | grammar (fault : GrammarFault)
  | usage (fault : UsageFault)
  | document (fault : DocumentFault)
deriving DecidableEq, Repr

/-! ## Wording -/

namespace LexicalFault

def message : LexicalFault → String
  | foreignCharacter found => s!"character '{found}' is not in the alphabet"
  | missingCount (some found) => s!"expected a repetition count, found '{found}'"
  | missingCount none => "expected a repetition count"
  | countTooLarge digits => s!"repetition count {digits} is too large"
  | reversedBounds low high =>
      s!"repetition upper bound {high.digits} is less than lower bound {low.digits}"
  | missingSeparator found =>
      s!"malformed repetition: expected ',' or '\x7d', found '{found}'"
  | missingBrace found => s!"malformed repetition: expected '\x7d', found '{found}'"
  | unclosedRepetition => "malformed repetition: missing '\x7d'"

end LexicalFault

namespace Expected

def describe : Expected → String
  | operand => "a symbol or '('"
  | count => "a repetition count"
  | comma => Token.Kind.comma.name
  | closeBrace => Token.Kind.closeBrace.name
  | closeParen => Token.Kind.closeParen.name

end Expected

namespace GrammarFault

def message : GrammarFault → String
  | unexpected expected found index =>
      s!"expected {expected.describe} but found {found.describe} at token {index}"
  | incomplete expected => s!"expected {expected.describe} but reached end of input"
  | leftover found index =>
      s!"unexpected {found.describe} at token {index} after a complete expression"
  | invalidCount content => s!"invalid repetition count '{content}'"
  | reversedBounds low high =>
      s!"repetition bounds \x7b{low.digits},{high.digits}\x7d are reversed"

end GrammarFault

namespace UsageFault

def message : UsageFault → String
  | unsplittable input byte =>
      s!"input {Text.quote input} has no alphabet symbol at byte {byte}"
  | foreignSymbol symbol =>
      s!"symbol {Text.quote symbol} is not in the automaton alphabet"

end UsageFault

namespace DocumentFault

def message : DocumentFault → String
  | undefinedState name => s!"reference to undefined state {Text.quote name}"
  | undecodable => "not an interchange document"

end DocumentFault

namespace Error

def message : Error → String
  | lexical position fault => s!"lexical error at position {position}: {fault.message}"
  | grammar fault => s!"syntax error: {fault.message}"
  | usage fault => s!"usage error: {fault.message}"
  | document fault => s!"invalid automaton: {fault.message}"

example : message (.grammar (.reversedBounds 3 1)) =
    "syntax error: repetition bounds \x7b3,1\x7d are reversed" := by decide +kernel

example : message (.usage (.unsplittable "a\n" 1)) =
    "usage error: input \"a\\n\" has no alphabet symbol at byte 1" := by decide +kernel

end Error

theorem Except.bind_eq_ok_iff {ε : Type u} {α β : Type v} {first : Except ε α}
    {second : α → Except ε β} {result : β} :
    (first >>= second) = .ok result ↔
      ∃ middle, first = .ok middle ∧ second middle = .ok result := by
  cases first with
  | error failure => simp [bind, Except.bind]
  | ok middle => simp [bind, Except.bind]

end WordAutomata
