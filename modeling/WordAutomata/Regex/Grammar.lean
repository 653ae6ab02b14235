import WordAutomata.Regex
import WordAutomata.Token

namespace WordAutomata

/-! The grammar of expressions, as a relation between lists of tokens and trees.
Apart from symbols and counts only the kind of a token matters. -/

namespace Grammar

/-- Whether a token is a bound with the given value: decimal digits, after one plus
sign or none. There are no values from 2 ^ 32 on. -/
def Bound (token : Token) (count : Count) : Prop :=
  token.kind = .count ∧ ∃ sign digits : List Char,
    token.content.toList = sign ++ digits ∧ (sign = [] ∨ sign = ['+']) ∧ digits ≠ [] ∧
      (∀ digit ∈ digits, digit.isDigit) ∧ Nat.ofDigitChars 10 digits 0 = count.toNat

inductive Repetition : List Token → (Regex → Regex) → Prop
  | exactly {opening bound closing : Token} {count : Count} :
      opening.kind = .openBrace → Bound bound count → closing.kind = .closeBrace →
      Repetition [opening, bound, closing] (.exactly · count)
  | atLeast {opening bound comma closing : Token} {low : Count} :
      opening.kind = .openBrace → Bound bound low → comma.kind = .comma →
      closing.kind = .closeBrace →
      Repetition [opening, bound, comma, closing] (.atLeast · low)
  | between {opening first comma second closing : Token} {low high : Count} :
      opening.kind = .openBrace → Bound first low → comma.kind = .comma →
      Bound second high → low ≤ high → closing.kind = .closeBrace →
      Repetition [opening, first, comma, second, closing] (.between · low high)

inductive Category where
  | expression
  | alternative
  | operand
  | repeated
  | atom

inductive Derives : Category → List Token → Regex → Prop
  | last {tokens : List Token} {tree : Regex} :
      Derives .alternative tokens tree → Derives .expression tokens tree
  | branch {left right : List Token} {operator : Token} {first second : Regex} :
      Derives .alternative left first → operator.kind = .or →
      Derives .expression right second →
      Derives .expression (left ++ operator :: right) (.or first second)
  | single {tokens : List Token} {tree : Regex} :
      Derives .operand tokens tree → Derives .alternative tokens tree
  | append {left right : List Token} {first second : Regex} :
      Derives .alternative left first → Derives .operand right second →
      Derives .alternative (left ++ right) (.seq first second)
  | unstarred {tokens : List Token} {tree : Regex} :
      Derives .repeated tokens tree → Derives .operand tokens tree
  | starred {tokens : List Token} {operator : Token} {body : Regex} :
      Derives .repeated tokens body → operator.kind = .star →
      Derives .operand (tokens ++ [operator]) (.star body)
  | unrepeated {tokens : List Token} {tree : Regex} :
      Derives .atom tokens tree → Derives .repeated tokens tree
  | repeated {tokens bounds : List Token} {body : Regex} {wrap : Regex → Regex} :
      Derives .atom tokens body → Repetition bounds wrap →
      Derives .repeated (tokens ++ bounds) (wrap body)
  | symbol {token : Token} :
      token.kind = .literal → Derives .atom [token] (.literal token.content)
  | group {tokens : List Token} {opening closing : Token} {tree : Regex} :
      opening.kind = .openParen → Derives .expression tokens tree →
      closing.kind = .closeParen →
      Derives .atom (opening :: (tokens ++ [closing])) tree

end Grammar

end WordAutomata
