namespace WordAutomata

/-! The tokens that a regular expression is written with. -/

inductive Token.Kind where
  | or
  | star
  | openParen
  | closeParen
  | literal
  | openBrace
  | closeBrace
  /-- A bound inside the braces of a repetition. -/
  | count
  | comma
deriving DecidableEq, Repr

structure Token where
  kind : Token.Kind
  content : String
deriving DecidableEq, Repr

namespace Token

namespace Kind

def name : Kind → String
  | or => "Or"
  | star => "Star"
  | openParen => "OpenParen"
  | closeParen => "CloseParen"
  | literal => "Literal"
  | openBrace => "OpenBrace"
  | closeBrace => "CloseBrace"
  | count => "MetaChar"
  | comma => "Comma"

def ofOperator? : Char → Option Kind
  | '+' => some or
  | '*' => some star
  | '(' => some openParen
  | ')' => some closeParen
  | '{' => some openBrace
  | '}' => some closeBrace
  | ',' => some comma
  | _ => none

end Kind

def describe (token : Token) : String :=
  s!"{token.kind.name} '{token.content}'"

example : describe ⟨.count, "3"⟩ = "MetaChar '3'" := by decide +kernel

end Token

end WordAutomata
