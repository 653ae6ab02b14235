import WordAutomata.Error
import WordAutomata.Regex
import WordAutomata.Token.Lexer

namespace WordAutomata

/-! Reading expressions from tokens, one token at a time and without looking
ahead. The grammar is

    expression := alternative | alternative '+' expression
    alternative := operand | alternative operand
    operand := (symbol | '(' expression ')') repetition? '*'?
    repetition := '{' n '}' | '{' n ',' '}' | '{' n ',' n '}'

Every token either takes the reader to a state from which some expression can
still be completed, or is refused at once. -/

/-! ## Levels of grouping -/

/-- What has been read on one level of grouping: the alternatives before the
current one, latest first, and the operands of the current one as a sequence. -/
structure Level where
  alternatives : List Regex
  sequence? : Option Regex
deriving DecidableEq, Repr

namespace Level

def start : Level := ⟨[], none⟩

def extend (level : Level) (operand : Regex) : Regex :=
  match level.sequence? with
  | none => operand
  | some sequence => .seq sequence operand

def push (level : Level) (operand : Regex) : Level :=
  { level with sequence? := some (level.extend operand) }

def branch (level : Level) (operand : Regex) : Level :=
  ⟨level.extend operand :: level.alternatives, none⟩

def close (level : Level) (operand : Regex) : Regex :=
  level.alternatives.foldl (fun right left => .or left right) (level.extend operand)

example (a b c : Regex) :
    (((start.branch a).push b).close c) = .or a (.seq b c) := rfl

end Level

/-! ## States -/

inductive Place where
  /-- Before an operand. -/
  | operand
  /-- After a symbol or a closed group. -/
  | atom (operand : Regex)
  /-- After the repetition of an operand. -/
  | repeated (operand : Regex)
  /-- After the star of an operand. -/
  | starred (operand : Regex)
  | lowBound (body : Regex)
  | afterLow (body : Regex) (low : Count)
  | highBound (body : Regex) (low : Count)
  | afterHigh (body : Regex) (low high : Count)
deriving DecidableEq, Repr

/-- The current level, the levels of the groups that are still open around it,
innermost first, and the place on the current level. -/
structure Parser where
  level : Level
  outer : List Level
  place : Place
deriving DecidableEq, Repr

namespace Parser

def start : Parser := ⟨.start, [], .operand⟩

def unexpected (expected : Expected) (token : Token) (index : Nat) : Except Error α :=
  .error (.grammar (.unexpected expected token index))

def beginOperand (level : Level) (outer : List Level) (token : Token) (index : Nat) :
    Except Error Parser :=
  match token.kind with
  | .literal => .ok ⟨level, outer, .atom (.literal token.content)⟩
  | .openParen => .ok ⟨.start, level :: outer, .operand⟩
  | _ => unexpected .operand token index

def afterOperand (level : Level) (outer : List Level) (operand : Regex)
    (token : Token) (index : Nat) : Except Error Parser :=
  match token.kind, outer with
  | .literal, _ | .openParen, _ => beginOperand (level.push operand) outer token index
  | .or, _ => .ok ⟨level.branch operand, outer, .operand⟩
  | .closeParen, enclosing :: outer => .ok ⟨enclosing, outer, .atom (level.close operand)⟩
  | _, [] => .error (.grammar (.leftover token index))
  | _, _ :: _ => unexpected .closeParen token index

def readCount (token : Token) (index : Nat) : Except Error Count :=
  match token.kind with
  | .count =>
      match Count.ofText? token.content with
      | some count => .ok count
      | none => .error (.grammar (.invalidCount token.content))
  | _ => unexpected .count token index

def step (parser : Parser) (token : Token) (index : Nat) : Except Error Parser :=
  match parser with
  | ⟨level, outer, .operand⟩ => beginOperand level outer token index
  | ⟨level, outer, .atom operand⟩ =>
      match token.kind with
      | .openBrace => .ok ⟨level, outer, .lowBound operand⟩
      | .star => .ok ⟨level, outer, .starred (.star operand)⟩
      | _ => afterOperand level outer operand token index
  | ⟨level, outer, .repeated operand⟩ =>
      match token.kind with
      | .star => .ok ⟨level, outer, .starred (.star operand)⟩
      | _ => afterOperand level outer operand token index
  | ⟨level, outer, .starred operand⟩ => afterOperand level outer operand token index
  | ⟨level, outer, .lowBound body⟩ => do
      let low ← readCount token index
      return ⟨level, outer, .afterLow body low⟩
  | ⟨level, outer, .afterLow body low⟩ =>
      match token.kind with
      | .closeBrace => .ok ⟨level, outer, .repeated (.exactly body low)⟩
      | .comma => .ok ⟨level, outer, .highBound body low⟩
      | _ => unexpected .comma token index
  | ⟨level, outer, .highBound body low⟩ =>
      match token.kind with
      | .closeBrace => .ok ⟨level, outer, .repeated (.atLeast body low)⟩
      | _ => do
          let high ← readCount token index
          if high < low then .error (.grammar (.reversedBounds low high))
          else return ⟨level, outer, .afterHigh body low high⟩
  | ⟨level, outer, .afterHigh body low high⟩ =>
      match token.kind with
      | .closeBrace => .ok ⟨level, outer, .repeated (.between body low high)⟩
      | _ => unexpected .closeBrace token index

def finish (parser : Parser) : Except Error Regex :=
  match parser.place, parser.outer with
  | .atom operand, [] | .repeated operand, [] | .starred operand, [] =>
      .ok (parser.level.close operand)
  | .operand, _ => .error (.grammar (.incomplete .operand))
  | .lowBound _, _ | .highBound _ _, _ => .error (.grammar (.incomplete .count))
  | .afterLow _ _, _ => .error (.grammar (.incomplete .comma))
  | .afterHigh _ _ _, _ => .error (.grammar (.incomplete .closeBrace))
  | _, _ :: _ => .error (.grammar (.incomplete .closeParen))

def run (parser : Parser) (index : Nat) : List Token → Except Error Regex
  | [] => parser.finish
  | token :: rest => do
      let parser ← parser.step token index
      parser.run (index + 1) rest

end Parser

namespace Regex

def ofTokens (tokens : List Token) : Except Error Regex :=
  Parser.start.run 0 tokens

def ofText (alphabet : Alphabet) (text : String) : Except Error Regex := do
  ofTokens (← alphabet.tokenize text)

end Regex

end WordAutomata
