import WordAutomata.Alphabet
import WordAutomata.Error

namespace WordAutomata

/-! Splitting the text of an expression into tokens. Outside the braces of a
repetition the longest symbol of the alphabet wins, and only where no symbol
fits is a character read as an operator; inside the braces there are only digits
and commas, whatever the alphabet holds. -/

/-! What follows an opening brace is read with the text that it leaves: one bound, a lower
bound with a comma, or two bounds in order, and then the closing brace. -/

structure CountReading where
  digits : List Char
  value : Count
  rest : List Char

namespace CountReading

def token (reading : CountReading) : Token :=
  ⟨.count, String.ofList reading.digits⟩

def ofText (position : Nat) (text : List Char) : Except Error CountReading :=
  let digits := text.takeWhile Char.isDigit
  let rest := text.dropWhile Char.isDigit
  if digits = [] then .error (.lexical position (.missingCount rest.head?))
  else match Count.ofDigits? digits with
    | none => .error (.lexical position (.countTooLarge (String.ofList digits)))
    | some value => .ok ⟨digits, value, rest⟩

theorem digits_append_rest {position : Nat} {text : List Char}
    {reading : CountReading} (read : ofText position text = .ok reading) :
    reading.digits ++ reading.rest = text := by
  rw [ofText] at read
  split at read
  · cases read
  · split at read
    · cases read
    · cases read
      exact List.takeWhile_append_dropWhile

end CountReading

structure BoundsReading where
  tokens : List Token
  rest : List Char

namespace BoundsReading

def close (position : Nat) (bounds : List Token) :
    List Char → Except Error BoundsReading
  | '}' :: rest => .ok ⟨bounds ++ [⟨.closeBrace, "\x7d"⟩], rest⟩
  | found :: _ => .error (.lexical position (.missingBrace found))
  | [] => .error (.lexical position .unclosedRepetition)

def ofText (position : Nat) (text : List Char) : Except Error BoundsReading := do
  let low ← CountReading.ofText position text
  let afterLow := position + low.digits.length
  match low.rest with
  | '}' :: rest => .ok ⟨[low.token, ⟨.closeBrace, "\x7d"⟩], rest⟩
  | ',' :: rest =>
      if rest.head?.any Char.isDigit then
        let high ← CountReading.ofText (afterLow + 1) rest
        if high.value < low.value then
          .error (.lexical (afterLow + 1) (.reversedBounds low.value high.value))
        else
          close (afterLow + 1 + high.digits.length)
            [low.token, ⟨.comma, ","⟩, high.token] high.rest
      else close (afterLow + 1) [low.token, ⟨.comma, ","⟩] rest
  | found :: _ => .error (.lexical afterLow (.missingSeparator found))
  | [] => .error (.lexical afterLow .unclosedRepetition)

theorem length_rest_close {position : Nat} {bounds : List Token} {text : List Char}
    {reading : BoundsReading} (read : close position bounds text = .ok reading) :
    reading.rest.length ≤ text.length := by
  rw [close.eq_def] at read
  split at read
  · cases read
    simp
  · cases read
  · cases read

theorem length_rest_le {position : Nat} {text : List Char}
    {reading : BoundsReading} (read : ofText position text = .ok reading) :
    reading.rest.length ≤ text.length := by
  rw [ofText] at read
  cases lowRead : CountReading.ofText position text with
  | error failure => rw [lowRead] at read; cases read
  | ok low =>
      have lowLength := congrArg List.length (CountReading.digits_append_rest lowRead)
      rw [List.length_append] at lowLength
      rw [lowRead] at read
      simp only [bind, Except.bind] at read
      split at read
      · rename_i rest equal
        cases read
        simp [equal] at lowLength
        simp only
        omega
      · rename_i rest equal
        simp [equal] at lowLength
        split at read
        · cases highRead : CountReading.ofText (position + low.digits.length + 1) rest with
          | error failure => rw [highRead] at read; cases read
          | ok high =>
              have highLength :=
                congrArg List.length (CountReading.digits_append_rest highRead)
              rw [List.length_append] at highLength
              rw [highRead] at read
              simp only at read
              split at read
              · cases read
              · have closed := length_rest_close read
                omega
        · have closed := length_rest_close read
          omega
      · cases read
      · cases read

end BoundsReading

/-! ## Whole texts -/

/-- The tokens of a text up to its end, or up to the place where no token can
be read. -/
structure Scan where
  tokens : List Token
  failure? : Option Error
deriving DecidableEq, Repr

namespace Scan

def after (tokens : List Token) (scan : Scan) : Scan :=
  ⟨tokens ++ scan.tokens, scan.failure?⟩

end Scan

namespace Alphabet

def scanFrom (alphabet : Alphabet) (position : Nat) (text : List Char) : Scan :=
  match text with
  | [] => ⟨[], none⟩
  | c :: rest =>
      match _symbolFound : alphabet.longest? (c :: rest) with
      | some symbol =>
          (alphabet.scanFrom (position + symbol.length)
            ((c :: rest).drop symbol.length)).after [⟨.literal, symbol⟩]
      | none =>
          match Token.Kind.ofOperator? c with
          | none => ⟨[], some (.lexical position (.foreignCharacter c))⟩
          | some .openBrace =>
              match _boundsRead : BoundsReading.ofText (position + 1) rest with
              | .error failure => ⟨[], some failure⟩
              | .ok bounds =>
                  let consumed := rest.length - bounds.rest.length
                  (alphabet.scanFrom (position + 1 + consumed) bounds.rest).after
                    (⟨.openBrace, c.toString⟩ :: bounds.tokens)
          | some kind =>
              (alphabet.scanFrom (position + 1) rest).after [⟨kind, c.toString⟩]
termination_by text.length
decreasing_by
  · exact Segmentation.length_drop_lt _symbolFound
  · have bound := BoundsReading.length_rest_le _boundsRead
    simp only [List.length_cons]
    omega
  · simp

def scan (alphabet : Alphabet) (expression : String) : Scan :=
  alphabet.scanFrom 0 expression.toList

def tokenize (alphabet : Alphabet) (expression : String) :
    Except Error (List Token) :=
  match alphabet.scan expression with
  | ⟨tokens, none⟩ => .ok tokens
  | ⟨_, some failure⟩ => .error failure

end Alphabet

end WordAutomata
