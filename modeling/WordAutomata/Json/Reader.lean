import WordAutomata.Json

namespace WordAutomata.Json

/-! Reading JSON texts, strictly: nothing but blanks around the value, no raw
control characters in strings, and no half of a surrogate pair on its own.

A reader takes the part of the text it accepts and returns the rest. Where
readers call each other, a budget bounds the depth of the calls; `ofText?`
supplies one that no text exhausts. -/

def isBlank (c : Char) : Bool := c = ' ' || c = '\t' || c = '\n' || c = '\r'

def skipBlanks (text : List Char) : List Char := text.dropWhile isBlank

/-! ## Strings -/

def hexDigit? (c : Char) : Option Nat :=
  if '0' ≤ c ∧ c ≤ '9' then some (c.toNat - '0'.toNat)
  else if 'a' ≤ c ∧ c ≤ 'f' then some (c.toNat - 'a'.toNat + 10)
  else if 'A' ≤ c ∧ c ≤ 'F' then some (c.toNat - 'A'.toNat + 10)
  else none

def unit? : List Char → Option (Nat × List Char)
  | a :: b :: c :: d :: rest => do
      let a ← hexDigit? a
      let b ← hexDigit? b
      let c ← hexDigit? c
      let d ← hexDigit? d
      return (((a * 16 + b) * 16 + c) * 16 + d, rest)
  | _ => none

def isHighSurrogate (unit : Nat) : Bool := 0xd800 ≤ unit && unit < 0xdc00

def isLowSurrogate (unit : Nat) : Bool := 0xdc00 ≤ unit && unit < 0xe000

/-- The character that a first unit begins: the unit itself, or, for the high
half of a surrogate pair, the character it forms with the low half after it. -/
def ofUnit? (unit : Nat) (rest : List Char) : Option (Char × List Char) :=
  if isLowSurrogate unit then none
  else if isHighSurrogate unit then
    match rest with
    | '\\' :: 'u' :: rest => do
        let (low, rest) ← unit? rest
        if isLowSurrogate low then
          return (.ofNat (0x10000 + (unit - 0xd800) * 0x400 + (low - 0xdc00)), rest)
        else none
    | _ => none
  else some (.ofNat unit, rest)

def escaped? : List Char → Option (Char × List Char)
  | '"' :: rest => some ('"', rest)
  | '\\' :: rest => some ('\\', rest)
  | '/' :: rest => some ('/', rest)
  | 'b' :: rest => some ('\x08', rest)
  | 'f' :: rest => some ('\x0c', rest)
  | 'n' :: rest => some ('\n', rest)
  | 'r' :: rest => some ('\r', rest)
  | 't' :: rest => some ('\t', rest)
  | 'u' :: rest => do
      let (unit, rest) ← unit? rest
      ofUnit? unit rest
  | _ => none

def characters? : Nat → List Char → Option (List Char × List Char)
  | 0, _ => none
  | _ + 1, [] => none
  | budget + 1, c :: rest =>
      if c = '"' then some ([], rest)
      else if c.toNat < 0x20 then none
      else do
        let (c, rest) ← if c = '\\' then escaped? rest else some (c, rest)
        let (others, rest) ← characters? budget rest
        return (c :: others, rest)

def string? (text : List Char) : Option (String × List Char) := do
  let (characters, rest) ← characters? (text.length + 1) text
  return (String.ofList characters, rest)

/-! ## Numbers -/

def digits? (text : List Char) : Option (List Char × List Char) :=
  match text.takeWhile Char.isDigit with
  | [] => none
  | digits => some (digits, text.dropWhile Char.isDigit)

def integer? : List Char → Option (List Char × List Char)
  | '0' :: rest => some (['0'], rest)
  | text => digits? text

def fraction? : List Char → Option (List Char × List Char)
  | '.' :: rest => do
      let (digits, rest) ← digits? rest
      return ('.' :: digits, rest)
  | text => some ([], text)

def sign (allowed : List Char) : List Char → List Char × List Char
  | [] => ([], [])
  | c :: rest => if c ∈ allowed then ([c], rest) else ([], c :: rest)

def exponent? : List Char → Option (List Char × List Char)
  | [] => some ([], [])
  | c :: rest =>
      if c = 'e' ∨ c = 'E' then do
        let (sign, rest) := sign ['+', '-'] rest
        let (digits, rest) ← digits? rest
        return (c :: (sign ++ digits), rest)
      else some ([], c :: rest)

def number? (text : List Char) : Option (Json × List Char) := do
  let (sign, rest) := sign ['-'] text
  let (integer, rest) ← integer? rest
  let (fraction, rest) ← fraction? rest
  let (exponent, rest) ← exponent? rest
  return (number (String.ofList (sign ++ integer ++ fraction ++ exponent)), rest)

/-! ## Values -/

mutual

def value? : Nat → List Char → Option (Json × List Char)
  | 0, _ => none
  | budget + 1, text =>
      match skipBlanks text with
      | '"' :: rest => do
          let (value, rest) ← string? rest
          return (string value, rest)
      | '[' :: rest =>
          match skipBlanks rest with
          | ']' :: rest => some (array [], rest)
          | rest => do
              let (items, rest) ← items? budget rest
              return (array items, rest)
      | '{' :: rest =>
          match skipBlanks rest with
          | '}' :: rest => some (object [], rest)
          | rest => do
              let (members, rest) ← members? budget rest
              return (object members, rest)
      | 'n' :: 'u' :: 'l' :: 'l' :: rest => some (null, rest)
      | 't' :: 'r' :: 'u' :: 'e' :: rest => some (bool true, rest)
      | 'f' :: 'a' :: 'l' :: 's' :: 'e' :: rest => some (bool false, rest)
      | rest => number? rest
termination_by structural budget => budget

def items? : Nat → List Char → Option (List Json × List Char)
  | 0, _ => none
  | budget + 1, text => do
      let (item, rest) ← value? budget text
      match skipBlanks rest with
      | ']' :: rest => return ([item], rest)
      | ',' :: rest =>
          let (items, rest) ← items? budget rest
          return (item :: items, rest)
      | _ => none
termination_by structural budget => budget

def members? : Nat → List Char → Option (List (String × Json) × List Char)
  | 0, _ => none
  | budget + 1, text => do
      let (member, rest) ← member? budget text
      match skipBlanks rest with
      | '}' :: rest => return ([member], rest)
      | ',' :: rest =>
          let (members, rest) ← members? budget rest
          return (member :: members, rest)
      | _ => none
termination_by structural budget => budget

def member? : Nat → List Char → Option ((String × Json) × List Char)
  | 0, _ => none
  | budget + 1, text =>
      match skipBlanks text with
      | '"' :: rest => do
          let (key, rest) ← string? rest
          match skipBlanks rest with
          | ':' :: rest =>
              let (value, rest) ← value? budget rest
              return ((key, value), rest)
          | _ => none
      | _ => none
termination_by structural budget => budget

end

/-- The value that a text spells. Every third call at the latest takes a
character, so the budget lasts. -/
def ofText? (text : String) : Option Json :=
  match value? (3 * text.length + 3) text.toList with
  | some (value, rest) => if skipBlanks rest = [] then some value else none
  | none => none

example : (ofText? " [\"\\ud83d\\ude00\", -1.5e+3, \x7b\"a\": true\x7d] ").map toText =
    some "[\n  \"😀\",\n  -1.5e+3,\n  \x7b\n    \"a\": true\n  \x7d\n]" := by
  decide +kernel

example : (ofText? "[1,]").isNone ∧ (ofText? "\"\\ud83d\"").isNone := by
  decide +kernel

example : (ofText? "01").isNone ∧ (ofText? "nulls").isNone := by decide +kernel

end WordAutomata.Json
