namespace WordAutomata

/-! JSON values and their printed form. The members of an object are kept in
order and with their repetitions, because both can be seen in a text. -/

inductive Json where
  | null
  | bool (value : Bool)
  /-- A number is kept as it is spelled. -/
  | number (spelling : String)
  | string (value : String)
  | array (items : List Json)
  | object (members : List (String × Json))
deriving Repr

namespace Json

/-! ## Strings -/

/-- The written form of one character inside quotes. Only the quote, the
backslash and the control characters below the space are escaped. -/
def escape (c : Char) : List Char :=
  match c with
  | '"' => ['\\', '"']
  | '\\' => ['\\', '\\']
  | '\x08' => ['\\', 'b']
  | '\x0c' => ['\\', 'f']
  | '\n' => ['\\', 'n']
  | '\r' => ['\\', 'r']
  | '\t' => ['\\', 't']
  | c =>
      if c.toNat < 0x20 then
        ['\\', 'u', '0', '0', Nat.digitChar (c.toNat / 16), Nat.digitChar (c.toNat % 16)]
      else [c]

def quote (text : String) : List Char :=
  '"' :: (text.toList.flatMap escape ++ ['"'])

example : String.ofList (quote "a\n\x1f/") = "\"a\\n\\u001f/\"" := by decide +kernel

/-! ## Layout -/

def newline (indent : Nat) : List Char := '\n' :: List.replicate indent ' '

mutual

/-- A value laid out over lines: every item and member on a line of its own, two
columns further in than the brackets around it. -/
def pretty (indent : Nat) : Json → List Char
  | null => "null".toList
  | bool true => "true".toList
  | bool false => "false".toList
  | number spelling => spelling.toList
  | string value => quote value
  | array [] => ['[', ']']
  | array (item :: items) =>
      '[' :: (newline (indent + 2) ++ pretty (indent + 2) item ++
        prettyItems (indent + 2) items ++ newline indent ++ [']'])
  | object [] => ['{', '}']
  | object (member :: members) =>
      '{' :: (newline (indent + 2) ++ prettyMember (indent + 2) member ++
        prettyMembers (indent + 2) members ++ newline indent ++ ['}'])
termination_by structural json => json

def prettyItems (indent : Nat) : List Json → List Char
  | [] => []
  | item :: items =>
      ',' :: (newline indent ++ pretty indent item ++ prettyItems indent items)
termination_by structural items => items

def prettyMembers (indent : Nat) : List (String × Json) → List Char
  | [] => []
  | member :: members =>
      ',' :: (newline indent ++ prettyMember indent member ++
        prettyMembers indent members)
termination_by structural members => members

def prettyMember (indent : Nat) : String × Json → List Char
  | (key, value) => quote key ++ [':', ' '] ++ pretty indent value
termination_by structural member => member

end

def toText (json : Json) : String := String.ofList (json.pretty 0)

example : toText (.object [("a", .array [.string "b", .null]), ("c", .array [])]) =
    "\x7b\n  \"a\": [\n    \"b\",\n    null\n  ],\n  \"c\": []\n\x7d" := by
  decide +kernel

end Json

end WordAutomata
