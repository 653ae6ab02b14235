import WordAutomata.Text.Unprintable

namespace WordAutomata.Text

/-! Text in double quotes, in which every character can be told apart: what has
no visible form is written by its code point. -/

def escape (c : Char) : List Char :=
  match c with
  | '\x00' => ['\\', '0']
  | '\t' => ['\\', 't']
  | '\r' => ['\\', 'r']
  | '\n' => ['\\', 'n']
  | '\\' => ['\\', '\\']
  | '"' => ['\\', '"']
  | c =>
      if isPrintable c then [c]
      else ['\\', 'u', '\x7b'] ++ Nat.toDigits 16 c.toNat ++ ['\x7d']

def quote (text : String) : String :=
  String.ofList (['"'] ++ text.toList.flatMap escape ++ ['"'])

example : quote "a\"b" = "\"a\\\"b\"" := by decide +kernel

example : quote "e\u0301\x1b" = "\"e\\u\x7b301\x7d\\u\x7b1b\x7d\"" := by decide +kernel

end WordAutomata.Text
