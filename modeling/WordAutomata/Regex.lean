import WordAutomata.Alphabet
import WordAutomata.Count

namespace WordAutomata

/-! Regular expressions over symbols. -/

inductive Regex where
  /-- One symbol, or the empty word when it is the reserved symbol. -/
  | literal (symbol : String)
  | seq (left right : Regex)
  | or (left right : Regex)
  | star (body : Regex)
  | exactly (body : Regex) (count : Count)
  /-- Both bounds are included. -/
  | between (body : Regex) (low high : Count)
  | atLeast (body : Regex) (low : Count)
deriving DecidableEq, Repr

namespace Regex

def isEpsilon : Regex → Bool
  | literal symbol => symbol = epsilon
  | _ => false

/-! ## Display -/

/-- The lines of an expression drawn as a tree: one for every node, two columns
further in than the line of its parent. -/
def outline (indent : Nat) : Regex → List String
  | literal symbol => [line s!"LITERAL: {symbol}"]
  | seq left right =>
      line "SEQ" :: (outline (indent + 2) left ++ outline (indent + 2) right)
  | or left right =>
      line "OR" :: (outline (indent + 2) left ++ outline (indent + 2) right)
  | star body => line "STAR" :: outline (indent + 2) body
  | exactly body count =>
      line s!"REPEAT_EXACTLY: {count.digits}" :: outline (indent + 2) body
  | between body low high =>
      line s!"REPEAT_BETWEEN: {low.digits}-{high.digits}" :: outline (indent + 2) body
  | atLeast body low => line s!"REPEAT_MIN: {low.digits}" :: outline (indent + 2) body
where
  line (header : String) : String := String.ofList (List.replicate indent ' ') ++ header

def display (expression : Regex) : String :=
  String.join ((expression.outline 0).map (· ++ "\n"))

example : display (.star (.between (.literal "a") 2 3)) =
    "STAR\n  REPEAT_BETWEEN: 2-3\n    LITERAL: a\n" := by decide +kernel

end Regex

end WordAutomata
