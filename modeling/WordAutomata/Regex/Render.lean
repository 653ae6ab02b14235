import WordAutomata.Regex

namespace WordAutomata.Regex

/-! Writing an expression as text. Every part of a larger expression is put in
parentheses, so the text shows its shape whatever the symbols are. -/

def render : Regex → String
  | literal symbol => symbol
  | seq left right => s!"({left.render})({right.render})"
  | or left right => s!"({left.render})+({right.render})"
  | star body => s!"({body.render})*"
  | exactly body count => s!"({body.render})\x7b{count.digits}\x7d"
  | between body low high => s!"({body.render})\x7b{low.digits},{high.digits}\x7d"
  | atLeast body low => s!"({body.render})\x7b{low.digits},\x7d"

example : render (.or (.literal "ab") (.between (.literal "c") 0 12)) =
    "(ab)+((c)\x7b0,12\x7d)" := by decide +kernel

def literals : Regex → List String
  | literal symbol => [symbol]
  | seq left right | or left right => left.literals ++ right.literals
  | star body | exactly body _ | between body _ _ | atLeast body _ => body.literals

def Ordered : Regex → Prop
  | literal _ => True
  | seq left right | or left right => left.Ordered ∧ right.Ordered
  | star body | exactly body _ | atLeast body _ => body.Ordered
  | between body low high => body.Ordered ∧ low ≤ high

end WordAutomata.Regex
