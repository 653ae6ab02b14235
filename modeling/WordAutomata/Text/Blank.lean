namespace WordAutomata.Text

/-! The Unicode property White_Space. -/

def isBlank (c : Char) : Bool :=
  [(0x09, 0x0d), (0x20, 0x20), (0x85, 0x85), (0xa0, 0xa0), (0x1680, 0x1680),
    (0x2000, 0x200a), (0x2028, 0x2029), (0x202f, 0x202f), (0x205f, 0x205f),
    (0x3000, 0x3000)].any fun range => range.1 ≤ c.toNat && c.toNat ≤ range.2

example : isBlank ' ' ∧ isBlank '\n' ∧ isBlank '\u2028' := by decide

/-- Neither the zero width space nor the byte order mark is blank. -/
example : isBlank '\u200b' = false ∧ isBlank '\ufeff' = false := by decide

end WordAutomata.Text
