import WordAutomata.Regex.Grammar
import WordAutomata.Token.Lexer

namespace WordAutomata

/-! What is read after an opening brace. The scanner of characters and the grammar of
tokens ask for bounds separately; what the one lets through is a repetition for the
other. -/

open Grammar

namespace CountReading

variable {position : Nat} {text : List Char} {reading : CountReading}

theorem ofDigits?_of_ofText (read : ofText position text = .ok reading) :
    Count.ofDigits? reading.digits = some reading.value := by
  rw [ofText] at read
  split at read
  · cases read
  · split at read
    · cases read
    · rename_i value spelled
      cases read
      exact spelled

theorem ofText_of_ofDigits? (position : Nat) {digits rest : List Char} {count : Count}
    {c : Char} (spelled : Count.ofDigits? digits = some count) (other : ¬ c.isDigit) :
    ofText position (digits ++ c :: rest) = .ok ⟨digits, count, c :: rest⟩ := by
  rcases Count.ofDigits?_eq_some_iff.mp spelled with ⟨nonempty, allDigits, _⟩
  have taken : (digits ++ c :: rest).takeWhile Char.isDigit = digits := by
    rw [List.takeWhile_append_of_pos allDigits, List.takeWhile_cons_of_neg other,
      List.append_nil]
  have dropped : (digits ++ c :: rest).dropWhile Char.isDigit = c :: rest := by
    rw [List.dropWhile_append_of_pos allDigits, List.dropWhile_cons_of_neg other]
  rw [ofText]
  simp only [taken, dropped, if_neg nonempty, spelled]

theorem fault_of_ofText {failure : Error} (failed : ofText position text = .error failure) :
    ∃ fault, failure = .lexical position fault := by
  rw [ofText] at failed
  split at failed
  · cases failed
    exact ⟨_, rfl⟩
  · split at failed
    · cases failed
      exact ⟨_, rfl⟩
    · cases failed

end CountReading

/-- A token of digits is a bound. The sign that the grammar allows is never scanned. -/
theorem Grammar.bound_ofList {digits : List Char} {count : Count}
    (spelled : Count.ofDigits? digits = some count) :
    Bound ⟨.count, String.ofList digits⟩ count := by
  rcases Count.ofDigits?_eq_some_iff.mp spelled with ⟨nonempty, allDigits, value⟩
  exact ⟨rfl, [], digits, String.toList_ofList, .inl rfl, nonempty, allDigits, value⟩

namespace BoundsReading

/-- How the bounds after an opening brace are written: one count, a count and a comma,
or two counts in order. -/
inductive Spells : List Char → BoundsReading → Prop
  | exactly {digits rest : List Char} {count : Count} :
      Count.ofDigits? digits = some count →
      Spells (digits ++ '}' :: rest)
        ⟨[⟨.count, String.ofList digits⟩, ⟨.closeBrace, "\x7d"⟩], rest⟩
  | atLeast {digits rest : List Char} {low : Count} :
      Count.ofDigits? digits = some low →
      Spells (digits ++ ',' :: '}' :: rest)
        ⟨[⟨.count, String.ofList digits⟩, ⟨.comma, ","⟩, ⟨.closeBrace, "\x7d"⟩], rest⟩
  | between {first second rest : List Char} {low high : Count} :
      Count.ofDigits? first = some low → Count.ofDigits? second = some high → low ≤ high →
      Spells (first ++ ',' :: (second ++ '}' :: rest))
        ⟨[⟨.count, String.ofList first⟩, ⟨.comma, ","⟩, ⟨.count, String.ofList second⟩,
          ⟨.closeBrace, "\x7d"⟩], rest⟩

variable {position : Nat} {text : List Char} {reading : BoundsReading}

theorem eq_of_close {bounds : List Token} (read : close position bounds text = .ok reading) :
    text = '}' :: reading.rest ∧
      reading = ⟨bounds ++ [⟨.closeBrace, "\x7d"⟩], reading.rest⟩ := by
  rw [close.eq_def] at read
  split at read
  · cases read
    exact ⟨rfl, rfl⟩
  · cases read
  · cases read

theorem spells_of_ofText (read : ofText position text = .ok reading) :
    Spells text reading := by
  rcases Except.bind_eq_ok_iff.mp read with ⟨low, lowRead, afterLow⟩
  have lowSpelled := CountReading.ofDigits?_of_ofText lowRead
  rw [← CountReading.digits_append_rest lowRead]
  clear read lowRead
  split at afterLow
  · rename_i rest split
    cases afterLow
    rw [split]
    exact .exactly lowSpelled
  · rename_i rest split
    rw [split]
    split at afterLow
    · rcases Except.bind_eq_ok_iff.mp afterLow with ⟨high, highRead, afterHigh⟩
      have highSpelled := CountReading.ofDigits?_of_ofText highRead
      rw [← CountReading.digits_append_rest highRead]
      split at afterHigh
      · cases afterHigh
      · rename_i ordered
        rcases eq_of_close afterHigh with ⟨closed, whole⟩
        rw [closed, whole]
        exact .between lowSpelled highSpelled (UInt32.not_lt.mp ordered)
    · rcases eq_of_close afterLow with ⟨closed, whole⟩
      rw [closed, whole]
      exact .atLeast lowSpelled
  · cases afterLow
  · cases afterLow

theorem ofText_of_spells (position : Nat) (spells : Spells text reading) :
    ofText position text = .ok reading := by
  cases spells with
  | exactly spelled =>
      rw [ofText, CountReading.ofText_of_ofDigits? position spelled (by decide)]
      rfl
  | atLeast spelled =>
      rw [ofText, CountReading.ofText_of_ofDigits? position spelled (by decide)]
      rfl
  | @between first second rest low high lowSpelled highSpelled ordered =>
      have begins : (second ++ '}' :: rest).head?.any Char.isDigit := by
        rcases Count.ofDigits?_eq_some_iff.mp highSpelled with ⟨nonempty, allDigits, _⟩
        cases second with
        | nil => exact absurd rfl nonempty
        | cons digit others => exact allDigits digit List.mem_cons_self
      have highRead (position : Nat) :
          CountReading.ofText position (second ++ '}' :: rest) = .ok ⟨second, high, _⟩ :=
        CountReading.ofText_of_ofDigits? position highSpelled (by decide)
      rw [ofText, CountReading.ofText_of_ofDigits? position lowSpelled (by decide)]
      simp only [bind, Except.bind, begins, if_true, highRead]
      rw [if_neg (UInt32.not_lt.mpr ordered)]
      rfl

theorem Spells.exists_inside (spells : Spells text reading) :
    ∃ inside, text = inside ++ reading.rest ∧ Spells inside ⟨reading.tokens, []⟩ := by
  cases spells with
  | exactly spelled => exact ⟨_ ++ ['}'], by simp, .exactly spelled⟩
  | atLeast spelled => exact ⟨_ ++ [',', '}'], by simp, .atLeast spelled⟩
  | between lowSpelled highSpelled ordered =>
      exact ⟨_ ++ ',' :: (_ ++ ['}']), by simp,
        .between lowSpelled highSpelled ordered⟩

theorem Spells.content (spells : Spells text reading) :
    text = reading.tokens.flatMap (·.content.toList) ++ reading.rest := by
  cases spells with
  | exactly | atLeast | between => simp

theorem Spells.exists_inner (spells : Spells text reading) :
    ∃ inner, reading.tokens = inner ++ [⟨.closeBrace, "\x7d"⟩] ∧
      ∀ token ∈ inner, token.kind = .count ∨ token.kind = .comma := by
  cases spells with
  | exactly => exact ⟨[_], rfl, by simp⟩
  | atLeast => exact ⟨[_, _], rfl, by simp⟩
  | between => exact ⟨[_, _, _], rfl, by simp⟩

theorem Spells.append {inside : List Char} {bounds : List Token}
    (spells : Spells inside ⟨bounds, []⟩) (rest : List Char) :
    Spells (inside ++ rest) ⟨bounds, rest⟩ := by
  cases spells with
  | exactly spelled =>
      rw [List.append_assoc]
      exact .exactly spelled
  | atLeast spelled =>
      rw [List.append_assoc]
      exact .atLeast spelled
  | between lowSpelled highSpelled ordered =>
      rw [List.append_assoc, List.cons_append, List.append_assoc]
      exact .between lowSpelled highSpelled ordered

theorem fault_of_close {bounds : List Token} {failure : Error}
    (failed : close position bounds text = .error failure) :
    ∃ fault, failure = .lexical position fault := by
  rw [close.eq_def] at failed
  split at failed
  · cases failed
  · cases failed
    exact ⟨_, rfl⟩
  · cases failed
    exact ⟨_, rfl⟩

theorem fault_of_ofText {failure : Error} (failed : ofText position text = .error failure) :
    ∃ place fault, failure = .lexical place fault ∧ position ≤ place ∧
      place ≤ position + text.length := by
  rw [ofText] at failed
  -- What was read is a part of the text, so the place of a fault behind it is in the text.
  cases lowRead : CountReading.ofText position text with
  | error other =>
      rw [lowRead] at failed
      cases failed
      rcases CountReading.fault_of_ofText lowRead with ⟨fault, rfl⟩
      exact ⟨_, fault, rfl, Nat.le_refl _, Nat.le_add_right _ _⟩
  | ok low =>
      have lowLength := congrArg List.length (CountReading.digits_append_rest lowRead)
      rw [List.length_append] at lowLength
      rw [lowRead] at failed
      simp only [bind, Except.bind] at failed
      split at failed
      · cases failed
      · rename_i rest split
        rw [split, List.length_cons] at lowLength
        split at failed
        -- A digit stands behind the comma.
        · cases highRead : CountReading.ofText (position + low.digits.length + 1) rest with
          | error other =>
              rw [highRead] at failed
              cases failed
              rcases CountReading.fault_of_ofText highRead with ⟨fault, rfl⟩
              exact ⟨_, fault, rfl, by omega, by omega⟩
          | ok high =>
              have highLength :=
                congrArg List.length (CountReading.digits_append_rest highRead)
              rw [List.length_append] at highLength
              rw [highRead] at failed
              simp only at failed
              split at failed
              -- The bounds are reversed, or the brace is not closed.
              · cases failed
                exact ⟨_, _, rfl, by omega, by omega⟩
              · rcases fault_of_close failed with ⟨fault, rfl⟩
                exact ⟨_, fault, rfl, by omega, by omega⟩
        · rcases fault_of_close failed with ⟨fault, rfl⟩
          exact ⟨_, fault, rfl, by omega, by omega⟩
      · cases failed
        exact ⟨_, _, rfl, by omega, by omega⟩
      · cases failed
        exact ⟨_, _, rfl, by omega, by omega⟩

/-- Together with the brace before them, bounds are a repetition. -/
theorem Spells.repetition (spells : Spells text reading) {opening : Token}
    (kind : opening.kind = .openBrace) :
    ∃ wrap, Repetition (opening :: reading.tokens) wrap := by
  cases spells with
  | exactly spelled => exact ⟨_, .exactly kind (bound_ofList spelled) rfl⟩
  | atLeast spelled => exact ⟨_, .atLeast kind (bound_ofList spelled) rfl rfl⟩
  | between lowSpelled highSpelled ordered =>
      exact ⟨_, .between kind (bound_ofList lowSpelled) rfl (bound_ofList highSpelled)
        ordered rfl⟩

end BoundsReading

end WordAutomata
