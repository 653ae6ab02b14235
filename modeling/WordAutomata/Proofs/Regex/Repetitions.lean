import WordAutomata.Proofs.Regex.Grammar
import WordAutomata.Proofs.Regex.Literals

namespace WordAutomata

/-! The scanner and the reader of tokens agree on repetitions. Where the scanner lets a
brace through, the tokens of a whole repetition follow, so the reader is never stopped
within one. -/

open Grammar

/-! ## Repetitions among tokens -/

/-- Whether every opening brace among some tokens begins a repetition, and no counts are
left outside of these. -/
inductive Quantified : List Token → Prop
  | nil : Quantified []
  | single {token : Token} {rest : List Token} :
      token.kind ≠ .openBrace → token.kind ≠ .count → Quantified rest →
      Quantified (token :: rest)
  | repetition {bounds rest : List Token} {wrap : Regex → Regex} :
      Repetition bounds wrap → Quantified rest → Quantified (bounds ++ rest)

namespace Quantified

variable {tokens before after : List Token} {token : Token}

theorem append (first : Quantified before) (second : Quantified after) :
    Quantified (before ++ after) := by
  induction first with
  | nil => exact second
  | single notBrace notCount _ induction => exact .single notBrace notCount induction
  | repetition repetition _ induction =>
      rw [List.append_assoc]
      exact .repetition repetition induction

theorem single_or_repetition (quantified : Quantified (before ++ token :: after)) :
    (token.kind ≠ .openBrace ∧ token.kind ≠ .count) ∨
      ∃ front left right back wrap, before = front ++ left ∧ after = right ++ back ∧
        Repetition (left ++ token :: right) wrap := by
  generalize whole : before ++ token :: after = tokens at quantified
  induction quantified generalizing before with
  | nil => simp at whole
  | @single first rest notBrace notCount _ induction =>
      cases before with
      | nil =>
          cases whole
          exact .inl ⟨notBrace, notCount⟩
      | cons head before =>
          rcases List.cons.inj whole with ⟨rfl, rest⟩
          refine (induction rest).imp_right fun given => ?_
          rcases given with ⟨front, left, right, back, wrap, rfl, ends, repetition⟩
          exact ⟨head :: front, left, right, back, wrap, rfl, ends, repetition⟩
  | @repetition bounds rest wrap repetition _ induction =>
      rcases List.eq_append_cons_of_append whole.symm with
        ⟨right, begins, ends⟩ | ⟨earlier, begins, ends⟩
      · exact .inr ⟨[], before, right, rest, wrap, rfl, ends, begins ▸ repetition⟩
      · refine (induction ends.symm).imp_right fun given => ?_
        rcases given with ⟨front, left, right, back, wrap, rfl, afterEnds, inside⟩
        exact ⟨bounds ++ front, left, right, back, wrap, by rw [begins, List.append_assoc],
          afterEnds, inside⟩

end Quantified

theorem Grammar.Repetition.kind_ne_openBrace {opening : Token} {rest : List Token}
    {wrap : Regex → Regex} (repetition : Repetition (opening :: rest) wrap) :
    ∀ token ∈ rest, token.kind ≠ .openBrace := by
  cases repetition with
  | exactly _ bound closing => simp [bound.1, closing]
  | atLeast _ bound comma closing => simp [bound.1, comma, closing]
  | between _ first comma second _ closing => simp [first.1, comma, second.1, closing]

theorem Grammar.Repetition.exists_openBrace {bounds : List Token} {wrap : Regex → Regex}
    (repetition : Repetition bounds wrap) :
    ∃ opening rest, bounds = opening :: rest ∧ opening.kind = .openBrace := by
  cases repetition with
  | exactly opening | atLeast opening | between opening => exact ⟨_, _, rfl, opening⟩

/-! ## Scanning -/

namespace Alphabet

variable {alphabet : Alphabet}

/-- Whatever the alphabet is, braces are scanned together with their bounds. -/
theorem quantified_scanFrom (alphabet : Alphabet) (position : Nat) (text : List Char) :
    Quantified (alphabet.scanFrom position text).tokens := by
  fun_induction scanFrom alphabet position text with
  | case1 => exact .nil
  | case2 position c rest symbol found induction =>
      exact .single (by simp) (by simp) induction
  | case3 => exact .nil
  | case4 => exact .nil
  | case5 position c rest stuck operator bounds read consumed induction =>
      have opening : (Token.mk .openBrace c.toString).kind = .openBrace := rfl
      rcases (BoundsReading.spells_of_ofText read).repetition opening with ⟨wrap, repetition⟩
      exact .repetition repetition induction
  | case6 position c rest stuck kind notBrace operator induction =>
      refine .single notBrace ?_ induction
      intro equal
      have count : kind = .count := equal
      exact Token.Kind.ofOperator?_ne_count c (count ▸ operator)

theorem quantified_of_tokenize {text : String} {tokens : List Token}
    (read : alphabet.tokenize text = .ok tokens) : Quantified tokens := by
  have quantified := alphabet.quantified_scanFrom 0 text.toList
  rwa [tokenize_eq_ok_iff.mp read] at quantified

end Alphabet

/-! ## Reading tokens

Only an opening brace leads the reader into a repetition, and it does so only behind a
symbol or a closed group. If a whole repetition begins with the brace, the reader comes
out of it again. -/

/-- Whether a fault is reported where no repetition is under way: there is no operand, no
end of a group, or no end of the tokens. What stands before the token that is reported is
made up of whole repetitions and other tokens. -/
inductive GrammarFault.OutsideRepetitions : List Token → GrammarFault → Prop
  | unexpected {expected : Expected} {before after : List Token} {found : Token} :
      expected = .operand ∨ expected = .closeParen → Quantified before →
      OutsideRepetitions (before ++ found :: after)
        (.unexpected expected found before.length)
  | incomplete {expected : Expected} {tokens : List Token} :
      expected = .operand ∨ expected = .closeParen →
      OutsideRepetitions tokens (.incomplete expected)
  | leftover {before after : List Token} {found : Token} :
      Quantified before →
      OutsideRepetitions (before ++ found :: after) (.leftover found before.length)

def Place.OutsideRepetitions (place : Place) : Prop :=
  place = .operand ∨ place.ended?.isSome

theorem Place.OutsideRepetitions.not_awaitsCount {place : Place}
    (outside : place.OutsideRepetitions) : ¬ place.AwaitsCount := by
  intro awaits
  cases place with
  | lowBound | highBound => simp [Place.OutsideRepetitions, Place.ended?] at outside
  | _ => exact awaits

namespace Parser

variable {level : Level} {outer : List Level} {place : Place} {operand : Regex}
  {parser next : Parser} {token : Token} {before after : List Token} {failure : Error}

theorem outside_of_begins (begins : Begins level outer token next) :
    next.place.OutsideRepetitions := by
  cases begins with
  | symbol => exact .inr rfl
  | group => exact .inl rfl

theorem outside_of_moves (outside : parser.place.OutsideRepetitions)
    (notBrace : token.kind ≠ .openBrace) (moves : Moves parser token next) :
    next.place.OutsideRepetitions := by
  cases moves with
  | first begins | next _ begins => exact outside_of_begins begins
  | branch => exact .inl rfl
  | close | star | exactly | atLeast | between => exact .inr rfl
  | brace kind => exact absurd kind notBrace
  | low | comma | high => simp [Place.OutsideRepetitions, Place.ended?] at outside

theorem exists_atom_of_moves (moves : Moves parser token next)
    (kind : token.kind = .openBrace) :
    ∃ level outer body, parser = ⟨level, outer, .atom body⟩ := by
  cases moves with
  | brace => exact ⟨_, _, _, rfl⟩
  | first begins | next _ begins =>
      cases begins with
      | symbol other | group other => cases kind.symm.trans other
  | branch _ other | close _ other | star _ other | exactly other | comma other
  | atLeast other | between other => cases kind.symm.trans other
  | low bound | high bound => cases kind.symm.trans bound.1

theorem fault_of_step (outside : parser.place.OutsideRepetitions)
    (quantified : Quantified before)
    (failed : parser.step token before.length = .error failure) :
    ∃ fault, failure = .grammar fault ∧ fault.OutsideRepetitions (before ++ token :: after) := by
  rcases refuses_of_step failed with ⟨fault, rfl, refuses⟩
  refine ⟨fault, rfl, ?_⟩
  cases refuses with
  | operand => exact .unexpected (.inl rfl) quantified
  | leftover => exact .leftover quantified
  | closeParen => exact .unexpected (.inr rfl) quantified
  | count awaits | invalidCount awaits => exact absurd awaits outside.not_awaitsCount
  | comma | reversedBounds | closeBrace =>
      simp [Place.OutsideRepetitions, Place.ended?] at outside

theorem fault_of_finish {tokens : List Token} (outside : parser.place.OutsideRepetitions)
    (failed : parser.finish = .error failure) :
    ∃ fault, failure = .grammar fault ∧ fault.OutsideRepetitions tokens := by
  rcases parser with ⟨level, outer, place⟩
  cases place with
  | operand =>
      cases failed
      exact ⟨_, rfl, .incomplete (.inl rfl)⟩
  | atom | repeated | starred =>
      cases outer with
      | nil => cases failed
      | cons =>
          cases failed
          exact ⟨_, rfl, .incomplete (.inr rfl)⟩
  | lowBound | afterLow | highBound | afterHigh =>
      simp [Place.OutsideRepetitions, Place.ended?] at outside

/-- Where every brace begins a repetition, the reader is stopped outside of these only. -/
theorem fault_of_run {tokens : List Token} (quantified : Quantified tokens)
    (earlier : Quantified before) (outside : parser.place.OutsideRepetitions)
    (failed : parser.run before.length tokens = .error failure) :
    ∃ fault, failure = .grammar fault ∧ fault.OutsideRepetitions (before ++ tokens) := by
  induction quantified generalizing parser before with
  | nil => exact fault_of_finish outside failed
  | @single token rest notBrace notCount _ induction =>
      rw [run] at failed
      cases stepped : parser.step token before.length with
      | error failure =>
          rw [stepped] at failed
          cases failed
          exact fault_of_step outside earlier stepped
      | ok next =>
          rw [stepped] at failed
          have read : Quantified (before ++ [token]) :=
            earlier.append (.single notBrace notCount .nil)
          have later := induction read
            (outside_of_moves outside notBrace (moves_of_step stepped))
            (by rw [List.length_append]; exact failed)
          rwa [List.append_assoc] at later
  | @repetition bounds rest wrap repetition _ induction =>
      obtain ⟨opening, others, rfl, kind⟩ := repetition.exists_openBrace
      cases stepped : parser.step opening before.length with
      | error other =>
          rw [List.cons_append, run, stepped] at failed
          cases failed
          exact fault_of_step outside earlier stepped
      | ok next =>
          obtain ⟨level, outer, body, rfl⟩ :=
            exists_atom_of_moves (moves_of_step stepped) kind
          rw [run_of_passes (passes_of_repetition repetition body)] at failed
          have read : Quantified (before ++ (opening :: others ++ [])) :=
            earlier.append (.repetition repetition .nil)
          rw [List.append_nil] at read
          have later := induction read (.inr rfl)
            (by rw [List.length_append]; exact failed)
          rwa [List.append_assoc] at later

end Parser

/-! ## Texts -/

/-- Among the tokens of a text, every opening brace begins a whole repetition, with its
bounds in order, and every count belongs to one. So a list of tokens that is not an
expression is never blamed on the inside of a repetition. -/
theorem repetitions_of_tokenize {alphabet : Alphabet} {text : String} {tokens : List Token}
    (read : alphabet.tokenize text = .ok tokens) :
    (∀ before token after, tokens = before ++ token :: after →
      (token.kind = .openBrace → ∃ inside rest wrap, after = inside ++ rest ∧
        Repetition (token :: inside) wrap) ∧
      (token.kind = .count → ∃ front left right back wrap, before = front ++ left ∧
        after = right ++ back ∧ Repetition (left ++ token :: right) wrap)) ∧
    ∀ failure, Regex.ofTokens tokens = .error failure →
      ∃ fault, failure = .grammar fault ∧ fault.OutsideRepetitions tokens := by
  have quantified := Alphabet.quantified_of_tokenize read
  refine ⟨?places, ?faults⟩
  case places =>
    intro before token after split
    rw [split] at quantified
    rcases quantified.single_or_repetition with
      ⟨notBrace, notCount⟩ | ⟨front, left, right, back, wrap, begins, ends, repetition⟩
    · exact ⟨fun kind => absurd kind notBrace, fun kind => absurd kind notCount⟩
    · refine ⟨fun kind => ?_, fun _ => ⟨_, _, _, _, _, begins, ends, repetition⟩⟩
      -- Within a repetition, only the first token is an opening brace.
      cases left with
      | nil => exact ⟨right, back, wrap, ends, repetition⟩
      | cons opening left =>
          exact absurd kind (repetition.kind_ne_openBrace token (by simp))
  case faults =>
    intro failure failed
    exact Parser.fault_of_run quantified .nil (.inl rfl) failed

/-- Digits and the closing brace are symbols here, and the second repetition stands where
the group should have been closed. -/
theorem repetitions_of_tokenize_of_brace_symbols :
    let opening : Token := ⟨.openBrace, "\x7b"⟩
    let bounds : List Token := [⟨.count, "1"⟩, ⟨.comma, ","⟩, ⟨.count, "12"⟩,
      ⟨.closeBrace, "\x7d"⟩]
    let others : List Token := [opening, ⟨.count, "2"⟩, ⟨.closeBrace, "\x7d"⟩]
    let tokens : List Token :=
      [⟨.openParen, "("⟩, ⟨.literal, "1"⟩] ++ opening :: (bounds ++ others)
    (Alphabet.ofText "1 \x7d").tokenize "(1\x7b1,12\x7d\x7b2\x7d" = .ok tokens ∧
      (∃ inside rest wrap, bounds ++ others = inside ++ rest ∧
        Repetition (opening :: inside) wrap) ∧
      Regex.ofTokens tokens =
        .error (.grammar (.unexpected .closeParen opening 7)) ∧
      (GrammarFault.unexpected .closeParen opening 7).OutsideRepetitions tokens := by
  intro opening bounds others tokens
  have read : (Alphabet.ofText "1 \x7d").tokenize "(1\x7b1,12\x7d\x7b2\x7d" =
      .ok tokens := by decide +kernel
  have failed : Regex.ofTokens tokens =
      .error (.grammar (.unexpected .closeParen opening 7)) := by decide +kernel
  rcases repetitions_of_tokenize read with ⟨places, faults⟩
  rcases faults _ failed with ⟨fault, same, outside⟩
  cases same
  exact ⟨read, (places _ opening _ rfl).1 rfl, failed, outside⟩

end WordAutomata
