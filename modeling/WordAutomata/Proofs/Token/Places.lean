import WordAutomata.Proofs.Token.Scanning

namespace WordAutomata

/-! What stands where in a text that is scanned. Outside the braces of a repetition a
token shows what the alphabet has at its place, and inside there are no symbols. A fault
is found right after the tokens before it. -/

/-! ## Braces

Whether a place is between braces is decided by the last brace before it. After an opening
brace, this is so up to the closing one. -/

namespace Token

def bracedAfter (braced : Bool) (token : Token) : Bool :=
  match token.kind with
  | .openBrace => true
  | .closeBrace => false
  | _ => braced

def Braced (before : List Token) : Prop := before.foldl bracedAfter false = true

instance (before : List Token) : Decidable (Braced before) :=
  inferInstanceAs (Decidable (_ = true))

theorem braced_append {front before : List Token}
    (closed : front.foldl bracedAfter false = false) :
    Braced (front ++ before) ↔ Braced before := by
  rw [Braced, List.foldl_append, closed, Braced]

theorem bracedAfter_false {token : Token} (other : token.kind ≠ .openBrace) :
    bracedAfter false token = false := by
  rw [bracedAfter.eq_def]
  split
  · rename_i brace
    exact absurd brace other
  · rfl
  · rfl

theorem foldl_bracedAfter_true {tokens : List Token}
    (unclosed : ∀ token ∈ tokens, token.kind ≠ .closeBrace) :
    tokens.foldl bracedAfter true = true := by
  induction tokens with
  | nil => rfl
  | cons token tokens induction =>
      rcases List.forall_mem_cons.mp unclosed with ⟨other, unclosed⟩
      have stays : bracedAfter true token = true := by
        rw [bracedAfter.eq_def]
        split
        · rfl
        · rename_i brace
          exact absurd brace other
        · rfl
      rw [List.foldl_cons, stays, induction unclosed]

end Token

/-! ## Tokens -/

namespace Alphabet

variable {alphabet : Alphabet} {rest text : List Char} {tokens before after : List Token}
  {token : Token}

/-- What a token says about the text from its place on, which depends on the tokens
before it. -/
structure Explains (alphabet : Alphabet) (before : List Token) (token : Token)
    (text : List Char) : Prop where
  symbol : token.kind = .literal → alphabet.Longest text token.content
  other : token.kind ≠ .literal → ¬ Token.Braced before → alphabet.Stuck text
  braced : Token.Braced before → token.kind ≠ .literal

theorem Explains.prepend (explains : alphabet.Explains before token text)
    (front : List Token) (closed : front.foldl Token.bracedAfter false = false) :
    alphabet.Explains (front ++ before) token text where
  symbol := explains.symbol
  other := fun other outside =>
    explains.other other fun braced => outside ((Token.braced_append closed).mpr braced)
  braced := fun braced => explains.braced ((Token.braced_append closed).mp braced)

theorem explains_of_spells {inside : List Char} {reading : BoundsReading}
    (spells : BoundsReading.Spells inside reading)
    (split : reading.tokens = before ++ token :: after) {opening : Token}
    (kind : opening.kind = .openBrace) : alphabet.Explains (opening :: before) token text := by
  rcases spells.exists_inner with ⟨inner, whole, kinds⟩
  have notLiteral : token.kind ≠ .literal := by
    have member : token ∈ inner ++ [⟨.closeBrace, "\x7d"⟩] := by
      rw [← whole, split]
      exact List.mem_append_right before List.mem_cons_self
    rcases List.mem_append.mp member with member | member
    · rcases kinds token member with equal | equal <;> simp [equal]
    · simp [List.mem_singleton.mp member]
  have earlier : ∀ token ∈ before, token ∈ inner := by
    rcases List.eq_append_cons_of_append (whole.symm.trans split) with
      ⟨_, begins, _⟩ | ⟨earlier, begins, ends⟩
    · intro token member
      rw [begins]
      exact List.mem_append_left _ member
    · cases earlier with
      | nil => simp [begins]
      | cons => simp at ends
  have braced : Token.Braced (opening :: before) := by
    have opened : Token.bracedAfter false opening = true := by simp [Token.bracedAfter, kind]
    rw [Token.Braced, List.foldl_cons, opened]
    apply Token.foldl_bracedAfter_true
    intro token member
    rcases kinds token (earlier token member) with equal | equal <;> simp [equal]
  exact ⟨fun literal => absurd literal notLiteral, fun _ outside => absurd braced outside,
    fun _ => notLiteral⟩

namespace Tokenizes

theorem content (tokenizes : alphabet.Tokenizes rest text tokens) :
    tokens.flatMap (·.content.toList) = text := by
  induction tokenizes with
  | nil => rfl
  | symbol _ _ induction => rw [List.flatMap_cons, induction]
  | operator _ _ _ _ induction =>
      rw [List.flatMap_cons, induction]
      simp
  | repetition _ spells _ induction =>
      have inside := spells.content
      rw [List.append_nil] at inside
      rw [List.cons_append, List.flatMap_cons, List.flatMap_append, induction, ← inside]
      simp

theorem explains (tokenizes : alphabet.Tokenizes rest text tokens)
    (split : tokens = before ++ token :: after) :
    alphabet.Explains before token
      ((token :: after).flatMap (·.content.toList) ++ rest) := by
  induction tokenizes generalizing before with
  | nil => simp at split
  | @symbol symbol text tokens longest tokenizes induction =>
      cases before with
      | nil =>
          cases split
          refine ⟨fun _ => ?_, fun other => absurd rfl other, fun braced => by cases braced⟩
          rwa [List.flatMap_cons, tokenizes.content]
      | cons head before =>
          rcases List.cons.inj split with ⟨rfl, later⟩
          exact (induction later).prepend [_] rfl
  | @operator c kind text tokens stuck operator single tokenizes induction =>
      have closed : Token.bracedAfter false ⟨kind, c.toString⟩ = false :=
        Token.bracedAfter_false single
      cases before with
      | nil =>
          cases split
          refine ⟨fun literal => ?_, fun _ _ => ?_, fun braced => by cases braced⟩
          · have equal : kind = .literal := literal
            exact absurd (equal ▸ operator) (Token.Kind.ofOperator?_ne_literal c)
          · rw [List.flatMap_cons, tokenizes.content]
            simpa using stuck
      | cons head before =>
          rcases List.cons.inj split with ⟨rfl, later⟩
          exact (induction later).prepend [_] closed
  | @repetition inside text bounds tokens stuck spells tokenizes induction =>
      -- The token is the brace, or it is one of its bounds, or it comes behind them.
      rcases List.eq_append_cons_of_append split with
        ⟨others, front, back⟩ | ⟨earlier, front, back⟩
      · cases before with
        | nil =>
            rcases List.cons.inj front with ⟨rfl, rfl⟩
            have content := (Tokenizes.repetition stuck spells tokenizes).content
            rw [split, List.nil_append] at content
            refine ⟨fun literal => (by cases literal), fun _ _ => ?_,
              fun braced => (by cases braced)⟩
            rwa [content]
        | cons head before =>
            rcases List.cons.inj front with ⟨rfl, within⟩
            exact explains_of_spells spells within rfl
      · rw [front]
        refine (induction back).prepend _ ?_
        rcases spells.exists_inner with ⟨inner, whole, _⟩
        have bounds_eq : bounds = inner ++ [⟨.closeBrace, "\x7d"⟩] := whole
        rw [bounds_eq, ← List.cons_append, List.foldl_append]
        rfl

end Tokenizes

end Alphabet

/-- Scanning loses nothing. A symbol is taken wherever one fits, and the longest that
does. So the other tokens stand where no symbol fits, apart from those between the braces
of a repetition, where there are no symbols whatever fits. -/
theorem longest_of_tokenize {alphabet : Alphabet} {text : String} {tokens : List Token}
    (read : alphabet.tokenize text = .ok tokens) :
    String.join (tokens.map (·.content)) = text ∧
      ∀ before token after rest, tokens = before ++ token :: after →
        text = String.join (before.map (·.content)) ++ rest →
          (token.kind = .literal → alphabet.Longest rest.toList token.content) ∧
          (token.kind ≠ .literal → ¬ Token.Braced before → alphabet.Stuck rest.toList) ∧
          (Token.Braced before → token.kind ≠ .literal) := by
  have tokenizes := Alphabet.tokenize_eq_ok_iff_tokenizes.mp read
  have content := tokenizes.content
  constructor
  · apply String.toList_inj.mp
    rw [String.toList_join, List.flatMap_map, content]
  · intro before token after rest split whole
    have explains := tokenizes.explains split
    rw [split, List.flatMap_append, whole, String.toList_append, String.toList_join,
      List.flatMap_map] at content
    rw [List.append_nil, List.append_cancel_left content] at explains
    exact ⟨explains.symbol, explains.other, explains.braced⟩

/-- The plus sign and a digit are symbols. The one shadows the operator, the other has no
part in the bounds. -/
theorem longest_of_tokenize_of_operator_symbols :
    let alphabet : Alphabet := .ofText "1 + ab"
    let before : List Token := [⟨.literal, "1"⟩, ⟨.literal, "+"⟩, ⟨.literal, "ab"⟩]
    let bounds : List Token := [⟨.count, "1"⟩, ⟨.closeBrace, "\x7d"⟩]
    alphabet.tokenize "1+ab\x7b1\x7d" = .ok (before ++ ⟨.openBrace, "\x7b"⟩ :: bounds) ∧
      alphabet.Longest "+ab\x7b1\x7d".toList "+" ∧
      alphabet.Stuck "\x7b1\x7d".toList ∧
      Token.Braced (before ++ [⟨.openBrace, "\x7b"⟩]) ∧ "1" ∈ alphabet := by
  intro alphabet before bounds
  have read : alphabet.tokenize "1+ab\x7b1\x7d" =
      .ok (before ++ ⟨.openBrace, "\x7b"⟩ :: bounds) :=
    Alphabet.tokenize_eq_ok_iff.mpr (by decide +kernel)
  rcases longest_of_tokenize read with ⟨_, places⟩
  have plus := places [⟨.literal, "1"⟩] ⟨.literal, "+"⟩ _ "+ab\x7b1\x7d" rfl (by decide)
  have brace := places before ⟨.openBrace, "\x7b"⟩ _ "\x7b1\x7d" rfl (by decide)
  exact ⟨read, plus.1 rfl, brace.2.1 (by decide) (by decide), by decide, by decide⟩

/-! ## Faults -/

/-- A text that is not scanned to its end is cut off where a fault is: what stands before
is scanned by itself, and no symbol fits there. The character there is no operator, or it
is a brace with no bounds after it, and then the fault is reported further on. -/
theorem fault_of_tokenize {alphabet : Alphabet} {text : String} {failure : Error}
    (failed : alphabet.tokenize text = .error failure) :
    ∃ position fault read c rest, failure = .lexical position fault ∧
      position ≤ text.length ∧ text.toList = read ++ c :: rest ∧
      (∃ tokens, alphabet.tokenize (String.ofList read) = .ok tokens) ∧
      alphabet.Stuck (c :: rest) ∧
      (position = read.length ∧ c ∉ Token.operators ∨
        read.length < position ∧ c = '{' ∧ ¬ ∃ reading, BoundsReading.Spells rest reading) := by
  rcases alphabet.tokenizes_scanFrom 0 text.toList with ⟨read, rest, split, tokenizes, stops⟩
  rw [Alphabet.tokenize_eq_error_iff.mp failed, Nat.zero_add] at stops
  have cut : alphabet.Tokenizes [] read (alphabet.scanFrom 0 text.toList).tokens :=
    Alphabet.Tokenizes.of_append tokenizes
  rw [← String.toList_ofList (l := read)] at cut
  have alone : ∃ tokens, alphabet.tokenize (String.ofList read) = .ok tokens :=
    ⟨_, Alphabet.tokenize_eq_ok_iff_tokenizes.mpr cut⟩
  have length := congrArg List.length split
  rw [String.length_toList, List.length_append] at length
  cases stops with
  | @foreign c rest stuck foreign =>
      exact ⟨_, _, read, c, rest, rfl, by omega, split, alone, stuck,
        .inl ⟨rfl, Token.not_mem_operators_of_ofOperator? foreign⟩⟩
  | @repetition rest failure stuck unbounded =>
      rcases BoundsReading.fault_of_ofText unbounded with ⟨place, fault, rfl, first, last⟩
      rw [List.length_cons] at length
      refine ⟨place, fault, read, '{', rest, rfl, by omega, split, alone, stuck,
        .inr ⟨by omega, rfl, ?_⟩⟩
      intro given
      rcases given with ⟨reading, spells⟩
      cases (BoundsReading.ofText_of_spells _ spells).symm.trans unbounded

/-- The lower bound has leading zeros, and the bounds are the wrong way round. -/
theorem fault_of_tokenize_of_reversed_bounds :
    let alphabet : Alphabet := .ofText "é"
    alphabet.tokenize "é\x7b0002,1\x7d" = .error (.lexical 7 (.reversedBounds 2 1)) ∧
      ∃ read c rest, "é\x7b0002,1\x7d".toList = read ++ c :: rest ∧
        (∃ tokens, alphabet.tokenize (String.ofList read) = .ok tokens) ∧
        alphabet.Stuck (c :: rest) ∧
        (7 = read.length ∧ c ∉ Token.operators ∨
          read.length < 7 ∧ c = '{' ∧ ¬ ∃ reading, BoundsReading.Spells rest reading) := by
  intro alphabet
  have failed : alphabet.tokenize "é\x7b0002,1\x7d" =
      .error (.lexical 7 (.reversedBounds 2 1)) :=
    Alphabet.tokenize_eq_error_iff.mpr (by decide +kernel)
  rcases fault_of_tokenize failed with
    ⟨position, fault, read, c, rest, same, _, split, alone, stuck, reason⟩
  cases same
  exact ⟨failed, read, c, rest, split, alone, stuck, reason⟩

end WordAutomata
