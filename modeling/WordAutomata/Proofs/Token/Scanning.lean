import WordAutomata.Proofs.Segmentation
import WordAutomata.Proofs.Token.Bounds

namespace WordAutomata

/-! Scanning, as a relation that says nothing about how tokens are looked for. The tokens
of a text make it up again. A symbol is taken wherever one fits, and it is the longest
that does, but none is ever taken between the braces of a repetition. -/

theorem List.eq_append_cons_of_append {α : Type} {front back before after : List α}
    {value : α} (split : front ++ back = before ++ value :: after) :
    (∃ inside, front = before ++ value :: inside ∧ after = inside ++ back) ∨
      ∃ earlier, before = front ++ earlier ∧ back = earlier ++ value :: after := by
  rcases List.append_eq_append_iff.mp split with
    ⟨earlier, begins, ends⟩ | ⟨inside, begins, ends⟩
  · exact .inr ⟨earlier, begins, ends⟩
  · cases inside with
    | nil => exact .inr ⟨[], by simpa using begins.symm, ends.symm⟩
    | cons first inside =>
        rcases List.cons.inj ends with ⟨rfl, afterEnds⟩
        exact .inl ⟨inside, begins, afterEnds⟩

namespace Token

def operators : List Char := ['+', '*', '(', ')', '{', '}', ',']

theorem mem_operators_of_ofOperator? {c : Char} {kind : Kind}
    (operator : Kind.ofOperator? c = some kind) : c ∈ operators := by
  rw [Kind.ofOperator?.eq_def] at operator
  split at operator
  case h_8 => cases operator
  all_goals decide

theorem not_mem_operators_of_ofOperator? {c : Char} (none : Kind.ofOperator? c = none) :
    c ∉ operators := by
  intro member
  simp only [operators, List.mem_cons, List.not_mem_nil, or_false] at member
  rcases member with rfl | rfl | rfl | rfl | rfl | rfl | rfl <;> cases none

theorem Kind.ofOperator?_ne_literal (c : Char) : ofOperator? c ≠ some literal := by
  rw [ofOperator?.eq_def]
  split <;> simp

theorem Kind.ofOperator?_ne_count (c : Char) : ofOperator? c ≠ some count := by
  rw [ofOperator?.eq_def]
  split <;> simp

end Token

namespace Alphabet

/-! ## Steps of the scanner

Where a symbol fits, the longest one is the next token. Where none does, an operator is a
token by itself, and an opening brace is one together with its bounds. -/

def Stuck (alphabet : Alphabet) (text : List Char) : Prop :=
  ∀ symbol ∈ alphabet, ¬ symbol.toList <+: text

structure Longest (alphabet : Alphabet) (text : List Char) (symbol : String) : Prop where
  mem : symbol ∈ alphabet
  starts : symbol.toList <+: text
  longest : ∀ other ∈ alphabet, other.toList <+: text → other.length ≤ symbol.length

variable {alphabet : Alphabet} {text more rest : List Char} {symbol : String} {c : Char}
  {tokens others : List Token}

theorem longest?_eq_none_iff : alphabet.longest? text = none ↔ alphabet.Stuck text := by
  rw [longest?, Segmentation.longest?_eq_none_iff]
  constructor
  · intro none symbol member
    exact none symbol member fun equal => alphabet.empty_not_mem (equal ▸ member)
  · exact fun stuck symbol member _ => stuck symbol member

theorem longest?_eq_some_iff :
    alphabet.longest? text = some symbol ↔ alphabet.Longest text symbol := by
  constructor
  · intro found
    rcases Segmentation.of_longest?_eq_some found with ⟨member, _, starts, longest⟩
    exact ⟨member, starts, longest⟩
  · intro found
    rcases found with ⟨member, ⟨later, rfl⟩, longest⟩
    have nonempty : symbol ≠ "" := fun equal => alphabet.empty_not_mem (equal ▸ member)
    exact Segmentation.longest?_eq_some member nonempty longest

theorem Stuck.of_append (stuck : alphabet.Stuck (text ++ more)) : alphabet.Stuck text :=
  fun symbol member starts => stuck symbol member (starts.trans (List.prefix_append ..))

theorem Longest.of_append (longest : alphabet.Longest (text ++ more) symbol)
    (starts : symbol.toList <+: text) : alphabet.Longest text symbol where
  mem := longest.mem
  starts := starts
  longest := fun other member otherStarts =>
    longest.longest other member (otherStarts.trans (List.prefix_append ..))

theorem scanFrom_of_longest? (position : Nat)
    (found : alphabet.longest? text = some symbol) :
    alphabet.scanFrom position text =
      (alphabet.scanFrom (position + symbol.length) (text.drop symbol.length)).after
        [⟨.literal, symbol⟩] := by
  cases text with
  | nil =>
      have shorter := Segmentation.length_drop_lt found
      rw [List.drop_nil] at shorter
      exact absurd shorter (Nat.lt_irrefl _)
  | cons c rest =>
      rw [scanFrom]
      split
      · rename_i other otherFound
        cases otherFound.symm.trans found
        rfl
      · rename_i stuck
        cases stuck.symm.trans found

theorem scanFrom_operator (position : Nat) {kind : Token.Kind}
    (stuck : alphabet.longest? (c :: rest) = none)
    (operator : Token.Kind.ofOperator? c = some kind) (single : kind ≠ .openBrace) :
    alphabet.scanFrom position (c :: rest) =
      (alphabet.scanFrom (position + 1) rest).after [⟨kind, c.toString⟩] := by
  rw [scanFrom]
  split
  · rename_i found
    cases found.symm.trans stuck
  · split
    · rename_i none
      cases none.symm.trans operator
    · rename_i brace
      cases brace.symm.trans operator
      exact absurd rfl single
    · rename_i other found
      cases found.symm.trans operator
      rfl

theorem scanFrom_openBrace (position : Nat) {reading : BoundsReading}
    (stuck : alphabet.longest? ('{' :: text) = none)
    (read : BoundsReading.ofText (position + 1) text = .ok reading) :
    alphabet.scanFrom position ('{' :: text) =
      (alphabet.scanFrom (position + 1 + (text.length - reading.rest.length))
        reading.rest).after (⟨.openBrace, "\x7b"⟩ :: reading.tokens) := by
  rw [scanFrom]
  split
  · rename_i found
    cases found.symm.trans stuck
  · simp only [Token.Kind.ofOperator?]
    split
    · rename_i failed
      cases failed.symm.trans read
    · rename_i other otherRead
      cases otherRead.symm.trans read
      rfl

theorem tokenize_eq_ok_iff {text : String} {tokens : List Token} :
    alphabet.tokenize text = .ok tokens ↔
      alphabet.scanFrom 0 text.toList = ⟨tokens, none⟩ := by
  rw [tokenize, scan]
  generalize alphabet.scanFrom 0 text.toList = scanned
  rcases scanned with ⟨others, failure⟩
  cases failure with
  | none => simp
  | some failure => simp

theorem tokenize_eq_error_iff {text : String} {failure : Error} :
    alphabet.tokenize text = .error failure ↔
      (alphabet.scanFrom 0 text.toList).failure? = some failure := by
  rw [tokenize, scan]
  generalize alphabet.scanFrom 0 text.toList = scanned
  rcases scanned with ⟨others, reported⟩
  cases reported with
  | none => simp
  | some other => simp

/-! ## Parts of a text -/

/-- Whether some characters are scanned as the given tokens where the rest of the
text comes after them. -/
def Scans (alphabet : Alphabet) (text rest : List Char) (tokens : List Token) : Prop :=
  ∀ position, alphabet.scanFrom position (text ++ rest) =
    (alphabet.scanFrom (position + text.length) rest).after tokens

theorem Scans.append (first : alphabet.Scans text (more ++ rest) tokens)
    (second : alphabet.Scans more rest others) :
    alphabet.Scans (text ++ more) rest (tokens ++ others) := by
  intro position
  rw [List.append_assoc, first, second, List.length_append, Nat.add_assoc, Scan.after,
    Scan.after, Scan.after, List.append_assoc]

theorem scans_symbol (longest : alphabet.Longest (symbol.toList ++ rest) symbol) :
    alphabet.Scans symbol.toList rest [⟨.literal, symbol⟩] := by
  intro position
  have dropped : (symbol.toList ++ rest).drop symbol.length = rest := by
    rw [← String.length_toList, List.drop_left]
  rw [scanFrom_of_longest? position (longest?_eq_some_iff.mpr longest), dropped,
    String.length_toList]

theorem scans_operator {kind : Token.Kind} (stuck : alphabet.Stuck (c :: rest))
    (operator : Token.Kind.ofOperator? c = some kind) (single : kind ≠ .openBrace) :
    alphabet.Scans [c] rest [⟨kind, c.toString⟩] :=
  fun position => scanFrom_operator position (longest?_eq_none_iff.mpr stuck) operator single

theorem scans_braces {bounds : List Token} (stuck : alphabet.Stuck ('{' :: (text ++ rest)))
    (spells : BoundsReading.Spells text ⟨bounds, []⟩) :
    alphabet.Scans ('{' :: text) rest (⟨.openBrace, "\x7b"⟩ :: bounds) := by
  intro position
  have read := BoundsReading.ofText_of_spells (position + 1) (spells.append rest)
  rw [List.cons_append,
    scanFrom_openBrace position (longest?_eq_none_iff.mpr stuck) read,
    List.length_append, Nat.add_sub_cancel, List.length_cons, Nat.add_assoc,
    Nat.add_comm 1]

theorem tokenize_of_scans {expression : String}
    (scans : alphabet.Scans expression.toList [] tokens) :
    alphabet.tokenize expression = .ok tokens := by
  rw [tokenize_eq_ok_iff, ← List.append_nil expression.toList, scans 0, scanFrom,
    Scan.after, List.append_nil]

/-! ## Scanned texts -/

/-- Whether some characters fall into the given tokens where the rest of the text comes
after them. Where no symbol fits stands an operator, and an opening brace has its bounds
after it. -/
inductive Tokenizes (alphabet : Alphabet) (rest : List Char) :
    List Char → List Token → Prop
  | nil : Tokenizes alphabet rest [] []
  | symbol {symbol : String} {text : List Char} {tokens : List Token} :
      alphabet.Longest (symbol.toList ++ text ++ rest) symbol →
      Tokenizes alphabet rest text tokens →
      Tokenizes alphabet rest (symbol.toList ++ text) (⟨.literal, symbol⟩ :: tokens)
  | operator {c : Char} {kind : Token.Kind} {text : List Char} {tokens : List Token} :
      alphabet.Stuck (c :: text ++ rest) → Token.Kind.ofOperator? c = some kind →
      kind ≠ .openBrace → Tokenizes alphabet rest text tokens →
      Tokenizes alphabet rest (c :: text) (⟨kind, c.toString⟩ :: tokens)
  | repetition {inside text : List Char} {bounds tokens : List Token} :
      alphabet.Stuck ('{' :: (inside ++ text) ++ rest) →
      BoundsReading.Spells inside ⟨bounds, []⟩ → Tokenizes alphabet rest text tokens →
      Tokenizes alphabet rest ('{' :: (inside ++ text))
        (⟨.openBrace, "\x7b"⟩ :: bounds ++ tokens)

inductive Stops (alphabet : Alphabet) (position : Nat) : List Char → Option Error → Prop
  | finished : Stops alphabet position [] none
  | foreign {c : Char} {rest : List Char} :
      alphabet.Stuck (c :: rest) → Token.Kind.ofOperator? c = none →
      Stops alphabet position (c :: rest) (some (.lexical position (.foreignCharacter c)))
  | repetition {rest : List Char} {failure : Error} :
      alphabet.Stuck ('{' :: rest) →
      BoundsReading.ofText (position + 1) rest = .error failure →
      Stops alphabet position ('{' :: rest) (some failure)

theorem eq_openBrace_of_ofOperator? (operator : Token.Kind.ofOperator? c = some .openBrace) :
    c = '{' := by
  rw [Token.Kind.ofOperator?.eq_def] at operator
  split at operator <;> cases operator
  rfl

/-- Scanning takes in as much as falls into tokens. -/
theorem tokenizes_scanFrom (alphabet : Alphabet) (position : Nat) (text : List Char) :
    ∃ read rest, text = read ++ rest ∧
      alphabet.Tokenizes rest read (alphabet.scanFrom position text).tokens ∧
      alphabet.Stops (position + read.length) rest
        (alphabet.scanFrom position text).failure? := by
  fun_induction scanFrom alphabet position text with
  | case1 position => exact ⟨[], [], rfl, .nil, .finished⟩
  -- A symbol fits.
  | case2 position c rest symbol found induction =>
      have longest := longest?_eq_some_iff.mp found
      rcases longest.starts with ⟨later, split⟩
      have dropped : (c :: rest).drop symbol.length = later := by
        rw [← split, ← String.length_toList, List.drop_left]
      rw [dropped] at induction ⊢
      rcases induction with ⟨read, last, rfl, tokenizes, stops⟩
      rw [← split, ← List.append_assoc] at longest
      refine ⟨symbol.toList ++ read, last, ?_, .symbol longest tokenizes, ?_⟩
      · rw [← split, List.append_assoc]
      · rwa [List.length_append, String.length_toList, ← Nat.add_assoc]
  -- Nothing fits.
  | case3 position c rest stuck foreign =>
      exact ⟨[], _, rfl, .nil, .foreign (longest?_eq_none_iff.mp stuck) foreign⟩
  -- There is a brace, without bounds and then with them.
  | case4 position c rest stuck operator failure failed =>
      cases eq_openBrace_of_ofOperator? operator
      exact ⟨[], _, rfl, .nil, .repetition (longest?_eq_none_iff.mp stuck) failed⟩
  | case5 position c rest stuck operator bounds read consumed induction =>
      cases eq_openBrace_of_ofOperator? operator
      have stuck := longest?_eq_none_iff.mp stuck
      rcases (BoundsReading.spells_of_ofText read).exists_inside with ⟨inside, split, spells⟩
      rcases induction with ⟨later, last, further, tokenizes, stops⟩
      have whole : rest = inside ++ later ++ last := by
        rw [split, further, List.append_assoc]
      have place : position + ('{' :: (inside ++ later)).length =
          position + 1 + consumed + later.length := by
        simp only [consumed, split, List.length_cons, List.length_append]
        omega
      rw [whole] at stuck
      refine ⟨'{' :: (inside ++ later), last, ?_, .repetition stuck spells tokenizes, ?_⟩
      · rw [whole, List.cons_append]
      · rw [place]
        exact stops
  -- There is another operator.
  | case6 position c rest stuck kind single operator induction =>
      rcases induction with ⟨read, last, rfl, tokenizes, stops⟩
      refine ⟨c :: read, last, rfl,
        .operator (longest?_eq_none_iff.mp stuck) operator single tokenizes, ?_⟩
      rwa [List.length_cons, Nat.add_comm _ 1, ← Nat.add_assoc]

namespace Tokenizes

/-- Whatever stands before them, such characters are scanned as their tokens. -/
theorem scans (tokenizes : alphabet.Tokenizes rest text tokens) :
    alphabet.Scans text rest tokens := by
  induction tokenizes with
  | nil => exact fun _ => rfl
  | symbol longest _ induction =>
      rw [List.append_assoc] at longest
      exact (scans_symbol longest).append induction
  | operator stuck operator single _ induction =>
      exact (scans_operator stuck operator single).append induction
  | repetition stuck spells _ induction =>
      rw [List.cons_append, List.append_assoc] at stuck
      exact (scans_braces stuck spells).append induction

theorem of_append (tokenizes : alphabet.Tokenizes (rest ++ more) text tokens) :
    alphabet.Tokenizes rest text tokens := by
  induction tokenizes with
  | nil => exact .nil
  | symbol longest _ induction =>
      rw [← List.append_assoc] at longest
      refine .symbol (longest.of_append ?_) induction
      rw [List.append_assoc]
      exact List.prefix_append ..
  | operator stuck operator single _ induction =>
      rw [← List.append_assoc] at stuck
      exact .operator stuck.of_append operator single induction
  | repetition stuck spells _ induction =>
      rw [← List.append_assoc] at stuck
      exact .repetition stuck.of_append spells induction

end Tokenizes

theorem tokenize_eq_ok_iff_tokenizes {text : String} :
    alphabet.tokenize text = .ok tokens ↔ alphabet.Tokenizes [] text.toList tokens := by
  constructor
  · intro read
    rcases alphabet.tokenizes_scanFrom 0 text.toList with
      ⟨characters, rest, split, tokenizes, stops⟩
    rw [tokenize_eq_ok_iff.mp read] at tokenizes stops
    cases stops
    rwa [split, List.append_nil]
  · exact fun tokenizes => tokenize_of_scans tokenizes.scans

end Alphabet

end WordAutomata
