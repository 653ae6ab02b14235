import WordAutomata.Compile
import WordAutomata.Proofs.Dfa.Canonical
import WordAutomata.Proofs.Dfa.Subsets
import WordAutomata.Proofs.Regex.Literals
import WordAutomata.Proofs.Regex.Symbols

namespace WordAutomata

/-! What the automata that are compiled from the text of an expression answer, and
when two of them are the same. -/

namespace Dfa

/-! ## The automaton of an expression

The subset construction decides the language of the expression, so that equal languages
have one minimal automaton. -/

abbrev ofRegex (expression : Regex) : Dfa := .ofNfa (.ofRegex expression)

variable {expression : Regex} {word : List String}

theorem inRange_ofRegex (expression : Regex) : (ofRegex expression).InRange :=
  inRange_ofNfa (Nfa.inRange_ofRegex expression)

theorem alphabet_ofRegex (expression : Regex) :
    (ofRegex expression).alphabet = expression.symbols :=
  Regex.alphabet_ofRegex expression

theorem decides_ofRegex_iff :
    (ofRegex expression).decides (ofRegex expression).start word ↔
      word ∈ expression.language := by
  have inRange := Nfa.inRange_ofRegex expression
  by_cases allKnown : ∀ symbol ∈ word, symbol ∈ (Nfa.ofRegex expression).alphabet
  · rw [decides_ofNfa inRange allKnown, inRange.accepts_iff]
    exact Nfa.path_ofRegex_iff
  · constructor
    · intro accepted
      rcases decides_iff.mp accepted with ⟨_, leads, _⟩
      exact absurd (closed_ofNfa.forall_mem_alphabet leads) allKnown
    · intro member
      exact absurd (Nfa.path_ofRegex_iff.mpr member).forall_mem_alphabet allKnown

theorem decides_minimize_ofRegex_iff
    (allKnown : ∀ symbol ∈ word, symbol ∈ expression.symbols) :
    (ofRegex expression).minimize.decides (ofRegex expression).minimize.start word ↔
      word ∈ expression.language := by
  rw [← alphabet_ofRegex] at allKnown
  rw [(inRange_ofRegex expression).decides_minimize allKnown]
  exact decides_ofRegex_iff

theorem minimize_ofRegex_eq_iff {left right : Regex} :
    (ofRegex left).minimize = (ofRegex right).minimize ↔
      left.language = right.language := by
  constructor
  · intro same
    have symbols : left.symbols = right.symbols := by
      have alphabets := congrArg alphabet same
      rwa [alphabet_minimize, alphabet_minimize, alphabet_ofRegex,
        alphabet_ofRegex] at alphabets
    have transfer {first second : Regex}
        (same : (ofRegex first).minimize = (ofRegex second).minimize)
        (symbols : first.symbols = second.symbols) :
        ∀ word ∈ first.language, word ∈ second.language := by
      intro word member
      have allKnown : ∀ symbol ∈ word, symbol ∈ first.symbols :=
        fun symbol occurs => Regex.mem_symbols_iff.mpr ⟨word, member, occurs⟩
      have accepted := (decides_minimize_ofRegex_iff allKnown).mpr member
      rw [same] at accepted
      exact (decides_minimize_ofRegex_iff (symbols ▸ allKnown)).mp accepted
    apply Language.ext
    intro word
    exact ⟨transfer same symbols word, transfer same.symm symbols.symm word⟩
  · intro same
    have alphabets : (ofRegex left).alphabet = (ofRegex right).alphabet := by
      rw [alphabet_ofRegex, alphabet_ofRegex, Regex.symbols_eq_of_language_eq same]
    have answers : (ofRegex left).decides (ofRegex left).start =
        (ofRegex right).decides (ofRegex right).start := by
      funext word
      rw [Bool.eq_iff_iff, decides_ofRegex_iff, decides_ofRegex_iff, same]
    exact minimize_eq (inRange_ofRegex left) (inRange_ofRegex right) alphabets answers

/-! ### Both automata of an expression -/

variable {dfa : Dfa} {symbol : String}

inductive Compiled (expression : Regex) : Dfa → Prop
  | whole : Compiled expression (ofRegex expression)
  | minimal : Compiled expression (ofRegex expression).minimize

namespace Compiled

theorem inRange (compiled : Compiled expression dfa) : dfa.InRange := by
  cases compiled with
  | whole => exact inRange_ofRegex expression
  | minimal => exact inRange_minimize _

theorem closed (compiled : Compiled expression dfa) : dfa.Closed := by
  have closed : (ofRegex expression).Closed := closed_ofNfa
  cases compiled with
  | whole => exact @closed
  | minimal => exact @closed.minimize

theorem alphabet_eq (compiled : Compiled expression dfa) :
    dfa.alphabet = expression.symbols := by
  cases compiled with
  | whole => exact alphabet_ofRegex expression
  | minimal => rw [alphabet_minimize, alphabet_ofRegex]

theorem decides_of_mem (compiled : Compiled expression dfa) {word : List String}
    (member : word ∈ expression.language) : dfa.decides dfa.start word := by
  cases compiled with
  | whole => exact decides_ofRegex_iff.mpr member
  | minimal =>
      apply (decides_minimize_ofRegex_iff _).mpr member
      intro symbol occurs
      exact Regex.mem_symbols_iff.mpr ⟨word, member, occurs⟩

/-- Every symbol labels a transition, even after the useless states are gone, since it
occurs in a word that is accepted. -/
theorem mem_symbols_iff (compiled : Compiled expression dfa) :
    symbol ∈ expression.symbols ↔
      ∃ source target, dfa.next? source symbol = some target := by
  constructor
  · intro member
    rcases Regex.mem_symbols_iff.mp member with ⟨word, wordMember, occurs⟩
    rcases decides_iff.mp (compiled.decides_of_mem wordMember) with ⟨_, leads, _⟩
    exact exists_next?_of_follow? leads occurs
  · intro given
    rcases given with ⟨source, target, step⟩
    rw [← compiled.alphabet_eq]
    exact compiled.closed step

end Compiled

end Dfa

/-! ## Compilation -/

section

variable {alphabet : Alphabet} {text : String} {expression : Regex}

theorem compileNfa_of_ofText (read : Regex.ofText alphabet text = .ok expression) :
    compileNfa alphabet text = .ok (.ofRegex expression) := by
  rw [compileNfa, read]
  rfl

theorem compile_of_ofText (read : Regex.ofText alphabet text = .ok expression) :
    compile alphabet text = .ok (.ofRegex expression) := by
  rw [compile, compileNfa_of_ofText read]
  rfl

theorem compileMinimal_of_ofText (read : Regex.ofText alphabet text = .ok expression) :
    compileMinimal alphabet text = .ok (Dfa.ofRegex expression).minimize := by
  rw [compileMinimal, compile_of_ofText read]
  rfl

/-- Both compiled automata are over the symbols of the expression. They answer
the texts that fall into such symbols, the longest first, by the language of the
expression, and report all others. -/
theorem compile_spec (read : Regex.ofText alphabet text = .ok expression) :
    ∃ dfa minimal, compile alphabet text = .ok dfa ∧
      compileMinimal alphabet text = .ok minimal ∧
      dfa.alphabet = expression.symbols ∧ minimal.alphabet = expression.symbols ∧
      (∀ symbol ∈ expression.symbols,
        symbol ∈ alphabet.symbols ∧ symbol ≠ "" ∧ symbol ≠ epsilon) ∧
      ∀ input : String,
        (∃ pieces rest,
          Segmentation.Cuts expression.symbols.toList input.toList pieces rest) ∧
        ∀ pieces rest,
          Segmentation.Cuts expression.symbols.toList input.toList pieces rest →
          (rest ≠ [] → ∃ fault,
            dfa.runText input = .error (.usage fault) ∧
            minimal.runText input = .error (.usage fault)) ∧
          (rest = [] → ∃ answer : Bool,
            dfa.runText input = .ok answer ∧ minimal.runText input = .ok answer ∧
            (answer = true ↔ pieces ∈ expression.language)) := by
  have dfaAlphabet := Dfa.alphabet_ofRegex expression
  have minimalAlphabet : (Dfa.ofRegex expression).minimize.alphabet =
      expression.symbols := by
    rw [Dfa.alphabet_minimize, dfaAlphabet]
  refine ⟨_, _, compile_of_ofText read, compileMinimal_of_ofText read, dfaAlphabet,
    minimalAlphabet, ?symbols, ?answers⟩
  case symbols =>
    intro symbol member
    have known := Alphabet.mem_symbols_of_ofText read member
    rcases Alphabet.mem_symbols.mp known with ⟨inside, different⟩
    refine ⟨known, ?_, different⟩
    intro equal
    subst equal
    exact alphabet.empty_not_mem inside
  case answers =>
    intro input
    refine ⟨⟨_, _, Segmentation.cuts_cut _ _⟩, fun pieces rest cuts => ?_⟩
    have dfaAnswer := Dfa.runText_of_cuts (dfaAlphabet ▸ cuts)
    have minimalAnswer := Dfa.runText_of_cuts (minimalAlphabet ▸ cuts)
    constructor
    · intro stuck
      rw [if_neg stuck] at dfaAnswer minimalAnswer
      exact ⟨_, dfaAnswer, minimalAnswer⟩
    · intro done
      rw [if_pos done] at dfaAnswer minimalAnswer
      have allKnown : ∀ piece ∈ pieces, piece ∈ (Dfa.ofRegex expression).alphabet := by
        rw [dfaAlphabet]
        exact cuts.forall_mem
      rw [(Dfa.inRange_ofRegex expression).decides_minimize allKnown] at minimalAnswer
      exact ⟨_, dfaAnswer, minimalAnswer, Dfa.decides_ofRegex_iff⟩

/-- One symbol begins with the other one, and the longer one is taken. -/
theorem compile_spec_of_overlapping_symbols :
    Regex.ofText (.ofText "A, AB") "AB+A" = .ok (.or (.literal "AB") (.literal "A")) ∧
      ∃ dfa minimal, compile (.ofText "A, AB") "AB+A" = .ok dfa ∧
        compileMinimal (.ofText "A, AB") "AB+A" = .ok minimal ∧
        dfa.runText "AB" = .ok true ∧ minimal.runText "AB" = .ok true ∧
        ∃ fault, dfa.runText "ABx" = .error (.usage fault) ∧
          minimal.runText "ABx" = .error (.usage fault) := by
  have read : Regex.ofText (.ofText "A, AB") "AB+A" =
      .ok (.or (.literal "AB") (.literal "A")) := by decide +kernel
  rcases compile_spec read with ⟨dfa, minimal, compiled, minimized, _, _, _, answers⟩
  have whole : Segmentation.Cuts
      (Regex.or (.literal "AB") (.literal "A")).symbols.toList
      "AB".toList ["AB"] [] := Segmentation.cuts_iff.mpr (by decide +kernel)
  have stuck : Segmentation.Cuts
      (Regex.or (.literal "AB") (.literal "A")).symbols.toList
      "ABx".toList ["AB"] ['x'] := Segmentation.cuts_iff.mpr (by decide +kernel)
  rcases ((answers "AB").2 _ _ whole).2 rfl with
    ⟨answer, dfaAnswer, minimalAnswer, correct⟩
  have accepted : answer = true := correct.mpr (.inl rfl)
  rw [accepted] at dfaAnswer minimalAnswer
  exact ⟨read, dfa, minimal, compiled, minimized, dfaAnswer, minimalAnswer,
    ((answers "ABx").2 _ _ stuck).1 (by decide)⟩

/-- Whatever the alphabets are, two expressions compile to the same minimal
automaton if and only if they stand for the same words. -/
theorem compileMinimal_eq_iff {otherAlphabet : Alphabet} {otherText : String}
    {otherExpression : Regex} (read : Regex.ofText alphabet text = .ok expression)
    (otherRead : Regex.ofText otherAlphabet otherText = .ok otherExpression) :
    ∃ minimal otherMinimal, compileMinimal alphabet text = .ok minimal ∧
      compileMinimal otherAlphabet otherText = .ok otherMinimal ∧
      (minimal = otherMinimal ↔ expression.language = otherExpression.language) :=
  ⟨_, _, compileMinimal_of_ofText read, compileMinimal_of_ofText otherRead,
    Dfa.minimize_ofRegex_eq_iff⟩

/-- Two ways to ask for at least one symbol, over different alphabets. -/
theorem compileMinimal_eq_iff_of_positive_repetition :
    Regex.ofText (.ofText "a, b") "a\x7b1,\x7d" = .ok (.atLeast (.literal "a") 1) ∧
      Regex.ofText (.ofText "a") "aa*" =
        .ok (.seq (.literal "a") (.star (.literal "a"))) ∧
      ∃ minimal otherMinimal,
        compileMinimal (.ofText "a, b") "a\x7b1,\x7d" = .ok minimal ∧
        compileMinimal (.ofText "a") "aa*" = .ok otherMinimal ∧
        (minimal = otherMinimal ↔ (Regex.atLeast (.literal "a") 1).language =
          (Regex.seq (.literal "a") (.star (.literal "a"))).language) := by
  have read : Regex.ofText (.ofText "a, b") "a\x7b1,\x7d" =
      .ok (.atLeast (.literal "a") 1) := by
    decide +kernel
  have otherRead : Regex.ofText (.ofText "a") "aa*" =
      .ok (.seq (.literal "a") (.star (.literal "a"))) := by decide +kernel
  exact ⟨read, otherRead, compileMinimal_eq_iff read otherRead⟩

end

end WordAutomata
