import WordAutomata.Proofs.Compile
import WordAutomata.Proofs.Dfa.Answers
import WordAutomata.Proofs.Regex.Grammar
import WordAutomata.Proofs.Segmentation

namespace WordAutomata

/-! Texts that are scanned as symbols only. The tokens of such a text are the pieces
into which it is cut, over the whole alphabet and over any part of it that holds them.
As an expression it stands for the one word of its symbols, so that its automata accept
the text itself and nothing else. -/

open Grammar

/-! ## Scanning and cutting -/

namespace Segmentation

theorem cut_nil (symbols : List String) : cut symbols [] = ⟨[], []⟩ := by
  apply cut_of_longest?_eq_none
  refine longest?_eq_none_iff.mpr fun symbol _ nonempty starts => nonempty ?_
  exact String.toList_inj.mp (List.prefix_nil.mp starts)

theorem eq_of_cut_eq {symbols pieces : List String} {left right : String}
    (leftCut : cut symbols left.toList = ⟨pieces, []⟩)
    (rightCut : cut symbols right.toList = ⟨pieces, []⟩) : left = right := by
  have leftWhole := pieces_append_rest_cut symbols left.toList
  have rightWhole := pieces_append_rest_cut symbols right.toList
  rw [leftCut] at leftWhole
  rw [rightCut] at rightWhole
  exact String.toList_inj.mp (leftWhole.symm.trans rightWhole)

end Segmentation

namespace Alphabet

variable {alphabet : Alphabet} {text : String} {tokens : List Token}

/-- What is scanned as symbols only is cut into these symbols. -/
theorem cut_of_scanFrom (position : Nat) (text : List Char)
    (finished : (alphabet.scanFrom position text).failure? = none)
    (literals : ∀ token ∈ (alphabet.scanFrom position text).tokens,
      token.kind = .literal) :
    Segmentation.cut alphabet.members.toList text =
      ⟨(alphabet.scanFrom position text).tokens.map (·.content), []⟩ := by
  fun_induction scanFrom alphabet position text with
  | case1 => exact Segmentation.cut_nil _
  | case2 position c rest symbol found induction =>
      rw [Segmentation.cut_of_longest?_eq_some found,
        induction finished fun token member =>
          literals token (List.mem_cons_of_mem _ member)]
      rfl
  | case3 => cases finished
  | case4 => cases finished
  | case5 => cases literals _ List.mem_cons_self
  | case6 position c rest stuck kind _ operator induction =>
      have kind_eq : kind = .literal := literals _ List.mem_cons_self
      exact absurd (kind_eq ▸ operator) (Token.Kind.ofOperator?_ne_literal c)

theorem cuts_of_tokenize (read : alphabet.tokenize text = .ok tokens)
    (literals : ∀ token ∈ tokens, token.kind = .literal) :
    Segmentation.Cuts alphabet.members.toList text.toList (tokens.map (·.content)) [] := by
  have cut := alphabet.cut_of_scanFrom 0 text.toList
  rw [tokenize_eq_ok_iff.mp read] at cut
  exact Segmentation.cuts_iff.mpr (cut rfl literals)

end Alphabet

theorem Dfa.cut_of_tokenize {alphabet : Alphabet} {text : String} {tokens : List Token}
    {dfa : Dfa} (read : alphabet.tokenize text = .ok tokens)
    (literals : ∀ token ∈ tokens, token.kind = .literal)
    (subset : ∀ symbol ∈ dfa.alphabet, symbol ∈ alphabet.symbols)
    (known : ∀ token ∈ tokens, token.content ∈ dfa.alphabet) :
    Segmentation.cut dfa.alphabet.toList text.toList = ⟨tokens.map (·.content), []⟩ := by
  apply Segmentation.cuts_iff.mp
  apply (alphabet.cuts_of_tokenize read literals).restrict
  · exact fun symbol member => (Alphabet.mem_symbols.mp (subset symbol member)).1
  · exact List.forall_mem_map.mpr known

/-! ## One word

Symbols one after the other make up an expression for one word, and the automaton of such
an expression accepts the texts that are cut into that word. -/

namespace Regex

def followedBy (tree : Regex) (symbols : List String) : Regex :=
  symbols.foldl (fun tree symbol => .seq tree (.literal symbol)) tree

example : (literal "a").followedBy ["b", "c"] =
    .seq (.seq (.literal "a") (.literal "b")) (.literal "c") := rfl

variable {tree : Regex} {symbols word : List String} {tokens more : List Token}

theorem derives_followedBy (derives : Derives .alternative tokens tree)
    (literals : ∀ token ∈ more, token.kind = .literal) :
    Derives .alternative (tokens ++ more) (tree.followedBy (more.map (·.content))) := by
  induction more generalizing tokens tree with
  | nil => rwa [List.append_nil]
  | cons token more induction =>
      rcases List.forall_mem_cons.mp literals with ⟨literal, moreLiterals⟩
      have extended : Derives .alternative (tokens ++ [token])
          (.seq tree (.literal token.content)) :=
        .append derives (.unstarred (.unrepeated (.symbol literal)))
      have derived := induction extended moreLiterals
      rwa [List.append_assoc] at derived

theorem language_literal_of_ne {symbol : String} (different : symbol ≠ epsilon) :
    (literal symbol).language = {[symbol]} := by
  rw [language, if_neg different]

theorem language_followedBy (single : tree.language = {word})
    (different : ∀ symbol ∈ symbols, symbol ≠ epsilon) :
    (tree.followedBy symbols).language = {word ++ symbols} := by
  induction symbols generalizing tree word with
  | nil => rw [followedBy, List.foldl_nil, single, List.append_nil]
  | cons symbol symbols induction =>
      rcases List.forall_mem_cons.mp different with ⟨first, others⟩
      have extended : (seq tree (literal symbol)).language = {word ++ [symbol]} := by
        rw [language, single, language_literal_of_ne first]
        exact Set.image2_singleton
      have whole := induction extended others
      rwa [List.append_assoc] at whole

theorem ofTokens_literals {first : Token} (literals : ∀ token ∈ first :: more,
    token.kind = .literal) :
    ofTokens (first :: more) =
      .ok ((literal first.content).followedBy (more.map (·.content))) := by
  rcases List.forall_mem_cons.mp literals with ⟨firstLiteral, moreLiterals⟩
  have start : Derives .alternative [first] (literal first.content) :=
    .single (.unstarred (.unrepeated (.symbol firstLiteral)))
  exact ofTokens_of_derives (.last (derives_followedBy start moreLiterals))

end Regex

theorem Dfa.runText_ofRegex_eq_ok_true_iff {expression : Regex} {word : List String}
    (single : expression.language = {word}) {input : String} :
    (ofRegex expression).runText input = .ok true ↔
      Segmentation.cut (ofRegex expression).alphabet.toList input.toList = ⟨word, []⟩ := by
  have cuts := Segmentation.cuts_cut (ofRegex expression).alphabet.toList input.toList
  generalize
    Segmentation.cut (ofRegex expression).alphabet.toList input.toList = cut at cuts
  rcases cut with ⟨pieces, rest⟩
  rw [runText_of_cuts cuts, Segmentation.mk.injEq]
  have decided : (ofRegex expression).decides (ofRegex expression).start pieces = true ↔
      pieces = word := by
    rw [decides_ofRegex_iff, single]
    exact Set.mem_singleton_iff
  split
  case isTrue ended => rw [Except.ok.injEq, decided, and_iff_left ended]
  case isFalse stuck => simp [stuck]

/-! ## Texts as expressions -/

theorem Dfa.runText_ofRegex_eq_ok_true_iff_eq {alphabet : Alphabet} {text : String}
    {tokens : List Token} {expression : Regex}
    (read : alphabet.tokenize text = .ok tokens)
    (literals : ∀ token ∈ tokens, token.kind = .literal)
    (parsed : Regex.ofText alphabet text = .ok expression)
    (single : expression.language = {tokens.map (·.content)}) {input : String} :
    (ofRegex expression).runText input = .ok true ↔ input = text := by
  have cut : Segmentation.cut (ofRegex expression).alphabet.toList text.toList =
      ⟨tokens.map (·.content), []⟩ := by
    apply cut_of_tokenize read literals
    · intro symbol member
      rw [alphabet_ofRegex] at member
      exact Alphabet.mem_symbols_of_ofText parsed member
    · intro token member
      rw [alphabet_ofRegex, Regex.mem_symbols_iff, single]
      exact ⟨_, rfl, List.mem_map_of_mem member⟩
  rw [runText_ofRegex_eq_ok_true_iff single]
  constructor
  · exact fun inputCut => Segmentation.eq_of_cut_eq inputCut cut
  · intro equal
    rw [equal]
    exact cut

/-- A text that is scanned as symbols only is cut into the same symbols by every
automaton that knows them and is over symbols of the alphabet. Where the text is not
empty and the reserved symbol does not occur in it, the automata that it compiles to
accept it and no other text. -/
theorem split_of_tokenize {alphabet : Alphabet} {text : String} {tokens : List Token}
    (read : alphabet.tokenize text = .ok tokens)
    (literals : ∀ token ∈ tokens, token.kind = .literal) :
    (∀ dfa : Dfa, (∀ symbol ∈ dfa.alphabet, symbol ∈ alphabet.symbols) →
      (∀ token ∈ tokens, token.content ∈ dfa.alphabet) →
        dfa.split text = .ok (tokens.map (·.content))) ∧
    (text ≠ "" → (∀ token ∈ tokens, token.content ≠ epsilon) →
      ∃ dfa minimal, compile alphabet text = .ok dfa ∧
        compileMinimal alphabet text = .ok minimal ∧
        ∀ input : String, (dfa.runText input = .ok true ↔ input = text) ∧
          (minimal.runText input = .ok true ↔ input = text)) := by
  constructor
  · intro dfa subset known
    simp only [Dfa.split, Dfa.cut_of_tokenize read literals subset known, if_true]
  · intro nonempty different
    cases tokens with
    | nil =>
        have cut := Segmentation.cuts_iff.mp (alphabet.cuts_of_tokenize read literals)
        have whole :=
          Segmentation.pieces_append_rest_cut alphabet.members.toList text.toList
        rw [cut] at whole
        exact absurd (String.toList_inj.mp whole.symm) nonempty
    | cons first more =>
        have parsed : Regex.ofText alphabet text =
            .ok ((Regex.literal first.content).followedBy (more.map (·.content))) := by
          rw [Regex.ofText, read]
          exact Regex.ofTokens_literals literals
        rcases List.forall_mem_cons.mp different with ⟨firstDifferent, moreDifferent⟩
        have single := Regex.language_followedBy
          (Regex.language_literal_of_ne firstDifferent)
          (List.forall_mem_map.mpr moreDifferent)
        refine ⟨_, _, compile_of_ofText parsed, compileMinimal_of_ofText parsed,
          fun input => ?_⟩
        rw [(Dfa.inRange_ofRegex _).runText_minimize, and_self]
        exact Dfa.runText_ofRegex_eq_ok_true_iff_eq read literals parsed single

/-- All symbols are taken from the left. An automaton over two of the three splits the
text where the scanner does, though the third symbol would fit as well. -/
theorem split_of_tokenize_of_overlapping_symbols :
    let alphabet : Alphabet := .ofText "A, AB, B"
    let tokens : List Token := [⟨.literal, "AB"⟩, ⟨.literal, "A"⟩]
    let dfa : Dfa := .ofRegex (.or (.literal "A") (.literal "AB"))
    alphabet.tokenize "ABA" = .ok tokens ∧ dfa.split "ABA" = .ok ["AB", "A"] ∧
      ∃ whole minimal, compile alphabet "ABA" = .ok whole ∧
        compileMinimal alphabet "ABA" = .ok minimal ∧
        whole.runText "ABA" = .ok true ∧ minimal.runText "ABA" = .ok true ∧
        whole.runText "AAB" ≠ .ok true ∧ minimal.runText "AAB" ≠ .ok true := by
  intro alphabet tokens dfa
  have read : alphabet.tokenize "ABA" = .ok tokens := by decide +kernel
  rcases split_of_tokenize read (by decide) with ⟨splits, compiles⟩
  rcases compiles (by decide) (by decide) with
    ⟨whole, minimal, compiled, minimized, accepts⟩
  have split : dfa.split "ABA" = .ok ["AB", "A"] :=
    splits dfa (by decide +kernel) (by decide +kernel)
  have different : "AAB" ≠ "ABA" := by decide
  exact ⟨read, split, whole, minimal, compiled, minimized, (accepts "ABA").1.mpr rfl,
    (accepts "ABA").2.mpr rfl, mt (accepts "AAB").1.mp different,
    mt (accepts "AAB").2.mp different⟩

end WordAutomata
