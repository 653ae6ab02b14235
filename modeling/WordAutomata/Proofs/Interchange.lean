import WordAutomata.Proofs.Compile
import WordAutomata.Proofs.Dfa.Reloading
import WordAutomata.Proofs.Nfa.Document
import WordAutomata.Regex.Render

namespace WordAutomata

/-! Compiled automata as they are exchanged. -/

namespace Dfa

/-! ## Deterministic automata -/

variable {expression : Regex} {dfa : Dfa} {symbol : String}

namespace Compiled

theorem unreserved_iff (compiled : Compiled expression dfa) :
    dfa.toDocument.Unreserved ↔ Document.terminatingKey ∉ expression.symbols :=
  unreserved_toDocument_iff.trans (not_congr compiled.mem_symbols_iff).symm

end Compiled

/-- A compiled automaton loses nothing when it is written and read again. -/
theorem reload_compiled (compiled : Compiled expression dfa) :
    ∃ reloaded, ofDocument dfa.toDocument = .ok reloaded ∧
      reloaded.alphabet = dfa.alphabet ∧
      (∀ word, reloaded.run word = dfa.run word) ∧
      ("" ∉ expression.literals → ∀ text, reloaded.runText text = dfa.runText text) := by
  have used (symbol : String) (member : symbol ∈ dfa.alphabet) :
      ∃ source target, dfa.next? source symbol = some target := by
    rw [compiled.alphabet_eq] at member
    exact compiled.mem_symbols_iff.mp member
  rcases compiled.inRange.answers_reloaded used compiled.closed with
    ⟨alphabets, words, texts⟩
  exact ⟨_, compiled.inRange.ofDocument_toDocument, alphabets, words, fun _ => texts⟩

/-- The states of ten copies are read in the order of their names, "10" before "2". -/
theorem reload_compiled_of_ten_copies :
    let minimal := (ofRegex (.exactly (.literal "a") (.ofNat 10))).minimize
    minimal.toDocument.states.keys.toList.take 4 = ["0", "1", "10", "2"] ∧
      ∃ reloaded, ofDocument minimal.toDocument = .ok reloaded ∧
        reloaded.runText "aaaaaaaaaa" = .ok true ∧ reloaded.runText "aa" = .ok false ∧
        reloaded.run ["b"] = .error (.usage (.foreignSymbol "b")) := by
  intro minimal
  rcases reload_compiled (.minimal : Compiled _ minimal) with
    ⟨reloaded, read, _, words, texts⟩
  refine ⟨by decide +kernel, reloaded, read, ?_, ?_, ?_⟩
  · rw [texts (by decide)]
    decide +kernel
  · rw [texts (by decide)]
    decide +kernel
  · rw [words]
    decide +kernel

end Dfa

/-! ## Nondeterministic automata -/

namespace Nfa

variable {expression : Regex} {symbol : String}

theorem mem_symbols_iff :
    symbol ∈ expression.symbols ↔
      ∃ state ∈ (ofRegex expression).reachable,
        some symbol ∈ (ofRegex expression).labels state := by
  constructor
  · intro member
    rcases Regex.mem_symbols_iff.mp member with ⟨word, wordMember, occurs⟩
    rcases (path_ofRegex_iff.mpr wordMember).exists_label occurs with
      ⟨before, state, path, label⟩
    exact ⟨state, (inRange_ofRegex expression).mem_reachable.mpr ⟨before, path⟩, label⟩
  · intro given
    rcases given with ⟨state, _, label⟩
    rw [← Regex.alphabet_ofRegex]
    exact mem_alphabet_of_mem_labels label

theorem unreserved_ofRegex_iff :
    (ofRegex expression).toDocument.Unreserved ↔
      Document.terminatingKey ∉ expression.symbols := by
  rw [(inRange_ofRegex expression).unreserved_toDocument_iff, mem_symbols_iff]
  simp

end Nfa

/-! ## Documents

Names of states are numbers, which no reserved key is. So only the symbols of the
expression decide whether a document is read back. -/

open Document (terminatingKey)

/-- The documents of compiled automata are read back as they were written, except where
the reserved key is a symbol of the expression. Then they are all refused. -/
theorem read_save_compiled {alphabet : Alphabet} {text : String} {expression : Regex}
    (read : Regex.ofText alphabet text = .ok expression) :
    ∃ dfa minimal nfa, compile alphabet text = .ok dfa ∧
      compileMinimal alphabet text = .ok minimal ∧ compileNfa alphabet text = .ok nfa ∧
      Document.read dfa.save = (if terminatingKey ∈ expression.symbols then
        .error (.document .undecodable) else .ok dfa.toDocument) ∧
      Document.read minimal.save = (if terminatingKey ∈ expression.symbols then
        .error (.document .undecodable) else .ok minimal.toDocument) ∧
      Document.read nfa.save = (if terminatingKey ∈ expression.symbols then
        .error (.document .undecodable) else .ok nfa.toDocument) :=
  ⟨_, _, _, compile_of_ofText read, compileMinimal_of_ofText read,
    compileNfa_of_ofText read, Document.read_write Dfa.Compiled.whole.unreserved_iff,
    Document.read_write Dfa.Compiled.minimal.unreserved_iff,
    Document.read_write Nfa.unreserved_ofRegex_iff⟩

/-- The key for the name of the start state may be a symbol, the other one may not. -/
theorem read_save_compiled_of_key_symbols :
    Regex.ofText (.ofText "startingState") "startingState*" =
        .ok (.star (.literal "startingState")) ∧
      Regex.ofText (.ofText "isTerminatingState") "isTerminatingState" =
        .ok (.literal "isTerminatingState") ∧
      (∃ dfa, compile (.ofText "startingState") "startingState*" = .ok dfa ∧
        Document.read dfa.save = .ok dfa.toDocument) ∧
      ∃ dfa minimal nfa,
        compile (.ofText "isTerminatingState") "isTerminatingState" = .ok dfa ∧
        compileMinimal (.ofText "isTerminatingState") "isTerminatingState" = .ok minimal ∧
        compileNfa (.ofText "isTerminatingState") "isTerminatingState" = .ok nfa ∧
        (Document.read dfa.save : Except Error DfaDocument) =
          .error (.document .undecodable) ∧
        (Document.read minimal.save : Except Error DfaDocument) =
          .error (.document .undecodable) ∧
        (Document.read nfa.save : Except Error NfaDocument) =
          .error (.document .undecodable) := by
  have harmless : Regex.ofText (.ofText "startingState") "startingState*" =
      .ok (.star (.literal "startingState")) := by decide +kernel
  have reserved : Regex.ofText (.ofText "isTerminatingState") "isTerminatingState" =
      .ok (.literal "isTerminatingState") := by decide +kernel
  refine ⟨harmless, reserved, ?_, ?_⟩
  · rcases read_save_compiled harmless with ⟨dfa, _, _, compiled, _, _, answer, _⟩
    rw [if_neg (by decide +kernel)] at answer
    exact ⟨dfa, compiled, answer⟩
  · rcases read_save_compiled reserved with
      ⟨dfa, minimal, nfa, compiled, minimized, simulated, answers⟩
    simp only [if_pos (by decide +kernel : terminatingKey ∈
      (Regex.literal "isTerminatingState").symbols)] at answers
    exact ⟨dfa, minimal, nfa, compiled, minimized, simulated, answers⟩

end WordAutomata
