import WordAutomata.Proofs.Dfa.Document
import WordAutomata.Proofs.Dfa.Minimal
import WordAutomata.Proofs.Dfa.Renaming

namespace WordAutomata

/-! What comes back of an automaton that is written down and read again: its states have
other names, and its alphabet has the symbols that label transitions. -/

namespace Dfa

variable {dfa : Dfa} {state : Nat} {symbol name : String}

def entries (dfa : Dfa) : List (String × Document.Entry String) :=
  dfa.rows.zipIdx.map fun entry =>
    (stateName entry.2, ⟨dfa.isAccepting entry.2, entry.1.map stateName⟩)

theorem mem_entries {entry : Document.Entry String} :
    (name, entry) ∈ dfa.entries ↔
      ∃ state row, dfa.rows[state]? = some row ∧ stateName state = name ∧
        ⟨dfa.isAccepting state, row.map stateName⟩ = entry := by
  simp only [entries, List.mem_map, Prod.mk.injEq]
  constructor
  · intro given
    rcases given with ⟨⟨row, state⟩, member, named, equal⟩
    exact ⟨state, row, List.mem_zipIdx_iff_getElem?.mp member, named, equal⟩
  · intro given
    rcases given with ⟨state, row, found, named, equal⟩
    exact ⟨(row, state), List.mem_zipIdx_iff_getElem?.mpr found, named, equal⟩

theorem nodup_map_stateName {states : List Nat} (nodup : states.Nodup) :
    (states.map stateName).Nodup :=
  List.Pairwise.map stateName
    (fun _ _ different same => different (Document.toString_injective same)) nodup

theorem nodup_entries (dfa : Dfa) : (dfa.entries.map Prod.fst).Nodup := by
  have names : dfa.entries.map Prod.fst =
      (dfa.rows.zipIdx.map Prod.snd).map stateName := by
    rw [entries, List.map_map, List.map_map]
    rfl
  rw [names, List.zipIdx_map_snd]
  exact nodup_map_stateName List.nodup_range'

theorem get?_states_toDocument {entry : Document.Entry String} :
    dfa.toDocument.states.get? name = some entry ↔
      ∃ state row, dfa.rows[state]? = some row ∧ stateName state = name ∧
        ⟨dfa.isAccepting state, row.map stateName⟩ = entry :=
  (OrderedMap.get?_ofList_eq_some_iff dfa.nodup_entries).trans mem_entries

theorem get?_states_toDocument_stateName {row : OrderedMap String Nat}
    (found : dfa.rows[state]? = some row) :
    dfa.toDocument.states.get? (stateName state) =
      some ⟨dfa.isAccepting state, row.map stateName⟩ :=
  get?_states_toDocument.mpr ⟨state, row, found, rfl, rfl⟩

theorem mem_keys_toDocument :
    name ∈ dfa.toDocument.states.keys ↔ ∃ state < dfa.size, stateName state = name := by
  rw [OrderedMap.mem_keys_iff, Option.isSome_iff_exists]
  simp only [get?_states_toDocument]
  constructor
  · intro given
    rcases given with ⟨_, state, row, found, named, _⟩
    exact ⟨state, (List.getElem?_eq_some_iff.mp found).1, named⟩
  · intro given
    rcases given with ⟨state, inside, named⟩
    exact ⟨_, state, _, List.getElem?_eq_getElem inside, named, rfl⟩

theorem mem_references_toDocument :
    name ∈ dfa.toDocument.references ↔ ∃ state, stateName state = name ∧
      (state = dfa.start ∨ ∃ source symbol, dfa.next? source symbol = some state) := by
  simp only [Document.references, List.mem_cons, List.mem_flatMap, OrderedMap.mem_values_iff,
    get?_states_toDocument, next?_eq_some_iff]
  constructor
  · intro given
    rcases given with named | ⟨_, ⟨_, source, row, found, _, rfl⟩, symbol, target⟩
    · exact ⟨dfa.start, named.symm, .inl rfl⟩
    · rw [OrderedMap.get?_map, Option.map_eq_some_iff] at target
      rcases target with ⟨state, entry, named⟩
      exact ⟨state, named, .inr ⟨source, symbol, row, found, entry⟩⟩
  · intro given
    rcases given with ⟨state, rfl, rfl | ⟨source, symbol, row, found, entry⟩⟩
    · exact .inl rfl
    · refine .inr ⟨_, ⟨_, source, row, found, rfl, rfl⟩, symbol, ?_⟩
      rw [OrderedMap.get?_map, entry, Option.map_some]

theorem exists_symbol_toDocument_iff :
    (∃ name entry, dfa.toDocument.states.get? name = some entry ∧
        symbol ∈ entry.transitions.keys) ↔
      ∃ source target, dfa.next? source symbol = some target := by
  simp only [get?_states_toDocument, next?_eq_some_iff]
  constructor
  · intro given
    rcases given with ⟨_, _, ⟨state, row, found, _, rfl⟩, member⟩
    rw [OrderedMap.keys_map] at member
    rcases Option.isSome_iff_exists.mp (OrderedMap.mem_keys_iff.mp member) with
      ⟨target, entry⟩
    exact ⟨state, target, row, found, entry⟩
  · intro given
    rcases given with ⟨state, target, row, found, entry⟩
    refine ⟨_, _, ⟨state, row, found, rfl, rfl⟩, ?_⟩
    rw [OrderedMap.keys_map]
    exact OrderedMap.mem_keys_iff.mpr (Option.isSome_iff_exists.mpr ⟨target, entry⟩)

/-- Names of states are not reserved, so that it is a matter of the symbols whether the
document is read back. -/
theorem unreserved_toDocument_iff :
    dfa.toDocument.Unreserved ↔
      ¬ ∃ source target, dfa.next? source Document.terminatingKey = some target := by
  rw [← exists_symbol_toDocument_iff]
  constructor
  · intro unreserved given
    rcases given with ⟨name, entry, written, member⟩
    exact unreserved.symbols entry (OrderedMap.mem_values_iff.mpr ⟨name, written⟩) member
  · intro unlabelled
    constructor
    · intro member
      rcases mem_keys_toDocument.mp member with ⟨state, _, named⟩
      exact Document.toString_ne_startKey state named
    · intro entry member reserved
      rcases OrderedMap.mem_values_iff.mp member with ⟨name, written⟩
      exact unlabelled ⟨name, entry, written, reserved⟩

/-! The automaton that is read has a state for every one that was written, and nothing but
the names changes. Symbols without a transition are missing from its alphabet. -/

abbrev reloaded (dfa : Dfa) : Dfa := dfa.toDocument.automaton

def reloadedState (dfa : Dfa) (state : Nat) : Nat :=
  dfa.toDocument.position (stateName state)

theorem mem_alphabet_reloaded :
    symbol ∈ dfa.reloaded.alphabet ↔
      ∃ source target, dfa.next? source symbol = some target :=
  Document.mem_alphabet_automaton.trans exists_symbol_toDocument_iff

theorem renaming_reloaded : Renaming dfa dfa.reloaded dfa.reloadedState where
  start := rfl
  step := by
    intro state inside symbol
    have found := List.getElem?_eq_getElem inside
    have member := mem_keys_toDocument.mpr ⟨state, inside, rfl⟩
    rw [reloadedState, Document.next?_automaton member,
      get?_states_toDocument_stateName found, Option.bind_some, OrderedMap.get?_map,
      Option.map_map, next?, row, found]
    rfl
  accepting := by
    intro state inside
    have found := List.getElem?_eq_getElem inside
    have member := mem_keys_toDocument.mpr ⟨state, inside, rfl⟩
    rw [reloadedState, Document.isAccepting_automaton member,
      get?_states_toDocument_stateName found, Option.any_some]

namespace InRange

variable (inRange : dfa.InRange)
include inRange

theorem resolved_toDocument : dfa.toDocument.Resolved := by
  refine Document.resolved_iff.mpr fun name reference => ?_
  rcases mem_references_toDocument.mp reference with ⟨state, rfl, rfl | ⟨source, symbol, step⟩⟩
  · exact mem_keys_toDocument.mpr ⟨_, inRange.start, rfl⟩
  · exact mem_keys_toDocument.mpr ⟨_, inRange.target step, rfl⟩

theorem ofDocument_toDocument : ofDocument dfa.toDocument = .ok dfa.reloaded :=
  ofDocument_eq_ok_iff.mpr ⟨inRange.resolved_toDocument, rfl⟩

theorem answers_reloaded
    (used : ∀ symbol ∈ dfa.alphabet, ∃ source target, dfa.next? source symbol = some target)
    (closed : dfa.Closed) :
    dfa.reloaded.alphabet = dfa.alphabet ∧
      (∀ word, dfa.reloaded.run word = dfa.run word) ∧
      ∀ text, dfa.reloaded.runText text = dfa.runText text := by
  have alphabets : dfa.reloaded.alphabet = dfa.alphabet := by
    apply OrderedSet.ext
    intro symbol
    rw [mem_alphabet_reloaded]
    exact ⟨fun given => closed given.choose_spec.choose_spec, used symbol⟩
  exact ⟨alphabets, dfa.renaming_reloaded.run_eq inRange alphabets,
    dfa.renaming_reloaded.runText_eq inRange alphabets⟩

/-- A text is answered as before if all its pieces still label transitions. -/
theorem runText_reloaded (closed : dfa.Closed) {text : String}
    (kept : ∀ piece ∈ (Segmentation.cut dfa.alphabet.toList text.toList).pieces,
      piece ∈ dfa.reloaded.alphabet) :
    dfa.reloaded.runText text = dfa.runText text := by
  have subset : ∀ symbol ∈ dfa.reloaded.alphabet, symbol ∈ dfa.alphabet := by
    intro symbol member
    rcases mem_alphabet_reloaded.mp member with ⟨_, _, step⟩
    exact closed step
  have cuts := Segmentation.cuts_cut dfa.alphabet.toList text.toList
  rw [runText_of_cuts cuts, runText_of_cuts (cuts.restrict subset kept),
    dfa.renaming_reloaded.decides_eq inRange]

theorem runText_reloaded_of_accepted (closed : dfa.Closed) {text : String}
    (accepted : dfa.runText text = .ok true) : dfa.reloaded.runText text = .ok true := by
  have cuts := Segmentation.cuts_cut dfa.alphabet.toList text.toList
  have answer := (runText_of_cuts cuts).symm.trans accepted
  split at answer
  · rcases decides_iff.mp (Except.ok.inj answer) with ⟨_, leads, _⟩
    rw [inRange.runText_reloaded closed, accepted]
    exact fun piece member => mem_alphabet_reloaded.mpr (exists_next?_of_follow? leads member)
  · cases answer

end InRange

/-! ## Minimization in between -/

/-- The minimal automaton of a document can be written and read again. It comes back
with the symbols that still label a transition, for the document that is written has
no place for the others. Texts whose pieces are such symbols are answered as before,
and so are all texts that are accepted. -/
theorem reload_minimize {document : DfaDocument} (loaded : ofDocument document = .ok dfa) :
    "" ∉ dfa.alphabet → ∃ reloaded, ofDocument dfa.minimize.toDocument = .ok reloaded ∧
      (∀ symbol, symbol ∈ reloaded.alphabet ↔
        ∃ source target, dfa.minimize.next? source symbol = some target) ∧
      (∀ text : String,
        (∀ piece ∈ (Segmentation.cut dfa.minimize.alphabet.toList text.toList).pieces,
          piece ∈ reloaded.alphabet) →
        reloaded.runText text = dfa.minimize.runText text) ∧
      ∀ text, dfa.minimize.runText text = .ok true → reloaded.runText text = .ok true := by
  intro _
  rcases ofDocument_eq_ok_iff.mp loaded with ⟨_, rfl⟩
  have inRange := inRange_minimize document.automaton
  have closed : document.automaton.minimize.Closed :=
    Closed.minimize document.closed_automaton
  exact ⟨_, inRange.ofDocument_toDocument, fun _ => mem_alphabet_reloaded,
    fun _ => inRange.runText_reloaded closed,
    fun _ => inRange.runText_reloaded_of_accepted closed⟩

/-- The state "sink" is useless, and so is "x", which leads there only. -/
theorem reload_minimize_of_useless_state :
    let document : DfaDocument := ⟨"start", .ofList [
      ("start", ⟨false, .ofList [("a", "end"), ("b", "sink"), ("ab", "10"), ("x", "sink")]⟩),
      ("10", ⟨false, .ofList [("b", "end")]⟩), ("end", ⟨true, .empty⟩),
      ("sink", ⟨false, .ofList [("a", "sink")]⟩)]⟩
    ofDocument document = .ok document.automaton ∧
      ∃ reloaded, ofDocument document.automaton.minimize.toDocument = .ok reloaded ∧
        "x" ∉ reloaded.alphabet ∧ reloaded.runText "abb" = .ok true ∧
        reloaded.runText "b" = .ok false := by
  intro document
  have loaded : ofDocument document = .ok document.automaton := by decide +kernel
  rcases reload_minimize loaded (by decide +kernel) with
    ⟨reloaded, read, symbols, answers, accepts⟩
  refine ⟨loaded, reloaded, read, ?dropped, accepts "abb" (by decide +kernel), ?rejected⟩
  case dropped =>
    intro member
    rcases (symbols "x").mp member with ⟨source, target, step⟩
    have unlabelled : ∀ row ∈ document.automaton.minimize.rows, row.get? "x" = none := by
      decide +kernel
    rcases next?_eq_some_iff.mp step with ⟨row, found, entry⟩
    rw [unlabelled row (List.mem_of_getElem? found)] at entry
    cases entry
  case rejected =>
    have pieces : (Segmentation.cut document.automaton.minimize.alphabet.toList
        "b".toList).pieces = ["b"] := by decide +kernel
    have labelled : ∃ source target,
        document.automaton.minimize.next? source "b" = some target :=
      ⟨2, 0, by decide +kernel⟩
    rw [answers "b"]
    · decide +kernel
    · rw [pieces]
      exact List.forall_mem_singleton.mpr ((symbols "b").mpr labelled)

/-- The only transition on "a" leads to a useless state. The minimal automaton rejects
"a", and the one that is read from its document does not know it. -/
theorem reload_minimize_forgets_symbol :
    let document : DfaDocument := ⟨"0",
      .ofList [("0", ⟨true, .ofList [("a", "1")]⟩), ("1", ⟨false, .empty⟩)]⟩
    ofDocument document = .ok document.automaton ∧ "" ∉ document.automaton.alphabet ∧
      document.automaton.minimize.runText "a" = .ok false ∧
      ∃ reloaded, ofDocument document.automaton.minimize.toDocument = .ok reloaded ∧
        reloaded.runText "a" = .error (.usage (.unsplittable "a" 0)) := by
  intro document
  have read : ofDocument document.automaton.minimize.toDocument =
      .ok document.automaton.minimize.reloaded := by decide +kernel
  exact ⟨by decide +kernel, by decide +kernel, by decide +kernel, _, read,
    by decide +kernel⟩

end Dfa

end WordAutomata
