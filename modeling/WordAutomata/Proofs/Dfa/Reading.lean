import WordAutomata.Proofs.Dfa.Document

namespace WordAutomata

/-! What the document of a deterministic automaton says about words. In the document, a run
goes from name to name; in the automaton that is read from it, the same run goes from
position to position. -/

namespace Document

/-! ## Runs through names

A symbol leads from a name to the destination in its entry. A word is accepted if it leads
from the name of the start state to that of a terminating state. -/

def successor? (document : DfaDocument) (name symbol : String) : Option String :=
  (document.states.get? name).bind (·.transitions.get? symbol)

def follow? (document : DfaDocument) (name : String) : List String → Option String
  | [] => some name
  | symbol :: rest => (document.successor? name symbol).bind (document.follow? · rest)

def isTerminating (document : DfaDocument) (name : String) : Bool :=
  (document.states.get? name).any (·.terminating)

def accepts (document : DfaDocument) (word : List String) : Bool :=
  (document.follow? document.start word).any document.isTerminating

variable {document : DfaDocument} {name target symbol : String} {word : List String}

/-! ## Names and positions -/

namespace Resolved

variable (resolved : document.Resolved)
include resolved

theorem mem_keys_of_successor? (step : document.successor? name symbol = some target) :
    target ∈ document.states.keys := by
  rcases Option.bind_eq_some_iff.mp step with ⟨entry, found, transition⟩
  exact resolved.target entry (OrderedMap.mem_values_iff.mpr ⟨name, found⟩) target
    (OrderedMap.mem_values_iff.mpr ⟨symbol, transition⟩)

theorem mem_keys_of_follow? (member : name ∈ document.states.keys)
    (leads : document.follow? name word = some target) : target ∈ document.states.keys := by
  induction word generalizing name with
  | nil =>
      cases leads
      exact member
  | cons symbol rest induction =>
      rcases Option.bind_eq_some_iff.mp leads with ⟨middle, step, further⟩
      exact induction (resolved.mem_keys_of_successor? step) further

/-- Positions are followed as names are. -/
theorem follow?_automaton (member : name ∈ document.states.keys) :
    document.automaton.follow? (document.position name) word =
      (document.follow? name word).map document.position := by
  induction word generalizing name with
  | nil => rfl
  | cons symbol rest induction =>
      rw [Dfa.follow?, follow?, next?_automaton member, ← successor?]
      cases step : document.successor? name symbol with
      | none => rfl
      | some middle => exact induction (resolved.mem_keys_of_successor? step)

theorem decides_automaton :
    document.automaton.decides document.automaton.start word = document.accepts word := by
  have start : document.automaton.start = document.position document.start := rfl
  rw [Dfa.decides, start, resolved.follow?_automaton resolved.start, accepts]
  cases leads : document.follow? document.start word with
  | none => rfl
  | some target =>
      exact isAccepting_automaton (resolved.mem_keys_of_follow? resolved.start leads)

end Resolved

end Document

/-! ## Loading -/

namespace Dfa

/-- A document is loaded if and only if every name it refers to is that of a state, and
otherwise the first name that is not is reported. The automaton that is loaded has no
transition out of it, and it answers the words of its alphabet as the document does by
name. -/
theorem ofDocument_spec (document : DfaDocument) :
    ((∃ dfa, ofDocument document = .ok dfa) ↔ document.Resolved) ∧
    (∀ failure, ofDocument document = .error failure →
      ∃ before name after, document.references = before ++ name :: after ∧
        (∀ other ∈ before, other ∈ document.states.keys) ∧
        name ∉ document.states.keys ∧ failure = .document (.undefinedState name)) ∧
    ∀ dfa, ofDocument document = .ok dfa →
      dfa.InRange ∧ dfa.Closed ∧
        ∀ word : List String, (∀ symbol ∈ word, symbol ∈ dfa.alphabet) →
          dfa.run word = .ok (document.accepts word) := by
  refine ⟨?loaded, ?reported, ?kept⟩
  case loaded =>
    simp only [ofDocument_eq_ok_iff, exists_and_left, exists_eq', and_true]
  case reported =>
    intro failure failed
    rcases ofDocument_eq_error_iff.mp failed with ⟨name, undefined, rfl⟩
    rcases List.find?_eq_some_iff_append.mp undefined with ⟨absent, before, after, split, known⟩
    exact ⟨before, name, after, split, fun other member => by simpa using known other member,
      by simpa using absent, rfl⟩
  case kept =>
    intro dfa loaded
    rcases ofDocument_eq_ok_iff.mp loaded with ⟨resolved, rfl⟩
    refine ⟨resolved.inRange_automaton, Document.closed_automaton, fun word allKnown => ?_⟩
    rw [run, runFrom_of_forall_mem allKnown, resolved.decides_automaton]

/-- Names need not be numbers, nor in the order in which the states are met. Where two
references are undefined, it is not the start state's that is reported, but that of the
state whose name comes first. -/
theorem ofDocument_spec_of_unordered_names :
    let document : DfaDocument := ⟨"2", .ofList [
      ("2", ⟨false, .ofList [("a", "10"), ("b", "2")]⟩),
      ("10", ⟨false, .ofList [("b", "")]⟩),
      ("", ⟨true, .ofList [("b", "10")]⟩)]⟩
    let dangling : DfaDocument := ⟨"2", .ofList [
      ("2", ⟨false, .ofList [("a", "x")]⟩),
      ("10", ⟨false, .ofList [("b", "y"), ("a", "2")]⟩)]⟩
    (∃ dfa, ofDocument document = .ok dfa ∧ dfa.InRange ∧
      dfa.run ["b", "a", "b"] = .ok true ∧ dfa.run ["a", "a"] = .ok false) ∧
    ofDocument dangling = .error (.document (.undefinedState "y")) := by
  intro document dangling
  have loaded : ofDocument document = .ok document.automaton := by decide +kernel
  rcases (ofDocument_spec document).2.2 _ loaded with ⟨inRange, _, answers⟩
  refine ⟨⟨_, loaded, inRange, ?accepted, ?rejected⟩, ?reported⟩
  case accepted => exact (answers _ (by decide +kernel)).trans (by decide +kernel)
  case rejected => exact (answers _ (by decide +kernel)).trans (by decide +kernel)
  case reported => decide +kernel

end Dfa

end WordAutomata
