import WordAutomata.Dfa.Document
import WordAutomata.Proofs.Dfa.Runs
import WordAutomata.Proofs.Document

namespace WordAutomata

/-! What documents say about deterministic automata. A document whose names are all
defined describes one automaton, over the alphabet of its transitions. -/

/-! ## Reading

A state has the position of its name in the order of the names. A document is resolved if
every name that it refers to is that of a state. -/

namespace Document

def position (document : DfaDocument) (name : String) : Nat :=
  document.states.keys.toList.idxOf name

def references (document : DfaDocument) : List String :=
  document.start :: document.states.values.flatMap (·.transitions.values)

def undefined? (document : DfaDocument) : Option String :=
  document.references.find? (· ∉ document.states.keys)

structure Resolved (document : DfaDocument) : Prop where
  start : document.start ∈ document.states.keys
  target : ∀ entry ∈ document.states.values, ∀ name ∈ entry.transitions.values,
    name ∈ document.states.keys

def automaton (document : DfaDocument) : Dfa where
  alphabet := .ofList
    (document.states.values.flatMap fun entry => entry.transitions.keys.toList)
  rows := document.states.values.map fun entry =>
    entry.transitions.map document.position
  start := document.position document.start
  accepting := .ofList
    ((document.states.values.zipIdx.filter (·.1.terminating)).map Prod.snd)

theorem resolved_iff {document : DfaDocument} :
    document.Resolved ↔ ∀ name ∈ document.references, name ∈ document.states.keys := by
  rw [references, List.forall_mem_cons]
  simp only [List.mem_flatMap]
  constructor
  · intro resolved
    refine ⟨resolved.start, fun name given => ?_⟩
    rcases given with ⟨entry, member, target⟩
    exact resolved.target entry member name target
  · intro known
    exact ⟨known.1, fun entry member name target => known.2 name ⟨entry, member, target⟩⟩

theorem undefined?_eq_none_iff {document : DfaDocument} :
    document.undefined? = none ↔ document.Resolved := by
  simp [undefined?, List.find?_eq_none, resolved_iff]

/-! ### Reports

A computation over names has its result, unless one of them is not defined. Of several
that are not, the one that is looked up first is reported, so in two computations it is
that of the first one. -/

def checked (undefined? : Option String) (result : β) : Except Error β :=
  match undefined? with
  | some name => .error (.document (.undefinedState name))
  | none => .ok result

@[simp] theorem checked_eq_ok_iff {undefined? : Option String} {result other : β} :
    checked undefined? result = .ok other ↔ undefined? = none ∧ result = other := by
  cases undefined? <;> simp [checked]

@[simp] theorem checked_eq_error_iff {undefined? : Option String} {result : β}
    {failure : Error} :
    checked undefined? result = .error failure ↔
      ∃ name, undefined? = some name ∧ failure = .document (.undefinedState name) := by
  cases undefined? <;> simp [checked, eq_comm]

theorem checked_bind {first second : Option String} {middle : α} {result : β}
    {next : α → Except Error β} (rest : next middle = checked second result) :
    (checked first middle >>= next) = checked (first.or second) result := by
  cases first with
  | none => exact rest
  | some name => rfl

theorem checked_bind_pure (undefined? : Option String) (middle : α) (image : α → β) :
    (checked undefined? middle >>= fun value => pure (image value)) =
      checked undefined? (image middle) := by
  cases undefined? <;> rfl

theorem mapM_eq_checked {compute : α → Except Error β} {undefined? : α → Option String}
    {image : α → β} (each : ∀ value, compute value = checked (undefined? value) (image value))
    (values : List α) :
    values.mapM compute = checked (values.findSome? undefined?) (values.map image) := by
  induction values with
  | nil => rfl
  | cons head tail induction =>
      have whole : (head :: tail).findSome? undefined? =
          (undefined? head).or (tail.findSome? undefined?) := by
        rw [List.findSome?_cons]
        cases undefined? head <;> rfl
      rw [List.mapM_cons, each, whole]
      apply checked_bind
      rw [induction, checked_bind_pure, List.map_cons]

end Document

namespace Dfa

open Document (checked checked_bind checked_bind_pure mapM_eq_checked)

variable {document : DfaDocument} {dfa : Dfa}

theorem resolve_eq (names : List String) (name : String) :
    resolve names name = checked ([name].find? (· ∉ names)) (names.idxOf name) := by
  rw [resolve]
  split
  · rename_i found
    rcases List.findIdx?_eq_some_iff_findIdx_eq.mp found with ⟨inside, position⟩
    have member : name ∈ names := by
      apply List.idxOf_lt_length_iff.mp
      rwa [List.idxOf, position]
    simp [checked, member, List.idxOf, position]
  · rename_i absent
    simp [checked, List.idxOf?_eq_none_iff.mp absent]

theorem rowOfDocument_eq (names : List String) (transitions : OrderedMap String String) :
    rowOfDocument names transitions =
      checked (transitions.values.find? (· ∉ names)) (transitions.map names.idxOf) := by
  have each (transition : String × String) :
      (do return (transition.1, ← resolve names transition.2)) =
        checked ([transition.2].find? (· ∉ names))
          (transition.1, names.idxOf transition.2) := by
    rw [resolve_eq, checked_bind_pure]
  have described : OrderedMap.ofList (transitions.toList.map fun transition =>
      (transition.1, names.idxOf transition.2)) = transitions.map names.idxOf :=
    OrderedMap.ofList_toList (transitions.map names.idxOf)
  have targets : transitions.values = transitions.toList.flatMap fun transition =>
      [transition.2] := by
    rw [OrderedMap.values, List.map_eq_flatMap]
  rw [rowOfDocument, mapM_eq_checked each, checked_bind_pure, described, targets,
    List.find?_flatMap]

/-- A document describes the automaton of its names, unless one of them is not defined.
Then the first such name is reported. -/
theorem ofDocument_eq (document : DfaDocument) :
    ofDocument document = checked document.undefined? document.automaton := by
  have each (entry : Document.Entry String) :
      rowOfDocument document.states.keys.toList entry.transitions = _ :=
    rowOfDocument_eq _ _
  have order : document.undefined? =
      ([document.start].find? (· ∉ document.states.keys)).or
        (document.states.values.findSome? fun entry =>
          entry.transitions.values.find? (· ∉ document.states.keys)) := by
    rw [← List.find?_flatMap, ← List.find?_append]
    rfl
  rw [ofDocument, resolve_eq, order]
  apply checked_bind
  rw [mapM_eq_checked each]
  exact checked_bind_pure _ _ _

theorem ofDocument_eq_ok_iff :
    ofDocument document = .ok dfa ↔ document.Resolved ∧ document.automaton = dfa := by
  rw [ofDocument_eq, Document.checked_eq_ok_iff, Document.undefined?_eq_none_iff]

theorem ofDocument_eq_error_iff {failure : Error} :
    ofDocument document = .error failure ↔
      ∃ name, document.undefined? = some name ∧
        failure = .document (.undefinedState name) := by
  rw [ofDocument_eq, Document.checked_eq_error_iff]

end Dfa

/-! ## The automaton of a document -/

namespace Document

variable {document : DfaDocument} {name symbol : String} {state : Nat}

theorem size_automaton (document : DfaDocument) :
    document.automaton.size = document.states.keys.toList.length := by
  simp [automaton, Dfa.size, OrderedMap.values, OrderedMap.keys]

theorem position_lt (member : name ∈ document.states.keys) :
    document.position name < document.automaton.size := by
  rw [size_automaton]
  exact List.idxOf_lt_length_of_mem member

theorem exists_position (inside : state < document.automaton.size) :
    ∃ name ∈ document.states.keys, document.position name = state := by
  rw [size_automaton] at inside
  exact (List.exists_idxOf_iff document.states.keys.nodup).mpr inside

theorem next?_automaton (member : name ∈ document.states.keys) :
    document.automaton.next? (document.position name) symbol =
      ((document.states.get? name).bind (·.transitions.get? symbol)).map
        document.position := by
  have found := OrderedMap.getElem?_values_idxOf member
  rw [Dfa.next?, Dfa.row, automaton, List.getElem?_map, position, found]
  cases document.states.get? name with
  | none => rfl
  | some entry => exact OrderedMap.get?_map _ _ symbol

theorem isAccepting_automaton (member : name ∈ document.states.keys) :
    document.automaton.isAccepting (document.position name) =
      (document.states.get? name).any (·.terminating) := by
  have found := OrderedMap.getElem?_values_idxOf member
  have accepting : document.position name ∈ document.automaton.accepting ↔ _ :=
    Dfa.mem_positions_iff Document.Entry.terminating
  rw [Bool.eq_iff_iff, Dfa.isAccepting, decide_eq_true_eq, accepting, position, found,
    Option.any_eq_true]

theorem mem_alphabet_automaton :
    symbol ∈ document.automaton.alphabet ↔
      ∃ name entry, document.states.get? name = some entry ∧
        symbol ∈ entry.transitions.keys := by
  simp only [automaton, OrderedSet.mem_ofList, List.mem_flatMap, OrderedMap.mem_values_iff]
  constructor
  · intro given
    rcases given with ⟨entry, ⟨name, found⟩, member⟩
    exact ⟨name, entry, found, member⟩
  · intro given
    rcases given with ⟨name, entry, found, member⟩
    exact ⟨entry, ⟨name, found⟩, member⟩

theorem Resolved.inRange_automaton (resolved : document.Resolved) :
    document.automaton.InRange where
  start := position_lt resolved.start
  target := by
    intro source symbol target step
    rcases exists_position (Dfa.lt_size_of_next? step) with ⟨name, member, rfl⟩
    rw [next?_automaton member, Option.map_eq_some_iff] at step
    rcases step with ⟨successor, found, rfl⟩
    rcases Option.bind_eq_some_iff.mp found with ⟨entry, entryFound, transition⟩
    exact position_lt (resolved.target entry (OrderedMap.mem_values_iff.mpr ⟨_, entryFound⟩)
      successor (OrderedMap.mem_values_iff.mpr ⟨symbol, transition⟩))
  accepting := by
    intro state member
    rcases (Dfa.mem_positions_iff Document.Entry.terminating).mp member with ⟨_, found, _⟩
    rw [size_automaton]
    simpa [OrderedMap.values, OrderedMap.keys] using
      (List.getElem?_eq_some_iff.mp found).1

theorem closed_automaton : document.automaton.Closed := by
  intro source symbol target step
  rcases exists_position (Dfa.lt_size_of_next? step) with ⟨name, member, rfl⟩
  rw [next?_automaton member, Option.map_eq_some_iff] at step
  rcases step with ⟨successor, found, rfl⟩
  rcases Option.bind_eq_some_iff.mp found with ⟨entry, entryFound, transition⟩
  refine mem_alphabet_automaton.mpr ⟨name, entry, entryFound, ?_⟩
  exact OrderedMap.mem_keys_iff.mpr (Option.isSome_iff_exists.mpr ⟨successor, transition⟩)

end Document

end WordAutomata
