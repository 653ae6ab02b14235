import WordAutomata.Nfa.Path
import WordAutomata.Nfa.Thompson
import WordAutomata.Proofs.Traversal

namespace WordAutomata.Nfa

/-! The simulation of a nondeterministic automaton by sets of states, against
its runs. -/

structure InRange (nfa : Nfa) : Prop where
  start : nfa.start < nfa.size
  target : ∀ {source label target}, target ∈ nfa.targets source label →
    target < nfa.size

theorem inRange_ofEdges {size start final : Nat} {edges : List Edge}
    (inside : start < size)
    (targets : ∀ edge ∈ edges, edge.target < size) :
    (ofEdges size edges start final).InRange where
  start := by
    rw [size_ofEdges]
    exact inside
  target := by
    intro source label target member
    rw [size_ofEdges]
    exact targets _ (mem_targets_ofEdges.mp member).2

def Within (nfa : Nfa) (set : StateSet) : Prop := ∀ state ∈ set, state < nfa.size

variable {nfa : Nfa}

/-! ## Runs -/

namespace Path

theorem of_reaches {source target : Nat}
    (reaches : Traversal.Reaches (fun state => (nfa.targets state none).toList)
      source target) : nfa.Path source [] target := by
  induction reaches using Relation.ReflTransGen.head_induction_on with
  | refl => exact .nil target
  | head step _ induction => exact .jump step induction

/-- A run over a word first jumps to where the first symbol is read. -/
theorem split_cons {source target : Nat} {symbol : String} {word : List String}
    (path : nfa.Path source (symbol :: word) target) :
    ∃ before after, nfa.Path source [] before ∧
      after ∈ nfa.targets before (some symbol) ∧ nfa.Path after word target := by
  generalize whole : symbol :: word = read at path
  induction path with
  | nil => cases whole
  | jump step _ induction =>
      rcases induction whole with ⟨before, after, first, edge, rest⟩
      exact ⟨before, after, .jump step first, edge, rest⟩
  | @read source _ _ _ _ step rest =>
      cases whole
      exact ⟨source, _, .nil source, step, rest⟩

theorem reaches {source target : Nat} (path : nfa.Path source [] target) :
    Traversal.Reaches (fun state => (nfa.targets state none).toList) source target := by
  generalize empty : [] = word at path
  induction path with
  | nil => exact .refl
  | jump step _ induction => exact .head step (induction empty)
  | read => cases empty

end Path

/-! ## Symbols

The symbols of an automaton label some transition, so every symbol of a word that is read
is one of them. If the automaton is made from edges, they are the labels of these. -/

section

variable {symbol : String} {word : List String}

theorem mem_targets_iff {source target : Nat} {label : Label} :
    target ∈ nfa.targets source label ↔ ∃ row set, nfa.rows[source]? = some row ∧
      row.get? label = some set ∧ target ∈ set := by
  rw [targets]
  cases nfa.rows[source]? with
  | none => simp
  | some row => cases entry : row.get? label <;> simp [entry]

def row (nfa : Nfa) (state : Nat) : OrderedMap Label StateSet :=
  (nfa.rows[state]?).getD .empty

theorem targets_eq_row (nfa : Nfa) (state : Nat) (label : Label) :
    nfa.targets state label = ((nfa.row state).get? label).getD .empty := by
  rw [targets, row]
  cases nfa.rows[state]? <;> rfl

def labels (nfa : Nfa) (state : Nat) : OrderedSet Label :=
  ((nfa.rows[state]?).getD .empty).keys

theorem mem_labels_of_mem_targets {source target : Nat} {label : Label}
    (step : target ∈ nfa.targets source label) : label ∈ nfa.labels source := by
  rcases mem_targets_iff.mp step with ⟨row, set, found, entry, _⟩
  rw [labels, found, Option.getD_some, OrderedMap.mem_keys_iff, entry]
  rfl

theorem mem_alphabet_iff_labels :
    symbol ∈ nfa.alphabet ↔ ∃ state, some symbol ∈ nfa.labels state := by
  simp only [alphabet, OrderedSet.mem_ofList, List.mem_flatMap, List.mem_filterMap, id]
  constructor
  · intro given
    rcases given with ⟨row, rowMember, _, member, rfl⟩
    rcases List.mem_iff_getElem?.mp rowMember with ⟨state, found⟩
    refine ⟨state, ?_⟩
    rw [labels, found]
    exact member
  · intro given
    rcases given with ⟨state, member⟩
    rw [labels] at member
    cases found : nfa.rows[state]? with
    | none =>
        rw [found] at member
        cases member
    | some row =>
        rw [found] at member
        exact ⟨row, List.mem_of_getElem? found, _, member, rfl⟩

theorem mem_alphabet_of_mem_labels {state : Nat} (member : some symbol ∈ nfa.labels state) :
    symbol ∈ nfa.alphabet :=
  mem_alphabet_iff_labels.mpr ⟨state, member⟩

theorem Path.exists_label {source target : Nat}
    (path : nfa.Path source word target) (occurs : symbol ∈ word) :
    ∃ before state, nfa.Path source before state ∧ some symbol ∈ nfa.labels state := by
  induction path with
  | nil => cases occurs
  | jump step _ induction =>
      rcases induction occurs with ⟨before, state, path, label⟩
      exact ⟨before, state, .jump step path, label⟩
  | @read source middle _ first word step _ induction =>
      rcases List.mem_cons.mp occurs with rfl | occurs
      · exact ⟨[], source, .nil source, mem_labels_of_mem_targets step⟩
      · rcases induction occurs with ⟨before, state, path, label⟩
        exact ⟨first :: before, state, .read step path, label⟩

theorem Path.forall_mem_alphabet {source target : Nat}
    (path : nfa.Path source word target) :
    ∀ symbol ∈ word, symbol ∈ nfa.alphabet := by
  intro symbol occurs
  rcases path.exists_label occurs with ⟨_, _, _, label⟩
  exact mem_alphabet_of_mem_labels label

theorem exists_edge_of_mem_alphabet {size start final : Nat} {edges : List Edge}
    (member : symbol ∈ (ofEdges size edges start final).alphabet) :
    ∃ edge ∈ edges, edge.label = some symbol := by
  rw [alphabet, OrderedSet.mem_ofList, List.mem_flatMap] at member
  rcases member with ⟨row, rowMember, member⟩
  rcases List.mem_map.mp rowMember with ⟨state, _, rfl⟩
  rcases List.mem_filterMap.mp member with ⟨label, key, rfl⟩
  rw [OrderedMap.keys_tabulate, ← OrderedSet.mem_iff, OrderedSet.mem_ofList] at key
  rcases List.mem_map.mp key with ⟨edge, outgoing, label⟩
  exact ⟨edge, (List.mem_filter.mp outgoing).1, label⟩

end

/-! ## Sets of states -/

theorem within_singleton {state : Nat} (inside : state < nfa.size) :
    nfa.Within (.singleton state) := by
  intro member equal
  rw [OrderedSet.mem_singleton.mp equal]
  exact inside

theorem mem_move {set : StateSet} {symbol : String} {target : Nat} :
    target ∈ nfa.move set symbol ↔
      ∃ source ∈ set, target ∈ nfa.targets source (some symbol) := by
  rw [move, OrderedSet.mem_ofList, List.mem_flatMap]
  rfl

theorem bounds_jumps
    (targets : ∀ source target, target ∈ nfa.targets source none → target < nfa.size)
    {set : StateSet} (within : nfa.Within set) :
    Traversal.Bounds (fun state => (nfa.targets state none).toList) set.toList nfa.size :=
  Traversal.bounds_of_lt within fun source _ target step => targets source target step

theorem mem_closure_of_bounds {set : StateSet} {target : Nat}
    (bounded : Traversal.Bounds (fun state => (nfa.targets state none).toList) set.toList
      nfa.size) :
    target ∈ nfa.closure set ↔ ∃ source ∈ set,
      Traversal.Reaches (fun state => (nfa.targets state none).toList) source target := by
  rw [closure, OrderedSet.mem_ofList, Traversal.mem_breadthFirst bounded]
  rfl

namespace InRange

variable (inRange : nfa.InRange)
include inRange

theorem lt_size_of_path {source target : Nat} {word : List String}
    (inside : source < nfa.size) (path : nfa.Path source word target) :
    target < nfa.size := by
  induction path with
  | nil => exact inside
  | jump step _ induction => exact induction (inRange.target step)
  | read step _ induction => exact induction (inRange.target step)

theorem within_move (set : StateSet) (symbol : String) :
    nfa.Within (nfa.move set symbol) := by
  intro target member
  rcases mem_move.mp member with ⟨_, _, step⟩
  exact inRange.target step

theorem mem_closure {set : StateSet} (within : nfa.Within set) {target : Nat} :
    target ∈ nfa.closure set ↔ ∃ source ∈ set, nfa.Path source [] target := by
  rw [mem_closure_of_bounds (bounds_jumps (fun _ _ step => inRange.target step) within)]
  constructor
  · intro given
    rcases given with ⟨source, member, reaches⟩
    exact ⟨source, member, .of_reaches reaches⟩
  · intro given
    rcases given with ⟨source, member, path⟩
    exact ⟨source, member, path.reaches⟩

/-- After a word, the automaton may be where a run over it leads. -/
theorem mem_foldl_advance {word : List String} {set : StateSet}
    (within : nfa.Within set)
    {target : Nat} :
    target ∈ word.foldl nfa.advance (nfa.closure set) ↔
      ∃ source ∈ set, nfa.Path source word target := by
  induction word generalizing set with
  | nil => exact inRange.mem_closure within
  | cons symbol word induction =>
      rw [List.foldl_cons, advance, induction (inRange.within_move _ symbol)]
      constructor
      · intro given
        rcases given with ⟨after, moved, rest⟩
        rcases mem_move.mp moved with ⟨before, closed, step⟩
        rcases (inRange.mem_closure within).mp closed with ⟨source, member, first⟩
        exact ⟨source, member, first.append (.read step rest)⟩
      · intro given
        rcases given with ⟨source, member, path⟩
        rcases path.split_cons with ⟨before, after, first, step, rest⟩
        have closed := (inRange.mem_closure within).mpr ⟨source, member, first⟩
        exact ⟨after, mem_move.mpr ⟨before, closed, step⟩, rest⟩

theorem mem_foldl_initial {word : List String} {target : Nat} :
    target ∈ word.foldl nfa.advance nfa.initial ↔ nfa.Path nfa.start word target := by
  rw [initial, inRange.mem_foldl_advance (within_singleton inRange.start)]
  simp

/-- An automaton accepts the words over which some run leads to the final state. -/
theorem accepts_iff {word : List String} :
    nfa.accepts word ↔ nfa.Path nfa.start word nfa.final := by
  rw [accepts, decide_eq_true_eq]
  exact inRange.mem_foldl_initial

end InRange

end WordAutomata.Nfa
