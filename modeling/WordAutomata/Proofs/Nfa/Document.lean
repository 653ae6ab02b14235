import WordAutomata.Nfa.Document
import WordAutomata.Proofs.Document
import WordAutomata.Proofs.Nfa.Simulation

namespace WordAutomata

/-! What is written for a nondeterministic automaton: an entry for every state that
some run leads to, with the labels of its row. -/

namespace Numbering

variable {numbering : Numbering} {state other : Nat}

theorem mem_add : other ∈ (numbering.add state).states ↔
    other = state ∨ other ∈ numbering.states := by
  rw [add]
  split
  · rename_i known
    constructor
    · exact .inr
    · intro given
      rcases given with rfl | member
      · exact known
      · exact member
  · rw [List.mem_append, List.mem_singleton, or_comm]

theorem mem_addAll {states : List Nat} : other ∈ (numbering.addAll states).states ↔
    other ∈ states ∨ other ∈ numbering.states := by
  induction states generalizing numbering with
  | nil => simp [addAll]
  | cons head tail induction =>
      rw [addAll, List.foldl_cons, ← addAll, induction, mem_add, List.mem_cons]
      simp only [or_left_comm, or_assoc]

theorem name_inj (known : state ∈ numbering.states) :
    numbering.name state = numbering.name other ↔ state = other := by
  constructor
  · intro same
    exact (List.idxOf_inj known).mp (Document.toString_injective same)
  · exact congrArg numbering.name

end Numbering

namespace Nfa

variable {nfa : Nfa} {state : Nat} {symbol name : String}

/-! ## States that are written -/

theorem mem_successors {source target : Nat} :
    target ∈ nfa.successors source ↔ ∃ label, target ∈ nfa.targets source label := by
  simp only [mem_targets_iff, successors]
  cases nfa.rows[source]? with
  | none => simp
  | some row =>
      simp only [List.mem_flatMap, OrderedMap.mem_values_iff, Option.some.injEq]
      constructor
      · intro given
        rcases given with ⟨set, ⟨label, entry⟩, member⟩
        exact ⟨label, row, set, rfl, entry, member⟩
      · intro given
        rcases given with ⟨label, _, set, rfl, entry, member⟩
        exact ⟨set, ⟨label, entry⟩, member⟩

theorem reaches_iff {source target : Nat} :
    Traversal.Reaches nfa.successors source target ↔
      ∃ word, nfa.Path source word target := by
  constructor
  · intro reaches
    induction reaches using Relation.ReflTransGen.head_induction_on with
    | refl => exact ⟨[], .nil target⟩
    | head step _ induction =>
        rcases mem_successors.mp step with ⟨label, step⟩
        rcases induction with ⟨word, path⟩
        cases label with
        | none => exact ⟨word, .jump step path⟩
        | some symbol => exact ⟨symbol :: word, .read step path⟩
  · intro given
    rcases given with ⟨word, path⟩
    induction path with
    | nil => exact .refl
    | jump step _ induction => exact .head (mem_successors.mpr ⟨_, step⟩) induction
    | read step _ induction => exact .head (mem_successors.mpr ⟨_, step⟩) induction

/-! ## Symbols that are written -/

theorem mem_keys_entry {numbering : Numbering} :
    symbol ∈ (nfa.entry numbering state).transitions.keys ↔
      ∃ label ∈ nfa.labels state, label.getD emptyKey = symbol := by
  have keys : ((nfa.rows[state]?.getD .empty).toList.map fun transition =>
      (transition.1.getD emptyKey, transition.2.toList.map numbering.name)).map Prod.fst =
      (nfa.labels state).toList.map (·.getD emptyKey) := by
    rw [List.map_map, labels, OrderedMap.keys, List.map_map]
    rfl
  rw [entry, OrderedMap.mem_keys_ofList, keys, List.mem_map]
  rfl

theorem mem_numbering_of_reachable (member : state ∈ nfa.reachable) :
    state ∈ nfa.numbering.states :=
  Numbering.mem_addAll.mpr
    (.inl (List.mem_cons_of_mem nfa.start (List.mem_cons_of_mem nfa.final member)))

namespace InRange

variable (inRange : nfa.InRange)
include inRange

theorem bounds_reachable : Traversal.Bounds nfa.successors [nfa.start] nfa.size := by
  apply Traversal.bounds_of_lt
  · intro seed member
    rw [List.mem_singleton.mp member]
    exact inRange.start
  · intro source _ target member
    rcases mem_successors.mp member with ⟨_, step⟩
    exact inRange.target step

theorem mem_reachable : state ∈ nfa.reachable ↔ ∃ word, nfa.Path nfa.start word state := by
  rw [reachable, Traversal.mem_breadthFirst inRange.bounds_reachable]
  simp [reaches_iff]

theorem nodup_reachable : nfa.reachable.Nodup :=
  Traversal.nodup_breadthFirst inRange.bounds_reachable

theorem get?_states_toDocument {entry : Document.Entry (List String)} :
    nfa.toDocument.states.get? name = some entry ↔
      ∃ state ∈ nfa.reachable, nfa.numbering.name state = name ∧
        nfa.entry nfa.numbering state = entry := by
  have names : ((nfa.reachable.map fun state =>
      (nfa.numbering.name state, nfa.entry nfa.numbering state)).map Prod.fst).Nodup := by
    rw [List.map_map]
    refine List.pairwise_map.mpr (inRange.nodup_reachable.imp_of_mem ?_)
    intro state other member _ different same
    exact different ((Numbering.name_inj (mem_numbering_of_reachable member)).mp same)
  refine (OrderedMap.get?_ofList_eq_some_iff names).trans ?_
  simp only [List.mem_map, Prod.mk.injEq]

theorem unreserved_toDocument_iff :
    nfa.toDocument.Unreserved ↔
      ∀ state ∈ nfa.reachable, some Document.terminatingKey ∉ nfa.labels state := by
  constructor
  · intro unreserved state reached label
    have written := inRange.get?_states_toDocument.mpr ⟨state, reached, rfl, rfl⟩
    exact unreserved.symbols _ (OrderedMap.mem_values_iff.mpr ⟨_, written⟩)
      (mem_keys_entry.mpr ⟨_, label, rfl⟩)
  · intro unlabelled
    constructor
    · intro member
      rcases Option.isSome_iff_exists.mp (OrderedMap.mem_keys_iff.mp member) with
        ⟨entry, written⟩
      rcases inRange.get?_states_toDocument.mp written with ⟨state, _, named, _⟩
      exact Document.toString_ne_startKey _ named
    · intro entry member reserved
      rcases OrderedMap.mem_values_iff.mp member with ⟨name, written⟩
      rcases inRange.get?_states_toDocument.mp written with ⟨state, reached, _, rfl⟩
      rcases mem_keys_entry.mp reserved with ⟨label, member, spelled⟩
      cases label with
      | none => exact absurd spelled (by decide)
      | some symbol => exact unlabelled state reached (spelled ▸ member)

end InRange

end Nfa

end WordAutomata
