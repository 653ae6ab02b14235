import WordAutomata.Proofs.Nfa.Reading
import WordAutomata.Proofs.Nfa.Trim

namespace WordAutomata

/-! How states are named in the document of a nondeterministic automaton. The start state
and the final state have the first numbers, and every other state that is reached has the
next free one when it is met, so that a name is always that of a written state. -/

/-! ## Lists -/

namespace List

theorem flatMap_filter {α : Type u} {β : Type v} {keep : α → Bool} {image : α → List β}
    {values : List α}
    (empty : ∀ value ∈ values, ¬ keep value → image value = []) :
    (values.filter keep).flatMap image = values.flatMap image := by
  induction values with
  | nil => rfl
  | cons head tail induction =>
      rcases List.forall_mem_cons.mp empty with ⟨headEmpty, tailEmpty⟩
      rw [List.filter_cons, List.flatMap_cons, ← induction tailEmpty]
      split
      · rw [List.flatMap_cons]
      · rename_i dropped
        rw [headEmpty dropped, List.nil_append]

end List

/-! ## Numberings -/

namespace Numbering

variable {numbering : Numbering} {state : Nat}

theorem states_addAll (states : List Nat) :
    (empty.addAll states).states = states.eraseDups := by
  induction states using List.reverseRecOn with
  | nil => rfl
  | append_singleton front last induction =>
      rw [addAll, List.foldl_append, List.foldl_cons, List.foldl_nil, ← addAll,
        List.eraseDups_concat, add]
      simp only [induction, List.mem_eraseDups]
      split
      · exact induction
      · rfl

theorem exists_name_iff {name : String} :
    (∃ state ∈ numbering.states, numbering.name state = name) ↔
      ∃ number < numbering.size, toString number = name := by
  simp only [size, ← List.exists_idxOf_iff numbering.nodup]
  constructor
  · intro given
    rcases given with ⟨state, member, rfl⟩
    exact ⟨_, ⟨state, member, rfl⟩, rfl⟩
  · intro given
    rcases given with ⟨_, ⟨state, member, rfl⟩, rfl⟩
    exact ⟨state, member, rfl⟩

theorem exists_injective (numbering : Numbering) :
    ∃ number : Nat → Nat, Function.Injective number ∧
      ∀ state ∈ numbering.states, number state = numbering.number state := by
  refine ⟨fun state => if state ∈ numbering.states then numbering.number state
    else numbering.size + state, ?injective, ?agrees⟩
  case agrees =>
    intro state member
    exact if_pos member
  case injective =>
    have below (state : Nat) (member : state ∈ numbering.states) :
        numbering.number state < numbering.size := List.idxOf_lt_length_of_mem member
    intro left right same
    by_cases leftKnown : left ∈ numbering.states <;>
      by_cases rightKnown : right ∈ numbering.states <;>
      simp only [leftKnown, rightKnown, if_true, if_false] at same
    · exact (List.idxOf_inj leftKnown).mp same
    · have bound := below left leftKnown
      omega
    · have bound := below right rightKnown
      omega
    · omega

end Numbering

namespace Nfa

variable {nfa : Nfa} {state : Nat} {key name : String}

/-! ## Rows -/

/-- The states that are met from a state: those that it leads to without reading anything,
and then, symbol by symbol, those that it leads to on the symbol. -/
def met (nfa : Nfa) (state : Nat) : List Nat :=
  (none :: nfa.alphabet.toList.map some).flatMap fun label =>
    (nfa.targets state label).toList

theorem successors_eq_row (nfa : Nfa) (state : Nat) :
    nfa.successors state = (nfa.row state).values.flatMap OrderedSet.toList := by
  rw [successors, row]
  cases nfa.rows[state]? <;> rfl

theorem toList_labels (nfa : Nfa) (state : Nat) :
    (nfa.labels state).toList =
      (none :: nfa.alphabet.toList.map some).filter (· ∈ nfa.labels state) := by
  refine OrderedSet.eq_of_increasing_of_mem_iff (nfa.labels state).increasing ?increasing ?same
  case increasing =>
    refine List.Pairwise.filter _ (List.pairwise_cons.mpr ⟨?least, ?symbols⟩)
    case least =>
      intro label member
      rcases List.mem_map.mp member with ⟨symbol, _, rfl⟩
      rfl
    case symbols => exact List.pairwise_map.mpr nfa.alphabet.increasing
  case same =>
    intro label
    rw [List.mem_filter, decide_eq_true_iff, OrderedSet.mem_iff]
    refine ⟨fun member => ⟨?_, member⟩, fun given => given.2⟩
    cases label with
    | none => exact List.mem_cons_self
    | some symbol =>
        exact List.mem_cons_of_mem _ (List.mem_map_of_mem
          (mem_alphabet_iff_labels.mpr ⟨state, member⟩))

theorem successors_eq_met (nfa : Nfa) (state : Nat) : nfa.successors state = nfa.met state := by
  have absent (label : Label) (missing : label ∉ nfa.labels state) :
      (nfa.targets state label).toList = [] := by
    apply List.eq_nil_iff_forall_not_mem.mpr
    intro target member
    exact missing (mem_labels_of_mem_targets member)
  calc nfa.successors state
      = (nfa.labels state).toList.flatMap fun label => (nfa.targets state label).toList := by
        rw [successors_eq_row, OrderedMap.values_eq _ .empty, List.flatMap_map]
        simp only [targets_eq_row]
        rfl
    _ = nfa.met state := by
        rw [toList_labels, met]
        apply List.flatMap_filter
        intro label _ missing
        exact absent label (by simpa using missing)

/-- The targets that a row has under a key of the document. A symbol that is spelled like
the key of the empty label takes its place. -/
def under (nfa : Nfa) (state : Nat) (key : String) : Option StateSet :=
  ((nfa.row state).get? (some key)).or
    (if key = emptyKey then (nfa.row state).get? none else none)

theorem exists_label_of_under {targets : StateSet}
    (found : nfa.under state key = some targets) :
    ∃ label, nfa.targets state label = targets := by
  rcases Option.or_eq_some_iff.mp found with read | ⟨_, jumped⟩
  · exact ⟨some key, by rw [targets_eq_row, read, Option.getD_some]⟩
  · refine ⟨none, ?_⟩
    split at jumped
    · rw [targets_eq_row, jumped, Option.getD_some]
    · cases jumped

/-- Where labels go by their keys, a symbol that is spelled like the key of the empty label
takes its place, as it comes later in the row. -/
theorem get?_spelled {β γ : Type} (image : β → γ) (row : OrderedMap Label β) :
    (OrderedMap.ofList (row.toList.map fun entry =>
        (entry.1.getD emptyKey, image entry.2))).get? key =
      ((row.get? (some key)).or (if key = emptyKey then row.get? none else none)).map
        image := by
  rw [OrderedMap.get?_ofList]
  rcases row with ⟨entries, increasing⟩
  induction entries with
  | nil => simp [OrderedMap.get?]
  | cons head tail induction =>
      rcases List.pairwise_cons.mp increasing with ⟨least, tailIncreasing⟩
      -- No label comes before the empty one, so it can only be that of the first entry.
      have later : (⟨tail, tailIncreasing⟩ : OrderedMap Label β).get? none = none := by
        apply OrderedMap.get?_eq_none_iff.mpr
        intro member
        have above := least none member
        cases first : head.1 <;> rw [first] at above <;> cases above
      rw [List.map_cons, List.reverse_cons, List.lookup_append,
        induction tailIncreasing, later, OrderedMap.get?_cons, OrderedMap.get?_cons, later,
        OrderedMap.lookup_cons]
      rcases head with ⟨label, value⟩
      cases label with
      | none => by_cases equal : key = emptyKey <;> simp [equal]
      | some symbol =>
          have once : (⟨tail, tailIncreasing⟩ : OrderedMap Label β).get? (some symbol) = none := by
            apply OrderedMap.get?_eq_none_iff.mpr
            intro member
            have above := least _ member
            simp [Std.ReflOrd.compare_self] at above
          by_cases equal : key = symbol
          · simp [equal, once]
          · simp [equal]

theorem get?_transitions_entry {numbering : Numbering} :
    (nfa.entry numbering state).transitions.get? key =
      (nfa.under state key).map fun targets => targets.toList.map numbering.name :=
  get?_spelled (fun targets : StateSet => targets.toList.map numbering.name) (nfa.row state)

/-! ## Numbers -/

/-- Whether a list has the states that runs lead to, each at the place where it is first
met: first the start state, and then those that the states of the list are followed by. -/
structure Discovers (nfa : Nfa) (order : List Nat) : Prop where
  met : order = (nfa.start :: order.flatMap nfa.met).eraseDups
  reached : ∀ state, state ∈ order ↔ ∃ word, nfa.Path nfa.start word state

/-- Whether states are numbered apart: the start state, the final state, and then the other
states of a list in turn. -/
structure Numbers (nfa : Nfa) (order : List Nat) (number : Nat → Nat) : Prop where
  injective : Function.Injective number
  start : number nfa.start = 0
  final : nfa.final ≠ nfa.start → number nfa.final = 1
  others : ∀ place state,
    (order.filter fun state => state ≠ nfa.start ∧ state ≠ nfa.final)[place]? = some state →
      number state = place + if nfa.final = nfa.start then 1 else 2

/-- Whether a document has the entries of some states and no others, with the right names
for the states that they lead to. -/
structure Shows (nfa : Nfa) (order : List Nat) (name : Nat → String)
    (document : NfaDocument) : Prop where
  start : document.start = name nfa.start
  names : ∀ key, key ∈ document.states.keys ↔ ∃ state ∈ order, name state = key
  entries : ∀ state ∈ order, ∃ entry, document.states.get? (name state) = some entry ∧
    (entry.terminating = true ↔ state = nfa.final) ∧
    ∀ key, entry.transitions.get? key =
      (nfa.under state key).map fun targets => targets.toList.map name
  closed : ∀ entry ∈ document.states.values, ∀ names ∈ entry.transitions.values,
    ∀ name ∈ names, name ∈ document.states.keys

theorem states_numbering (nodup : nfa.reachable.Nodup) :
    nfa.numbering.states = [nfa.start, nfa.final].eraseDups ++
      nfa.reachable.filter fun state => state ≠ nfa.start ∧ state ≠ nfa.final := by
  have others : nfa.reachable.removeAll [nfa.start, nfa.final] =
      nfa.reachable.filter fun state => state ≠ nfa.start ∧ state ≠ nfa.final := by
    apply List.filter_congr
    simp
  rw [numbering, Numbering.states_addAll,
    show nfa.start :: nfa.final :: nfa.reachable =
      [nfa.start, nfa.final] ++ nfa.reachable from rfl,
    List.eraseDups_append, others, List.eraseDups_of_nodup (nodup.filter _)]

theorem exists_numbers (nodup : nfa.reachable.Nodup) :
    ∃ number, nfa.Numbers nfa.reachable number ∧
      ∀ state ∈ nfa.numbering.states, number state = nfa.numbering.number state := by
  rcases nfa.numbering.exists_injective with ⟨number, injective, agrees⟩
  have states := states_numbering nodup
  have reserved (state : Nat) (member : state = nfa.start ∨ state = nfa.final) :
      state ∈ nfa.numbering.states := by
    rw [states, List.mem_append, List.mem_eraseDups]
    exact .inl (by simpa using member)
  refine ⟨number, ⟨injective, ?start, ?final, ?others⟩, agrees⟩
  case start =>
    rw [agrees _ (reserved _ (.inl rfl)), Numbering.number, states, List.eraseDups_cons,
      List.cons_append, List.idxOf_cons_self]
  case final =>
    intro different
    rw [agrees _ (reserved _ (.inr rfl)), Numbering.number, states,
      List.eraseDups_of_nodup (by simpa using different.symm), List.cons_append,
      List.idxOf_cons_ne _ different.symm, List.cons_append, List.idxOf_cons_self]
  case others =>
    intro place state found
    rcases List.getElem?_eq_some_iff.mp found with ⟨inside, rfl⟩
    have member := List.getElem_mem inside
    have apart := (List.mem_filter.mp member).2
    have reservedLength : [nfa.start, nfa.final].eraseDups.length =
        if nfa.final = nfa.start then 1 else 2 := by
      by_cases same : nfa.final = nfa.start <;> simp [List.eraseDups_cons, same]
    have known : (nfa.reachable.filter _)[place] ∈ nfa.numbering.states := by
      rw [states]
      exact List.mem_append_right _ member
    rw [agrees _ known, Numbering.number, states,
      List.idxOf_append_of_notMem (by simpa [List.mem_eraseDups] using apart),
      (nodup.filter _).idxOf_getElem, reservedLength, Nat.add_comm]

/-! ## Documents -/

namespace InRange

variable (inRange : nfa.InRange)
include inRange

theorem discovers_reachable : nfa.Discovers nfa.reachable where
  met := by
    have successors : nfa.successors = nfa.met := funext (successors_eq_met nfa)
    rw [← successors]
    exact Traversal.breadthFirst_eq_eraseDups inRange.bounds_reachable
  reached := fun _ => inRange.mem_reachable

theorem mem_keys_toDocument : name ∈ nfa.toDocument.states.keys ↔
    ∃ state ∈ nfa.reachable, nfa.numbering.name state = name := by
  rw [OrderedMap.mem_keys_iff, Option.isSome_iff_exists]
  simp only [inRange.get?_states_toDocument]
  constructor
  · intro given
    rcases given with ⟨_, state, member, named, _⟩
    exact ⟨state, member, named⟩
  · intro given
    rcases given with ⟨state, member, named⟩
    exact ⟨_, state, member, named, rfl⟩

theorem shows_toDocument {name : Nat → String}
    (named : ∀ state ∈ nfa.numbering.states, nfa.numbering.name state = name state) :
    nfa.Shows nfa.reachable name nfa.toDocument := by
  have written (state : Nat) (member : state ∈ nfa.reachable) :
      nfa.numbering.name state = name state :=
    named state (mem_numbering_of_reachable member)
  -- No state that is written leads to one that is not.
  have leads {state : Nat} (member : state ∈ nfa.reachable) {key : String}
      {targets : StateSet} (found : nfa.under state key = some targets) :
      ∀ target ∈ targets, target ∈ nfa.reachable := by
    rcases exists_label_of_under found with ⟨label, rfl⟩
    exact fun target step => inRange.mem_reachable_of_mem_targets member step
  refine ⟨written _ inRange.mem_reachable_start, ?names, ?entries, ?closed⟩
  case names =>
    intro key
    rw [inRange.mem_keys_toDocument]
    refine exists_congr fun state => and_congr_right fun member => ?_
    rw [written state member]
  case entries =>
    intro state member
    refine ⟨nfa.entry nfa.numbering state, ?_, decide_eq_true_iff, fun key => ?_⟩
    · exact inRange.get?_states_toDocument.mpr ⟨state, member, written state member, rfl⟩
    · rw [get?_transitions_entry]
      apply Option.map_congr
      intro targets found
      exact List.map_congr_left fun target step =>
        written target (leads member found target step)
  case closed =>
    intro entry member listed listedMember name nameMember
    rcases OrderedMap.mem_values_iff.mp member with ⟨_, stored⟩
    rcases inRange.get?_states_toDocument.mp stored with ⟨state, reached, _, rfl⟩
    rcases OrderedMap.mem_values_iff.mp listedMember with ⟨key, transition⟩
    rw [get?_transitions_entry] at transition
    rcases Option.map_eq_some_iff.mp transition with ⟨targets, found, rfl⟩
    rcases List.mem_map.mp nameMember with ⟨target, step, rfl⟩
    exact inRange.mem_keys_toDocument.mpr
      ⟨target, leads reached found target step, rfl⟩

end InRange

/-! ## Expressions -/

theorem mem_reachable_ofRegex (expression : Regex) :
    state ∈ (ofRegex expression).reachable ↔ state < (ofRegex expression).size := by
  have inRange := inRange_ofRegex expression
  constructor
  · intro member
    rcases inRange.mem_reachable.mp member with ⟨_, path⟩
    exact inRange.lt_size_of_path inRange.start path
  · intro inside
    exact inRange.mem_reachable.mpr (exists_paths_ofRegex expression inside).1

theorem mem_numbering_ofRegex (expression : Regex) :
    state ∈ (ofRegex expression).numbering.states ↔ state < (ofRegex expression).size := by
  constructor
  · intro member
    rcases Numbering.mem_addAll.mp member with given | absent
    · simp only [List.mem_cons] at given
      rcases given with rfl | rfl | reached
      · exact (inRange_ofRegex expression).start
      · exact final_lt_size_ofRegex expression
      · exact (mem_reachable_ofRegex expression).mp reached
    · cases absent
  · intro inside
    exact mem_numbering_of_reachable ((mem_reachable_ofRegex expression).mpr inside)

theorem size_numbering_ofRegex (expression : Regex) :
    (ofRegex expression).numbering.size = (ofRegex expression).size := by
  have all : (ofRegex expression).numbering.states.Perm
      (List.range (ofRegex expression).size) :=
    (List.perm_ext_iff_of_nodup (ofRegex expression).numbering.nodup List.nodup_range).mpr
      fun state => (mem_numbering_ofRegex expression).trans List.mem_range.symm
  exact all.length_eq.trans List.length_range

end Nfa

end WordAutomata
