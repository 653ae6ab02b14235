import WordAutomata.Proofs.Dfa.Grouping

namespace WordAutomata.Partition

/-! Partitions as they are kept while they are refined: with the classes there is a table of
the positions that states have among them, and both are made anew in every round. The table
always says where a state is, and the classes keep the order of the states. -/

/-! ## Classes and their table

For every state of the automaton, the table has the position of its class. Positions are
entered class by class, so of two classes with one state the later one is what the table
shows. -/

structure Indexed where
  classes : List (List Nat)
  positions : List (Option Nat)
deriving DecidableEq, Repr

namespace Indexed

def size (indexed : Indexed) : Nat := indexed.classes.length

def enter (positions : List (Option Nat)) (entry : List Nat × Nat) : List (Option Nat) :=
  entry.1.foldl (fun positions state => positions.set state (some entry.2)) positions

def ofClasses (size : Nat) (classes : List (List Nat)) : Indexed :=
  ⟨classes, classes.zipIdx.foldl enter (List.replicate size none)⟩

def classOf? (indexed : Indexed) (state : Nat) : Option Nat :=
  indexed.positions[state]?.join

def initial (dfa : Dfa) (states : List Nat) : Indexed :=
  ofClasses dfa.size (Partition.initial dfa states).classes

def signature (indexed : Indexed) (dfa : Dfa) (state : Nat) : List (Option Nat) :=
  dfa.alphabet.toList.map fun symbol => (dfa.next? state symbol).bind indexed.classOf?

def refine (indexed : Indexed) (dfa : Dfa) : Indexed :=
  ofClasses dfa.size (indexed.classes.flatMap fun members =>
    (members.foldl (Grouping.add (indexed.signature dfa)) .empty).groups)

def afterRounds (dfa : Dfa) (states : List Nat) (rounds : Nat) : Indexed :=
  (fun indexed => indexed.refine dfa)^[rounds] (initial dfa states)

variable {positions : List (Option Nat)} {members : List Nat} {state position size : Nat}

theorem length_enter (positions : List (Option Nat)) (entry : List Nat × Nat) :
    (enter positions entry).length = positions.length := by
  rw [enter]
  induction entry.1 generalizing positions with
  | nil => rfl
  | cons head tail induction => rw [List.foldl_cons, induction, List.length_set]

theorem getElem?_enter (inside : state < positions.length) :
    (enter positions (members, position))[state]? =
      if state ∈ members then some (some position) else positions[state]? := by
  rw [enter]
  induction members generalizing positions with
  | nil => rfl
  | cons head tail induction =>
      have later := @induction (positions.set head (some position)) (by rwa [List.length_set])
      rw [List.foldl_cons, later]
      by_cases equal : head = state
      · simp [equal, inside]
      · simp [equal, Ne.symm equal]

theorem length_positions (size : Nat) (classes : List (List Nat)) :
    (ofClasses size classes).positions.length = size := by
  rw [ofClasses]
  induction classes.zipIdx using List.reverseRecOn with
  | nil => exact List.length_replicate
  | append_singleton front last induction =>
      rw [List.foldl_append, List.foldl_cons, List.foldl_nil, length_enter, induction]

theorem classOf?_concat (inside : state < size) (front : List (List Nat)) (last : List Nat) :
    (ofClasses size (front ++ [last])).classOf? state =
      if state ∈ last then some front.length else (ofClasses size front).classOf? state := by
  have entered : (ofClasses size (front ++ [last])).positions =
      enter (ofClasses size front).positions (last, front.length) := by
    simp [ofClasses, List.zipIdx_append]
  have known : state < (ofClasses size front).positions.length := by
    rwa [length_positions]
  rw [classOf?, entered, getElem?_enter known]
  split
  · rfl
  · rfl

theorem classOf?_ofClasses {partition : Partition} (apart : partition.Apart)
    (inside : ∀ members ∈ partition.classes, ∀ state ∈ members, state < size) (state : Nat) :
    (ofClasses size partition.classes).classOf? state = partition.classOf? state := by
  rcases partition with ⟨classes⟩
  simp only [Apart] at apart
  by_cases known : state < size
  · induction classes using List.reverseRecOn with
    | nil =>
        rw [classOf?, ofClasses, List.zipIdx_nil, List.foldl_nil, List.getElem?_replicate,
          if_pos known]
        rfl
    | append_singleton front last induction =>
        rcases List.pairwise_append.mp apart with ⟨frontApart, _, disjoint⟩
        have earlier := induction frontApart fun members member =>
          inside members (List.mem_append_left _ member)
        rw [classOf?_concat known, earlier, Partition.classOf?, Partition.classOf?,
          List.findIdx?_append]
        by_cases found : state ∈ last
        · have absent : front.findIdx? (state ∈ ·) = none := by
            rw [List.findIdx?_eq_none_iff]
            intro members member
            rw [decide_eq_false_iff_not]
            exact fun shared => disjoint members member last (List.mem_singleton_self last)
              shared found
          simp [found, absent]
        · simp [found]
  · have absent : Partition.classOf? ⟨classes⟩ state = none := by
      rw [Partition.classOf?, List.findIdx?_eq_none_iff]
      intro members member
      rw [decide_eq_false_iff_not]
      exact fun shared => known (inside members member state shared)
    have beyond : (ofClasses size classes).positions.length ≤ state := by
      rw [length_positions]
      exact Nat.le_of_not_lt known
    rw [classOf?, List.getElem?_eq_none beyond, absent]
    rfl

/-! ## Rounds -/

variable {dfa : Dfa} {states : List Nat} {partition : Partition}

theorem classOf?_eq (apart : partition.Apart) (divides : partition.Divides states)
    (known : ∀ state ∈ states, state < dfa.size) :
    (ofClasses dfa.size partition.classes).classOf? = partition.classOf? := by
  funext state
  apply classOf?_ofClasses apart
  intro members member state shared
  exact known state (divides.mem_iff.mpr ⟨members, member, shared⟩)

/-- What is kept of a partition is refined as the partition is. -/
theorem refine_ofClasses (apart : partition.Apart) (divides : partition.Divides states)
    (known : ∀ state ∈ states, state < dfa.size) :
    (ofClasses dfa.size partition.classes).refine dfa =
      ofClasses dfa.size (partition.refine dfa).classes := by
  have signatures : (ofClasses dfa.size partition.classes).signature dfa =
      partition.signature dfa := by
    funext state
    rw [signature, classOf?_eq apart divides known, Partition.signature]
  have classes : (ofClasses dfa.size partition.classes).classes = partition.classes := rfl
  rw [refine, signatures, classes]
  simp only [foldl_add]
  rfl

theorem afterRounds_eq (known : ∀ state ∈ states, state < dfa.size) (rounds : Nat) :
    afterRounds dfa states rounds =
      ofClasses dfa.size (Partition.afterRounds dfa states rounds).classes := by
  induction rounds with
  | zero => rfl
  | succ rounds induction =>
      rw [afterRounds, Function.iterate_succ_apply', ← afterRounds, induction,
        refine_ofClasses (apart_afterRounds dfa states rounds)
          (divides_afterRounds dfa states rounds) known, afterRounds_succ]

/-- Whether classes and table tell the same of some states: the classes share them out in
their order, none is empty, and the table has every state at the position of its class. -/
structure Consistent (indexed : Indexed) (states : List Nat) : Prop where
  perm : indexed.classes.flatten.Perm states
  nonempty : ∀ members ∈ indexed.classes, members ≠ []
  ordered : ∀ members ∈ indexed.classes, members = states.filter (· ∈ members)
  classOf?_eq_some_iff : ∀ state position, indexed.classOf? state = some position ↔
    ∃ members, indexed.classes[position]? = some members ∧ state ∈ members
  classOf?_eq_none_iff : ∀ state, indexed.classOf? state = none ↔ state ∉ states

theorem consistent_ofClasses (apart : partition.Apart) (divides : partition.Divides states)
    (known : ∀ state ∈ states, state < dfa.size)
    (ordered : ∀ members ∈ partition.classes, members = states.filter (· ∈ members)) :
    (ofClasses dfa.size partition.classes).Consistent states where
  perm := divides.perm
  nonempty := divides.nonempty
  ordered := ordered
  classOf?_eq_some_iff := by
    intro state position
    rw [classOf?_eq apart divides known]
    exact apart.classOf?_eq_some_iff
  classOf?_eq_none_iff := by
    intro state
    rw [classOf?_eq apart divides known, ← Option.not_isSome_iff_eq_none,
      divides.isSome_classOf?_iff]

/-- Whatever the number of rounds is, classes and table tell the same. A further round
splits each class into its parts, one after the other, and changes nothing if and only if
there are as many classes as before. -/
theorem afterRounds_spec (dfa : Dfa) (states : List Nat)
    (known : ∀ state ∈ states, state < dfa.size) (rounds : Nat) :
    let indexed := afterRounds dfa states rounds
    let refined := indexed.refine dfa
    indexed.classes = (Partition.afterRounds dfa states rounds).classes ∧
      indexed.classOf? = (Partition.afterRounds dfa states rounds).classOf? ∧
      indexed.Consistent states ∧
      (∃ parts, refined.classes = parts.flatten ∧
        List.Forall₂ Splits indexed.classes parts) ∧
      (∀ group ∈ refined.classes, ∃ members ∈ indexed.classes, group ⊆ members) ∧
      (refined.size = indexed.size ↔ refined = indexed) := by
  intro indexed refined
  let partition := Partition.afterRounds dfa states rounds
  have apart : partition.Apart := apart_afterRounds dfa states rounds
  have divides : partition.Divides states := divides_afterRounds dfa states rounds
  have kept : indexed = ofClasses dfa.size partition.classes := afterRounds_eq known rounds
  have next : refined = ofClasses dfa.size (partition.refine dfa).classes := by
    rw [← refine_ofClasses apart divides known, ← kept]
  have positions : indexed.classOf? = partition.classOf? := by
    rw [kept, classOf?_eq apart divides known]
  have classes : indexed.classes = partition.classes := by rw [kept]; rfl
  have groups : refined.classes = (partition.refine dfa).classes := by rw [next]; rfl
  have consistent : indexed.Consistent states := by
    rw [kept]
    exact consistent_ofClasses apart divides known (ordered_afterRounds dfa states rounds)
  refine ⟨classes, positions, consistent, ?splits, ?within, ?same⟩
  case splits =>
    refine ⟨partition.classes.map (groupBy (partition.signature dfa)), groups, ?_⟩
    rw [classes, List.forall₂_map_right_iff, List.forall₂_same]
    exact fun members _ => splits_groupBy _ members
  case within =>
    intro group member
    rw [groups] at member
    rcases List.mem_flatMap.mp member with ⟨members, found, inside⟩
    exact ⟨members, classes ▸ found, subset_of_mem_groupBy inside⟩
  case same =>
    constructor
    · intro equal
      rw [size, size, groups, classes] at equal
      rw [next, kept, divides.refine_eq_self equal]
    · exact congrArg size

/-- One state is listed twice, and a transition leaves the states. -/
theorem afterRounds_spec_of_repeated_state :
    let dfa : Dfa := ⟨.ofList ["a"], [.ofList [("a", 1)], .ofList [("a", 2)], .empty], 0,
      .ofList [2]⟩
    let states := [1, 0, 0]
    let indexed := afterRounds dfa states 1
    (∀ state ∈ states, state < dfa.size) ∧
      indexed = ⟨[[1], [0, 0]], [some 1, some 0, none]⟩ ∧ indexed.Consistent states ∧
      indexed.refine dfa = indexed := by
  intro dfa states indexed
  have known : ∀ state ∈ states, state < dfa.size := by decide
  have spec := afterRounds_spec dfa states known 1
  exact ⟨known, by decide +kernel, spec.2.2.1, spec.2.2.2.2.2.mp (by decide +kernel)⟩

end Indexed

end WordAutomata.Partition
