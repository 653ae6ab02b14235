import WordAutomata.Proofs.Dfa.Subsets

namespace WordAutomata.Dfa

/-! The states of the subset construction. Their numbers are those of a breadth-first
search, and each stands for what the automaton may have come to after some words. -/

variable {nfa : Nfa} {set : StateSet} {word : List String}

theorem row_ofNfa (member : set ∈ nfa.subsets) :
    (ofNfa nfa).row (nfa.subsets.idxOf set) =
      .tabulate nfa.alphabet fun symbol => nfa.subsets.idxOf (nfa.advance set symbol) := by
  have found : (ofNfa nfa).rows[nfa.subsets.idxOf set]? = _ :=
    List.getElem?_map.trans (congrArg _ (getElem?_idxOf member))
  rw [row, found]
  rfl

theorem values_row_ofNfa (member : set ∈ nfa.subsets) :
    ((ofNfa nfa).row (nfa.subsets.idxOf set)).values =
      (nfa.alphabet.toList.map (nfa.advance set)).map nfa.subsets.idxOf := by
  rw [row_ofNfa member, OrderedMap.values, OrderedMap.tabulate, List.map_map, List.map_map]
  rfl

variable (inRange : nfa.InRange)
include inRange

/-! ## Numbers -/

theorem size_ofNfa_le : (ofNfa nfa).size ≤ Nat.pow 2 nfa.size := by
  have bound := inRange.bounds_subsets nfa.subsets inRange.nodup_subsets fun set member =>
    ⟨nfa.initial, List.mem_singleton_self _, inRange.mem_subsets.mp member⟩
  rw [size, ofNfa, List.length_map]
  exact bound

theorem embeds_idxOf :
    Traversal.Embeds (fun set => nfa.alphabet.toList.map (nfa.advance set))
      (fun state => ((ofNfa nfa).row state).values) nfa.subsets.idxOf
      (· ∈ nfa.subsets) where
  injective := fun _ member _ _ same => (List.idxOf_inj member).mp same
  closed := by
    intro set member target step
    rcases List.mem_map.mp step with ⟨symbol, known, rfl⟩
    exact inRange.advance_mem_subsets member known
  commutes := fun _ member => values_row_ofNfa member

/-- A search from the start state meets the states in the order of their numbers. -/
theorem reachable_ofNfa : (ofNfa nfa).reachable = List.range (ofNfa nfa).size := by
  have bounded := (inRange_ofNfa inRange).bounds_reachable
  have seeds : [(ofNfa nfa).start] = [nfa.initial].map nfa.subsets.idxOf := by
    rw [List.map_singleton, Nfa.InRange.idxOf_initial]
    rfl
  have numbered : (ofNfa nfa).reachable = nfa.subsets.map nfa.subsets.idxOf := by
    rw [reachable, ← Traversal.breadthFirst_eq_of_le bounded (size_ofNfa_le inRange), seeds]
    apply (embeds_idxOf inRange).breadthFirst_map
    intro seed member
    rw [List.mem_singleton.mp member]
    exact inRange.initial_mem_subsets
  rw [numbered, List.map_idxOf_self inRange.nodup_subsets, size, ofNfa, List.length_map]

theorem exists_follow?_ofNfa {state : Nat} (inside : state < (ofNfa nfa).size) :
    ∃ word, (ofNfa nfa).follow? (ofNfa nfa).start word = some state := by
  rw [← (inRange_ofNfa inRange).mem_reachable, reachable_ofNfa inRange]
  exact List.mem_range.mpr inside

/-! ## Words -/

theorem foldl_mem_subsets (allKnown : ∀ symbol ∈ word, symbol ∈ nfa.alphabet) :
    word.foldl nfa.advance nfa.initial ∈ nfa.subsets :=
  (follow?_ofNfa inRange inRange.initial_mem_subsets allKnown).1

theorem follow?_start_ofNfa (allKnown : ∀ symbol ∈ word, symbol ∈ nfa.alphabet) :
    (ofNfa nfa).follow? (ofNfa nfa).start word =
      some (nfa.subsets.idxOf (word.foldl nfa.advance nfa.initial)) := by
  have leads := (follow?_ofNfa inRange inRange.initial_mem_subsets allKnown).2
  rwa [Nfa.InRange.idxOf_initial] at leads

/-- Words lead to one state if and only if runs over them come to the same states. -/
theorem follow?_start_ofNfa_eq_iff {other : List String}
    (allKnown : ∀ symbol ∈ word, symbol ∈ nfa.alphabet)
    (otherKnown : ∀ symbol ∈ other, symbol ∈ nfa.alphabet) :
    (ofNfa nfa).follow? (ofNfa nfa).start word =
        (ofNfa nfa).follow? (ofNfa nfa).start other ↔
      ∀ state, nfa.Path nfa.start word state ↔ nfa.Path nfa.start other state := by
  rw [follow?_start_ofNfa inRange allKnown, follow?_start_ofNfa inRange otherKnown,
    Option.some.injEq, List.idxOf_inj (foldl_mem_subsets inRange allKnown)]
  simp only [← inRange.mem_foldl_initial]
  exact ⟨fun same _ => same ▸ Iff.rfl, OrderedSet.ext⟩

/-- The subset construction numbers the sets of states after some word by a
breadth-first search. Every set has a row for the whole alphabet, and words lead to
the same number if and only if they lead to the same set. -/
theorem ofNfa_spec :
    (ofNfa nfa).start = 0 ∧
      (∀ row ∈ (ofNfa nfa).rows, row.keys = nfa.alphabet ∧
        ∀ target ∈ row.values, target < (ofNfa nfa).size) ∧
      (ofNfa nfa).size ≤ Nat.pow 2 nfa.size ∧
      (ofNfa nfa).reachable = List.range (ofNfa nfa).size ∧
      (∀ word : List String, (∀ symbol ∈ word, symbol ∈ nfa.alphabet) →
        ∃ state, (ofNfa nfa).follow? (ofNfa nfa).start word = some state ∧
          ((ofNfa nfa).isAccepting state ↔ nfa.Path nfa.start word nfa.final)) ∧
      ∀ left right : List String, (∀ symbol ∈ left, symbol ∈ nfa.alphabet) →
        (∀ symbol ∈ right, symbol ∈ nfa.alphabet) →
        ((ofNfa nfa).follow? (ofNfa nfa).start left =
            (ofNfa nfa).follow? (ofNfa nfa).start right ↔
          ∀ state, nfa.Path nfa.start left state ↔ nfa.Path nfa.start right state) := by
  refine ⟨rfl, ?rows, size_ofNfa_le inRange, reachable_ofNfa inRange, ?accepting,
    fun left right => follow?_start_ofNfa_eq_iff inRange⟩
  case rows =>
    intro row member
    refine ⟨?_, (inRange_iff.mp (inRange_ofNfa inRange)).2.1 row member⟩
    rcases List.mem_map.mp member with ⟨set, _, rfl⟩
    exact OrderedMap.keys_tabulate _ _
  case accepting =>
    intro word allKnown
    refine ⟨_, follow?_start_ofNfa inRange allKnown, ?_⟩
    rw [isAccepting_ofNfa_idxOf (foldl_mem_subsets inRange allKnown), decide_eq_true_eq,
      inRange.mem_foldl_initial]

omit inRange in
/-- There are a cycle of jumps and a state that nothing leads to. Two words that lead to
one number can be told apart by no run. -/
theorem ofNfa_spec_of_jump_cycle :
    let nfa := Nfa.ofEdges 4 [⟨0, some "a", 1⟩, ⟨1, none, 2⟩, ⟨2, none, 1⟩,
      ⟨2, some "a", 0⟩, ⟨3, some "b", 3⟩] 0 2
    nfa.InRange ∧ (ofNfa nfa).reachable = [0, 1, 2] ∧
      ∀ state, nfa.Path nfa.start ["a"] state ↔ nfa.Path nfa.start ["a", "a", "a"] state := by
  intro nfa
  have inRange : nfa.InRange := Nfa.inRange_ofEdges (by decide) (by decide)
  rcases ofNfa_spec inRange with ⟨_, _, _, numbered, _, words⟩
  have size : (ofNfa nfa).size = 3 := by decide +kernel
  rw [size] at numbered
  refine ⟨inRange, numbered, (words _ _ ?_ ?_).mp ?_⟩
  all_goals decide +kernel

end WordAutomata.Dfa
