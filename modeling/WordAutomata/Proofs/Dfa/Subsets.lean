import Mathlib.Data.List.Sort
import Mathlib.Data.List.Sublists
import WordAutomata.Dfa.Subsets
import WordAutomata.Proofs.Dfa.Runs
import WordAutomata.Proofs.Nfa.Simulation

namespace WordAutomata

/-! The subset construction answers like the automaton it is made from. -/

namespace Nfa

variable {nfa : Nfa} {set : StateSet} {symbol : String} {word : List String}

theorem Within.sublist_range (within : nfa.Within set) :
    set.toList.Sublist (List.range nfa.size) := by
  have increasing : set.toList.Pairwise (· < ·) :=
    set.increasing.imp Nat.compare_eq_lt.mp
  have included : set.toList ⊆ List.range nfa.size :=
    fun state member => List.mem_range.mpr (within state member)
  exact List.sublist_of_subperm_of_pairwise (List.subperm_of_subset set.nodup included)
    increasing List.pairwise_lt_range

namespace InRange

variable (inRange : nfa.InRange)
include inRange

theorem within_closure (within : nfa.Within set) : nfa.Within (nfa.closure set) := by
  intro target member
  rcases (inRange.mem_closure within).mp member with ⟨source, known, path⟩
  exact inRange.lt_size_of_path (within source known) path

theorem within_initial : nfa.Within nfa.initial :=
  inRange.within_closure (within_singleton inRange.start)

theorem within_advance : nfa.Within (nfa.advance set symbol) :=
  inRange.within_closure (inRange.within_move set symbol)

/-- There are as many sets of states as there are sublists of the states. -/
theorem bounds_subsets :
    Traversal.Bounds
      (fun set => nfa.alphabet.toList.map (nfa.advance set)) [nfa.initial]
      (Nat.pow 2 nfa.size) := by
  intro sets nodup reached
  -- Only the last step of a path counts, as every step ends within the states.
  have within : ∀ set ∈ sets, nfa.Within set := by
    intro set member
    rcases reached set member with ⟨seed, seedMember, path⟩
    rcases path.cases_tail with rfl | ⟨before, _, step⟩
    · rw [List.mem_singleton.mp seedMember]
      exact inRange.within_initial
    · rcases List.mem_map.mp step with ⟨symbol, _, rfl⟩
      exact inRange.within_advance
  have lists : (sets.map OrderedSet.toList).Nodup :=
    List.Nodup.map (fun left right same => OrderedSet.ext fun state => by
      rw [OrderedSet.mem_iff, OrderedSet.mem_iff, same]) nodup
  have included : sets.map OrderedSet.toList ⊆ (List.range nfa.size).sublists := by
    intro list member
    rcases List.mem_map.mp member with ⟨set, setMember, rfl⟩
    exact List.mem_sublists.mpr (within set setMember).sublist_range
  have bound := (List.subperm_of_subset lists included).length_le
  rwa [List.length_map, List.length_sublists, List.length_range] at bound

theorem mem_subsets :
    set ∈ nfa.subsets ↔ Traversal.Reaches
      (fun set => nfa.alphabet.toList.map (nfa.advance set)) nfa.initial set := by
  rw [subsets, Traversal.mem_breadthFirst inRange.bounds_subsets]
  simp

theorem initial_mem_subsets : nfa.initial ∈ nfa.subsets :=
  inRange.mem_subsets.mpr .refl

theorem advance_mem_subsets (member : set ∈ nfa.subsets)
    (known : symbol ∈ nfa.alphabet) :
    nfa.advance set symbol ∈ nfa.subsets :=
  inRange.mem_subsets.mpr
    ((inRange.mem_subsets.mp member).tail (List.mem_map_of_mem known))

theorem nodup_subsets : nfa.subsets.Nodup :=
  Traversal.nodup_breadthFirst inRange.bounds_subsets

omit inRange in
theorem idxOf_initial : nfa.subsets.idxOf nfa.initial = 0 :=
  Traversal.idxOf_breadthFirst_seed (Nat.pow_pos (by decide))

end InRange

end Nfa

namespace Dfa

variable {nfa : Nfa} {set : StateSet} {symbol : String} {word : List String}

theorem next?_ofNfa {state target : Nat} :
    (ofNfa nfa).next? state symbol = some target ↔
      symbol ∈ nfa.alphabet ∧ ∃ set, nfa.subsets[state]? = some set ∧
        nfa.subsets.idxOf (nfa.advance set symbol) = target := by
  cases found : nfa.subsets[state]? with
  | none => simp [next?, row, ofNfa, found]
  | some set => simp [next?, row, ofNfa, found, OrderedMap.get?_tabulate]

theorem getElem?_idxOf (member : set ∈ nfa.subsets) :
    nfa.subsets[nfa.subsets.idxOf set]? = some set := by
  rw [List.getElem?_eq_getElem (List.idxOf_lt_length_of_mem member), List.getElem_idxOf]

theorem next?_ofNfa_idxOf (member : set ∈ nfa.subsets) (known : symbol ∈ nfa.alphabet) :
    (ofNfa nfa).next? (nfa.subsets.idxOf set) symbol =
      some (nfa.subsets.idxOf (nfa.advance set symbol)) :=
  next?_ofNfa.mpr ⟨known, set, getElem?_idxOf member, rfl⟩

theorem mem_accepting_ofNfa {state : Nat} :
    state ∈ (ofNfa nfa).accepting ↔
      ∃ set, nfa.subsets[state]? = some set ∧ nfa.final ∈ set := by
  have positions : state ∈ (ofNfa nfa).accepting ↔
      ∃ set, nfa.subsets[state]? = some set ∧ decide (nfa.final ∈ set) :=
    mem_positions_iff fun set : StateSet => decide (nfa.final ∈ set)
  simpa only [decide_eq_true_eq] using positions

theorem isAccepting_ofNfa_idxOf (member : set ∈ nfa.subsets) :
    (ofNfa nfa).isAccepting (nfa.subsets.idxOf set) = decide (nfa.final ∈ set) := by
  rw [isAccepting, decide_eq_decide, mem_accepting_ofNfa, getElem?_idxOf member]
  simp

theorem closed_ofNfa : (ofNfa nfa).Closed := fun step => (next?_ofNfa.mp step).1

variable (inRange : nfa.InRange)
include inRange

/-- The number of a set leads to the number of the set that the simulation comes to. -/
theorem follow?_ofNfa (member : set ∈ nfa.subsets)
    (allKnown : ∀ symbol ∈ word, symbol ∈ nfa.alphabet) :
    word.foldl nfa.advance set ∈ nfa.subsets ∧
      (ofNfa nfa).follow? (nfa.subsets.idxOf set) word =
        some (nfa.subsets.idxOf (word.foldl nfa.advance set)) := by
  induction word generalizing set with
  | nil => exact ⟨member, rfl⟩
  | cons symbol rest induction =>
      rcases List.forall_mem_cons.mp allKnown with ⟨known, restKnown⟩
      rw [follow?, next?_ofNfa_idxOf member known]
      exact induction (inRange.advance_mem_subsets member known) restKnown

theorem inRange_ofNfa : (ofNfa nfa).InRange where
  start := by
    have positive := List.length_pos_of_mem inRange.initial_mem_subsets
    simpa [ofNfa, size] using positive
  target := by
    intro source symbol target step
    rcases next?_ofNfa.mp step with ⟨known, set, found, rfl⟩
    have member := inRange.advance_mem_subsets (List.mem_of_getElem? found) known
    simpa [ofNfa, size] using List.idxOf_lt_length_of_mem member
  accepting := by
    intro state member
    rcases mem_accepting_ofNfa.mp member with ⟨set, found, _⟩
    have inside := (List.getElem?_eq_some_iff.mp found).1
    simpa [ofNfa, size] using inside

theorem decides_ofNfa (allKnown : ∀ symbol ∈ word, symbol ∈ nfa.alphabet) :
    (ofNfa nfa).decides (ofNfa nfa).start word = nfa.accepts word := by
  have start : (ofNfa nfa).start = nfa.subsets.idxOf nfa.initial :=
    Nfa.InRange.idxOf_initial.symm
  rcases follow?_ofNfa inRange inRange.initial_mem_subsets allKnown with ⟨member, leads⟩
  rw [decides, start, leads]
  exact isAccepting_ofNfa_idxOf member

theorem accepts_eq_false_of_foreign (member : symbol ∈ word)
    (foreign : symbol ∉ nfa.alphabet) :
    nfa.accepts word = false := by
  rw [← Bool.not_eq_true]
  intro accepted
  exact foreign ((inRange.accepts_iff.mp accepted).forall_mem_alphabet symbol member)

/-- The subset construction answers every word like the automaton it is made
from. Where that one takes a symbol outside its alphabet to nothing, the new one
reports the first such symbol. -/
theorem run_ofNfa (word : List String) :
    match word.find? (· ∉ nfa.alphabet) with
    | none => (ofNfa nfa).run word = .ok (nfa.accepts word)
    | some symbol =>
        (ofNfa nfa).run word = .error (.usage (.foreignSymbol symbol)) ∧
          nfa.accepts word = false := by
  split
  · rename_i none
    have allKnown : ∀ symbol ∈ word, symbol ∈ nfa.alphabet := by
      intro symbol member
      simpa using List.find?_eq_none.mp none symbol member
    rw [run, runFrom_of_forall_mem allKnown, decides_ofNfa inRange allKnown]
  · rename_i symbol found
    rcases List.find?_eq_some_iff_append.mp found with
      ⟨foreign, before, after, rfl, known⟩
    rw [decide_eq_true_eq] at foreign
    have allKnown : ∀ other ∈ before, other ∈ nfa.alphabet := by
      intro other member
      simpa using known other member
    rcases follow?_ofNfa inRange inRange.initial_mem_subsets allKnown with ⟨_, leads⟩
    rw [Nfa.InRange.idxOf_initial] at leads
    have somewhere : ((ofNfa nfa).follow? (ofNfa nfa).start before).isSome := by
      rw [Option.isSome_iff_exists]
      exact ⟨_, leads⟩
    refine ⟨?_, accepts_eq_false_of_foreign inRange (by simp) foreign⟩
    rw [run, runFrom_foreign allKnown foreign, if_pos somewhere]

omit inRange in
/-- The final state goes on, on the reserved symbol as well. -/
theorem run_ofNfa_of_final_with_transitions :
    let nfa := Nfa.ofEdges 2 [⟨0, some "a", 1⟩, ⟨1, some epsilon, 0⟩, ⟨1, none, 1⟩] 0 1
    nfa.InRange ∧ (ofNfa nfa).run ["a", epsilon, "a"] = .ok true ∧
      (ofNfa nfa).run ["a", "b"] = .error (.usage (.foreignSymbol "b")) := by
  intro nfa
  have inRange : nfa.InRange := Nfa.inRange_ofEdges (by decide) (by decide)
  have inside : ["a", epsilon, "a"].find? (· ∉ nfa.alphabet) = none := by decide +kernel
  have outside : ["a", "b"].find? (· ∉ nfa.alphabet) = some "b" := by decide +kernel
  have accepted : nfa.accepts ["a", epsilon, "a"] = true := by decide +kernel
  have answer := run_ofNfa inRange ["a", epsilon, "a"]
  have report := run_ofNfa inRange ["a", "b"]
  rw [inside, accepted] at answer
  rw [outside] at report
  exact ⟨inRange, answer, report.1⟩

end Dfa

end WordAutomata
