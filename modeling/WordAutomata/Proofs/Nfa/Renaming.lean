import Mathlib.Data.Fin.Rev
import WordAutomata.Proofs.Dfa.Subsets

namespace WordAutomata

/-! The subset construction does not look at the names of states. When the states of a
nondeterministic automaton change places, the sets that the construction meets hold other
numbers, but it meets them in the same order. -/

namespace Nfa

/-! ## Changing places

A permutation gives every state another place, in the order of the rows as well as in the
transitions. A number that is not that of a state stays where it is. -/

def relocate {size : Nat} (places : Equiv.Perm (Fin size)) (state : Nat) : Nat :=
  if inside : state < size then places ⟨state, inside⟩ else state

def relocateSet {size : Nat} (places : Equiv.Perm (Fin size)) (set : StateSet) : StateSet :=
  .ofList (set.toList.map (relocate places))

def rename (nfa : Nfa) (places : Equiv.Perm (Fin nfa.size)) : Nfa where
  rows := (List.range nfa.size).map fun state =>
    (nfa.row (relocate places.symm state)).map (relocateSet places)
  start := relocate places nfa.start
  final := relocate places nfa.final

section

variable {size state : Nat} {places : Equiv.Perm (Fin size)} {set : StateSet}

theorem relocate_lt_iff : relocate places state < size ↔ state < size := by
  rw [relocate]
  split
  · rename_i inside
    simp [inside]
  · exact Iff.rfl

theorem relocate_symm_relocate (places : Equiv.Perm (Fin size)) (state : Nat) :
    relocate places.symm (relocate places state) = state := by
  by_cases inside : state < size
  · have placed : relocate places state = places ⟨state, inside⟩ := dif_pos inside
    rw [placed, relocate, dif_pos (places _).isLt, Equiv.symm_apply_apply]
  · have placed : relocate places state = state := dif_neg inside
    rw [placed, relocate, dif_neg inside]

theorem relocate_relocate_symm (places : Equiv.Perm (Fin size)) (state : Nat) :
    relocate places (relocate places.symm state) = state :=
  relocate_symm_relocate places.symm state

theorem relocate_injective : Function.Injective (relocate places) :=
  Function.LeftInverse.injective (relocate_symm_relocate places)

theorem mem_relocateSet :
    state ∈ relocateSet places set ↔ ∃ source ∈ set, relocate places source = state := by
  rw [relocateSet, OrderedSet.mem_ofList, List.mem_map]
  rfl

theorem relocate_mem_relocateSet :
    relocate places state ∈ relocateSet places set ↔ state ∈ set := by
  rw [mem_relocateSet]
  constructor
  · intro given
    rcases given with ⟨source, member, same⟩
    exact relocate_injective same ▸ member
  · exact fun member => ⟨state, member, rfl⟩

theorem relocateSet_injective : Function.Injective (relocateSet places) := by
  intro left right same
  apply OrderedSet.ext
  intro state
  have moved : relocate places state ∈ relocateSet places left ↔
      relocate places state ∈ relocateSet places right := same ▸ Iff.rfl
  rwa [relocate_mem_relocateSet, relocate_mem_relocateSet] at moved

end

/-! ## Transitions -/

section

variable {nfa : Nfa} {places : Equiv.Perm (Fin nfa.size)} {set : StateSet}
  {source target state : Nat} {label : Label} {symbol : String} {word : List String}

theorem size_rename : (nfa.rename places).size = nfa.size := by
  rw [size, rename, List.length_map, List.length_range]

theorem row_rename :
    (nfa.rename places).row (relocate places state) =
      (nfa.row state).map (relocateSet places) := by
  by_cases inside : state < nfa.size
  · rw [row, rename, List.getElem?_map, List.getElem?_range (relocate_lt_iff.mpr inside),
      Option.map_some, Option.getD_some, relocate_symm_relocate]
  · have outside : nfa.rows.length ≤ state := Nat.le_of_not_lt inside
    have placedOutside : (nfa.rename places).rows.length ≤ relocate places state := by
      rw [← size, size_rename]
      exact Nat.le_of_not_lt (mt relocate_lt_iff.mp inside)
    rw [row, row, List.getElem?_eq_none outside, List.getElem?_eq_none placedOutside]
    rfl

theorem targets_rename :
    (nfa.rename places).targets (relocate places source) label =
      relocateSet places (nfa.targets source label) := by
  rw [targets_eq_row, targets_eq_row, row_rename, OrderedMap.get?_map]
  cases (nfa.row source).get? label <;> rfl

theorem labels_rename :
    (nfa.rename places).labels (relocate places state) = nfa.labels state := by
  rw [labels, ← row, row_rename, OrderedMap.keys_map]
  rfl

theorem alphabet_rename : (nfa.rename places).alphabet = nfa.alphabet := by
  apply OrderedSet.ext
  intro symbol
  rw [mem_alphabet_iff_labels, mem_alphabet_iff_labels]
  constructor
  · intro given
    rcases given with ⟨state, member⟩
    rw [← relocate_relocate_symm places state, labels_rename] at member
    exact ⟨_, member⟩
  · intro given
    rcases given with ⟨state, member⟩
    exact ⟨_, labels_rename ▸ member⟩

theorem path_rename_iff :
    (nfa.rename places).Path (relocate places source) word state ↔
      ∃ target, nfa.Path source word target ∧ relocate places target = state := by
  constructor
  · intro path
    generalize placed : relocate places source = first at path
    induction path generalizing source with
    | nil => exact ⟨source, .nil source, placed⟩
    | jump step _ induction =>
        rw [← placed, targets_rename, mem_relocateSet] at step
        rcases step with ⟨middle, step, middlePlaced⟩
        rcases induction middlePlaced with ⟨target, path, targetPlaced⟩
        exact ⟨target, .jump step path, targetPlaced⟩
    | read step _ induction =>
        rw [← placed, targets_rename, mem_relocateSet] at step
        rcases step with ⟨middle, step, middlePlaced⟩
        rcases induction middlePlaced with ⟨target, path, targetPlaced⟩
        exact ⟨target, .read step path, targetPlaced⟩
  · intro given
    rcases given with ⟨target, path, rfl⟩
    induction path with
    | nil => exact .nil _
    | jump step _ induction =>
        exact .jump (targets_rename ▸ relocate_mem_relocateSet.mpr step) induction
    | read step _ induction =>
        exact .read (targets_rename ▸ relocate_mem_relocateSet.mpr step) induction

theorem Within.rename (within : nfa.Within set) (places : Equiv.Perm (Fin nfa.size)) :
    (nfa.rename places).Within (relocateSet places set) := by
  intro state member
  rcases mem_relocateSet.mp member with ⟨source, known, rfl⟩
  rw [size_rename]
  exact relocate_lt_iff.mpr (within source known)

theorem move_rename :
    (nfa.rename places).move (relocateSet places set) symbol =
      relocateSet places (nfa.move set symbol) := by
  apply OrderedSet.ext
  intro state
  simp only [mem_move, mem_relocateSet]
  constructor
  · intro given
    rcases given with ⟨_, ⟨source, member, rfl⟩, step⟩
    rw [targets_rename, mem_relocateSet] at step
    rcases step with ⟨target, step, placed⟩
    exact ⟨target, ⟨source, member, step⟩, placed⟩
  · intro given
    rcases given with ⟨target, ⟨source, member, step⟩, rfl⟩
    refine ⟨_, ⟨source, member, rfl⟩, ?_⟩
    rw [targets_rename]
    exact relocate_mem_relocateSet.mpr step

end

/-! ## Sets of states -/

namespace InRange

variable {nfa : Nfa} (inRange : nfa.InRange) (places : Equiv.Perm (Fin nfa.size))
  {set : StateSet} {symbol : String}
include inRange

theorem rename : (nfa.rename places).InRange where
  start := by
    rw [size_rename]
    exact relocate_lt_iff.mpr inRange.start
  target := by
    intro source label target step
    rw [← relocate_relocate_symm places source, targets_rename,
      mem_relocateSet] at step
    rcases step with ⟨origin, step, rfl⟩
    rw [size_rename]
    exact relocate_lt_iff.mpr (inRange.target step)

theorem closure_rename (within : nfa.Within set) :
    (nfa.rename places).closure (relocateSet places set) =
      relocateSet places (nfa.closure set) := by
  apply OrderedSet.ext
  intro state
  rw [(inRange.rename places).mem_closure (within.rename places), mem_relocateSet]
  simp only [inRange.mem_closure within, mem_relocateSet]
  constructor
  · intro given
    rcases given with ⟨_, ⟨source, member, rfl⟩, path⟩
    rcases path_rename_iff.mp path with ⟨target, path, placed⟩
    exact ⟨target, ⟨source, member, path⟩, placed⟩
  · intro given
    rcases given with ⟨target, ⟨source, member, path⟩, placed⟩
    exact ⟨_, ⟨source, member, rfl⟩, path_rename_iff.mpr ⟨target, path, placed⟩⟩

theorem advance_rename :
    (nfa.rename places).advance (relocateSet places set) symbol =
      relocateSet places (nfa.advance set symbol) := by
  rw [advance, advance, move_rename, inRange.closure_rename places (inRange.within_move _ _)]

theorem initial_rename :
    (nfa.rename places).initial = relocateSet places nfa.initial := by
  have start : OrderedSet.singleton (nfa.rename places).start =
      relocateSet places (.singleton nfa.start) := rfl
  rw [initial, initial, start, inRange.closure_rename places (within_singleton inRange.start)]

/-- The places of the sets that are met are met in the same order. -/
theorem subsets_rename :
    (nfa.rename places).subsets = nfa.subsets.map (relocateSet places) := by
  have embeds : Traversal.Embeds
      (fun set => nfa.alphabet.toList.map (nfa.advance set))
      (fun set => nfa.alphabet.toList.map ((nfa.rename places).advance set))
      (relocateSet places) fun _ => True := {
    injective := fun _ _ _ _ same => relocateSet_injective same
    closed := fun _ _ _ _ => trivial
    commutes := by
      intro set _
      rw [List.map_map]
      exact List.map_congr_left fun symbol _ => inRange.advance_rename places }
  rw [subsets, subsets, alphabet_rename, size_rename, inRange.initial_rename,
    ← List.map_singleton]
  exact embeds.breadthFirst_map fun _ _ => trivial

end InRange

end Nfa

namespace Dfa

/-- Automata that differ in the order of their states only have the same automaton of
subsets, number by number. -/
theorem ofNfa_rename {nfa : Nfa} (inRange : nfa.InRange)
    (places : Equiv.Perm (Fin nfa.size)) : ofNfa (nfa.rename places) = ofNfa nfa := by
  have alphabets : (ofNfa (nfa.rename places)).alphabet = (ofNfa nfa).alphabet :=
    Nfa.alphabet_rename
  have rows : (ofNfa (nfa.rename places)).rows = (ofNfa nfa).rows := by
    simp only [ofNfa, Nfa.alphabet_rename, inRange.subsets_rename, List.map_map]
    apply List.map_congr_left
    intro set _
    simp only [Function.comp_apply, inRange.advance_rename,
      List.idxOf_map Nfa.relocateSet_injective]
  have accepting : (ofNfa (nfa.rename places)).accepting = (ofNfa nfa).accepting := by
    apply OrderedSet.ext
    intro state
    rw [mem_accepting_ofNfa, mem_accepting_ofNfa, inRange.subsets_rename, List.getElem?_map]
    simp only [Option.map_eq_some_iff]
    constructor
    · intro given
      rcases given with ⟨_, ⟨set, found, rfl⟩, final⟩
      exact ⟨set, found, Nfa.relocate_mem_relocateSet.mp final⟩
    · intro given
      rcases given with ⟨set, found, final⟩
      exact ⟨_, ⟨set, found, rfl⟩, Nfa.relocate_mem_relocateSet.mpr final⟩
  calc ofNfa (nfa.rename places)
      = ⟨(ofNfa (nfa.rename places)).alphabet, (ofNfa (nfa.rename places)).rows, 0,
          (ofNfa (nfa.rename places)).accepting⟩ := rfl
    _ = ⟨(ofNfa nfa).alphabet, (ofNfa nfa).rows, 0, (ofNfa nfa).accepting⟩ := by
        rw [alphabets, rows, accepting]
    _ = ofNfa nfa := rfl

/-- The states are listed backwards, a cycle of jumps and a state that nothing leads to among
them. -/
theorem ofNfa_rename_of_reversed_states :
    let nfa := Nfa.ofEdges 4 [⟨0, some "a", 1⟩, ⟨0, some "a", 2⟩, ⟨1, none, 2⟩, ⟨2, none, 1⟩,
      ⟨2, some "b", 0⟩, ⟨3, some "b", 3⟩] 0 2
    let renamed := nfa.rename Fin.revPerm
    nfa.InRange ∧ renamed.start = 3 ∧ renamed.final = 1 ∧ ofNfa renamed = ofNfa nfa := by
  intro nfa renamed
  have inRange : nfa.InRange := Nfa.inRange_ofEdges (by decide) (by decide)
  exact ⟨inRange, by decide +kernel, by decide +kernel, ofNfa_rename inRange Fin.revPerm⟩

end Dfa

end WordAutomata
