import Mathlib.Data.Set.Function
import Mathlib.Order.Interval.Set.Defs
import WordAutomata.Proofs.Dfa.Reloading

namespace WordAutomata

/-! The order of the states of an automaton that is written down and read again. They are
sorted by their names, and the name of 10 is before that of 2, so that from eleven states
on the automaton that is read has its states in another order than the one that was written. -/

/-- A member of an increasing list stands where there are as many before it as are
smaller. -/
theorem OrderedSet.idxOf_toList [Ord α] [DecidableEq α] [Std.TransOrd α]
    (set : OrderedSet α) {value : α} (member : value ∈ set) :
    set.toList.idxOf value = set.toList.countP (compare · value = .lt) := by
  rcases set with ⟨values, increasing⟩
  change value ∈ values at member
  change values.idxOf value = values.countP _
  induction values with
  | nil => cases member
  | cons head tail induction =>
      rcases List.pairwise_cons.mp increasing with ⟨least, tailIncreasing⟩
      rcases List.mem_cons.mp member with rfl | later
      · have none : (value :: tail).countP (compare · value = .lt) = 0 := by
          rw [List.countP_eq_zero]
          intro other among
          rcases List.mem_cons.mp among with rfl | after
          · simp [Std.ReflOrd.compare_self]
          · simp [Std.OrientedCmp.gt_of_lt (least other after)]
        rw [none, List.idxOf_cons_self]
      · have below := least value later
        have different : head ≠ value := by
          rintro rfl
          rw [Std.ReflOrd.compare_self] at below
          cases below
        rw [List.idxOf_cons_ne tail different, List.countP_cons_of_pos (by simpa using below),
          induction tailIncreasing later]

namespace Dfa

variable {dfa : Dfa} {size state : Nat}

/-! ## The order of the names -/

/-- The place of the name of a state among the names of so many states, in the order of
texts. -/
def nameRank (size state : Nat) : Nat :=
  (List.range size).countP (stateName · < stateName state)

theorem perm_keys_toDocument (dfa : Dfa) :
    dfa.toDocument.states.keys.toList.Perm ((List.range dfa.size).map stateName) := by
  rw [List.perm_ext_iff_of_nodup dfa.toDocument.states.keys.nodup
    (nodup_map_stateName List.nodup_range)]
  intro name
  rw [← OrderedSet.mem_iff, mem_keys_toDocument]
  simp only [List.mem_map, List.mem_range]

theorem size_reloaded (dfa : Dfa) : dfa.reloaded.size = dfa.size := by
  rw [Document.size_automaton, dfa.perm_keys_toDocument.length_eq, List.length_map,
    List.length_range]

/-- States are read in the order of their names. -/
theorem reloadedState_eq_nameRank (inside : state < dfa.size) :
    dfa.reloadedState state = nameRank dfa.size state := by
  have member : stateName state ∈ dfa.toDocument.states.keys :=
    mem_keys_toDocument.mpr ⟨state, inside, rfl⟩
  rw [reloadedState, Document.position, OrderedSet.idxOf_toList _ member,
    dfa.perm_keys_toDocument.countP_eq, List.countP_map, nameRank]
  congr 1
  funext other
  exact decide_eq_decide.mpr compareOfLessAndEq_eq_lt

theorem bijOn_reloadedState (dfa : Dfa) :
    Set.BijOn dfa.reloadedState (Set.Iio dfa.size) (Set.Iio dfa.size) := by
  refine ⟨?inside, ?distinct, ?all⟩
  case inside =>
    intro state inside
    have position := Document.position_lt (mem_keys_toDocument.mpr ⟨state, inside, rfl⟩)
    exact position.trans_eq dfa.size_reloaded
  case distinct =>
    intro left leftInside right _ same
    have member := mem_keys_toDocument.mpr ⟨left, leftInside, rfl⟩
    exact Document.toString_injective ((List.idxOf_inj member).mp same)
  case all =>
    intro state inside
    rcases Document.exists_position (inside.trans_eq dfa.size_reloaded.symm) with
      ⟨name, member, placed⟩
    rcases mem_keys_toDocument.mp member with ⟨source, sourceInside, rfl⟩
    exact ⟨source, sourceInside, placed⟩

/-! ## Reading what was written

If the start state and all targets exist, the automaton that is read has the states that
were written, in the order of their names. A reference to any other state is reported. -/

theorem exists_undefined_toDocument {failure : Error}
    (failed : ofDocument dfa.toDocument = .error failure) :
    ∃ state, dfa.size ≤ state ∧
      (state = dfa.start ∨ ∃ source symbol, dfa.next? source symbol = some state) ∧
      failure = .document (.undefinedState (stateName state)) := by
  rcases ofDocument_eq_error_iff.mp failed with ⟨name, undefined, rfl⟩
  have reference := List.mem_of_find?_eq_some undefined
  have absent : name ∉ dfa.toDocument.states.keys := by
    simpa using List.find?_some undefined
  rcases mem_references_toDocument.mp reference with ⟨state, rfl, referred⟩
  refine ⟨state, ?_, referred, rfl⟩
  rw [← Nat.not_lt]
  exact fun inside => absent (mem_keys_toDocument.mpr ⟨state, inside, rfl⟩)

theorem exists_error_ofDocument_toDocument (outside : dfa.size ≤ state)
    (referred : state = dfa.start ∨ ∃ source symbol, dfa.next? source symbol = some state) :
    ∃ failure, ofDocument dfa.toDocument = .error failure := by
  have absent : stateName state ∉ dfa.toDocument.states.keys := by
    intro member
    rcases mem_keys_toDocument.mp member with ⟨other, inside, same⟩
    rw [← Document.toString_injective same] at outside
    omega
  have reference := mem_references_toDocument.mpr ⟨state, rfl, referred⟩
  cases read : ofDocument dfa.toDocument with
  | error failure => exact ⟨failure, rfl⟩
  | ok reloaded =>
      have resolved := (ofDocument_eq_ok_iff.mp read).1
      exact absurd (Document.resolved_iff.mp resolved _ reference) absent

/-- An automaton of any size is read as it was written, but for the order of its states and
the symbols without transitions: its states come back in the order of their names. Where
the start state or a target does not exist, the document is refused. -/
theorem reload_spec (dfa : Dfa) :
    (dfa.InRange → ∃ reloaded, ofDocument dfa.toDocument = .ok reloaded ∧
      Set.BijOn (nameRank dfa.size) (Set.Iio dfa.size) (Set.Iio dfa.size) ∧
      reloaded.size = dfa.size ∧
      reloaded.start = nameRank dfa.size dfa.start ∧
      (∀ state < dfa.size,
        reloaded.isAccepting (nameRank dfa.size state) = dfa.isAccepting state) ∧
      (∀ state < dfa.size, ∀ symbol,
        reloaded.next? (nameRank dfa.size state) symbol =
          (dfa.next? state symbol).map (nameRank dfa.size)) ∧
      ∀ symbol, symbol ∈ reloaded.alphabet ↔ ∃ row ∈ dfa.rows, symbol ∈ row.keys) ∧
    (∀ state, dfa.size ≤ state →
      (state = dfa.start ∨ ∃ source symbol, dfa.next? source symbol = some state) →
      ∃ undefined, dfa.size ≤ undefined ∧
        (undefined = dfa.start ∨
          ∃ source symbol, dfa.next? source symbol = some undefined) ∧
        ofDocument dfa.toDocument =
          .error (.document (.undefinedState (stateName undefined)))) := by
  constructor
  case left =>
    intro inRange
    have same : ∀ state < dfa.size, dfa.reloadedState state = nameRank dfa.size state :=
      fun state inside => reloadedState_eq_nameRank inside
    have renamed := dfa.renaming_reloaded.congr inRange same
    refine ⟨dfa.reloaded, inRange.ofDocument_toDocument, dfa.bijOn_reloadedState.congr same,
      dfa.size_reloaded, renamed.start, renamed.accepting, renamed.step, fun symbol => ?_⟩
    rw [mem_alphabet_reloaded, exists_next?_iff]
  case right =>
    intro state outside referred
    rcases exists_error_ofDocument_toDocument outside referred with ⟨failure, failed⟩
    rcases exists_undefined_toDocument failed with ⟨undefined, beyond, reference, rfl⟩
    exact ⟨undefined, beyond, reference, failed⟩

/-- Of eleven states, the one with the name "10" is read before the one with the name "2".
Without it, what leads there is reported. -/
theorem reload_spec_of_eleven_states :
    let dfa : Dfa := {
      alphabet := .ofList ["a", "b", "c"]
      rows := .ofList [("a", 10), ("b", 2)] :: List.replicate 9 .empty ++ [.ofList [("a", 2)]]
      start := 10
      accepting := .ofList [2] }
    let ten : Dfa := { dfa with rows := dfa.rows.dropLast, start := 0 }
    dfa.InRange ∧
      (∃ reloaded, ofDocument dfa.toDocument = .ok reloaded ∧ reloaded.start = 2 ∧
        reloaded.next? 2 "a" = some 3 ∧ reloaded.isAccepting 3 = true ∧
        "c" ∉ reloaded.alphabet) ∧
      ten.size = 10 ∧ ten.next? 0 "a" = some 10 ∧
      ofDocument ten.toDocument = .error (.document (.undefinedState "10")) := by
  intro dfa ten
  have inRange : dfa.InRange := by decide +kernel
  have size : ten.size = 10 := by decide +kernel
  have missing : ten.next? 0 "a" = some 10 := by decide +kernel
  have largest : ∀ row ∈ ten.rows, ∀ target ∈ row.values, target ≤ 10 := by decide +kernel
  rcases (reload_spec dfa).1 inRange with
    ⟨reloaded, read, _, _, start, accepting, step, alphabet⟩
  rcases (reload_spec ten).2 10 size.le (.inr ⟨0, "a", missing⟩) with
    ⟨undefined, outside, referred, refused⟩
  refine ⟨inRange, ⟨reloaded, read, ?start, ?step, ?accepting, ?dropped⟩, size, missing, ?_⟩
  case start => exact start.trans (by decide +kernel)
  case step => exact (step 10 (by decide +kernel) "a").trans (by decide +kernel)
  case accepting => exact (accepting 2 (by decide +kernel)).trans (by decide +kernel)
  case dropped =>
    rw [alphabet]
    decide +kernel
  have bound : undefined ≤ 10 := by
    rcases referred with rfl | ⟨source, symbol, leads⟩
    · decide +kernel
    · exact forall_target_iff.mpr largest source symbol undefined leads
  have equal : undefined = 10 := by omega
  rw [refused, equal]
  rfl

end Dfa

end WordAutomata
