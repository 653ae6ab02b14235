import WordAutomata.Proofs.Dfa.Bisimulation
import WordAutomata.Proofs.Dfa.Saturation

namespace WordAutomata

/-! The minimal automaton is a matter of the alphabet and the answers alone, the
numbers of its states included. -/

open WordAutomata.Partition

namespace Dfa

variable {dfa : Dfa} {position start : Nat} {symbol : String}

namespace InRange

variable (inRange : dfa.InRange)
include inRange

theorem classOf?_start_eq_place? :
    dfa.merged.classOf? dfa.start =
      place? (dfa.merged.residuals dfa) (dfa.decides dfa.start) := by
  have divides := divides_coarsest dfa dfa.useful
  have reached : ∀ state, some dfa.start = some state →
      ∃ access, dfa.follow? dfa.start access = some state := by
    intro state equal
    exact ⟨[], equal⟩
  exact inRange.bind_classOf?_eq_place? divides inRange.saturated_merged reached

theorem next?_quotient_eq_place? :
    (dfa.quotient dfa.merged start).next? position symbol =
      ((dfa.merged.residuals dfa)[position]?.bind List.head?).bind fun answers =>
        place? (dfa.merged.residuals dfa) (residual answers [symbol]) := by
  have divides := divides_coarsest dfa dfa.useful
  rw [head?_residuals]
  cases found : dfa.merged.classes[position]? with
  | none => simp [next?, row, quotient, found]
  | some members =>
      cases head : members.head? with
      | none =>
          have empty : members = [] := List.head?_eq_none_iff.mp head
          exact absurd empty (divides.nonempty members (List.mem_of_getElem? found))
      | some first =>
          have useful : first ∈ dfa.useful := divides.mem_iff.mpr
            ⟨members, List.mem_of_getElem? found, List.mem_of_mem_head? head⟩
          rw [next?_quotient found head,
            inRange.bind_next?_eq_place? divides inRange.saturated_merged useful]
          simp [head]

end InRange

theorem rows_ext {left right : Dfa} (size : left.size = right.size)
    (same : ∀ state symbol, left.next? state symbol = right.next? state symbol) :
    left.rows = right.rows := by
  apply List.ext_getElem size
  intro state leftInside rightInside
  apply OrderedMap.ext_get?
  intro symbol
  have entries := same state symbol
  rwa [next?, next?, row, row, List.getElem?_eq_getElem leftInside,
    List.getElem?_eq_getElem rightInside, Option.getD_some, Option.getD_some] at entries

section

variable {left right : Dfa} (leftInRange : left.InRange) (rightInRange : right.InRange)
  (alphabets : left.alphabet = right.alphabet)
  (answers : left.decides left.start = right.decides right.start)
include leftInRange rightInRange answers

open Classical in
theorem eraseDups_map_useful_eq :
    (left.useful.map left.decides).eraseDups =
    (right.useful.map right.decides).eraseDups := by
  rcases leftInRange.exists_words_of_useful with
    ⟨leftWords, leftEq, leftSorted, leftMem⟩
  rcases rightInRange.exists_words_of_useful with
    ⟨rightWords, rightEq, rightSorted, rightMem⟩
  have words : leftWords = rightWords := by
    apply leftSorted.eq_of_mem_iff rightSorted
    intro word
    rw [leftMem, rightMem, answers]
  rw [leftEq, rightEq, words, answers]

include alphabets

theorem residuals_merged_eq :
    left.merged.residuals left = right.merged.residuals right := by
  -- Both partitions are the same after as many rounds as the larger one needs.
  have leftEnough :
      left.useful.length < left.useful.length + right.useful.length + 1 := by omega
  have rightEnough :
      right.useful.length < left.useful.length + right.useful.length + 1 := by omega
  rw [merged, merged, coarsest_eq_afterRounds leftEnough,
    coarsest_eq_afterRounds rightEnough,
    leftInRange.residuals_afterRounds, rightInRange.residuals_afterRounds, alphabets,
    eraseDups_map_useful_eq leftInRange rightInRange answers]

theorem minimize_eq : left.minimize = right.minimize := by
  have residuals := residuals_merged_eq leftInRange rightInRange alphabets answers
  have starts : left.merged.classOf? left.start =
      right.merged.classOf? right.start := by
    rw [leftInRange.classOf?_start_eq_place?,
      rightInRange.classOf?_start_eq_place?, residuals,
      answers]
  cases found : right.merged.classOf? right.start with
  | none =>
      rw [minimize_of_classOf?_eq_none (starts.trans found),
        minimize_of_classOf?_eq_none found,
        alphabets]
  | some start =>
      rw [minimize_of_classOf?_eq_some (starts.trans found),
        minimize_of_classOf?_eq_some found]
      have size : (left.quotient left.merged start).size =
          (right.quotient right.merged start).size := by
        have lengths := congrArg List.length residuals
        rw [Partition.residuals, Partition.residuals, List.length_map,
          List.length_map] at lengths
        rwa [size_quotient, size_quotient]
      have rows : (left.quotient left.merged start).rows =
          (right.quotient right.merged start).rows := by
        apply rows_ext size
        intro state symbol
        rw [leftInRange.next?_quotient_eq_place?,
          rightInRange.next?_quotient_eq_place?, residuals]
      have accepting : (left.quotient left.merged start).accepting =
          (right.quotient right.merged start).accepting := by
        apply OrderedSet.ext
        intro state
        rw [mem_accepting_quotient_iff, mem_accepting_quotient_iff,
          residuals]
      rw [quotient, quotient, Dfa.mk.injEq]
      exact ⟨alphabets, rows, rfl, accepting⟩

end

section

variable {left right : Dfa} (leftInRange : left.InRange) (rightInRange : right.InRange)
  (leftClosed : left.Closed) (rightClosed : right.Closed)
  (alphabets : left.alphabet = right.alphabet)
include leftInRange rightInRange leftClosed rightClosed alphabets

/-- Where all transitions are on symbols of the alphabet, only the answers to words
over it count. -/
theorem minimize_eq_of_run_eq
    (same : ∀ word : List String, (∀ symbol ∈ word, symbol ∈ left.alphabet) →
      left.run word = right.run word) : left.minimize = right.minimize := by
  apply minimize_eq leftInRange rightInRange alphabets
  apply leftClosed.decides_ext rightClosed alphabets
  intro word allKnown
  exact decides_eq_of_run_eq alphabets allKnown (same word allKnown)

/-- The minimal automaton is a canonical form. Automata have the same one if and only
if they have the same answers over the alphabet. So it is its own minimal automaton,
and it does not show how states are numbered, whether some occur more than once, or
whether there are some that no accepted word passes. -/
theorem minimize_canonical :
    (left.minimize = right.minimize ↔
      ∀ word : List String, (∀ symbol ∈ word, symbol ∈ left.alphabet) →
        left.run word = right.run word) ∧
      left.minimize.minimize = left.minimize ∧
      ∀ related, Bisimulation left right related → left.minimize = right.minimize := by
  have canonical := minimize_eq_of_run_eq leftInRange rightInRange leftClosed rightClosed
    alphabets
  refine ⟨⟨?answers, canonical⟩, ?idempotent, ?paired⟩
  case answers =>
    intro same word allKnown
    have rightKnown : ∀ symbol ∈ word, symbol ∈ right.alphabet := alphabets ▸ allKnown
    rw [← leftInRange.run_minimize allKnown, same, rightInRange.run_minimize rightKnown]
  case idempotent =>
    apply minimize_eq_of_run_eq left.inRange_minimize leftInRange leftClosed.minimize
      leftClosed (alphabet_minimize left)
    intro word allKnown
    rw [alphabet_minimize] at allKnown
    exact leftInRange.run_minimize allKnown
  case paired =>
    intro related bisimulation
    exact canonical fun word allKnown => bisimulation.run_eq alphabets allKnown

end

/-- The second automaton has both states of the first one twice and in another order,
a state from which nothing is accepted, and one that is not reached. -/
theorem minimize_canonical_of_other_states :
    let left : Dfa := ⟨.ofList ["a", "b"], [.ofList [("a", 1)], .ofList [("b", 0)]], 0,
      .ofList [1]⟩
    let right : Dfa := ⟨.ofList ["a", "b"],
      [.ofList [("a", 3), ("b", 4)], .ofList [("a", 3), ("b", 2)],
        .ofList [("a", 0), ("b", 3)], .ofList [("a", 3), ("b", 3)],
        .ofList [("a", 1), ("b", 3)], .ofList [("a", 4)]], 4, .ofList [0, 1, 5]⟩
    left.InRange ∧ right.InRange ∧ left.Closed ∧ right.Closed ∧
      left.alphabet = right.alphabet ∧ left.minimize = right.minimize ∧
      left.minimize.minimize = left.minimize := by
  intro left right
  have leftInRange : left.InRange := by decide +kernel
  have rightInRange : right.InRange := by decide +kernel
  have leftClosed : left.Closed := by decide +kernel
  have rightClosed : right.Closed := by decide +kernel
  have alphabets : left.alphabet = right.alphabet := rfl
  have bisimulation : Bisimulation left right fun leftState rightState =>
      (leftState, rightState) ∈ [(some 0, some 4), (some 1, some 1), (some 0, some 2),
        (some 1, some 0), (none, some 3)] := by decide +kernel
  rcases minimize_canonical leftInRange rightInRange leftClosed rightClosed alphabets with
    ⟨_, idempotent, paired⟩
  exact ⟨leftInRange, rightInRange, leftClosed, rightClosed, alphabets,
    paired _ bisimulation, idempotent⟩

end Dfa

end WordAutomata
