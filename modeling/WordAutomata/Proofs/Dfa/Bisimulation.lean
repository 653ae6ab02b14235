import WordAutomata.Proofs.Dfa.Runs

namespace WordAutomata.Dfa

/-! Automata whose states go together answer alike. A run that has no transition
to go on with is in no state, which is written `none`; a state from which nothing
is accepted may go together with that. -/

/-- A relation between the states of two automata that every step over the
alphabet keeps, and that tells accepting states from others. -/
structure Bisimulation (left right : Dfa)
    (related : Option Nat → Option Nat → Prop) : Prop where
  start : related (some left.start) (some right.start)
  accepting : ∀ {leftState rightState}, related leftState rightState →
    leftState.any left.isAccepting = rightState.any right.isAccepting
  step : ∀ {leftState rightState}, related leftState rightState →
    ∀ symbol ∈ left.alphabet.toList,
      related (leftState.bind (left.next? · symbol)) (rightState.bind (right.next? · symbol))

variable {left right : Dfa} {related : Option Nat → Option Nat → Prop}
  {word : List String}

namespace Bisimulation

theorem decides_eq (bisimulation : Bisimulation left right related)
    {leftState rightState : Option Nat} (together : related leftState rightState)
    (allKnown : ∀ symbol ∈ word, symbol ∈ left.alphabet) :
    leftState.any (left.decides · word) = rightState.any (right.decides · word) := by
  induction word generalizing leftState rightState with
  | nil => exact bisimulation.accepting together
  | cons symbol rest induction =>
      rcases List.forall_mem_cons.mp allKnown with ⟨known, restKnown⟩
      have next := induction (bisimulation.step together symbol known) restKnown
      simpa only [decides_cons, Option.any_bind, Function.comp_def] using next

theorem run_eq (bisimulation : Bisimulation left right related)
    (alphabets : left.alphabet = right.alphabet)
    (allKnown : ∀ symbol ∈ word, symbol ∈ left.alphabet) :
    left.run word = right.run word := by
  have rightKnown : ∀ symbol ∈ word, symbol ∈ right.alphabet := alphabets ▸ allKnown
  have same := bisimulation.decides_eq bisimulation.start allKnown
  rw [Option.any_some, Option.any_some] at same
  rw [run, run, runFrom_of_forall_mem allKnown, runFrom_of_forall_mem rightKnown, same]

end Bisimulation

instance (left right : Dfa) (pairs : List (Option Nat × Option Nat)) :
    Decidable (Bisimulation left right fun leftState rightState =>
      (leftState, rightState) ∈ pairs) :=
  decidable_of_iff
    ((some left.start, some right.start) ∈ pairs ∧
      ∀ pair ∈ pairs,
        pair.1.any left.isAccepting = pair.2.any right.isAccepting ∧
        ∀ symbol ∈ left.alphabet.toList,
          (pair.1.bind (left.next? · symbol), pair.2.bind (right.next? · symbol)) ∈ pairs)
    ⟨fun given => ⟨given.1, fun member => (given.2 _ member).1,
      fun member => (given.2 _ member).2⟩,
     fun given => ⟨given.start, fun _ member =>
      ⟨given.accepting member, given.step member⟩⟩⟩

end WordAutomata.Dfa
