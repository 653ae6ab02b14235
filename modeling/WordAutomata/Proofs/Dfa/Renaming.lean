import WordAutomata.Proofs.Dfa.Runs

namespace WordAutomata.Dfa

/-! Automata that differ in the names of their states only. -/

/-- A choice of a state of the second automaton for every state of the first one
that keeps the transitions, the missing ones included, and the accepting states. -/
structure Renaming (left right : Dfa) (image : Nat → Nat) : Prop where
  start : right.start = image left.start
  step : ∀ state < left.size, ∀ symbol,
    right.next? (image state) symbol = (left.next? state symbol).map image
  accepting : ∀ state < left.size,
    right.isAccepting (image state) = left.isAccepting state

namespace Renaming

variable {left right : Dfa} {image : Nat → Nat} {state : Nat} {word : List String}
  (renamed : Renaming left right image) (inRange : left.InRange)
include renamed inRange

theorem congr {other : Nat → Nat} (same : ∀ state < left.size, image state = other state) :
    Renaming left right other where
  start := renamed.start.trans (same left.start inRange.start)
  step := by
    intro state inside symbol
    rw [← same state inside, renamed.step state inside]
    exact Option.map_congr fun target step => same target (inRange.target step)
  accepting := by
    intro state inside
    rw [← same state inside, renamed.accepting state inside]

theorem follow?_eq (inside : state < left.size) :
    right.follow? (image state) word = (left.follow? state word).map image := by
  induction word generalizing state with
  | nil => rfl
  | cons symbol rest induction =>
      rw [follow?, follow?, renamed.step state inside]
      cases step : left.next? state symbol with
      | none => rfl
      | some target => exact induction (inRange.target step)

theorem decides_eq (word : List String) :
    right.decides right.start word = left.decides left.start word := by
  rw [decides, decides, renamed.start, renamed.follow?_eq inRange inRange.start]
  cases leads : left.follow? left.start word with
  | none => rfl
  | some target =>
      exact renamed.accepting target
        (follow?_lt_size (fun _ _ _ => inRange.target) inRange.start leads)

theorem run_eq (alphabets : right.alphabet = left.alphabet) (word : List String) :
    right.run word = left.run word := by
  rcases forall_mem_or_exists_foreign left.alphabet word with
    allKnown | ⟨before, symbol, after, rfl, allKnown, foreign⟩
  · rw [run, run, runFrom_of_forall_mem allKnown,
      runFrom_of_forall_mem (alphabets ▸ allKnown), renamed.decides_eq inRange]
  · have leads : (right.follow? right.start before).isSome =
        (left.follow? left.start before).isSome := by
      rw [renamed.start, renamed.follow?_eq inRange inRange.start, Option.isSome_map]
    rw [run, run, runFrom_foreign allKnown foreign,
      runFrom_foreign (alphabets ▸ allKnown) (alphabets ▸ foreign), leads]

theorem runText_eq (alphabets : right.alphabet = left.alphabet) (text : String) :
    right.runText text = left.runText text := by
  have splits : right.split text = left.split text := by rw [split, split, alphabets]
  rw [runText, runText, splits]
  exact congrArg (left.split text >>= ·) (funext (renamed.run_eq inRange alphabets))

end Renaming

end WordAutomata.Dfa
