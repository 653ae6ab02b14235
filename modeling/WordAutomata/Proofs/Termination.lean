import Mathlib.Logic.Relation

namespace WordAutomata

/-! Processes that go on step by step until no step is possible. -/

variable {σ : Type u} {step : σ → σ → Prop} {holds other : σ → Prop} {start : σ}

/-- Whether every run from a state comes to an end, and a condition holds wherever one
does. Where several steps are possible, this is so whichever is taken. -/
structure Ends (step : σ → σ → Prop) (holds : σ → Prop) (start : σ) : Prop where
  terminates : Acc (Function.swap step) start
  final : ∀ state, Relation.ReflTransGen step start state →
    (∀ later, ¬ step state later) → holds state

namespace Ends

theorem imp (ends : Ends step holds start) (implies : ∀ state, holds state → other state) :
    Ends step other start where
  terminates := ends.terminates
  final := fun state run stopped => implies state (ends.final state run stopped)

/-- What every step keeps holds at the end, and there is an end if every step leaves less
to do. -/
theorem of_invariant (Invariant : σ → Prop) (left : σ → Nat)
    (keep : ∀ state later, Invariant state → step state later →
      Invariant later ∧ left later < left state)
    (finish : ∀ state, Invariant state → (∀ later, ¬ step state later) → holds state)
    (begins : Invariant start) : Ends step holds start := by
  refine ⟨?terminates, ?final⟩
  case terminates =>
    induction amount : left start using Nat.strongRecOn generalizing start with
    | _ amount induction =>
        refine ⟨_, fun later taken => ?_⟩
        rcases keep start later begins taken with ⟨kept, less⟩
        exact induction (left later) (amount ▸ less) kept rfl
  case final =>
    intro state run stopped
    have kept : Invariant state := by
      clear stopped
      induction run with
      | refl => exact begins
      | tail _ taken induction => exact (keep _ _ induction taken).1
    exact finish state kept stopped

end Ends

end WordAutomata
