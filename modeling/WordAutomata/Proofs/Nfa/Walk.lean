import Mathlib.Computability.Language
import WordAutomata.Nfa.Path
import WordAutomata.Nfa.Thompson

namespace WordAutomata

/-! Runs along a list of edges, and what they read on the way out of a block of
states. -/

namespace Edge

inductive Walk (edges : List Edge) : Nat → List String → Nat → Prop
  | nil (state : Nat) : Walk edges state [] state
  | step {source middle target : Nat} {label : Label} {word : List String} :
      ⟨source, label, middle⟩ ∈ edges → Walk edges middle word target →
      Walk edges source (label.toList ++ word) target

namespace Walk

variable {edges : List Edge} {source middle target : Nat} {word : List String}

theorem jump (edge : Edge.jump source middle ∈ edges)
    (rest : Walk edges middle word target) :
    Walk edges source word target :=
  .step edge rest

theorem append {left right : List String} (first : Walk edges source left middle)
    (second : Walk edges middle right target) :
    Walk edges source (left ++ right) target := by
  induction first with
  | nil => exact second
  | step edge _ induction =>
      rw [List.append_assoc]
      exact .step edge (induction second)

theorem mono {more : List Edge} (subset : edges ⊆ more)
    (walk : Walk edges source word target) :
    Walk more source word target := by
  induction walk with
  | nil => exact .nil _
  | step edge _ induction => exact .step (subset edge) induction

theorem leave (walk : Walk edges source word middle)
    (edge : Edge.jump middle target ∈ edges) :
    Walk edges source word target := by
  have whole := walk.append (.jump edge (.nil target))
  rwa [List.append_nil] at whole

/-- When every edge reads what its target leaves to be read, so does a walk to
the exit, where nothing is left. -/
theorem mem_of_backward {exit : Nat} (meaning : Nat → Language String)
    (final : [] ∈ meaning exit)
    (backward : ∀ edge ∈ edges, ∀ rest ∈ meaning edge.target,
      edge.label.toList ++ rest ∈ meaning edge.source)
    (walk : Walk edges source word exit) : word ∈ meaning source := by
  induction walk with
  | nil => exact final
  | step edge _ induction => exact backward _ edge _ (induction final)

end Walk

def Confined (edges : List Edge) (base size : Nat) : Prop :=
  ∀ edge ∈ edges, (base ≤ edge.source ∧ edge.source < base + size) ∧
    base ≤ edge.target ∧ edge.target < base + size

/-! ## Remainders -/

def remainder (edges : List Edge) (exit state : Nat) : Language String :=
  {word | Walk edges state word exit}

end Edge

/-! ## Automata -/

namespace Nfa

theorem path_ofEdges_iff {size start final source target : Nat} {edges : List Edge}
    {word : List String} (inside : ∀ edge ∈ edges, edge.source < size) :
    (ofEdges size edges start final).Path source word target ↔
      Edge.Walk edges source word target := by
  constructor
  · intro path
    induction path with
    | nil state => exact .nil state
    | jump step _ induction => exact .step (mem_targets_ofEdges.mp step).2 induction
    | read step _ induction => exact .step (mem_targets_ofEdges.mp step).2 induction
  · intro walk
    induction walk with
    | nil state => exact .nil state
    | @step source middle target label word edge _ induction =>
        have reached : middle ∈ (ofEdges size edges start final).targets source label :=
          mem_targets_ofEdges.mpr ⟨inside _ edge, edge⟩
        cases label with
        | none => exact .jump reached induction
        | some symbol => exact .read reached induction

end Nfa

end WordAutomata
