namespace WordAutomata

/-! Small consecutive numbers for states, given out in the order in which the
states are first asked for. -/

structure Numbering where
  states : List Nat
  nodup : states.Nodup
deriving DecidableEq, Repr

namespace Numbering

def empty : Numbering := ⟨[], .nil⟩

def size (numbering : Numbering) : Nat := numbering.states.length

def isEmpty (numbering : Numbering) : Bool := numbering.states.isEmpty

def add (numbering : Numbering) (state : Nat) : Numbering :=
  if known : state ∈ numbering.states then numbering
  else
    ⟨numbering.states ++ [state], by
      rw [List.nodup_append]
      refine ⟨numbering.nodup, by simp, fun left member right same => ?_⟩
      rw [List.mem_singleton.mp same]
      exact fun equal => known (equal ▸ member)⟩

def addAll (numbering : Numbering) (states : List Nat) : Numbering :=
  states.foldl add numbering

def number (numbering : Numbering) (state : Nat) : Nat :=
  numbering.states.idxOf state

def name (numbering : Numbering) (state : Nat) : String :=
  toString (numbering.number state)

example :
    let numbering := empty.addAll [7, 3, 7, 0]
    numbering.states = [7, 3, 0] ∧ numbering.name 0 = "2" := by decide +kernel

end Numbering

end WordAutomata
