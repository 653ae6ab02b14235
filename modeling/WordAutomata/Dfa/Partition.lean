import WordAutomata.Dfa

namespace WordAutomata

/-! Partitions of states into classes, refined until no class can be split by
one more symbol. -/

structure Partition where
  classes : List (List Nat)
deriving DecidableEq, Repr

namespace Partition

def size (partition : Partition) : Nat := partition.classes.length

def classOf? (partition : Partition) (state : Nat) : Option Nat :=
  partition.classes.findIdx? (state ∈ ·)

/-- Group values by a key. The groups come in the order of their first members,
and the members of a group keep their order. -/
def groupBy [DecidableEq β] (key : α → β) (values : List α) : List (List α) :=
  let keyed := values.map fun value => (key value, value)
  (keyed.map Prod.fst).eraseDups.map fun shared =>
    (keyed.filter (·.1 = shared)).map Prod.snd

example : groupBy (· % 3) [4, 2, 1, 5, 3] = [[4, 1], [2, 5], [3]] := by decide

def initial (dfa : Dfa) (states : List Nat) : Partition :=
  ⟨[states.filter dfa.isAccepting, states.filter (!dfa.isAccepting ·)].filter (· ≠ [])⟩

/-- The classes that a state leads to under the symbols of the alphabet. A
missing transition and one that leaves the partition count alike. -/
def signature (partition : Partition) (dfa : Dfa) (state : Nat) : List (Option Nat) :=
  dfa.alphabet.toList.map fun symbol =>
    (dfa.next? state symbol).bind partition.classOf?

def refine (partition : Partition) (dfa : Dfa) : Partition :=
  ⟨partition.classes.flatMap (groupBy (partition.signature dfa))⟩

def rounds (dfa : Dfa) : Nat → Partition → List Partition
  | 0, _ => []
  | budget + 1, partition =>
      let refined := partition.refine dfa
      if refined.size = partition.size then [refined]
      else refined :: rounds dfa budget refined

/-- The refinements of the initial partition. Every one but the last has more
classes than the one before, so there are no more of them than states. -/
def refinements (dfa : Dfa) (states : List Nat) : List Partition :=
  rounds dfa (states.length + 1) (initial dfa states)

def coarsest (dfa : Dfa) (states : List Nat) : Partition :=
  (refinements dfa states).getLastD (initial dfa states)

end Partition

end WordAutomata
