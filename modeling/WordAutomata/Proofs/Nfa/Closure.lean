import WordAutomata.Proofs.Nfa.Simulation
import WordAutomata.Proofs.Traversal.Worklist

namespace WordAutomata

/-! Sets of states that jumps do not leave. The closure of a set is the least of those that
hold its members, and all that is said about closures follows from that. -/

namespace OrderedSet

variable {α : Type u} [Ord α] [Std.TransOrd α]

def union (left right : OrderedSet α) : OrderedSet α := ofList (left.toList ++ right.toList)

@[simp] theorem mem_union [Std.LawfulEqOrd α] {left right : OrderedSet α} {value : α} :
    value ∈ left.union right ↔ value ∈ left ∨ value ∈ right := by
  rw [union, mem_ofList, List.mem_append]
  rfl

end OrderedSet

namespace Nfa

variable {nfa : Nfa} {set small large left right result other : StateSet} {state : Nat}

def jumps (nfa : Nfa) (state : Nat) : List Nat := (nfa.targets state none).toList

def KeepsJumps (nfa : Nfa) (inside : Nat → Prop) : Prop :=
  ∀ source, inside source → ∀ target ∈ nfa.targets source none, inside target

/-- Whether a set holds the members of another one and is not left by jumps, and no set of
numbers with these two properties lacks any of its members. -/
structure LeastClosed (nfa : Nfa) (set result : StateSet) : Prop where
  contains : ∀ state ∈ set, state ∈ result
  closed : nfa.KeepsJumps (· ∈ result)
  least : ∀ inside : Nat → Prop, (∀ state ∈ set, inside state) → nfa.KeepsJumps inside →
    ∀ state ∈ result, inside state

namespace LeastClosed

theorem mono (smallClosed : nfa.LeastClosed small result)
    (largeClosed : nfa.LeastClosed large other) (subset : ∀ state ∈ small, state ∈ large) :
    ∀ state ∈ result, state ∈ other :=
  smallClosed.least _ (fun state member => largeClosed.contains state (subset state member))
    largeClosed.closed

theorem eq_of_keepsJumps (closed : nfa.LeastClosed set result)
    (kept : nfa.KeepsJumps (· ∈ set)) : result = set :=
  OrderedSet.ext fun state =>
    ⟨closed.least _ (fun _ member => member) kept state, closed.contains state⟩

theorem union (leftClosed : nfa.LeastClosed left result)
    (rightClosed : nfa.LeastClosed right other) :
    nfa.LeastClosed (left.union right) (result.union other) where
  contains := by
    intro state member
    rw [OrderedSet.mem_union] at member ⊢
    exact member.imp (leftClosed.contains state) (rightClosed.contains state)
  closed := by
    intro source member target step
    rw [OrderedSet.mem_union] at member ⊢
    exact member.imp (fun known => leftClosed.closed source known target step)
      (fun known => rightClosed.closed source known target step)
  least := by
    intro inside holds kept state member
    simp only [OrderedSet.mem_union] at holds member
    rcases member with member | member
    · exact leftClosed.least inside (fun state known => holds state (.inl known)) kept state
        member
    · exact rightClosed.least inside (fun state known => holds state (.inr known)) kept state
        member

theorem eq (first : nfa.LeastClosed set result) (second : nfa.LeastClosed set other) :
    result = other :=
  OrderedSet.ext fun state => ⟨first.mono second (fun _ member => member) state,
    second.mono first (fun _ member => member) state⟩

end LeastClosed

variable (targets : ∀ source target, target ∈ nfa.targets source none → target < nfa.size)
include targets

theorem leastClosed_closure (within : nfa.Within set) :
    nfa.LeastClosed set (nfa.closure set) := by
  have bounded := bounds_jumps targets within
  refine ⟨?contains, ?closed, ?least⟩
  case contains =>
    intro state member
    exact (mem_closure_of_bounds bounded).mpr ⟨state, member, .refl⟩
  case closed =>
    intro source member target step
    rcases (mem_closure_of_bounds bounded).mp member with ⟨origin, known, path⟩
    exact (mem_closure_of_bounds bounded).mpr ⟨origin, known, path.tail step⟩
  case least =>
    intro inside holds kept state member
    rcases (mem_closure_of_bounds bounded).mp member with ⟨origin, known, path⟩
    clear member
    induction path with
    | refl => exact holds origin known
    | tail _ step induction => exact kept _ induction _ step

theorem within_closure (within : nfa.Within set) : nfa.Within (nfa.closure set) :=
  (leastClosed_closure targets within).least (· < nfa.size) within
    fun source _ target step => targets source target step

/-- The search for the closure of a set of states ends, in whatever order states are
expanded, and the closure is the least set that holds the given states and is not left by
jumps. So closing a set a second time adds nothing, a larger set has a larger closure, and
the closure of a union is the union of the closures. -/
theorem closure_spec :
    (∀ set, nfa.Within set →
      Ends (Traversal.Worklist.AnyStep nfa.jumps)
          (fun list => .ofList list.marked = nfa.closure set) (.start set.toList) ∧
        nfa.LeastClosed set (nfa.closure set) ∧
        nfa.closure (nfa.closure set) = nfa.closure set) ∧
      (∀ small large, nfa.Within small → nfa.Within large →
        (∀ state ∈ small, state ∈ large) →
        ∀ state ∈ nfa.closure small, state ∈ nfa.closure large) ∧
      ∀ left right, nfa.Within left → nfa.Within right →
        nfa.closure (left.union right) = (nfa.closure left).union (nfa.closure right) := by
  refine ⟨fun set within => ⟨?ends, leastClosed_closure targets within, ?idempotent⟩,
    ?monotone, ?union⟩
  case ends =>
    have bounded := bounds_jumps targets within
    refine (Traversal.Worklist.ends bounded set.nodup).imp fun list found => ?_
    apply OrderedSet.ext
    intro state
    rw [OrderedSet.mem_ofList, found, mem_closure_of_bounds bounded]
    rfl
  case idempotent =>
    exact (leastClosed_closure targets (within_closure targets within)).eq_of_keepsJumps
      (leastClosed_closure targets within).closed
  case monotone =>
    intro small large smallWithin largeWithin subset
    exact (leastClosed_closure targets smallWithin).mono
      (leastClosed_closure targets largeWithin) subset
  case union =>
    intro left right leftWithin rightWithin
    have within : nfa.Within (left.union right) := by
      intro state member
      rcases OrderedSet.mem_union.mp member with known | known
      · exact leftWithin state known
      · exact rightWithin state known
    exact (leastClosed_closure targets within).eq
      ((leastClosed_closure targets leftWithin).union
        (leastClosed_closure targets rightWithin))

omit targets in
/-- The first two states lead to each other, the fourth to itself, and one set holds a state
of the cycle that the other one has jumped into. -/
theorem closure_spec_of_jump_cycles :
    let nfa := ofEdges 5 [⟨0, none, 1⟩, ⟨1, none, 0⟩, ⟨1, none, 2⟩, ⟨2, some "a", 3⟩,
      ⟨3, none, 3⟩, ⟨4, none, 1⟩] 0 2
    let left : StateSet := .singleton 0
    let right : StateSet := .ofList [1, 3]
    (∀ source target, target ∈ nfa.targets source none → target < nfa.size) ∧
      nfa.Within left ∧ nfa.Within right ∧ nfa.LeastClosed left (.ofList [0, 1, 2]) ∧
      nfa.closure (nfa.closure right) = .ofList [0, 1, 2, 3] ∧
      (nfa.closure left).union (nfa.closure right) = .ofList [0, 1, 2, 3] ∧
      ∀ state ∈ nfa.closure left, state ∈ nfa.closure (.ofList [0, 3]) := by
  intro nfa left right
  have inRange : nfa.InRange := inRange_ofEdges (by decide) (by decide)
  have leftWithin : nfa.Within left := within_singleton inRange.start
  have rightWithin : ∀ state ∈ right.toList, state < nfa.size := by decide
  have moreWithin : ∀ state ∈ (OrderedSet.ofList [0, 3]).toList, state < nfa.size := by decide
  have targets : ∀ source target, target ∈ nfa.targets source none → target < nfa.size :=
    fun _ _ step => inRange.target step
  rcases closure_spec targets with ⟨closures, monotone, unions⟩
  have leftClosure : nfa.closure left = .ofList [0, 1, 2] := by decide +kernel
  have rightClosure : nfa.closure right = .ofList [0, 1, 2, 3] := by decide +kernel
  have bothClosure : nfa.closure (left.union right) = .ofList [0, 1, 2, 3] := by
    decide +kernel
  refine ⟨targets, leftWithin, rightWithin, ?_, ?_, ?_, ?_⟩
  · exact leftClosure ▸ (closures left leftWithin).2.1
  · exact (closures right rightWithin).2.2.trans rightClosure
  · exact (unions left right leftWithin rightWithin).symm.trans bothClosure
  · exact monotone left (.ofList [0, 3]) leftWithin moreWithin (by decide)

end Nfa

end WordAutomata
