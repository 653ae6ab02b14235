import WordAutomata.Proofs.Termination
import WordAutomata.Proofs.Traversal

namespace WordAutomata.Traversal

/-! Searches that mark the nodes they meet and keep those that are still to be expanded in
a list. Whichever of them is expanded next, the search ends, and the nodes that can be
reached are marked. If it is always the first one, they are expanded in breadth-first
order. -/

variable {α : Type u}

structure Worklist (α : Type u) where
  expanded : List α
  pending : List α
  marked : List α
deriving DecidableEq, Repr

theorem Progress.perm {next : α → List α} {seeds visited pending others : List α}
    (progress : Progress next seeds visited pending) (same : pending.Perm others) :
    Progress next seeds visited others := by
  have met : (visited ++ pending).Perm (visited ++ others) := same.append_left visited
  refine ⟨met.nodup_iff.mp progress.nodup, ?_, ?_, ?_⟩
  all_goals simp only [← met.mem_iff]
  · exact progress.seeded
  · exact progress.reached
  · exact progress.expanded

namespace Worklist

def start (seeds : List α) : Worklist α := ⟨[], seeds, seeds⟩

variable [DecidableEq α]

def meet (list : Worklist α) (node : α) : Worklist α :=
  if node ∈ list.marked then list
  else { list with pending := list.pending ++ [node], marked := list.marked ++ [node] }

/-- Whether one search comes from another by the expansion of a pending node, which is
taken from behind the skipped ones. -/
inductive Step (next : α → List α) (skipped : List α) : Worklist α → Worklist α → Prop
  | expand (expanded : List α) (node : α) (waiting marked : List α) :
      Step next skipped ⟨expanded, skipped ++ node :: waiting, marked⟩
        ((next node).foldl meet ⟨expanded ++ [node], skipped ++ waiting, marked⟩)

def AnyStep (next : α → List α) (list later : Worklist α) : Prop :=
  ∃ skipped, Step next skipped list later

variable {next : α → List α} {seeds skipped : List α} {bound : Nat}
  {list later : Worklist α}

theorem foldl_meet (candidates : List α) (list : Worklist α) :
    candidates.foldl meet list =
      { list with
        pending := list.pending ++ fresh list.marked candidates
        marked := list.marked ++ fresh list.marked candidates } := by
  induction candidates generalizing list with
  | nil => simp [fresh]
  | cons head tail induction =>
      rw [List.foldl_cons, induction, fresh_cons, meet]
      by_cases known : head ∈ list.marked
      · rw [if_pos known, if_pos known]
      · have seen : fresh (list.marked ++ [head]) tail = fresh (head :: list.marked) tail :=
          fresh_congr (by simp [or_comm]) tail
        rw [if_neg known, if_neg known]
        simp [seen]

/-- What holds of a search at all times: besides its progress, that a node is marked if and
only if it is expanded or pending. -/
structure Consistent (next : α → List α) (seeds : List α) (list : Worklist α) : Prop where
  progress : Progress next seeds list.expanded list.pending
  marked : ∀ node, node ∈ list.marked ↔ node ∈ list.expanded ++ list.pending

theorem consistent_start (nodup : seeds.Nodup) : Consistent next seeds (start seeds) where
  progress := by
    have begun : Progress next seeds [] seeds.eraseDups := .start
    rwa [List.eraseDups_of_nodup nodup] at begun
  marked := fun _ => Iff.rfl

namespace Consistent

theorem step (consistent : Consistent next seeds list)
    (taken : Step next skipped list later) : Consistent next seeds later := by
  rcases taken with ⟨expanded, node, waiting, marked⟩
  have known : ∀ other, other ∈ marked ↔ other ∈ expanded ++ node :: (skipped ++ waiting) := by
    intro other
    rw [consistent.marked]
    simp [or_left_comm]
  have first : (skipped ++ node :: waiting).Perm (node :: (skipped ++ waiting)) :=
    List.perm_middle
  rw [foldl_meet, fresh_congr known]
  refine ⟨(consistent.progress.perm first).visit, fun other => ?_⟩
  simp only [append_visit, List.mem_append, known]

theorem length_expanded (consistent : Consistent next seeds list)
    (bounded : Bounds next seeds bound) (taken : Step next skipped list later) :
    later.expanded.length = list.expanded.length + 1 ∧
      list.expanded.length < bound := by
  have room := bounded _ consistent.progress.nodup consistent.progress.reached
  rcases taken with ⟨expanded, node, waiting, marked⟩
  rw [foldl_meet]
  simp only [List.length_append, List.length_cons] at room ⊢
  exact ⟨rfl, by omega⟩

end Consistent

theorem pending_eq_nil (stopped : ∀ later, ¬ Step next [] list later) :
    list.pending = [] := by
  rcases list with ⟨expanded, pending, marked⟩
  cases pending with
  | nil => rfl
  | cons node waiting => exact absurd (.expand expanded node waiting marked) (stopped _)

/-- In whatever order the pending nodes are expanded, the search ends with the nodes
marked that can be reached. -/
theorem ends (bounded : Bounds next seeds bound) (nodup : seeds.Nodup) :
    Ends (AnyStep next)
      (fun list => ∀ node, node ∈ list.marked ↔ ∃ seed ∈ seeds, Reaches next seed node)
      (start seeds) := by
  apply Ends.of_invariant (Consistent next seeds) (bound - ·.expanded.length)
  case keep =>
    intro list later consistent taken
    rcases taken with ⟨skipped, taken⟩
    rcases consistent.length_expanded bounded taken with ⟨longer, room⟩
    exact ⟨consistent.step taken, by omega⟩
  case finish =>
    intro list consistent stopped node
    have done : list.pending = [] := pending_eq_nil fun later taken => stopped later ⟨[], taken⟩
    have progress := consistent.progress
    rw [consistent.marked, done, List.append_nil]
    rw [done] at progress
    exact progress.mem_iff
  case begins => exact consistent_start nodup

/-- If the pending nodes are expanded in turn, the search ends with all nodes expanded that
can be reached, in breadth-first order. -/
theorem ends_first (bounded : Bounds next seeds bound) (nodup : seeds.Nodup) :
    Ends (Step next []) (·.expanded = breadthFirst next bound seeds) (start seeds) := by
  apply Ends.of_invariant
    (fun list => Consistent next seeds list ∧
      explore next (bound - list.expanded.length) list.expanded list.pending =
        breadthFirst next bound seeds)
    (bound - ·.expanded.length)
  case keep =>
    intro list later holds taken
    rcases holds with ⟨consistent, whole⟩
    rcases consistent.length_expanded bounded taken with ⟨longer, room⟩
    refine ⟨⟨consistent.step taken, ?_⟩, by omega⟩
    have left : bound - list.expanded.length = bound - later.expanded.length + 1 := by omega
    rw [← whole, left]
    rcases taken with ⟨expanded, node, waiting, marked⟩
    rw [foldl_meet, fresh_congr consistent.marked]
    rfl
  case finish =>
    intro list holds stopped
    rcases holds with ⟨_, whole⟩
    rwa [pending_eq_nil stopped, explore_nil] at whole
  case begins =>
    refine ⟨consistent_start nodup, ?_⟩
    rw [breadthFirst, List.eraseDups_of_nodup nodup]
    rfl

end Worklist

end WordAutomata.Traversal
