namespace WordAutomata.Traversal

/-! Breadth-first search of a graph that is given by the successors of each
node. -/

variable {α : Type u} [DecidableEq α]

def fresh (seen candidates : List α) : List α :=
  candidates.eraseDups.filter (· ∉ seen)

@[simp] theorem mem_fresh {seen candidates : List α} {node : α} :
    node ∈ fresh seen candidates ↔ node ∈ candidates ∧ node ∉ seen := by
  simp [fresh]

/-- Visit the pending nodes in turn, at most `budget` of them, and queue the
successors that are neither visited nor pending yet. -/
def explore (next : α → List α) : Nat → List α → List α → List α
  | 0, visited, _ => visited
  | _ + 1, visited, [] => visited
  | budget + 1, visited, node :: pending =>
      explore next budget (visited ++ [node])
        (pending ++ fresh (visited ++ node :: pending) (next node))

/-- The nodes that can be reached from the seeds, in the order of a breadth-first
search. The bound is the number of nodes that there can be. -/
def breadthFirst (next : α → List α) (bound : Nat) (seeds : List α) : List α :=
  explore next bound [] seeds.eraseDups

example :
    breadthFirst (fun n => if n < 3 then [2 * n + 1, 0, n + 1] else [n]) 10 [0] =
      [0, 1, 3, 2, 5] := by decide

end WordAutomata.Traversal
