import WordAutomata.Proofs.Nfa.Narrow

namespace WordAutomata

/-! The rows of an expression's automaton: one entry at most, with at most two targets. -/

namespace Nfa

def rowOfEdges (outgoing : List Edge) : OrderedMap Label StateSet :=
  .tabulate (.ofList (outgoing.map (·.label))) fun label =>
    .ofList ((outgoing.filter (·.label = label)).map (·.target))

theorem rows_ofEdges (size : Nat) (edges : List Edge) (start final : Nat) :
    (ofEdges size edges start final).rows =
      (List.range size).map fun state => rowOfEdges (edges.filter (·.source = state)) := rfl

theorem toList_rowOfEdges {first : Edge} {outgoing : List Edge} {label : Label}
    (alike : ∀ edge ∈ first :: outgoing, edge.label = label) :
    (rowOfEdges (first :: outgoing)).toList =
      [(label, .ofList ((first :: outgoing).map (·.target)))] := by
  have labels :
      OrderedSet.ofList ((first :: outgoing).map (·.label)) = .singleton label := by
    apply OrderedSet.ext
    intro other
    rw [OrderedSet.mem_ofList, OrderedSet.mem_singleton, List.mem_map]
    constructor
    · intro given
      rcases given with ⟨edge, member, rfl⟩
      exact alike edge member
    · intro equal
      exact ⟨first, List.mem_cons_self, (alike first List.mem_cons_self).trans equal.symm⟩
  have targets : (first :: outgoing).filter (·.label = label) = first :: outgoing :=
    List.filter_eq_self.mpr fun edge member => decide_eq_true (alike edge member)
  rw [rowOfEdges, labels]
  exact congrArg (fun edges : List Edge =>
    [(label, OrderedSet.ofList (edges.map (·.target)))]) targets

theorem length_le_two {set : StateSet} {first second : Nat}
    (few : ∀ state ∈ set, state = first ∨ state = second) : set.toList.length ≤ 2 := by
  have inside : set.toList ⊆ [first, second] := by
    intro state member
    simpa using few state member
  exact (List.subperm_of_subset set.nodup inside).length_le

/-- Whether a row is either one transition that reads a symbol and leads to one state, or
reads nothing and leads to at most two. -/
def Simple (row : OrderedMap Label StateSet) : Prop :=
  (∃ symbol target, row.toList = [(some symbol, .singleton target)]) ∨
    ∀ transition ∈ row.toList, transition.1 = none ∧ transition.2.toList.length ≤ 2

theorem simple_rowOfEdges {outgoing : List Edge} {first second : Nat}
    (alone : ∀ edge ∈ outgoing, edge.label ≠ none → ∀ other ∈ outgoing, other = edge)
    (few : ∀ edge ∈ outgoing, edge.target = first ∨ edge.target = second) :
    Simple (rowOfEdges outgoing) := by
  cases outgoing with
  | nil => exact .inr fun _ member => absurd member List.not_mem_nil
  | cons edge more =>
      cases reads : edge.label with
      | some symbol =>
          have same := alone edge List.mem_cons_self (reads ▸ Option.some_ne_none symbol)
          have targets : OrderedSet.ofList ((edge :: more).map (·.target)) =
              .singleton edge.target := by
            apply OrderedSet.ext
            intro target
            rw [OrderedSet.mem_ofList, OrderedSet.mem_singleton, List.mem_map]
            constructor
            · intro given
              rcases given with ⟨other, member, rfl⟩
              rw [same other member]
            · exact fun equal => ⟨edge, List.mem_cons_self, equal.symm⟩
          refine .inl ⟨symbol, edge.target, ?_⟩
          rw [toList_rowOfEdges fun other member => (same other member ▸ reads), targets]
      | none =>
          have silent : ∀ other ∈ edge :: more, other.label = none := by
            intro other member
            by_contra otherReads
            exact otherReads (alone other member otherReads edge List.mem_cons_self ▸ reads)
          refine .inr fun transition member => ?_
          rw [toList_rowOfEdges silent, List.mem_singleton] at member
          subst member
          refine ⟨rfl, @length_le_two _ first second fun target targetMember => ?_⟩
          rcases List.mem_map.mp (OrderedSet.mem_ofList.mp targetMember) with ⟨other, member, rfl⟩
          exact few other member

theorem simple_of_mem_ofRegex {expression : Regex} {row : OrderedMap Label StateSet}
    (member : row ∈ (ofRegex expression).rows) : Simple row := by
  rw [ofRegex, rows_ofEdges] at member
  rcases List.mem_map.mp member with ⟨state, _, rfl⟩
  have leaves {edge : Edge} (member : edge ∈ (expression.edges 0).filter (·.source = state)) :
      edge ∈ expression.edges 0 ∧ edge.source = state := by
    simpa using List.mem_filter.mp member
  rcases (expression.narrow 0).few state with ⟨first, second, fork⟩
  apply simple_rowOfEdges
  · intro edge member reads other otherMember
    exact (expression.guarded 0 edge (leaves member).1 reads).2 other (leaves otherMember).1
      ((leaves otherMember).2.trans (leaves member).2.symm)
  · exact fun edge member => (fork edge (leaves member).1 (leaves member).2).2

theorem row_final_ofRegex (expression : Regex) :
    (ofRegex expression).rows[(ofRegex expression).final]? = some .empty := by
  have inside : expression.exit 0 < expression.size := by
    simpa using (expression.exit_mem 0).2
  have unused : (expression.edges 0).filter (·.source = expression.exit 0) = [] := by
    apply List.filter_eq_nil_iff.mpr
    intro edge member leaves
    exact (expression.narrow 0).unused edge member (.inl (of_decide_eq_true leaves))
  have final : (ofRegex expression).final = expression.exit 0 := rfl
  rw [final, ofRegex, rows_ofEdges, List.getElem?_map, List.getElem?_range inside,
    Option.map_some, unused]
  rfl

end Nfa

end WordAutomata
