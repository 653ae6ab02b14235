import Mathlib.Data.List.Shortlex
import WordAutomata.Proofs.Traversal

namespace WordAutomata

/-! ## Shortlex order -/

namespace List

variable {σ : Type u} {r : σ → σ → Prop}

theorem shortlex_trans [IsTrans σ r] {first second third : List σ}
    (left : List.Shortlex r first second) (right : List.Shortlex r second third) :
    List.Shortlex r first third := by
  rw [List.shortlex_def] at left right ⊢
  rcases left with shorter | ⟨leftLength, leftLex⟩
  · left
    rcases right with shorter' | ⟨rightLength, _⟩ <;> omega
  · rcases right with shorter | ⟨rightLength, rightLex⟩
    · left
      omega
    · right
      exact ⟨leftLength.trans rightLength,
        List.lex_trans (IsTrans.trans _ _ _) leftLex rightLex⟩

theorem lex_append_append {first second : List σ}
    (length : first.length = second.length)
    (before : List.Lex r first second) (left right : List σ) :
    List.Lex r (first ++ left) (second ++ right) := by
  induction before with
  | nil => simp at length
  | rel smaller => exact .rel smaller
  | cons _ induction => exact .cons (induction (by simpa using length))

theorem shortlex_concat_concat {first second : List σ}
    (before : List.Shortlex r first second) (left right : σ) :
    List.Shortlex r (first ++ [left]) (second ++ [right]) := by
  rcases List.shortlex_def.mp before with shorter | ⟨length, lex⟩
  · exact .of_length_lt (by simpa using shorter)
  · exact .of_lex (by simpa using length) (lex_append_append length lex _ _)

end List

namespace Traversal

/-! ## Access words

A breadth-first search over labelled edges meets the nodes in the order of the
least words that lead to them. -/

variable {α : Type u} {σ : Type v} {r : σ → σ → Prop}

inductive Leads (edges : α → List (σ × α)) (origin : α) : List σ → α → Prop
  | nil : Leads edges origin [] origin
  | concat {word : List σ} {source target : α} {label : σ} :
      Leads edges origin word source → (label, target) ∈ edges source →
      Leads edges origin (word ++ [label]) target

variable {edges : α → List (σ × α)} {origin : α}

/-- The words by which the nodes of a search were met, of the visited ones and of
the pending ones. Every word but the empty one extends the word of a visited
node, and a visited node's successors have been met by words that are not later
than those through it. -/
structure Trail (r : σ → σ → Prop) (edges : α → List (σ × α)) (origin : α)
    (front back : List (List σ × α)) : Prop where
  sorted : ((front ++ back).map Prod.fst).Pairwise (List.Shortlex r)
  leads : ∀ step ∈ front ++ back, Leads edges origin step.1 step.2
  rooted : ([], origin) ∈ front ++ back
  grown : ∀ step ∈ front ++ back, step.1 = [] ∨
    ∃ parent ∈ front, ∃ label, step.1 = parent.1 ++ [label]
  covers : ∀ parent ∈ front, ∀ edge ∈ edges parent.2, ∃ step ∈ front ++ back,
    step.2 = edge.2 ∧ (step.1 = parent.1 ++ [edge.1] ∨
      List.Shortlex r step.1 (parent.1 ++ [edge.1]))

namespace Trail

variable {front back : List (List σ × α)} {word : List σ} {node : α}

theorem start : Trail r edges origin [] [([], origin)] where
  sorted := List.pairwise_singleton _ _
  leads := by
    intro step member
    rw [List.nil_append, List.mem_singleton] at member
    exact member ▸ .nil
  rooted := by simp
  grown := by simp
  covers := fun _ member => absurd member List.not_mem_nil

theorem before_new (trail : Trail r edges origin front ((word, node) :: back))
    {step : List σ × α} (member : step ∈ front ++ (word, node) :: back) (label : σ) :
    List.Shortlex r step.1 (word ++ [label]) := by
  rcases trail.grown step member with empty | ⟨parent, parentMember, last, grown⟩
  · rw [empty]
    exact .of_length_lt (by simp)
  · have sorted := trail.sorted
    rw [List.map_append, List.map_cons, List.pairwise_append] at sorted
    have earlier : List.Shortlex r parent.1 word :=
      sorted.2.2 parent.1 (List.mem_map_of_mem parentMember) word List.mem_cons_self
    rw [grown]
    exact List.shortlex_concat_concat earlier last label

/-- A visit adds the edges that were chosen, in the order of their labels. -/
theorem visit (trail : Trail r edges origin front ((word, node) :: back))
    (increasing : ((edges node).map Prod.fst).Pairwise r)
    {chosen : List (σ × α)} (sublist : chosen.Sublist (edges node))
    (covered : ∀ edge ∈ edges node,
      edge.2 ∈ (front ++ (word, node) :: back).map Prod.snd ∨
        ∃ first ∈ chosen, first.2 = edge.2 ∧ (first.1 = edge.1 ∨ r first.1 edge.1)) :
    Trail r edges origin (front ++ [(word, node)])
      (back ++ chosen.map fun edge => (word ++ [edge.1], edge.2)) := by
  refine ⟨?sorted, ?leads, ?rooted, ?grown, ?covers⟩
  case sorted =>
    rw [append_visit, List.map_append, List.map_map, List.pairwise_append]
    refine ⟨trail.sorted, ?_, ?_⟩
    · have labels : (chosen.map Prod.fst).Pairwise r :=
        increasing.sublist (sublist.map Prod.fst)
      rw [List.pairwise_map] at labels ⊢
      refine labels.imp fun {left right} smaller => ?_
      exact ((List.shortlex_singleton_iff left.1 right.1).mpr smaller).append_left word
    · intro known member new newMember
      rcases List.mem_map.mp member with ⟨step, stepMember, rfl⟩
      rcases List.mem_map.mp newMember with ⟨edge, _, rfl⟩
      exact trail.before_new stepMember edge.1
  case leads =>
    rw [append_visit]
    intro step member
    rcases List.mem_append.mp member with known | new
    · exact trail.leads step known
    · rcases List.mem_map.mp new with ⟨edge, edgeMember, rfl⟩
      exact .concat (trail.leads (word, node) (by simp)) (sublist.subset edgeMember)
  case rooted =>
    rw [append_visit]
    exact List.mem_append_left _ trail.rooted
  case grown =>
    rw [append_visit]
    intro step member
    rcases List.mem_append.mp member with known | new
    · rcases trail.grown step known with empty | ⟨parent, parentMember, label, grown⟩
      · exact .inl empty
      · exact .inr ⟨parent, List.mem_append_left _ parentMember, label, grown⟩
    · rcases List.mem_map.mp new with ⟨edge, _, rfl⟩
      exact .inr ⟨(word, node), by simp, edge.1, rfl⟩
  case covers =>
    rw [append_visit]
    intro parent parentMember edge edgeMember
    rcases List.mem_append.mp parentMember with earlier | current
    · rcases trail.covers parent earlier edge edgeMember with
        ⟨step, stepMember, notLater⟩
      exact ⟨step, List.mem_append_left _ stepMember, notLater⟩
    · rw [List.mem_singleton.mp current] at edgeMember ⊢
      rcases covered edge edgeMember with met | ⟨first, firstMember, same, notLater⟩
      · rcases List.mem_map.mp met with ⟨step, stepMember, same⟩
        exact ⟨step, List.mem_append_left _ stepMember, same,
          .inr (trail.before_new stepMember edge.1)⟩
      · refine ⟨(word ++ [first.1], first.2),
          List.mem_append_right _ (List.mem_map_of_mem firstMember), same, ?_⟩
        rcases notLater with equal | smaller
        · exact .inl (by rw [equal])
        · exact .inr (((List.shortlex_singleton_iff _ _).mpr smaller).append_left word)

theorem least [IsTrans σ r] (trail : Trail r edges origin front [])
    (leads : Leads edges origin word node) :
    ∃ step ∈ front, step.2 = node ∧ (step.1 = word ∨ List.Shortlex r step.1 word) := by
  induction leads with
  | nil => exact ⟨([], origin), by simpa using trail.rooted, rfl, .inl rfl⟩
  | @concat word source target label _ edge induction =>
      rcases induction with ⟨parent, parentMember, rfl, parentNotLater⟩
      rcases trail.covers parent parentMember (label, target) edge with
        ⟨step, stepMember, same, notLater⟩
      refine ⟨step, by simpa using stepMember, same, ?_⟩
      rcases parentNotLater with rfl | parentEarlier
      · exact notLater
      · have extended := List.shortlex_concat_concat parentEarlier label label
        rcases notLater with equal | earlier
        · exact .inr (equal ▸ extended)
        · exact .inr (List.shortlex_trans earlier extended)

end Trail

variable [DecidableEq α]

theorem exists_edges_of_fresh {outgoing : List (σ × α)}
    (sorted : (outgoing.map Prod.fst).Pairwise r) (seen : List α) :
    ∃ chosen : List (σ × α), chosen.Sublist outgoing ∧
      chosen.map Prod.snd = fresh seen (outgoing.map Prod.snd) ∧
      ∀ edge ∈ outgoing, edge.2 ∈ seen ∨
        ∃ first ∈ chosen, first.2 = edge.2 ∧ (first.1 = edge.1 ∨ r first.1 edge.1) := by
  induction outgoing generalizing seen with
  | nil => exact ⟨[], .slnil, rfl, fun _ member => absurd member List.not_mem_nil⟩
  | cons head tail induction =>
      rcases List.pairwise_cons.mp sorted with ⟨least, tailSorted⟩
      by_cases known : head.2 ∈ seen
      · rcases induction tailSorted seen with ⟨chosen, sublist, targets, covered⟩
        refine ⟨chosen, sublist.cons head, ?_, ?_⟩
        · rw [List.map_cons, fresh_cons, if_pos known, targets]
        · intro edge member
          rcases List.mem_cons.mp member with rfl | member
          · exact .inl known
          · exact covered edge member
      · rcases induction tailSorted (head.2 :: seen) with
          ⟨chosen, sublist, targets, covered⟩
        refine ⟨head :: chosen, sublist.cons_cons head, ?_, ?_⟩
        · rw [List.map_cons, List.map_cons, fresh_cons, if_neg known, targets]
        · intro edge member
          rcases List.mem_cons.mp member with rfl | member
          · exact .inr ⟨edge, by simp, rfl, .inl rfl⟩
          · rcases covered edge member with met | ⟨first, firstMember, same, notLater⟩
            · rcases List.mem_cons.mp met with same | met
              · exact .inr ⟨head, by simp, same.symm,
                  .inr (least edge.1 (List.mem_map_of_mem member))⟩
              · exact .inl met
            · exact .inr ⟨first, List.mem_cons_of_mem head firstMember, same, notLater⟩

/-- A breadth-first search from one node meets the nodes in the shortlex order of
the least words that lead to them. -/
theorem exists_trail [IsTrans σ r] {bound : Nat}
    (increasing : ∀ node, ((edges node).map Prod.fst).Pairwise r)
    (bounded : Bounds (fun node => (edges node).map Prod.snd) [origin] bound) :
    ∃ trail : List (List σ × α),
      trail.map Prod.snd =
        breadthFirst (fun node => (edges node).map Prod.snd) bound [origin] ∧
      (trail.map Prod.fst).Pairwise (List.Shortlex r) ∧
      (∀ step ∈ trail, Leads edges origin step.1 step.2) ∧
      ∀ word node, Leads edges origin word node →
        ∃ step ∈ trail, step.2 = node ∧
          (step.1 = word ∨ List.Shortlex r step.1 word) := by
  have found := explore_induction
    (fun visited pending =>
      Progress (fun node => (edges node).map Prod.snd) [origin] visited pending ∧
        ∃ front back, front.map Prod.snd = visited ∧ back.map Prod.snd = pending ∧
          Trail r edges origin front back)
    (fun visited pending holds => bounded _ holds.1.nodup holds.1.reached)
    (fun visited node pending holds => by
      rcases holds with ⟨progress, front, back, rfl, backNodes, trail⟩
      refine ⟨progress.visit, ?_⟩
      rcases List.map_eq_cons_iff.mp backNodes with ⟨⟨word, met⟩, rest, rfl, rfl, rfl⟩
      rcases exists_edges_of_fresh (increasing met)
          ((front ++ (word, met) :: rest).map Prod.snd) with
        ⟨chosen, sublist, targets, covered⟩
      refine ⟨_, _, ?_, ?_, trail.visit (increasing met) sublist covered⟩
      · simp
      · simpa [Function.comp_def] using targets)
    bound [] [origin] (by simp)
    ⟨.start, [], [([], origin)], rfl, rfl, .start⟩
  rcases found with ⟨_, front, back, visited, pending, trail⟩
  rw [List.map_eq_nil_iff.mp pending] at trail
  refine ⟨front, visited, by simpa using trail.sorted, by simpa using trail.leads, ?_⟩
  exact fun word node leads => trail.least leads

end Traversal

end WordAutomata
