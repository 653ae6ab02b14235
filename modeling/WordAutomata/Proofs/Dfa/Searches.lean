import WordAutomata.Proofs.Dfa.Residuals
import WordAutomata.Proofs.Traversal.Worklist

namespace WordAutomata

/-! The states that the searches of a deterministic automaton find. Forwards from the
start state they are found in the order of the least words that lead to them. Backwards
from the accepting states, the order makes no difference. -/

theorem List.rel_getElem_iff_lt {α : Type u} {r : α → α → Prop} [Std.Asymm r]
    {values : List α} (sorted : values.Pairwise r) {left right : Nat}
    (leftInside : left < values.length) (rightInside : right < values.length) :
    r values[left] values[right] ↔ left < right := by
  have increasing := List.pairwise_iff_getElem.mp sorted
  constructor
  · intro related
    rcases Nat.lt_trichotomy left right with before | same | after
    · exact before
    · subst same
      exact absurd related (Std.Asymm.asymm _ _ related)
    · exact absurd related (Std.Asymm.asymm _ _ (increasing _ _ _ _ after))
  · exact increasing left right leftInside rightInside

namespace Dfa

open Traversal

variable {dfa : Dfa} {state source target other : Nat} {word otherWord : List String}

/-! ## Forwards -/

/-- Whether a word leads to a state, and no shorter one and none of its length that is
before it does. -/
structure LeastAccess (dfa : Dfa) (state : Nat) (word : List String) : Prop where
  leads : dfa.follow? dfa.start word = some state
  least : ∀ other, dfa.follow? dfa.start other = some state →
    word = other ∨ List.Shortlex Precedes word other

theorem LeastAccess.eq (left : dfa.LeastAccess state word)
    (right : dfa.LeastAccess state otherWord) : word = otherWord := by
  rcases left.least otherWord right.leads with same | before
  · exact same
  · rcases right.least word left.leads with same | after
    · exact same.symm
    · exact absurd after (Std.Asymm.asymm _ _ before)

section

variable (bounded : Bounds (fun state => (dfa.row state).values) [dfa.start] dfa.size)
include bounded

/-- A search from the start state finds each state by the least word that leads there. -/
theorem exists_leastAccess :
    ∃ access : List (List String × Nat), access.map Prod.snd = dfa.reachable ∧
      (access.map Prod.fst).Pairwise (List.Shortlex Precedes) ∧
      ∀ word state, (word, state) ∈ access ↔ dfa.LeastAccess state word := by
  rcases exists_access bounded with ⟨access, states, sorted, leads, least⟩
  have nodup : (access.map Prod.snd).Nodup := states ▸ nodup_breadthFirst bounded
  refine ⟨access, states, sorted, fun word state => ⟨?found, ?met⟩⟩
  case found =>
    intro member
    refine ⟨leads _ member, fun other otherLeads => ?_⟩
    rcases least other state otherLeads with ⟨step, stepMember, same, notLater⟩
    have equal : step = (word, state) :=
      List.inj_on_of_nodup_map nodup stepMember member same
    rwa [equal] at notLater
  case met =>
    intro access
    rcases least word state access.leads with ⟨step, member, rfl, same | before⟩
    · rwa [← same]
    · have notLater := access.least step.1 (leads step member)
      rcases notLater with same | after
      · rwa [same]
      · exact absurd after (Std.Asymm.asymm _ _ before)

theorem idxOf_reachable_lt_iff (access : dfa.LeastAccess state word)
    (otherAccess : dfa.LeastAccess other otherWord) :
    dfa.reachable.idxOf state < dfa.reachable.idxOf other ↔
      List.Shortlex Precedes word otherWord := by
  rcases exists_leastAccess bounded with ⟨steps, states, sorted, mem_steps⟩
  have nodup : dfa.reachable.Nodup := nodup_breadthFirst bounded
  -- A state stands where its word does.
  have places : ∀ {word state}, dfa.LeastAccess state word →
      ∃ inside : dfa.reachable.idxOf state < (steps.map Prod.fst).length,
        (steps.map Prod.fst)[dfa.reachable.idxOf state] = word := by
    intro word state access
    rcases List.getElem_of_mem ((mem_steps word state).mpr access) with ⟨place, inside, found⟩
    have same : dfa.reachable.idxOf state = place := by
      have listed : dfa.reachable[place]? = some state := by
        rw [← states, List.getElem?_map, List.getElem?_eq_getElem inside, found]
        rfl
      rcases List.getElem?_eq_some_iff.mp listed with ⟨_, rfl⟩
      exact nodup.idxOf_getElem place _
    subst same
    refine ⟨by rwa [List.length_map], ?_⟩
    rw [List.getElem_map, found]
  rcases places access with ⟨inside, found⟩
  rcases places otherAccess with ⟨otherInside, otherFound⟩
  rw [← List.rel_getElem_iff_lt sorted inside otherInside, found, otherFound]

end

/-- A search from the start state that expands states in turn ends. It finds every state
that can be reached, once and no other, and one state before another if and only if the
least word that leads to it is before the least one that leads to the other. -/
theorem reachable_spec (start : dfa.start < dfa.size)
    (targets : ∀ source symbol target, dfa.next? source symbol = some target →
      target < dfa.size) :
    Ends (Worklist.Step (fun state => (dfa.row state).values) [])
        (·.expanded = dfa.reachable) (.start [dfa.start]) ∧
      dfa.reachable.Nodup ∧
      (∀ state, state ∈ dfa.reachable ↔ ∃ word, dfa.follow? dfa.start word = some state) ∧
      (∀ state ∈ dfa.reachable, ∃! word, dfa.LeastAccess state word) ∧
      ∀ state word other otherWord, dfa.LeastAccess state word →
        dfa.LeastAccess other otherWord →
        (dfa.reachable.idxOf state < dfa.reachable.idxOf other ↔
          List.Shortlex Precedes word otherWord) := by
  have bounded := bounds_reachable start targets
  refine ⟨Worklist.ends_first bounded (List.nodup_singleton _), nodup_breadthFirst bounded,
    fun state => mem_reachable_of_bounds bounded, ?least,
    fun state word other otherWord => idxOf_reachable_lt_iff bounded⟩
  case least =>
    intro state member
    rcases exists_leastAccess bounded with ⟨access, states, _, mem_access⟩
    rw [← states] at member
    rcases List.mem_map.mp member with ⟨⟨word, _⟩, found, rfl⟩
    have least := (mem_access word _).mp found
    exact ⟨word, least, fun other otherLeast => otherLeast.eq least⟩

/-- The third state is found before the second one, by the lesser of two symbols. A symbol
that is not in the alphabet leads to the fourth state, and nothing leads to the last. -/
theorem reachable_spec_of_shared_targets :
    let dfa : Dfa := ⟨.ofList ["a", "b"],
      [.ofList [("a", 2), ("b", 1)], .ofList [("a", 3), ("b", 0)],
        .ofList [("a", 2), ("c", 3)], .ofList [("b", 3)], .ofList [("a", 0)]], 0,
      .ofList [3]⟩
    dfa.start < dfa.size ∧
      (∀ source symbol target, dfa.next? source symbol = some target →
        target < dfa.size) ∧
      dfa.reachable = [0, 2, 1, 3] ∧ (∃ word, dfa.follow? dfa.start word = some 3) ∧
      (¬ ∃ word, dfa.follow? dfa.start word = some 4) ∧
      ∀ word other, dfa.LeastAccess 2 word → dfa.LeastAccess 1 other →
        List.Shortlex Precedes word other := by
  intro dfa
  have start : dfa.start < dfa.size := by decide
  have targets : ∀ source symbol target, dfa.next? source symbol = some target →
      target < dfa.size := forall_target_iff.mpr (by decide +kernel)
  have reachable : dfa.reachable = [0, 2, 1, 3] := by decide +kernel
  rcases reachable_spec start targets with ⟨_, _, reached, _, order⟩
  rw [reachable] at reached order
  refine ⟨start, targets, reachable, (reached 3).mp (by decide), ?_, ?_⟩
  · exact fun given => absurd ((reached 4).mpr given) (by decide)
  · exact fun word other access otherAccess =>
      (order 2 word 1 other access otherAccess).mp (by decide)

/-! ## Backwards

The search goes from a state to its sources, which are listed once for every transition.
However often a state is listed, the same states are found. -/

def sources (dfa : Dfa) (state : Nat) : List Nat :=
  dfa.rows.zipIdx.flatMap fun entry =>
    (entry.1.values.filter (· = state)).map fun _ => entry.2

example :
    sources ⟨.ofList ["a", "b"], [.ofList [("a", 1), ("b", 1)], .ofList [("a", 1)]], 0,
      .ofList [1]⟩ 1 = [0, 0, 1] := by decide

theorem mem_sources :
    source ∈ dfa.sources target ↔ ∃ symbol, dfa.next? source symbol = some target := by
  rw [← mem_values_row_iff, Dfa.row, sources, List.mem_flatMap]
  constructor
  · intro given
    rcases given with ⟨⟨row, place⟩, member, listed⟩
    rcases List.mem_map.mp listed with ⟨_, entry, rfl⟩
    rcases List.mem_filter.mp entry with ⟨occurs, same⟩
    rw [List.mem_zipIdx_iff_getElem?.mp member]
    exact of_decide_eq_true same ▸ occurs
  · intro occurs
    cases found : dfa.rows[source]? with
    | none =>
        rw [found] at occurs
        cases occurs
    | some row =>
        rw [found] at occurs
        refine ⟨(row, source), List.mem_zipIdx_iff_getElem?.mpr found, ?_⟩
        exact List.mem_map.mpr ⟨target, List.mem_filter.mpr ⟨occurs, by simp⟩, rfl⟩

theorem reaches_sources : Reaches dfa.sources = Reaches dfa.predecessors :=
  reaches_congr fun _ _ => mem_sources.trans mem_predecessors.symm

theorem lt_size_of_follow? (leads : dfa.follow? state word = some target)
    (inside : target < dfa.size) : state < dfa.size := by
  cases word with
  | nil =>
      cases leads
      exact inside
  | cons symbol rest =>
      rcases Option.bind_eq_some_iff.mp leads with ⟨middle, step, _⟩
      exact lt_size_of_next? step

/-- A search backwards from the accepting states ends, in whatever order states are
expanded, and it finds those from which an accepting state can be reached. -/
theorem live_spec (accepting : ∀ state ∈ dfa.accepting, state < dfa.size) :
    Ends (Worklist.AnyStep dfa.sources)
        (fun list => (List.range dfa.size).map (fun state => decide (state ∈ list.marked)) =
          dfa.live)
        (.start dfa.accepting.toList) ∧
      dfa.live.length = dfa.size ∧
      ∀ state, dfa.live[state]? = some true ↔
        ∃ word target, dfa.follow? state word = some target ∧ target ∈ dfa.accepting := by
  have bounded := bounds_productive accepting
  have mem_productive (state : Nat) :
      state ∈ dfa.productive ↔
        ∃ word target, dfa.follow? state word = some target ∧ target ∈ dfa.accepting := by
    rw [mem_productive_of_bounds bounded]
    simp only [decides_iff, isAccepting, decide_eq_true_eq]
  refine ⟨?ends, ?length, ?live⟩
  case ends =>
    have same : Bounds dfa.sources dfa.accepting.toList dfa.size := by
      rwa [Bounds, reaches_sources]
    refine (Worklist.ends same dfa.accepting.nodup).imp fun list found => ?_
    rw [live]
    refine List.map_congr_left fun state _ => ?_
    rw [decide_eq_decide, found, reaches_sources, productive, mem_breadthFirst bounded]
  case length => rw [live, List.length_map, List.length_range]
  case live =>
    intro state
    rw [← mem_productive, live, List.getElem?_map]
    by_cases inside : state < dfa.size
    · rw [List.getElem?_range inside, Option.map_some, Option.some.injEq,
        decide_eq_true_eq]
    · rw [List.getElem?_eq_none (by simpa using inside), mem_productive, Option.map_none]
      refine iff_of_false (Option.some_ne_none true).symm fun given => ?_
      rcases given with ⟨word, target, leads, final⟩
      exact inside (lt_size_of_follow? leads (accepting target final))

/-- The first two states lead to each other only, and the last one leads nowhere. The
accepting state leads to itself, and two transitions lead to it from the state after it. -/
theorem live_spec_of_cycles :
    let dfa : Dfa := ⟨.ofList ["a", "b"],
      [.ofList [("a", 1)], .ofList [("a", 0), ("b", 1)], .ofList [("b", 2)],
        .ofList [("a", 2), ("b", 2)], .empty], 0, .ofList [2]⟩
    (∀ state ∈ dfa.accepting, state < dfa.size) ∧
      dfa.live = [false, false, true, true, false] ∧
      (∃ word target, dfa.follow? 3 word = some target ∧ target ∈ dfa.accepting) ∧
      ¬ ∃ word target, dfa.follow? 0 word = some target ∧ target ∈ dfa.accepting := by
  intro dfa
  have accepting : ∀ state ∈ dfa.accepting.toList, state < dfa.size := by decide
  have live : dfa.live = [false, false, true, true, false] := by decide +kernel
  rcases live_spec accepting with ⟨_, _, marked⟩
  rw [live] at marked
  refine ⟨accepting, live, (marked 3).mp rfl, fun given => ?_⟩
  exact absurd ((marked 0).mpr given) (by decide)

end Dfa

end WordAutomata
