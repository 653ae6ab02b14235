import Mathlib.Data.Fintype.Card
import WordAutomata.Proofs.Dfa.Canonical

namespace WordAutomata.Dfa

/-! No automaton with the same answers has fewer states than the minimal one. Words
that lead to different classes are told apart by what follows them, so they lead to
different states of any other automaton. -/

variable {dfa other : Dfa} {word : List String} {state otherState : Nat}

def Matches (dfa other : Dfa) : Prop :=
  ∀ word : List String, (∀ symbol ∈ word, symbol ∈ dfa.alphabet) →
    other.decides other.start word = dfa.decides dfa.start word

namespace Matches

variable (alike : dfa.Matches other)
include alike

theorem decides_eq {more : List String}
    (leads : dfa.follow? dfa.start word = some state)
    (otherLeads : other.follow? other.start word = some otherState)
    (allKnown : ∀ symbol ∈ word ++ more, symbol ∈ dfa.alphabet) :
    other.decides otherState more = dfa.decides state more := by
  have same := alike (word ++ more) allKnown
  rwa [decides_append, decides_append, leads, otherLeads, Option.any_some,
    Option.any_some] at same

theorem exists_follow? (closed : dfa.Closed)
    (inRange : dfa.InRange) (useful : state ∈ dfa.useful)
    (leads : dfa.follow? dfa.start word = some state) :
    ∃ otherState, other.follow? other.start word = some otherState := by
  rcases (inRange.mem_useful.mp useful).2 with ⟨more, accepted⟩
  have whole : dfa.decides dfa.start (word ++ more) := by
    rwa [decides_append, leads]
  rcases decides_iff.mp whole with ⟨_, passes, _⟩
  rw [← alike _ (closed.forall_mem_alphabet passes), decides_append,
    Option.any_eq_true] at whole
  rcases whole with ⟨otherState, otherLeads, _⟩
  exact ⟨otherState, otherLeads⟩

/-- Words that lead to one state of the other automaton lead to states with the same
answers. -/
theorem decides_eq_of_follow? (closed : dfa.Closed) {otherWord : List String}
    {second : Nat} (leads : dfa.follow? dfa.start word = some state)
    (secondLeads : dfa.follow? dfa.start otherWord = some second)
    (meets : other.follow? other.start word = some otherState)
    (secondMeets : other.follow? other.start otherWord = some otherState) :
    dfa.decides state = dfa.decides second := by
  apply closed.decides_ext closed rfl
  intro more moreKnown
  have known := List.forall_mem_append.mpr ⟨closed.forall_mem_alphabet leads, moreKnown⟩
  have secondKnown :=
    List.forall_mem_append.mpr ⟨closed.forall_mem_alphabet secondLeads, moreKnown⟩
  exact (alike.decides_eq leads meets known).symm.trans
    (alike.decides_eq secondLeads secondMeets secondKnown)

theorem size_merged_le (inRange : dfa.InRange) (closed : dfa.Closed)
    (start : other.start < other.size)
    (targets : ∀ source symbol target, other.next? source symbol = some target →
      target < other.size) :
    dfa.merged.size ≤ other.size := by
  have divides := Partition.divides_coarsest dfa dfa.useful
  have places (position : Fin dfa.merged.size) :
      ∃ place : Fin other.size, ∃ word, ∃ state ∈ dfa.merged.classes[position.val],
        state ∈ dfa.useful ∧ dfa.follow? dfa.start word = some state ∧
          other.follow? other.start word = some place.val := by
    have member := List.getElem_mem position.isLt
    rcases List.exists_mem_of_ne_nil _ (divides.nonempty _ member) with
      ⟨state, stateMember⟩
    have useful : state ∈ dfa.useful := divides.mem_iff.mpr ⟨_, member, stateMember⟩
    rcases (inRange.mem_useful.mp useful).1 with ⟨word, leads⟩
    rcases alike.exists_follow? closed inRange useful leads with ⟨place, meets⟩
    exact ⟨⟨place, follow?_lt_size targets start meets⟩, word, state, stateMember, useful,
      leads, meets⟩
  choose place word state member useful leads meets using places
  -- Classes with one place have members with the same answers, so they are one class.
  have injective : Function.Injective place := by
    intro left right same
    have decided := alike.decides_eq_of_follow? closed (leads left) (leads right)
      (meets left) (same ▸ meets right)
    have shared : state right ∈ dfa.merged.classes[left.val] :=
      inRange.saturated_merged _ (List.getElem_mem left.isLt) _ (member left) _
        (useful right) decided.symm
    have apart := Partition.apart_coarsest dfa dfa.useful
    exact Fin.ext (apart.position_unique (List.getElem?_eq_getElem left.isLt) shared
      (List.getElem?_eq_getElem right.isLt) (member right))
  have bound := Fintype.card_le_of_injective place injective
  rwa [Fintype.card_fin, Fintype.card_fin] at bound

end Matches

/-- Minimization leaves no more states than any automaton with the same answers over
the alphabet has. -/
theorem size_minimize_le (inRange : dfa.InRange) (closed : dfa.Closed)
    (alphabets : other.alphabet = dfa.alphabet) (start : other.start < other.size)
    (targets : ∀ source symbol target, other.next? source symbol = some target →
      target < other.size)
    (same : ∀ word : List String, (∀ symbol ∈ word, symbol ∈ dfa.alphabet) →
      other.run word = dfa.run word) :
    dfa.minimize.size ≤ other.size := by
  cases found : dfa.merged.classOf? dfa.start with
  | none =>
      rw [minimize_of_classOf?_eq_none found]
      exact Nat.lt_of_le_of_lt (Nat.zero_le _) start
  | some position =>
      have alike : dfa.Matches other := by
        intro word allKnown
        exact decides_eq_of_run_eq alphabets (alphabets ▸ allKnown) (same word allKnown)
      have merged := alike.size_merged_le inRange closed start targets
      rwa [minimize_of_classOf?_eq_some found, size_quotient]

/-- The other automaton has an accepting state that does not exist, and no row for the
state from which nothing is accepted. -/
theorem size_minimize_le_of_partial_rows :
    let dfa : Dfa := ⟨.ofList ["a", "b"],
      [.ofList [("a", 1), ("b", 2)], .ofList [("a", 0), ("b", 2)],
        .ofList [("a", 2), ("b", 2)], .ofList [("a", 0)]], 0, .ofList [1, 3]⟩
    let other : Dfa := ⟨.ofList ["a", "b"], [.ofList [("a", 1)], .ofList [("a", 0)]], 0,
      .ofList [1, 7]⟩
    dfa.InRange ∧ dfa.Closed ∧ dfa.minimize.size ≤ other.size ∧ other.size = 2 := by
  intro dfa other
  have inRange : dfa.InRange := by decide +kernel
  have closed : dfa.Closed := by decide +kernel
  have alphabets : other.alphabet = dfa.alphabet := rfl
  have rows : ∀ row ∈ other.rows, ∀ target ∈ row.values, target < other.size := by
    decide +kernel
  have bisimulation : Bisimulation other dfa fun leftState rightState =>
      (leftState, rightState) ∈ [(some 0, some 0), (some 1, some 1), (none, some 2)] := by
    decide +kernel
  have bound := size_minimize_le inRange closed alphabets (by decide)
    (forall_target_iff.mpr rows) fun word allKnown =>
      bisimulation.run_eq alphabets (alphabets ▸ allKnown)
  exact ⟨inRange, closed, bound, rfl⟩

end WordAutomata.Dfa
