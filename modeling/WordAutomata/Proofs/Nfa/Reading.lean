import WordAutomata.Proofs.Nfa.Document

namespace WordAutomata

/-! What the document of a nondeterministic automaton says about words. Under the key of
the empty label nothing is read, so a symbol that is spelled like this key is lost. -/

open Nfa (emptyKey)

/-! ## Documents

A document leads from name to name as its destinations say. Under the key of the empty
label it leads on without reading. -/

namespace Document

def destinations (document : NfaDocument) (name key : String) : List String :=
  ((document.states.get? name).bind (·.transitions.get? key)).getD []

inductive Leads (document : NfaDocument) : String → List String → String → Prop
  | nil (name : String) : Leads document name [] name
  | jump {source middle target : String} {word : List String} :
      middle ∈ destinations document source emptyKey →
      Leads document middle word target → Leads document source word target
  | read {source middle target symbol : String} {word : List String} :
      symbol ≠ emptyKey → middle ∈ destinations document source symbol →
      Leads document middle word target → Leads document source (symbol :: word) target

def Describes (document : NfaDocument) (word : List String) : Prop :=
  ∃ target entry, Leads document document.start word target ∧
    document.states.get? target = some entry ∧ entry.terminating = true

end Document

open Document (destinations Leads)

namespace Nfa

/-! ## Automata

The legible part of a word is what is left without the symbol that is spelled like the key
of the empty label. Unless a state has transitions under both, the destinations under a
key are the targets under one label. -/

def legible (word : List String) : List String :=
  word.filter (· ≠ emptyKey)

theorem legible_emptyKey (word : List String) : legible (emptyKey :: word) = legible word :=
  List.filter_cons_of_neg (by simp)

theorem legible_cons {symbol : String} (different : symbol ≠ emptyKey)
    (word : List String) :
    legible (symbol :: word) = symbol :: legible word :=
  List.filter_cons_of_pos (by simpa using different)

theorem legible_eq {word : List String} (absent : emptyKey ∉ word) :
    legible word = word := by
  apply List.filter_eq_self.mpr
  intro symbol member
  rw [decide_eq_true_iff]
  intro equal
  exact absent (equal ▸ member)

def Unmixed (nfa : Nfa) : Prop :=
  ∀ state, none ∈ nfa.labels state → some emptyKey ∉ nfa.labels state

variable {nfa : Nfa} {state : Nat} {key name : String} {word : List String}

theorem mem_targets_iff_row {target : Nat} {label : Label} :
    target ∈ nfa.targets state label ↔
      ∃ set, ((nfa.rows[state]?).getD .empty).get? label = some set ∧ target ∈ set := by
  rw [mem_targets_iff]
  cases nfa.rows[state]? <;> simp

theorem Unmixed.key_inj (unmixed : nfa.Unmixed) {label other : Label}
    (member : label ∈ nfa.labels state) (otherMember : other ∈ nfa.labels state)
    (same : label.getD emptyKey = other.getD emptyKey) : label = other := by
  cases label with
  | none =>
      cases other with
      | none => rfl
      | some symbol =>
          cases same
          exact absurd otherMember (unmixed state member)
  | some symbol =>
      cases other with
      | none =>
          cases same
          exact absurd member (unmixed state otherMember)
      | some otherSymbol => exact congrArg some same

theorem Unmixed.get?_transitions (unmixed : nfa.Unmixed) {numbering : Numbering}
    {names : List String} :
    (nfa.entry numbering state).transitions.get? key = some names ↔
      ∃ label set, ((nfa.rows[state]?).getD .empty).get? label = some set ∧
        label.getD emptyKey = key ∧ set.toList.map numbering.name = names := by
  have keys : ((((nfa.rows[state]?).getD .empty).toList.map fun transition =>
      (transition.1.getD emptyKey, transition.2.toList.map numbering.name)).map
        Prod.fst).Nodup := by
    rw [List.map_map]
    refine List.pairwise_map.mpr ?_
    have nodup := List.pairwise_map.mp (nfa.labels state).nodup
    refine nodup.imp_of_mem fun member otherMember different same => different ?_
    exact unmixed.key_inj (List.mem_map_of_mem member)
      (List.mem_map_of_mem otherMember) same
  refine (OrderedMap.get?_ofList_eq_some_iff keys).trans ?_
  simp only [List.mem_map, Prod.mk.injEq, Prod.exists, OrderedMap.mem_toList_iff]

namespace InRange

variable (inRange : nfa.InRange)
include inRange

theorem mem_reachable_start : nfa.start ∈ nfa.reachable :=
  inRange.mem_reachable.mpr ⟨[], .nil _⟩

theorem mem_reachable_of_mem_targets {target : Nat} {label : Label}
    (member : state ∈ nfa.reachable) (step : target ∈ nfa.targets state label) :
    target ∈ nfa.reachable := by
  rcases inRange.mem_reachable.mp member with ⟨word, path⟩
  apply inRange.mem_reachable.mpr
  cases label with
  | none => exact ⟨_, path.append (.jump step (.nil _))⟩
  | some symbol => exact ⟨_, path.append (.read step (.nil _))⟩

theorem mem_destinations (unmixed : nfa.Unmixed) (member : state ∈ nfa.reachable) :
    name ∈ destinations nfa.toDocument (nfa.numbering.name state) key ↔
      ∃ label target, target ∈ nfa.targets state label ∧ label.getD emptyKey = key ∧
        nfa.numbering.name target = name := by
  have written := inRange.get?_states_toDocument.mpr ⟨state, member, rfl, rfl⟩
  rw [destinations, written, Option.bind_some]
  constructor
  · intro given
    cases found : (nfa.entry nfa.numbering state).transitions.get? key with
    | none =>
        rw [found] at given
        cases given
    | some names =>
        rw [found] at given
        rcases unmixed.get?_transitions.mp found with ⟨label, set, row, spelled, rfl⟩
        rcases List.mem_map.mp given with ⟨target, step, named⟩
        exact ⟨label, target, mem_targets_iff_row.mpr ⟨set, row, step⟩, spelled, named⟩
  · intro given
    rcases given with ⟨label, target, step, spelled, named⟩
    rcases mem_targets_iff_row.mp step with ⟨set, row, step⟩
    rw [unmixed.get?_transitions.mpr ⟨label, set, row, spelled, rfl⟩]
    exact List.mem_map.mpr ⟨target, step, named⟩

/-- What a document leads over is what is left of the words that its automaton reads. -/
theorem leads_iff (unmixed : nfa.Unmixed) (member : state ∈ nfa.reachable) :
    Leads nfa.toDocument (nfa.numbering.name state) word name ↔
      ∃ original target, nfa.Path state original target ∧ legible original = word ∧
        nfa.numbering.name target = name := by
  constructor
  · intro leads
    generalize named : nfa.numbering.name state = source at leads
    induction leads generalizing state with
    | nil => exact ⟨[], state, .nil state, rfl, named⟩
    | jump step _ induction =>
        rw [← named, inRange.mem_destinations unmixed member] at step
        rcases step with ⟨label, middle, step, spelled, middleNamed⟩
        have reached := inRange.mem_reachable_of_mem_targets member step
        rcases induction reached middleNamed with
          ⟨original, target, path, rest, targetNamed⟩
        -- The automaton may have read something under the key of the empty label.
        cases label with
        | none => exact ⟨original, target, .jump step path, rest, targetNamed⟩
        | some symbol =>
            refine ⟨symbol :: original, target, .read step path, ?_, targetNamed⟩
            rw [show symbol = emptyKey from spelled, legible_emptyKey, rest]
    | read different step _ induction =>
        rw [← named, inRange.mem_destinations unmixed member] at step
        rcases step with ⟨label, middle, step, spelled, middleNamed⟩
        have reached := inRange.mem_reachable_of_mem_targets member step
        rcases induction reached middleNamed with
          ⟨original, target, path, rest, targetNamed⟩
        cases label with
        | none => exact absurd spelled.symm different
        | some symbol =>
            rw [← show symbol = _ from spelled] at different ⊢
            refine ⟨symbol :: original, target, .read step path, ?_, targetNamed⟩
            rw [legible_cons different, rest]
  · intro given
    rcases given with ⟨original, target, path, rfl, rfl⟩
    induction path with
    | nil => exact .nil _
    | jump step _ induction =>
        have reached := inRange.mem_reachable_of_mem_targets member step
        have named := (inRange.mem_destinations unmixed member).mpr ⟨_, _, step, rfl, rfl⟩
        exact .jump named (induction reached)
    | @read _ _ _ symbol _ step _ induction =>
        have reached := inRange.mem_reachable_of_mem_targets member step
        have named := (inRange.mem_destinations unmixed member).mpr ⟨_, _, step, rfl, rfl⟩
        by_cases equal : symbol = emptyKey
        · subst equal
          rw [legible_emptyKey]
          exact .jump named (induction reached)
        · rw [legible_cons equal]
          exact .read equal named (induction reached)

theorem describes_toDocument (unmixed : nfa.Unmixed) :
    nfa.toDocument.Describes word ↔
      ∃ original, nfa.accepts original = true ∧ legible original = word := by
  have started := inRange.mem_reachable_start
  constructor
  · intro given
    rcases given with ⟨name, entry, leads, written, terminating⟩
    rcases (inRange.leads_iff unmixed started).mp leads with
      ⟨original, target, path, left, named⟩
    rcases inRange.get?_states_toDocument.mp written with ⟨state, member, same, rfl⟩
    have equal : state = target :=
      (Numbering.name_inj (mem_numbering_of_reachable member)).mp (same.trans named.symm)
    have final : state = nfa.final := of_decide_eq_true terminating
    rw [← equal, final] at path
    exact ⟨original, inRange.accepts_iff.mpr path, left⟩
  · intro given
    rcases given with ⟨original, accepted, left⟩
    have path := inRange.accepts_iff.mp accepted
    have reached := inRange.mem_reachable.mpr ⟨original, path⟩
    have written := inRange.get?_states_toDocument.mpr ⟨nfa.final, reached, rfl, rfl⟩
    have leads := (inRange.leads_iff unmixed started).mpr ⟨original, _, path, left, rfl⟩
    exact ⟨_, _, leads, written, decide_eq_true rfl⟩

end InRange

end Nfa

end WordAutomata
