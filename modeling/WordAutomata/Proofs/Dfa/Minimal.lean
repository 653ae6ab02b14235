import WordAutomata.Dfa.Minimal
import WordAutomata.Proofs.Dfa.Partition
import WordAutomata.Proofs.Dfa.Runs

namespace WordAutomata.Dfa

/-! Minimization keeps the answers to all words over the alphabet, and its result is
an automaton whose states are all in range. -/

abbrev merged (dfa : Dfa) : Partition := .coarsest dfa dfa.useful

variable {dfa : Dfa} {partition : Partition} {members : List Nat}
  {first position state start : Nat} {symbol : String} {word : List String}

/-! ## Quotients

A class goes where its members go, as the members have one signature. What is lost are
transitions to useless states, and from those no word is accepted. -/

theorem next?_quotient (found : partition.classes[position]? = some members)
    (head : members.head? = some first) :
    (dfa.quotient partition start).next? position symbol =
      (dfa.next? first symbol).bind partition.classOf? := by
  cases members with
  | nil => cases head
  | cons other members =>
      cases head
      simp [next?, row, quotient, found, OrderedMap.get?_filterMap]

@[simp] theorem size_quotient (dfa : Dfa) (partition : Partition) (start : Nat) :
    (dfa.quotient partition start).size = partition.size := List.length_map _

theorem mem_accepting_quotient :
    position ∈ (dfa.quotient partition start).accepting ↔
      ∃ members, partition.classes[position]? = some members ∧
        members.head?.any dfa.isAccepting :=
  mem_positions_iff fun members : List Nat => members.head?.any dfa.isAccepting

theorem isAccepting_quotient (found : partition.classes[position]? = some members)
    (head : members.head? = some first) :
    (dfa.quotient partition start).isAccepting position = dfa.isAccepting first := by
  rw [Bool.eq_iff_iff, isAccepting, decide_eq_true_eq, mem_accepting_quotient, found]
  simp [head]

theorem bind_classOf?_eq {left right : Nat} (known : symbol ∈ dfa.alphabet)
    (same : partition.signature dfa left = partition.signature dfa right) :
    (dfa.next? left symbol).bind partition.classOf? =
      (dfa.next? right symbol).bind partition.classOf? :=
  List.map_inj_left.mp same symbol known

theorem classOf?_eq_none_iff :
    dfa.merged.classOf? state = none ↔ state ∉ dfa.useful := by
  rw [← (Partition.divides_coarsest dfa dfa.useful).isSome_classOf?_iff,
    Option.not_isSome_iff_eq_none]

theorem mem_useful_of_classOf? (found : dfa.merged.classOf? state = some position) :
    state ∈ dfa.useful :=
  (Partition.divides_coarsest dfa dfa.useful).isSome_classOf?_iff.mp
    (Option.isSome_iff_exists.mpr ⟨position, found⟩)

theorem exists_head_of_classOf? (found : dfa.merged.classOf? state = some position) :
    ∃ members first, dfa.merged.classes[position]? = some members ∧ state ∈ members ∧
      members.head? = some first ∧ first ∈ members := by
  have apart := Partition.apart_coarsest dfa dfa.useful
  rcases apart.classOf?_eq_some_iff.mp found with ⟨members, found, member⟩
  cases members with
  | nil => exact absurd member List.not_mem_nil
  | cons first rest => exact ⟨_, first, found, member, rfl, List.mem_cons_self⟩

/-- The class of a state goes where the state goes. -/
theorem next?_quotient_classOf? (found : dfa.merged.classOf? state = some position)
    (known : symbol ∈ dfa.alphabet) :
    (dfa.quotient dfa.merged start).next? position symbol =
      (dfa.next? state symbol).bind dfa.merged.classOf? := by
  rcases exists_head_of_classOf? found with
    ⟨members, first, found, member, head, firstMember⟩
  rw [next?_quotient found head]
  exact bind_classOf?_eq known
    (Partition.agrees_signature_coarsest dfa dfa.useful members
    (List.mem_of_getElem? found) first firstMember state member)

theorem isAccepting_quotient_classOf?
    (found : dfa.merged.classOf? state = some position) :
    (dfa.quotient dfa.merged start).isAccepting position = dfa.isAccepting state := by
  rcases exists_head_of_classOf? found with
    ⟨members, first, found, member, head, firstMember⟩
  rw [isAccepting_quotient found head]
  exact Partition.agrees_accepting_coarsest dfa dfa.useful members
    (List.mem_of_getElem? found) first firstMember state member

namespace InRange

variable (inRange : dfa.InRange)
include inRange

theorem decides_eq_false_of_not_useful {access : List String}
    (leads : dfa.follow? dfa.start access = some state) (useless : state ∉ dfa.useful)
    (word : List String) : dfa.decides state word = false := by
  rw [← Bool.not_eq_true]
  intro accepted
  exact useless (inRange.mem_useful.mpr ⟨⟨access, leads⟩, word, accepted⟩)

theorem not_mem_useful_of_follow? {access : List String} {target : Nat}
    (leads : dfa.follow? dfa.start access = some state) (useless : state ∉ dfa.useful)
    (further : dfa.follow? state word = some target) : target ∉ dfa.useful := by
  intro useful
  rcases (inRange.mem_useful.mp useful).2 with ⟨more, accepted⟩
  have rejected := inRange.decides_eq_false_of_not_useful leads useless (word ++ more)
  rw [decides_append, further, Option.any_some, accepted] at rejected
  cases rejected

theorem exists_access_of_classOf? {target : Nat}
    (found : dfa.merged.classOf? state = some position)
    (leads : dfa.follow? state word = some target) :
    ∃ access, dfa.follow? dfa.start access = some target := by
  rcases (inRange.mem_useful.mp (mem_useful_of_classOf? found)).1 with ⟨access, reached⟩
  refine ⟨access ++ word, ?_⟩
  rw [follow?_append, reached]
  exact leads

/-- Over the alphabet, a class is led where its members are led. -/
theorem follow?_quotient (found : dfa.merged.classOf? state = some position)
    (allKnown : ∀ symbol ∈ word, symbol ∈ dfa.alphabet) :
    (dfa.quotient dfa.merged start).follow? position word =
      (dfa.follow? state word).bind dfa.merged.classOf? := by
  induction word generalizing state position with
  | nil => exact found.symm
  | cons symbol rest induction =>
      rcases List.forall_mem_cons.mp allKnown with ⟨known, restKnown⟩
      rw [follow?, follow?, next?_quotient_classOf? found known]
      cases step : dfa.next? state symbol with
      | none => rfl
      | some target =>
          rw [Option.bind_some, Option.bind_some]
          cases kept : dfa.merged.classOf? target with
          | some targetPosition => exact induction kept restKnown
          | none =>
              -- The transition is dropped, and only useless states are behind it.
              have leads : dfa.follow? state [symbol] = some target := by
                rw [follow?, step]
                rfl
              rcases inRange.exists_access_of_classOf? found leads with ⟨access, reached⟩
              have useless : target ∉ dfa.useful := classOf?_eq_none_iff.mp kept
              rw [Option.bind_none, eq_comm, Option.bind_eq_none_iff]
              intro later further
              exact classOf?_eq_none_iff.mpr
                (inRange.not_mem_useful_of_follow? reached useless further)

theorem decides_quotient (found : dfa.merged.classOf? state = some position)
    (allKnown : ∀ symbol ∈ word, symbol ∈ dfa.alphabet) :
    (dfa.quotient dfa.merged start).decides position word = dfa.decides state word := by
  rw [decides, decides, inRange.follow?_quotient found allKnown]
  cases leads : dfa.follow? state word with
  | none => rw [Option.bind_none, Option.any_none, Option.any_none]
  | some target =>
      rw [Option.bind_some, Option.any_some]
      cases kept : dfa.merged.classOf? target with
      | some targetPosition =>
          rw [Option.any_some]
          exact isAccepting_quotient_classOf? kept
      | none =>
          rcases inRange.exists_access_of_classOf? found leads with ⟨access, reached⟩
          have useless : target ∉ dfa.useful := classOf?_eq_none_iff.mp kept
          rw [Option.any_none, ← decides_nil,
            inRange.decides_eq_false_of_not_useful reached useless]

end InRange

/-! ## Minimization -/

theorem minimize_of_classOf?_eq_none (useless : dfa.merged.classOf? dfa.start = none) :
    dfa.minimize = void dfa.alphabet := by
  simp only [minimize, useless]

theorem minimize_of_classOf?_eq_some
    (found : dfa.merged.classOf? dfa.start = some start) :
    dfa.minimize = dfa.quotient dfa.merged start := by
  simp only [minimize, found]

@[simp] theorem alphabet_minimize (dfa : Dfa) :
    dfa.minimize.alphabet = dfa.alphabet := by
  cases found : dfa.merged.classOf? dfa.start with
  | none => rw [minimize_of_classOf?_eq_none found, void]
  | some start => rw [minimize_of_classOf?_eq_some found, quotient]

theorem decides_void (alphabet : OrderedSet String) (state : Nat) (word : List String) :
    (void alphabet).decides state word = false := by
  rw [← Bool.not_eq_true, decides_iff]
  intro given
  rcases given with ⟨target, _, accepting⟩
  simp [isAccepting, void] at accepting

/-- The minimal automaton decides every word over the alphabet as before. -/
theorem InRange.decides_minimize (inRange : dfa.InRange)
    (allKnown : ∀ symbol ∈ word, symbol ∈ dfa.alphabet) :
    dfa.minimize.decides dfa.minimize.start word = dfa.decides dfa.start word := by
  cases found : dfa.merged.classOf? dfa.start with
  | some start =>
      rw [minimize_of_classOf?_eq_some found]
      exact inRange.decides_quotient found allKnown
  | none =>
      rw [minimize_of_classOf?_eq_none found]
      have reached : dfa.follow? dfa.start [] = some dfa.start := rfl
      rw [inRange.decides_eq_false_of_not_useful reached
        (classOf?_eq_none_iff.mp found)]
      exact decides_void _ _ word

theorem InRange.run_minimize (inRange : dfa.InRange)
    (allKnown : ∀ symbol ∈ word, symbol ∈ dfa.alphabet) :
      dfa.minimize.run word = dfa.run word := by
  have minimalKnown : ∀ symbol ∈ word, symbol ∈ dfa.minimize.alphabet := by
    rw [alphabet_minimize]
    exact allKnown
  rw [run, run, runFrom_of_forall_mem allKnown, runFrom_of_forall_mem minimalKnown,
    inRange.decides_minimize allKnown]

/-! ## Well-formedness

Every transition between classes comes from one of a first member, so its target is a
class and its symbol is in the alphabet. -/

theorem lt_size_of_classOf? (found : partition.classOf? state = some position) :
    position < partition.size :=
  (List.findIdx?_eq_some_iff_getElem.mp found).1

theorem exists_first_of_next?_quotient {target : Nat}
    (step : (dfa.quotient partition start).next? position symbol = some target) :
    ∃ first between, dfa.next? first symbol = some between ∧
      partition.classOf? between = some target := by
  rcases next?_eq_some_iff.mp step with ⟨row, found, entry⟩
  rw [quotient, List.getElem?_map, Option.map_eq_some_iff] at found
  rcases found with ⟨members, _, rfl⟩
  cases members with
  | nil => cases entry
  | cons first rest =>
      rw [OrderedMap.get?_filterMap] at entry
      rcases Option.bind_eq_some_iff.mp entry with ⟨between, taken, kept⟩
      exact ⟨first, between, taken, kept⟩

theorem inRange_quotient (inside : start < partition.size) :
    (dfa.quotient partition start).InRange where
  start := by rwa [size_quotient]
  target := by
    intro source symbol target step
    rcases exists_first_of_next?_quotient step with ⟨_, _, _, kept⟩
    rw [size_quotient]
    exact lt_size_of_classOf? kept
  accepting := by
    intro state member
    rcases mem_accepting_quotient.mp member with ⟨_, found, _⟩
    rw [size_quotient]
    exact (List.getElem?_eq_some_iff.mp found).1

theorem inRange_void (alphabet : OrderedSet String) : (void alphabet).InRange :=
  inRange_iff.mpr ⟨Nat.one_pos, by simp [void, OrderedMap.values, OrderedMap.empty],
    fun _ member => absurd member List.not_mem_nil⟩

theorem inRange_minimize (dfa : Dfa) : dfa.minimize.InRange := by
  cases found : dfa.merged.classOf? dfa.start with
  | none =>
      rw [minimize_of_classOf?_eq_none found]
      exact inRange_void dfa.alphabet
  | some start =>
      rw [minimize_of_classOf?_eq_some found]
      exact inRange_quotient (lt_size_of_classOf? found)

theorem Closed.minimize (closed : dfa.Closed) : dfa.minimize.Closed := by
  cases found : dfa.merged.classOf? dfa.start with
  | none =>
      rw [minimize_of_classOf?_eq_none found, closed_iff]
      simp [void, OrderedMap.keys, OrderedMap.empty]
  | some start =>
      rw [minimize_of_classOf?_eq_some found]
      intro source symbol target step
      rcases exists_first_of_next?_quotient step with ⟨_, _, taken, _⟩
      exact closed taken

end WordAutomata.Dfa
