import WordAutomata.Proofs.Dfa.Partition

namespace WordAutomata

/-! Refinement separates states by what can be observed of them. Every round looks
one symbol further, and the rounds end when there is nothing left to see. -/

/-! A run among some states is stuck as soon as it would leave them. What is observed of
it is whether it is stuck and, if it is not, whether it has come to an accepting state. -/

inductive Outcome
  | dead
  | accepting
  | rejecting
deriving DecidableEq, Repr

namespace Dfa

def inner? (dfa : Dfa) (states : List Nat) (state : Nat) (symbol : String) : Option Nat :=
  (dfa.next? state symbol).filter (· ∈ states)

def observe (dfa : Dfa) (states : List Nat) (state : Nat) : List String → Outcome
  | [] => if dfa.isAccepting state then .accepting else .rejecting
  | symbol :: rest =>
      match dfa.inner? states state symbol with
      | none => .dead
      | some target => dfa.observe states target rest

variable {dfa : Dfa} {states : List Nat} {state target left right : Nat} {symbol : String}

theorem mem_of_inner? (step : dfa.inner? states state symbol = some target) :
    target ∈ states :=
  of_decide_eq_true (Option.filter_eq_some_iff.mp step).2

theorem observe_nil_ne_dead : dfa.observe states state [] ≠ .dead := by
  rw [observe]
  split <;> decide

theorem observe_nil_eq_iff :
    dfa.observe states left [] = dfa.observe states right [] ↔
      dfa.isAccepting left = dfa.isAccepting right := by
  rw [observe, observe]
  cases dfa.isAccepting left <;> cases dfa.isAccepting right <;> decide

end Dfa

namespace Partition

variable {partition : Partition} {dfa : Dfa} {states : List Nat} {left right : Nat}

/-! ## Common classes -/

def Together (partition : Partition) (left right : Nat) : Prop :=
  ∃ members ∈ partition.classes, left ∈ members ∧ right ∈ members

theorem Apart.classOf?_eq_iff (apart : partition.Apart) (divides : partition.Divides states)
    (known : left ∈ states) :
    partition.classOf? left = partition.classOf? right ↔ partition.Together left right := by
  constructor
  · intro same
    rcases Option.isSome_iff_exists.mp (divides.isSome_classOf?_iff.mpr known) with
      ⟨position, leftFound⟩
    have rightFound := same.symm.trans leftFound
    rcases apart.classOf?_eq_some_iff.mp leftFound with ⟨members, atPosition, leftMember⟩
    rcases apart.classOf?_eq_some_iff.mp rightFound with ⟨others, atSame, rightMember⟩
    cases atPosition.symm.trans atSame
    exact ⟨members, List.mem_of_getElem? atPosition, leftMember, rightMember⟩
  · intro together
    rcases together with ⟨members, member, leftMember, rightMember⟩
    rcases List.mem_iff_getElem?.mp member with ⟨position, atPosition⟩
    rw [apart.classOf?_eq_some_iff.mpr ⟨members, atPosition, leftMember⟩,
      apart.classOf?_eq_some_iff.mpr ⟨members, atPosition, rightMember⟩]

theorem together_initial (leftKnown : left ∈ states) (rightKnown : right ∈ states) :
    (initial dfa states).Together left right ↔
      dfa.isAccepting left = dfa.isAccepting right := by
  constructor
  · intro together
    rcases together with ⟨members, member, leftMember, rightMember⟩
    exact agrees_initial dfa states members member left leftMember right rightMember
  · intro same
    rcases (Divides.initial dfa states).mem_iff.mp leftKnown with
      ⟨members, member, leftMember⟩
    refine ⟨members, member, leftMember, ?_⟩
    rcases List.mem_filter.mp member with ⟨member, _⟩
    rw [List.mem_cons, List.mem_singleton] at member
    rcases member with rfl | rfl
    all_goals
      rw [List.mem_filter, ← same]
      exact ⟨rightKnown, (List.mem_filter.mp leftMember).2⟩

theorem together_refine :
    (partition.refine dfa).Together left right ↔
      partition.Together left right ∧
        partition.signature dfa left = partition.signature dfa right := by
  constructor
  · intro together
    rcases together with ⟨group, groupMember, leftMember, rightMember⟩
    rcases List.mem_flatMap.mp groupMember with ⟨members, member, inside⟩
    have included := subset_of_mem_groupBy inside
    exact ⟨⟨members, member, included leftMember, included rightMember⟩,
      key_eq_of_mem_groupBy inside leftMember rightMember⟩
  · intro given
    rcases given with ⟨⟨members, member, leftMember, rightMember⟩, same⟩
    refine ⟨_, List.mem_flatMap.mpr ⟨members, member, mem_groupBy.mpr
      ⟨left, leftMember, rfl⟩⟩, ?_, ?_⟩
    · exact List.mem_filter.mpr ⟨leftMember, decide_eq_true rfl⟩
    · exact List.mem_filter.mpr ⟨rightMember, decide_eq_true same.symm⟩

/-! ## Observations

States are alike up to a depth if no word with at most so many symbols tells them apart. A
partition sees up to a depth if its classes are made up of the states that are alike. -/

def Alike (dfa : Dfa) (states : List Nat) (depth left right : Nat) : Prop :=
  ∀ word : List String, (∀ symbol ∈ word, symbol ∈ dfa.alphabet) → word.length ≤ depth →
    dfa.observe states left word = dfa.observe states right word

theorem alike_zero :
    Alike dfa states 0 left right ↔ dfa.isAccepting left = dfa.isAccepting right := by
  rw [← @Dfa.observe_nil_eq_iff dfa states left right]
  constructor
  · exact fun alike => alike [] (by simp) (Nat.le_refl 0)
  · intro same word _ short
    rw [List.eq_nil_of_length_eq_zero (Nat.le_zero.mp short)]
    exact same

theorem Divides.classOf?_ne_none (divides : partition.Divides states)
    (known : left ∈ states) : partition.classOf? left ≠ none :=
  Option.isSome_iff_ne_none.mp (divides.isSome_classOf?_iff.mpr known)

theorem Divides.bind_inner? (divides : partition.Divides states) (state : Nat)
    (symbol : String) :
    (dfa.inner? states state symbol).bind partition.classOf? =
      (dfa.next? state symbol).bind partition.classOf? := by
  rw [Dfa.inner?]
  cases dfa.next? state symbol with
  | none => rfl
  | some target =>
      rw [Option.bind_some, Option.filter_some]
      by_cases inside : target ∈ states
      · rw [if_pos (decide_eq_true inside), Option.bind_some]
      · have lost := mt divides.isSome_classOf?_iff.mp inside
        rw [if_neg (by simpa using inside), Option.bind_none,
          Option.not_isSome_iff_eq_none.mp lost]

section

variable {depth : Nat}

def Sees (partition : Partition) (dfa : Dfa) (states : List Nat) (depth : Nat) : Prop :=
  ∀ left ∈ states, ∀ right ∈ states,
    (partition.classOf? left = partition.classOf? right ↔ Alike dfa states depth left right)

/-- A symbol leads to one class where nothing different is seen behind it. -/
theorem Sees.bind_classOf?_eq_iff (sees : partition.Sees dfa states depth)
    (divides : partition.Divides states) (symbol : String) :
    (dfa.next? left symbol).bind partition.classOf? =
        (dfa.next? right symbol).bind partition.classOf? ↔
      ∀ word : List String, (∀ other ∈ word, other ∈ dfa.alphabet) →
        word.length ≤ depth →
        dfa.observe states left (symbol :: word) =
          dfa.observe states right (symbol :: word) := by
  rw [← divides.bind_inner?, ← divides.bind_inner?]
  simp only [Dfa.observe]
  cases leftStep : dfa.inner? states left symbol with
  | none =>
      cases rightStep : dfa.inner? states right symbol with
      | none => simp
      | some other =>
          have found := divides.classOf?_ne_none (Dfa.mem_of_inner? rightStep)
          exact iff_of_false found.symm fun same =>
            Dfa.observe_nil_ne_dead (same [] (by simp) (Nat.zero_le _)).symm
  | some target =>
      cases rightStep : dfa.inner? states right symbol with
      | none =>
          have found := divides.classOf?_ne_none (Dfa.mem_of_inner? leftStep)
          exact iff_of_false found fun same =>
            Dfa.observe_nil_ne_dead (same [] (by simp) (Nat.zero_le _))
      | some other =>
          exact sees target (Dfa.mem_of_inner? leftStep) other (Dfa.mem_of_inner? rightStep)

/-- Every round sees one symbol further than the one before. -/
theorem Sees.refine (sees : partition.Sees dfa states depth) (apart : partition.Apart)
    (divides : partition.Divides states) :
    (partition.refine dfa).Sees dfa states (depth + 1) := by
  intro left leftKnown right rightKnown
  have ends := sees left leftKnown right rightKnown
  rw [apart.classOf?_eq_iff divides leftKnown] at ends
  rw [(apart.refine dfa).classOf?_eq_iff (divides.refine dfa) leftKnown, together_refine,
    ends, signature, signature, List.map_inj_left]
  constructor
  · intro given word allKnown short
    rcases given with ⟨alike, same⟩
    cases word with
    | nil => exact alike [] allKnown (Nat.zero_le _)
    | cons symbol rest =>
        rcases List.forall_mem_cons.mp allKnown with ⟨known, restKnown⟩
        exact (sees.bind_classOf?_eq_iff divides symbol).mp (same symbol known) rest
          restKnown (Nat.le_of_succ_le_succ short)
  · intro alike
    refine ⟨fun word allKnown short => alike word allKnown (Nat.le_succ_of_le short), ?_⟩
    intro symbol known
    refine (sees.bind_classOf?_eq_iff divides symbol).mpr fun word allKnown short => ?_
    exact alike (symbol :: word) (List.forall_mem_cons.mpr ⟨known, allKnown⟩)
      (Nat.succ_le_succ short)

theorem sees_initial : (initial dfa states).Sees dfa states 0 := by
  intro left leftKnown right rightKnown
  rw [(Apart.initial dfa states).classOf?_eq_iff (Divides.initial dfa states) leftKnown,
    together_initial leftKnown rightKnown, alike_zero]

theorem sees_afterRounds (dfa : Dfa) (states : List Nat) (rounds : Nat) :
    (afterRounds dfa states rounds).Sees dfa states rounds := by
  induction rounds with
  | zero => exact sees_initial
  | succ rounds induction =>
      rw [afterRounds_succ]
      exact induction.refine (apart_afterRounds dfa states rounds)
        (divides_afterRounds dfa states rounds)

theorem classOf?_coarsest_eq_iff (leftKnown : left ∈ states) (rightKnown : right ∈ states) :
    (coarsest dfa states).classOf? left = (coarsest dfa states).classOf? right ↔
      ∀ depth, Alike dfa states depth left right := by
  have seen (rounds : Nat) (enough : states.length < rounds) :
      (coarsest dfa states).Sees dfa states rounds := by
    rw [coarsest_eq_afterRounds enough]
    exact sees_afterRounds dfa states rounds
  constructor
  · intro same depth word allKnown short
    have further := seen (states.length + depth + 1) (by omega)
    exact (further left leftKnown right rightKnown).mp same word allKnown (by omega)
  · intro alike
    have enough := seen (states.length + 1) (Nat.lt_add_one _)
    exact (enough left leftKnown right rightKnown).mpr (alike _)

end

/-! ## Rounds

Every round but the last adds a class, so they stop before there are more of them than
different states. -/

theorem add_le_size_afterRounds {rounds : Nat}
    (grows : ∀ earlier < rounds, (afterRounds dfa states earlier).size <
      (afterRounds dfa states (earlier + 1)).size) :
    (initial dfa states).size + rounds ≤ (afterRounds dfa states rounds).size := by
  induction rounds with
  | zero => exact Nat.le_refl _
  | succ rounds induction =>
      have before := induction fun earlier below => grows earlier (Nat.lt_succ_of_lt below)
      have last := grows rounds (Nat.lt_succ_self rounds)
      omega

theorem exists_rounds_eq {budget start : Nat}
    (enough : states.eraseDups.length < (afterRounds dfa states start).size + budget) :
    ∃ splits,
      (rounds dfa budget (afterRounds dfa states start) =
          (List.range' start (splits + 1)).map fun round =>
            afterRounds dfa states (round + 1)) ∧
        (∀ round ∈ List.range' start splits, (afterRounds dfa states round).size <
          (afterRounds dfa states (round + 1)).size) ∧
        (afterRounds dfa states (start + splits + 1)).size =
          (afterRounds dfa states (start + splits)).size := by
  induction budget generalizing start with
  | zero =>
      have bound := size_afterRounds_le dfa states start
      omega
  | succ budget induction =>
      rw [rounds, ← afterRounds_succ]
      by_cases same : (afterRounds dfa states (start + 1)).size =
          (afterRounds dfa states start).size
      · exact ⟨0, by simp [same], by simp, same⟩
      · have grows := (divides_afterRounds dfa states start).size_le_refine dfa
        rw [← afterRounds_succ] at grows
        have further : states.eraseDups.length <
            (afterRounds dfa states (start + 1)).size + budget := by omega
        rcases induction further with ⟨splits, listed, growing, stops⟩
        refine ⟨splits + 1, ?_, ?_, ?_⟩
        · rw [if_neg same, listed, @List.range'_succ start (splits + 1), List.map_cons]
        · rw [List.range'_succ]
          exact List.forall_mem_cons.mpr ⟨Nat.lt_of_le_of_ne grows (Ne.symm same), growing⟩
        · rwa [Nat.add_right_comm start 1 splits] at stops

theorem exists_refinements_eq (dfa : Dfa) (states : List Nat) :
    ∃ splits, splits + 1 ≤ max 1 states.eraseDups.length ∧
      (refinements dfa states =
          (List.range (splits + 1)).map fun round =>
            afterRounds dfa states (round + 1)) ∧
        (∀ round < splits, (afterRounds dfa states round).size <
          (afterRounds dfa states (round + 1)).size) ∧
        (afterRounds dfa states (splits + 1)).size =
          (afterRounds dfa states splits).size := by
  have fewer := List.length_eraseDups_le states
  have room : states.eraseDups.length <
      (afterRounds dfa states 0).size + (states.length + 1) := by omega
  rcases exists_rounds_eq room with ⟨splits, listed, growing, stops⟩
  simp only [← List.range_eq_range', List.mem_range] at listed growing
  rw [Nat.zero_add] at stops
  refine ⟨splits, ?_, listed, growing, stops⟩
  have classes := add_le_size_afterRounds growing
  have bound := size_afterRounds_le dfa states splits
  cases states with
  | nil =>
      rw [List.eraseDups_nil, List.length_nil] at bound ⊢
      omega
  | cons state states =>
      have positive : 0 < (initial dfa (state :: states)).size := by
        rcases (Divides.initial dfa (state :: states)).mem_iff.mp List.mem_cons_self with
          ⟨members, member, _⟩
        exact List.length_pos_of_mem member
      omega

/-- The rounds of refinement stop before there are more of them than different
states. Two states share a class at the end if and only if no word over the alphabet
tells them apart, and after some rounds if and only if no word with at most as many
symbols does. -/
theorem classOf?_eq_iff_observe_eq (dfa : Dfa) (states : List Nat) :
    (∃ splits, splits + 1 ≤ max 1 states.eraseDups.length ∧
      (refinements dfa states =
          (List.range (splits + 1)).map fun round =>
            afterRounds dfa states (round + 1)) ∧
        (∀ round < splits, (afterRounds dfa states round).size <
          (afterRounds dfa states (round + 1)).size) ∧
        (afterRounds dfa states (splits + 1)).size =
          (afterRounds dfa states splits).size) ∧
      ∀ left ∈ states, ∀ right ∈ states,
        ((coarsest dfa states).classOf? left = (coarsest dfa states).classOf? right ↔
          ∀ word : List String, (∀ symbol ∈ word, symbol ∈ dfa.alphabet) →
            dfa.observe states left word = dfa.observe states right word) ∧
        ∀ rounds,
          ((afterRounds dfa states rounds).classOf? left =
              (afterRounds dfa states rounds).classOf? right ↔
            ∀ word : List String, (∀ symbol ∈ word, symbol ∈ dfa.alphabet) →
              word.length ≤ rounds →
              dfa.observe states left word = dfa.observe states right word) := by
  refine ⟨exists_refinements_eq dfa states, fun left leftKnown right rightKnown =>
    ⟨?_, fun rounds => sees_afterRounds dfa states rounds left leftKnown right rightKnown⟩⟩
  rw [classOf?_coarsest_eq_iff leftKnown rightKnown]
  constructor
  · intro alike word allKnown
    exact alike word.length word allKnown (Nat.le_refl _)
  · intro same _ word allKnown _
    exact same word allKnown

/-- The states are not closed under the transitions, and one of them is named twice. A
run from the second state gets stuck where a run from the first one goes on. -/
theorem classOf?_eq_iff_observe_eq_of_open_states :
    let dfa : Dfa := ⟨.ofList ["a"], [.ofList [("a", 1)], .ofList [("a", 2)], .empty], 0,
      .ofList [2]⟩
    let states := [1, 0, 0]
    0 ∈ states ∧ 1 ∈ states ∧
      (afterRounds dfa states 0).classOf? 0 = (afterRounds dfa states 0).classOf? 1 ∧
      (coarsest dfa states).classOf? 0 ≠ (coarsest dfa states).classOf? 1 := by
  intro dfa states
  have spec := (classOf?_eq_iff_observe_eq dfa states).2 0 (by decide) 1 (by decide)
  refine ⟨by decide, by decide, ?_, fun same => ?_⟩
  · rw [spec.2 0]
    intro word _ short
    rw [List.eq_nil_of_length_eq_zero (Nat.le_zero.mp short)]
    rfl
  · have seen := spec.1.mp same ["a"] (by decide)
    exact absurd seen (by decide)

end Partition

end WordAutomata
