import WordAutomata.Proofs.Dfa.Minimal
import WordAutomata.Proofs.Dfa.Residuals

namespace WordAutomata

/-! A partition seen through the answers of its members. As long as states with the same
answers are in one class, a round of refinement is a matter of the answers alone, so that
it goes the same way for every automaton that gives them. -/

theorem List.findIdx?_congr {α : Type u} {first second : α → Bool} {values : List α}
    (same : ∀ value ∈ values, first value = second value) :
    values.findIdx? first = values.findIdx? second := by
  induction values with
  | nil => rfl
  | cons head tail induction =>
      rcases List.forall_mem_cons.mp same with ⟨headSame, tailSame⟩
      rw [List.findIdx?_cons, List.findIdx?_cons, headSame, induction tailSame]

namespace Partition

/-! ## Groups of images -/

open Classical in
/-- Grouping by what depends on an image only, and then taking images, is the
same as grouping the images. -/
theorem map_groupBy {α : Type u} {β : Type v} {γ : Type w} [DecidableEq γ]
    {image : α → β} {key : α → γ} {imageKey : β → γ} {values : List α}
    (factors : ∀ value ∈ values, key value = imageKey (image value)) :
    (groupBy key values).map (fun group => (group.map image).eraseDups) =
      groupBy imageKey (values.map image).eraseDups := by
  have keys : values.map key = (values.map image).map imageKey := by
    rw [List.map_map]
    exact List.map_congr_left factors
  rw [groupBy_eq, groupBy_eq, List.eraseDups_map_eraseDups, keys, List.map_map]
  apply List.map_congr_left
  intro shared _
  rw [Function.comp_apply, ← List.eraseDups_filter, List.filter_map]
  congr 2
  apply List.filter_congr
  intro value member
  rw [factors value member]
  rfl

/-! ## Residuals of classes

A class is shown by the answers of its members, each listed once. Its position is found by
one of these answers, and a round splits the classes by the positions of what is left of
the answers after each symbol. -/

abbrev Answers : Type := List String → Bool

open Classical in
noncomputable def residuals (dfa : Dfa) (partition : Partition) : List (List Answers) :=
  partition.classes.map fun members => (members.map dfa.decides).eraseDups

open Classical in
noncomputable def place? (groups : List (List Answers))
    (answers : Answers) : Option Nat :=
  groups.findIdx? (answers ∈ ·)

noncomputable def refineResiduals (alphabet : OrderedSet String)
    (groups : List (List Answers)) : List (List Answers) :=
  groups.flatMap (groupBy fun answers =>
    alphabet.toList.map fun symbol => place? groups (residual answers [symbol]))

noncomputable def initialResiduals (answers : List Answers) : List (List Answers) :=
  [answers.filter (· []), answers.filter fun other => !other []].filter (!·.isEmpty)

open Classical in
theorem residuals_initial (dfa : Dfa) (states : List Nat) :
    (initial dfa states).residuals dfa =
      initialResiduals (states.map dfa.decides).eraseDups := by
  have images (keep : Answers → Bool) :
      ((states.filter fun state =>
          keep (dfa.decides state)).map dfa.decides).eraseDups =
        (states.map dfa.decides).eraseDups.filter keep := by
    rw [← List.eraseDups_filter, List.filter_map]
    rfl
  have accepting := images fun answers => answers []
  have rejecting := images fun answers => !answers []
  simp only [Dfa.decides_nil] at accepting rejecting
  have kept (classes : List (List Nat)) :
      ((classes.filter (· ≠ [])).map fun members =>
        (members.map dfa.decides).eraseDups) =
        (classes.map fun members => (members.map dfa.decides).eraseDups).filter
          (!·.isEmpty) := by
    rw [List.filter_map]
    congr 1
    apply List.filter_congr
    intro members _
    cases members with
    | nil => rfl
    | cons first rest => simp [List.eraseDups_cons]
  rw [residuals, initial, kept, initialResiduals, ← accepting, ← rejecting]
  rfl

/-! ## Saturation

A partition is saturated if a class with a state has all states with the same answers.
Then the place of a state is known from its answers. -/

def Saturated (partition : Partition) (dfa : Dfa) (states : List Nat) : Prop :=
  ∀ members ∈ partition.classes, ∀ state ∈ members, ∀ other ∈ states,
    dfa.decides other = dfa.decides state → other ∈ members

theorem saturated_initial (dfa : Dfa) (states : List Nat) :
    (initial dfa states).Saturated dfa states := by
  intro members member state stateMember other otherMember same
  have accepting : dfa.isAccepting other = dfa.isAccepting state := congrFun same []
  rcases List.mem_filter.mp member with ⟨member, _⟩
  rw [List.mem_cons, List.mem_singleton] at member
  rcases member with rfl | rfl
  all_goals
    rw [List.mem_filter] at stateMember ⊢
    rw [accepting]
    exact ⟨otherMember, stateMember.2⟩

end Partition

open WordAutomata.Partition

namespace Dfa.InRange

variable {dfa : Dfa} {partition : Partition}
variable (inRange : dfa.InRange) (divides : partition.Divides dfa.useful)
  (saturated : partition.Saturated dfa dfa.useful)
include inRange divides saturated

/-- The class of a state that is reached is known from its answers, and so is
that there is none. -/
theorem bind_classOf?_eq_place? {target : Option Nat}
    (reached : ∀ state, target = some state →
      ∃ access, dfa.follow? dfa.start access = some state) :
    target.bind partition.classOf? =
      place? (partition.residuals dfa) fun word => target.any (dfa.decides · word) := by
  classical
  -- Useful states accept some word, so no class has answers that are all negative.
  have absent (answers : Answers) (rejects : ∀ word, answers word = false) :
      place? (partition.residuals dfa) answers = none := by
    rw [place?, List.findIdx?_eq_none_iff]
    intro group groupMember
    rw [decide_eq_false_iff_not]
    intro member
    rcases List.mem_map.mp groupMember with ⟨members, classMember, rfl⟩
    rw [List.mem_eraseDups] at member
    rcases List.mem_map.mp member with ⟨state, stateMember, rfl⟩
    have useful : state ∈ dfa.useful :=
      divides.mem_iff.mpr ⟨members, classMember, stateMember⟩
    rcases (inRange.mem_useful.mp useful).2 with ⟨word, accepted⟩
    rw [rejects word] at accepted
    cases accepted
  cases target with
  | none => exact (absent _ fun _ => rfl).symm
  | some state =>
      rw [Option.bind_some]
      by_cases useful : state ∈ dfa.useful
      · rw [place?, residuals, List.findIdx?_map, classOf?]
        apply List.findIdx?_congr
        intro members member
        rw [Function.comp_apply, decide_eq_decide, List.mem_eraseDups, List.mem_map]
        constructor
        · intro stateMember
          exact ⟨state, stateMember, rfl⟩
        · intro given
          rcases given with ⟨other, otherMember, same⟩
          exact saturated members member other otherMember state useful same.symm
      · have classless : partition.classOf? state = none := by
          rw [← Option.not_isSome_iff_eq_none, divides.isSome_classOf?_iff]
          exact useful
        rcases reached state rfl with ⟨access, leads⟩
        rw [classless, absent]
        exact inRange.decides_eq_false_of_not_useful leads useful

theorem bind_next?_eq_place? {state : Nat} (useful : state ∈ dfa.useful)
    (symbol : String) :
    (dfa.next? state symbol).bind partition.classOf? =
      place? (partition.residuals dfa) (residual (dfa.decides state) [symbol]) := by
  have answers : residual (dfa.decides state) [symbol] =
      fun word => (dfa.next? state symbol).any (dfa.decides · word) := by
    funext word
    exact decides_cons symbol word
  rw [answers]
  apply inRange.bind_classOf?_eq_place? divides saturated
  intro target step
  rcases (inRange.mem_useful.mp useful).1 with ⟨access, leads⟩
  refine ⟨access ++ [symbol], ?_⟩
  rw [follow?_concat, leads]
  exact step

theorem signature_eq {state : Nat} (useful : state ∈ dfa.useful) :
    partition.signature dfa state = dfa.alphabet.toList.map fun symbol =>
      place? (partition.residuals dfa) (residual (dfa.decides state) [symbol]) :=
  List.map_congr_left fun symbol _ =>
    inRange.bind_next?_eq_place? divides saturated useful symbol

theorem residuals_refine :
    (partition.refine dfa).residuals dfa =
      refineResiduals dfa.alphabet (partition.residuals dfa) := by
  rw [residuals, Partition.refine, List.map_flatMap, refineResiduals]
  nth_rewrite 2 [residuals]
  rw [List.flatMap_map]
  apply List.flatMap_congr
  intro members member
  apply map_groupBy
  intro state stateMember
  exact inRange.signature_eq divides saturated
    (divides.mem_iff.mpr ⟨members, member, stateMember⟩)

theorem saturated_refine : (partition.refine dfa).Saturated dfa dfa.useful := by
  intro group groupMember state stateMember other otherUseful same
  rcases List.mem_flatMap.mp groupMember with ⟨members, member, inside⟩
  rcases mem_groupBy.mp inside with ⟨first, _, rfl⟩
  rcases List.mem_filter.mp stateMember with ⟨stateMember, key⟩
  have stateUseful : state ∈ dfa.useful :=
    divides.mem_iff.mpr ⟨members, member, stateMember⟩
  have signatures : partition.signature dfa other = partition.signature dfa state := by
    rw [inRange.signature_eq divides saturated otherUseful,
      inRange.signature_eq divides saturated stateUseful, same]
  rw [List.mem_filter, signatures]
  exact ⟨saturated members member state stateMember other otherUseful same, key⟩

end Dfa.InRange

namespace Dfa

variable {dfa : Dfa} {position start : Nat}

theorem head?_residuals :
    ((dfa.merged.residuals dfa)[position]?.bind List.head?) =
      (dfa.merged.classes[position]?.bind List.head?).map dfa.decides := by
  classical
  rw [residuals, List.getElem?_map]
  cases dfa.merged.classes[position]? with
  | none => rfl
  | some members =>
      cases members with
      | nil => rfl
      | cons first rest => simp [List.eraseDups_cons]

theorem mem_accepting_quotient_iff :
    position ∈ (dfa.quotient dfa.merged start).accepting ↔
      ((dfa.merged.residuals dfa)[position]?.bind List.head?).any (· []) := by
  rw [mem_accepting_quotient, head?_residuals]
  cases dfa.merged.classes[position]? with
  | none => simp
  | some members =>
      cases head : members.head? with
      | none => simp [head]
      | some first => simp [head, decides_nil]

namespace InRange

variable (inRange : dfa.InRange)
include inRange

theorem saturated_afterRounds (rounds : Nat) :
    (afterRounds dfa dfa.useful rounds).Saturated dfa dfa.useful := by
  induction rounds with
  | zero => exact saturated_initial dfa dfa.useful
  | succ rounds induction =>
      rw [afterRounds_succ]
      exact inRange.saturated_refine
        (divides_afterRounds dfa dfa.useful rounds) induction

open Classical in
/-- Every round does to the answers of the classes what the alphabet says. -/
theorem residuals_afterRounds (rounds : Nat) :
    (afterRounds dfa dfa.useful rounds).residuals dfa =
      (refineResiduals dfa.alphabet)^[rounds]
        (initialResiduals (dfa.useful.map dfa.decides).eraseDups) := by
  induction rounds with
  | zero => exact residuals_initial dfa dfa.useful
  | succ rounds induction =>
      have divides := divides_afterRounds dfa dfa.useful rounds
      have saturated := inRange.saturated_afterRounds rounds
      rw [afterRounds_succ, inRange.residuals_refine divides saturated, induction,
        Function.iterate_succ_apply']

theorem saturated_merged : dfa.merged.Saturated dfa dfa.useful := by
  rw [merged, coarsest_eq_afterRounds (Nat.lt_add_one _)]
  exact inRange.saturated_afterRounds _

end InRange

end Dfa

end WordAutomata
