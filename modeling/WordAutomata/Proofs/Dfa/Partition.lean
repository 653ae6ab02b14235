import Mathlib.Data.List.Perm.Subperm
import Mathlib.Logic.Function.Iterate
import WordAutomata.Dfa.Partition
import WordAutomata.Proofs.FirstOccurrences

namespace WordAutomata.Partition

/-! Refining a partition comes to an end, with classes whose members no symbol
tells apart. -/

/-! ## Groups

Groups share out the values, no value is in two of them, and none is empty. -/

section

variable {α : Type u} {β : Type v} [DecidableEq β] {key : α → β} {values : List α}

theorem groupBy_eq (key : α → β) (values : List α) :
    groupBy key values =
      (values.map key).eraseDups.map fun shared => values.filter (key · = shared) := by
  simp [groupBy, List.filter_map, Function.comp_def]

theorem mem_groupBy {group : List α} :
    group ∈ groupBy key values ↔
      ∃ value ∈ values, group = values.filter (key · = key value) := by
  simp only [groupBy_eq, List.mem_map, List.mem_eraseDups]
  constructor
  · intro given
    rcases given with ⟨_, ⟨value, member, rfl⟩, rfl⟩
    exact ⟨value, member, rfl⟩
  · intro given
    rcases given with ⟨value, member, rfl⟩
    exact ⟨_, ⟨value, member, rfl⟩, rfl⟩

theorem ne_nil_of_mem_groupBy {group : List α} (member : group ∈ groupBy key values) :
    group ≠ [] := by
  rcases mem_groupBy.mp member with ⟨value, known, rfl⟩
  exact List.ne_nil_of_mem (List.mem_filter.mpr ⟨known, by simp⟩)

theorem key_eq_of_mem_groupBy {group : List α} (member : group ∈ groupBy key values)
    {left right : α} (leftMember : left ∈ group) (rightMember : right ∈ group) :
    key left = key right := by
  rcases mem_groupBy.mp member with ⟨value, _, rfl⟩
  have leftKey := (List.mem_filter.mp leftMember).2
  have rightKey := (List.mem_filter.mp rightMember).2
  rw [decide_eq_true_eq] at leftKey rightKey
  exact leftKey.trans rightKey.symm

theorem subset_of_mem_groupBy {group : List α} (member : group ∈ groupBy key values) :
    group ⊆ values := by
  rcases mem_groupBy.mp member with ⟨_, _, rfl⟩
  exact fun value kept => (List.mem_filter.mp kept).1

theorem length_groupBy_pos (nonempty : values ≠ []) :
    0 < (groupBy key values).length := by
  rcases List.exists_mem_of_ne_nil values nonempty with ⟨value, member⟩
  exact List.length_pos_of_mem (mem_groupBy.mpr ⟨value, member, rfl⟩)

theorem groupBy_eq_singleton (single : (groupBy key values).length = 1) :
    groupBy key values = [values] := by
  rw [groupBy_eq, List.length_map, List.length_eq_one_iff] at single
  rcases single with ⟨shared, keys⟩
  rw [groupBy_eq, keys, List.map_singleton, List.filter_eq_self.mpr]
  intro value member
  have known : key value ∈ (values.map key).eraseDups :=
    List.mem_eraseDups.mpr (List.mem_map_of_mem member)
  rw [keys, List.mem_singleton] at known
  exact decide_eq_true known

/-- Grouping lists one by one gives at least as many lists, and no others if it
gives no more. -/
theorem length_flatMap_groupBy (key : α → β) {lists : List (List α)}
    (nonempty : ∀ values ∈ lists, values ≠ []) :
    lists.length ≤ (lists.flatMap (groupBy key)).length ∧
      ((lists.flatMap (groupBy key)).length = lists.length →
        lists.flatMap (groupBy key) = lists) := by
  induction lists with
  | nil => simp
  | cons head tail induction =>
      rcases List.forall_mem_cons.mp nonempty with ⟨headNonempty, tailNonempty⟩
      have positive : 0 < (groupBy key head).length := length_groupBy_pos headNonempty
      rcases induction tailNonempty with ⟨bound, rest⟩
      rw [List.flatMap_cons, List.length_append, List.length_cons]
      refine ⟨by omega, fun equal => ?_⟩
      rw [groupBy_eq_singleton (by omega), rest (by omega)]
      rfl

theorem disjoint_groupBy (key : α → β) (values : List α) :
    (groupBy key values).Pairwise List.Disjoint := by
  rw [groupBy_eq, List.pairwise_map]
  refine (List.nodup_eraseDups _).imp fun {left right} different value inLeft inRight => ?_
  have leftKey := (List.mem_filter.mp inLeft).2
  have rightKey := (List.mem_filter.mp inRight).2
  rw [decide_eq_true_eq] at leftKey rightKey
  exact different (leftKey.symm.trans rightKey)

theorem flatten_map_filter_perm {keys : List β} (nodup : keys.Nodup)
    (covered : ∀ value ∈ values, key value ∈ keys) :
    (keys.map fun shared => values.filter (key · = shared)).flatten.Perm values := by
  -- Each key takes its group out, and the rest have to fit the other keys.
  induction keys generalizing values with
  | nil =>
      have empty : values = [] :=
        List.eq_nil_iff_forall_not_mem.mpr fun value member =>
          List.not_mem_nil (covered value member)
      simp [empty]
  | cons head tail induction =>
      rcases List.nodup_cons.mp nodup with ⟨absent, tailNodup⟩
      have fits : ∀ value ∈ values.filter (key · ≠ head), key value ∈ tail := by
        intro value member
        rw [List.mem_filter, decide_eq_true_eq] at member
        exact (List.mem_cons.mp (covered value member.1)).resolve_left member.2
      have same : (tail.map fun shared =>
          (values.filter (key · ≠ head)).filter (key · = shared)) =
          tail.map fun shared => values.filter (key · = shared) := by
        apply List.map_congr_left
        intro shared member
        rw [List.filter_filter]
        apply List.filter_congr
        intro value _
        by_cases equal : key value = shared
        · have different : shared ≠ head := fun equal => absent (equal ▸ member)
          simp [equal, different]
        · simp [equal]
      have rest := induction tailNodup fits
      rw [same] at rest
      rw [List.map_cons, List.flatten_cons]
      apply (rest.append_left _).trans
      have parts := List.filter_append_perm (key · = head) values
      simpa using parts

theorem flatten_groupBy_perm (key : α → β) (values : List α) :
    (groupBy key values).flatten.Perm values := by
  rw [groupBy_eq]
  apply flatten_map_filter_perm (List.nodup_eraseDups _)
  intro value member
  exact List.mem_eraseDups.mpr (List.mem_map_of_mem member)

end

/-! ## Partitions of states

The classes divide some states if they share them out and none of them is empty. -/

structure Divides (partition : Partition) (states : List Nat) : Prop where
  nonempty : ∀ members ∈ partition.classes, members ≠ []
  perm : partition.classes.flatten.Perm states

variable {partition : Partition} {states : List Nat} {dfa : Dfa}

namespace Divides

variable (divides : partition.Divides states)
include divides

theorem mem_iff {state : Nat} :
    state ∈ states ↔ ∃ members ∈ partition.classes, state ∈ members := by
  rw [← divides.perm.mem_iff, List.mem_flatten]

theorem refine (dfa : Dfa) : (partition.refine dfa).Divides states where
  nonempty := by
    intro group member
    rcases List.mem_flatMap.mp member with ⟨members, _, inside⟩
    exact ne_nil_of_mem_groupBy inside
  perm := by
    refine List.Perm.trans ?_ divides.perm
    rw [Partition.refine]
    induction partition.classes with
    | nil => simp
    | cons head tail induction =>
        rw [List.flatMap_cons, List.flatten_append, List.flatten_cons]
        exact (flatten_groupBy_perm _ head).append induction

omit divides in
theorem initial (dfa : Dfa) (states : List Nat) :
    (initial dfa states).Divides states where
  nonempty := by
    intro members member
    simpa using (List.mem_filter.mp member).2
  perm := by
    have flat (classes : List (List Nat)) :
        (classes.filter (· ≠ [])).flatten = classes.flatten := by
      induction classes with
      | nil => rfl
      | cons head tail induction =>
          rw [List.filter_cons]
          split
          · rw [List.flatten_cons, List.flatten_cons, induction]
          · rename_i empty
            rw [induction, List.flatten_cons]
            simp_all
    rw [Partition.initial, flat]
    simpa using List.filter_append_perm dfa.isAccepting states

theorem size_le_refine (dfa : Dfa) : partition.size ≤ (partition.refine dfa).size :=
  (length_flatMap_groupBy _ divides.nonempty).1

/-- A refinement that has no more classes is the same partition. -/
theorem refine_eq_self (same : (partition.refine dfa).size = partition.size) :
    partition.refine dfa = partition :=
  congrArg Partition.mk ((length_flatMap_groupBy _ divides.nonempty).2 same)

theorem isSome_classOf?_iff {state : Nat} :
    (partition.classOf? state).isSome ↔ state ∈ states := by
  rw [classOf?, List.findIdx?_isSome, List.any_eq_true, divides.mem_iff]
  simp

theorem getLastD_rounds (dfa : Dfa) (budget : Nat) :
    (rounds dfa budget partition).getLastD partition =
      (fun partition => partition.refine dfa)^[budget] partition := by
  induction budget generalizing partition with
  | zero => rfl
  | succ budget induction =>
      rw [rounds, Function.iterate_succ_apply]
      split
      · rename_i same
        -- Further rounds would change nothing, so leaving them out is no loss.
        have fixed := divides.refine_eq_self same
        rw [fixed, Function.iterate_fixed fixed]
        rfl
      · rw [List.getLastD_cons]
        exact induction (divides.refine dfa)

end Divides

/-! ## Classes without common states -/

def Apart (partition : Partition) : Prop := partition.classes.Pairwise List.Disjoint

namespace Apart

theorem initial (dfa : Dfa) (states : List Nat) : (initial dfa states).Apart := by
  apply List.Pairwise.filter
  rw [List.pairwise_pair]
  intro state accepting rejecting
  have accepted := (List.mem_filter.mp accepting).2
  have rejected := (List.mem_filter.mp rejecting).2
  rw [accepted] at rejected
  cases rejected

theorem refine (apart : partition.Apart) (dfa : Dfa) : (partition.refine dfa).Apart := by
  apply List.pairwise_flatMap.mpr
  refine ⟨fun members _ => disjoint_groupBy _ members, apart.imp ?_⟩
  intro left right disjoint first firstMember second secondMember state inFirst inSecond
  exact disjoint (subset_of_mem_groupBy firstMember inFirst)
    (subset_of_mem_groupBy secondMember inSecond)

variable (apart : partition.Apart)
include apart

theorem position_unique {left right state : Nat} {leftMembers rightMembers : List Nat}
    (leftFound : partition.classes[left]? = some leftMembers)
    (leftMember : state ∈ leftMembers)
    (rightFound : partition.classes[right]? = some rightMembers)
    (rightMember : state ∈ rightMembers) : left = right := by
  have disjoint := List.pairwise_iff_getElem.mp apart
  rcases List.getElem?_eq_some_iff.mp leftFound with ⟨leftInside, rfl⟩
  rcases List.getElem?_eq_some_iff.mp rightFound with ⟨rightInside, rfl⟩
  rcases Nat.lt_trichotomy left right with below | equal | above
  · exact absurd rightMember (disjoint left right leftInside rightInside below leftMember)
  · exact equal
  · exact absurd leftMember (disjoint right left rightInside leftInside above rightMember)

theorem classOf?_eq_some_iff {state position : Nat} :
    partition.classOf? state = some position ↔
      ∃ members, partition.classes[position]? = some members ∧ state ∈ members := by
  rw [classOf?, List.findIdx?_eq_some_iff_getElem]
  constructor
  · intro given
    rcases given with ⟨inside, member, _⟩
    exact ⟨_, List.getElem?_eq_getElem inside, by simpa using member⟩
  · intro given
    rcases given with ⟨members, found, member⟩
    rcases List.getElem?_eq_some_iff.mp found with ⟨inside, rfl⟩
    refine ⟨inside, by simpa using member, fun earlier below earlierMember => ?_⟩
    have equal := apart.position_unique
      (List.getElem?_eq_getElem (Nat.lt_trans below inside))
      (by simpa using earlierMember)
      found member
    omega

theorem size_le (divides : partition.Divides states) :
    partition.size ≤ states.eraseDups.length := by
  have first : ∀ members ∈ partition.classes, members.head?.isSome := by
    intro members member
    exact List.isSome_head?.mpr (divides.nonempty members member)
  have count : (partition.classes.filterMap List.head?).length = partition.size :=
    List.filterMap_length_eq_length.mpr first
  have nodup : (partition.classes.filterMap List.head?).Nodup := by
    apply List.pairwise_filterMap.mpr
    refine List.Pairwise.imp ?_ apart
    intro left right disjoint state inLeft other inRight equal
    subst equal
    exact disjoint (List.mem_of_mem_head? inLeft) (List.mem_of_mem_head? inRight)
  have included : partition.classes.filterMap List.head? ⊆ states.eraseDups := by
    intro state member
    rcases List.mem_filterMap.mp member with ⟨members, known, head⟩
    exact List.mem_eraseDups.mpr
      (divides.mem_iff.mpr ⟨members, known, List.mem_of_mem_head? head⟩)
  rw [← count]
  exact (List.subperm_of_subset nodup included).length_le

end Apart

/-! ## Rounds

A round adds a class or changes nothing, and there are no more classes than states. So
once there have been more rounds than states, the partition is the coarsest one. -/

def afterRounds (dfa : Dfa) (states : List Nat) (rounds : Nat) : Partition :=
  (fun partition => partition.refine dfa)^[rounds] (initial dfa states)

theorem afterRounds_succ (dfa : Dfa) (states : List Nat) (rounds : Nat) :
    afterRounds dfa states (rounds + 1) = (afterRounds dfa states rounds).refine dfa :=
  Function.iterate_succ_apply' _ _ _

theorem divides_afterRounds (dfa : Dfa) (states : List Nat) (rounds : Nat) :
    (afterRounds dfa states rounds).Divides states := by
  induction rounds with
  | zero => exact Divides.initial dfa states
  | succ rounds induction =>
      rw [afterRounds_succ]
      exact induction.refine dfa

theorem apart_afterRounds (dfa : Dfa) (states : List Nat) (rounds : Nat) :
    (afterRounds dfa states rounds).Apart := by
  induction rounds with
  | zero => exact Apart.initial dfa states
  | succ rounds induction =>
      rw [afterRounds_succ]
      exact induction.refine dfa

theorem size_afterRounds_le (dfa : Dfa) (states : List Nat) (rounds : Nat) :
    (afterRounds dfa states rounds).size ≤ states.eraseDups.length :=
  (apart_afterRounds dfa states rounds).size_le (divides_afterRounds dfa states rounds)

/-- Until a round changes nothing, every one adds a class. -/
theorem fixed_or_le_size (dfa : Dfa) (states : List Nat) (rounds : Nat) :
    (afterRounds dfa states rounds).refine dfa = afterRounds dfa states rounds ∨
      rounds ≤ (afterRounds dfa states rounds).size := by
  induction rounds with
  | zero => exact .inr (Nat.zero_le _)
  | succ rounds induction =>
      have divides := divides_afterRounds dfa states rounds
      rw [afterRounds_succ]
      rcases induction with fixed | bound
      · left
        rw [fixed, fixed]
      · by_cases same : ((afterRounds dfa states rounds).refine dfa).size =
            (afterRounds dfa states rounds).size
        · left
          rw [divides.refine_eq_self same, divides.refine_eq_self same]
        · right
          have grows := divides.size_le_refine dfa
          omega

theorem refine_afterRounds {rounds : Nat} (enough : states.length < rounds) :
    (afterRounds dfa states rounds).refine dfa = afterRounds dfa states rounds := by
  have bound := size_afterRounds_le dfa states rounds
  have fewer := List.length_eraseDups_le states
  rcases fixed_or_le_size dfa states rounds with fixed | grown
  · exact fixed
  · omega

/-- However many rounds there are, once there are more of them than states the
result is the coarsest partition. -/
theorem coarsest_eq_afterRounds {rounds : Nat} (enough : states.length < rounds) :
    coarsest dfa states = afterRounds dfa states rounds := by
  have first : coarsest dfa states = afterRounds dfa states (states.length + 1) :=
    (Divides.initial dfa states).getLastD_rounds dfa _
  obtain ⟨more, rfl⟩ := Nat.exists_eq_add_of_lt enough
  rw [first]
  clear enough
  induction more with
  | zero => rfl
  | succ more induction =>
      rw [induction, ← Nat.add_assoc,
        afterRounds_succ dfa states (states.length + more + 1),
        refine_afterRounds (by omega)]

theorem divides_coarsest (dfa : Dfa) (states : List Nat) :
    (coarsest dfa states).Divides states := by
  rw [coarsest_eq_afterRounds (Nat.lt_add_one states.length)]
  exact divides_afterRounds dfa states _

theorem apart_coarsest (dfa : Dfa) (states : List Nat) : (coarsest dfa states).Apart := by
  rw [coarsest_eq_afterRounds (Nat.lt_add_one states.length)]
  exact apart_afterRounds dfa states _

theorem refine_coarsest (dfa : Dfa) (states : List Nat) :
    (coarsest dfa states).refine dfa = coarsest dfa states := by
  rw [coarsest_eq_afterRounds (Nat.lt_add_one states.length)]
  exact refine_afterRounds (Nat.lt_add_one states.length)

/-! ## What the members of a class share

What all members of a class have in common, they still have in common after a round. After
the last one, this is so for their acceptance and for the classes that they lead to. -/

def Agrees {β : Type u} (partition : Partition) (trait : Nat → β) : Prop :=
  ∀ members ∈ partition.classes, ∀ left ∈ members, ∀ right ∈ members,
    trait left = trait right

theorem agrees_initial (dfa : Dfa) (states : List Nat) :
    (initial dfa states).Agrees dfa.isAccepting := by
  intro members member left leftMember right rightMember
  rcases List.mem_filter.mp member with ⟨member, _⟩
  rw [List.mem_cons, List.mem_singleton] at member
  rcases member with rfl | rfl
  · rw [(List.mem_filter.mp leftMember).2, (List.mem_filter.mp rightMember).2]
  · have leftRejects := (List.mem_filter.mp leftMember).2
    have rightRejects := (List.mem_filter.mp rightMember).2
    simp only [Bool.not_eq_true'] at leftRejects rightRejects
    rw [leftRejects, rightRejects]

theorem Agrees.refine {β : Type u} {trait : Nat → β} (agrees : partition.Agrees trait)
    (dfa : Dfa) : (partition.refine dfa).Agrees trait := by
  intro group groupMember left leftMember right rightMember
  rcases List.mem_flatMap.mp groupMember with ⟨members, member, inside⟩
  exact agrees members member left (subset_of_mem_groupBy inside leftMember) right
    (subset_of_mem_groupBy inside rightMember)

theorem agrees_signature_refine (partition : Partition) (dfa : Dfa) :
    (partition.refine dfa).Agrees (partition.signature dfa) := by
  intro group groupMember left leftMember right rightMember
  rcases List.mem_flatMap.mp groupMember with ⟨members, member, inside⟩
  exact key_eq_of_mem_groupBy inside leftMember rightMember

theorem agrees_accepting_coarsest (dfa : Dfa) (states : List Nat) :
    (coarsest dfa states).Agrees dfa.isAccepting := by
  rw [coarsest_eq_afterRounds (Nat.lt_add_one states.length)]
  induction states.length + 1 with
  | zero => exact agrees_initial dfa states
  | succ rounds induction =>
      rw [afterRounds_succ]
      exact induction.refine dfa

theorem agrees_signature_coarsest (dfa : Dfa) (states : List Nat) :
    (coarsest dfa states).Agrees ((coarsest dfa states).signature dfa) := by
  have agrees := agrees_signature_refine (coarsest dfa states) dfa
  rwa [refine_coarsest] at agrees

end WordAutomata.Partition
