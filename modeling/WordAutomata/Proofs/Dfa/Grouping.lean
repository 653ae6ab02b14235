import WordAutomata.Proofs.Dfa.Partition
import WordAutomata.Proofs.Register

namespace WordAutomata.Partition

/-! The classes of a partition are groups that are formed while one state after the other
comes in. Groups stand in the order of their first members, and a group keeps the order of
its states. -/

/-! ## Groups, one value after the other

Beside the groups there is the position of the group of every key. A new key gets the
position at which its group is then opened. -/

structure Grouping (α : Type u) (β : Type v) where
  groups : List (List α)
  positions : Register β Nat

section

variable {α : Type u} {β : Type v} [DecidableEq β] {key : α → β}

namespace Grouping

def empty : Grouping α β := ⟨[], .empty⟩

def add (key : α → β) (grouping : Grouping α β) (value : α) : Grouping α β :=
  let next := grouping.groups.length
  let found := grouping.positions.getOrInsert (key value) next
  let groups := if found.1 = next then grouping.groups ++ [[]] else grouping.groups
  ⟨groups.modify found.1 (· ++ [value]), found.2⟩

end Grouping

theorem length_groupBy (key : α → β) (values : List α) :
    (groupBy key values).length = (values.map key).eraseDups.length := by
  rw [groupBy_eq, List.length_map]

theorem modify_idxOf {γ : Type w} {image : β → γ} {change : γ → γ} {keys : List β} {shared : β}
    (nodup : keys.Nodup) :
    (keys.map image).modify (keys.idxOf shared) change =
      keys.map fun other => if other = shared then change (image other) else image other := by
  induction keys with
  | nil => rfl
  | cons head tail induction =>
      rcases List.nodup_cons.mp nodup with ⟨absent, tailNodup⟩
      by_cases equal : head = shared
      · subst equal
        have others : tail.map (fun other => if other = head then change (image other)
            else image other) = tail.map image := by
          apply List.map_congr_left
          intro other member
          have different : other ≠ head := fun same => absent (same ▸ member)
          exact if_neg different
        rw [List.idxOf_cons_self, List.map_cons, List.map_cons, List.modify_zero_cons,
          if_pos rfl, others]
      · rw [List.idxOf_cons_ne _ equal, List.map_cons, List.map_cons, List.modify_succ_cons,
          if_neg equal, induction tailNodup]

/-- What one more value does to the groups. -/
theorem groupBy_concat (key : α → β) (front : List α) (last : α) :
    groupBy key (front ++ [last]) =
      if key last ∈ front.map key then
        (groupBy key front).modify ((front.map key).eraseDups.idxOf (key last)) (· ++ [last])
      else groupBy key front ++ [[last]] := by
  have more (shared : β) : (front ++ [last]).filter (key · = shared) =
      if shared = key last then front.filter (key · = shared) ++ [last]
      else front.filter (key · = shared) := by
    rw [List.filter_append]
    by_cases equal : shared = key last
    · simp [equal]
    · simp [equal, Ne.symm equal]
  rw [groupBy_eq, List.map_append, List.map_singleton, List.eraseDups_concat]
  by_cases known : key last ∈ front.map key
  · rw [if_pos known, if_pos known, groupBy_eq, modify_idxOf (List.nodup_eraseDups _)]
    simp only [more]
  · have others : (front.map key).eraseDups.map (fun shared =>
          (front ++ [last]).filter (key · = shared)) = groupBy key front := by
      rw [groupBy_eq]
      apply List.map_congr_left
      intro shared member
      have different : shared ≠ key last := fun same =>
        known (same ▸ List.mem_eraseDups.mp member)
      rw [more, if_neg different]
    have new : front.filter (key · = key last) = [] := by
      rw [List.filter_eq_nil_iff]
      intro value member
      rw [decide_eq_true_iff]
      exact fun equal => known (equal ▸ List.mem_map_of_mem member)
    rw [if_neg known, if_neg known, List.map_append, List.map_singleton, others, more, if_pos rfl,
      new, List.nil_append]

/-- Groups that are filled one value after the other are those of the whole list. -/
theorem foldl_add (key : α → β) (values : List α) :
    values.foldl (Grouping.add key) .empty =
      ⟨groupBy key values, .numbered (values.map key)⟩ := by
  induction values using List.reverseRecOn with
  | nil => rfl
  | append_singleton front last induction =>
      have step : Grouping.add key ⟨groupBy key front, .numbered (front.map key)⟩ last =
          ⟨groupBy key (front ++ [last]), .numbered ((front ++ [last]).map key)⟩ := by
        simp only [Grouping.add]
        rw [length_groupBy, Register.getOrInsert_numbered, groupBy_concat, List.map_append,
          List.map_singleton, List.eraseDups_concat]
        by_cases known : key last ∈ front.map key
        · have below : (front.map key).eraseDups.idxOf (key last) <
              (front.map key).eraseDups.length :=
            List.idxOf_lt_length_of_mem (List.mem_eraseDups.mpr known)
          rw [if_pos known, if_pos known, if_neg (Nat.ne_of_lt below)]
        · have new : key last ∉ (front.map key).eraseDups := mt List.mem_eraseDups.mp known
          rw [if_neg known, if_neg known, List.idxOf_append_of_notMem new, List.idxOf_cons_self,
            Nat.add_zero, if_pos rfl, ← length_groupBy, List.modify_eq_take_drop, List.take_left,
            List.drop_left]
          rfl
      rw [List.foldl_append, induction, List.foldl_cons, List.foldl_nil, step]

end

/-! ## Order

Groups come in the order of their first members, since a key occurs first where its first
value does. Refining a class keeps the order of its states, so all classes have it after
any number of rounds. -/

section

variable {α : Type u} {β : Type v} [DecidableEq α] [DecidableEq β] {key : α → β}
  {values : List α}

/-- Whether some lists are the parts of another one, in the order of their first members:
none of them is empty, they share out the values, no two of them share one, and each of
them has its values in the old order. -/
structure Splits (values : List α) (parts : List (List α)) : Prop where
  nonempty : ∀ part ∈ parts, part ≠ []
  perm : parts.flatten.Perm values
  disjoint : parts.Pairwise List.Disjoint
  ordered : ∀ part ∈ parts, part = values.filter (· ∈ part)
  first : parts.Pairwise fun earlier later =>
    ∀ left ∈ earlier.head?, ∀ right ∈ later.head?, values.idxOf left < values.idxOf right

theorem pairwise_idxOf_eraseDups (values : List α) :
    values.eraseDups.Pairwise fun left right => values.idxOf left < values.idxOf right := by
  induction values using List.reverseRecOn with
  | nil => exact .nil
  | append_singleton front last induction =>
      have kept : front.eraseDups.Pairwise fun left right =>
          (front ++ [last]).idxOf left < (front ++ [last]).idxOf right := by
        apply induction.imp_of_mem
        intro left right leftMember rightMember below
        rw [List.idxOf_append_of_mem (List.mem_eraseDups.mp leftMember),
          List.idxOf_append_of_mem (List.mem_eraseDups.mp rightMember)]
        exact below
      rw [List.eraseDups_concat]
      by_cases known : last ∈ front
      · rwa [if_pos known]
      · rw [if_neg known, List.pairwise_append]
        refine ⟨kept, List.pairwise_singleton _ last, ?_⟩
        intro left leftMember right rightMember
        have inside := List.mem_eraseDups.mp leftMember
        rw [List.mem_singleton.mp rightMember, List.idxOf_append_of_mem inside,
          List.idxOf_append_of_notMem known]
        exact Nat.lt_of_lt_of_le (List.idxOf_lt_length_of_mem inside) (Nat.le_add_right _ _)

theorem idxOf_head?_filter {shared : β} {value : α}
    (first : value ∈ (values.filter (key · = shared)).head?) :
    values.idxOf value = (values.map key).idxOf shared := by
  induction values with
  | nil => cases first
  | cons head tail induction =>
      by_cases equal : key head = shared
      · rw [List.filter_cons, if_pos (decide_eq_true equal)] at first
        cases first
        rw [List.map_cons, equal, List.idxOf_cons_self, List.idxOf_cons_self]
      · rw [List.filter_cons, if_neg (by simpa using equal)] at first
        have member := (List.mem_filter.mp (List.mem_of_mem_head? first)).2
        have different : head ≠ value := by
          intro same
          rw [same] at equal
          exact equal (of_decide_eq_true member)
        rw [List.map_cons, List.idxOf_cons_ne _ different, List.idxOf_cons_ne _ equal,
          induction first]

theorem splits_groupBy (key : α → β) (values : List α) :
    Splits values (groupBy key values) where
  nonempty _ member := ne_nil_of_mem_groupBy member
  perm := flatten_groupBy_perm key values
  disjoint := disjoint_groupBy key values
  ordered := by
    intro part member
    rcases mem_groupBy.mp member with ⟨value, _, rfl⟩
    apply List.filter_congr
    intro other known
    simp [known]
  first := by
    rw [groupBy_eq, List.pairwise_map]
    apply (pairwise_idxOf_eraseDups (values.map key)).imp
    intro earlier later below left leftFirst right rightFirst
    rwa [idxOf_head?_filter leftFirst, idxOf_head?_filter rightFirst]

end

def Ordered (partition : Partition) (states : List Nat) : Prop :=
  ∀ members ∈ partition.classes, members = states.filter (· ∈ members)

namespace Ordered

variable {partition : Partition} {states : List Nat}

theorem initial (dfa : Dfa) (states : List Nat) : (initial dfa states).Ordered states := by
  intro members member
  have chosen : members = states.filter dfa.isAccepting ∨
      members = states.filter (!dfa.isAccepting ·) :=
    List.mem_pair.mp (List.mem_filter.mp member).1
  rcases chosen with rfl | rfl
  all_goals
    apply List.filter_congr
    intro state known
    simp [known]

theorem refine (ordered : partition.Ordered states) (dfa : Dfa) :
    (partition.refine dfa).Ordered states := by
  intro group member
  rcases List.mem_flatMap.mp member with ⟨members, known, inside⟩
  have split := (splits_groupBy _ members).ordered group inside
  have included := subset_of_mem_groupBy inside
  calc
    group = members.filter (· ∈ group) := split
    _ = (states.filter (· ∈ members)).filter (· ∈ group) := by rw [← ordered members known]
    _ = states.filter (· ∈ group) := by
      rw [List.filter_filter]
      apply List.filter_congr
      intro state _
      by_cases found : state ∈ group
      · simp [found, included found]
      · simp [found]

end Ordered

theorem ordered_afterRounds (dfa : Dfa) (states : List Nat) (rounds : Nat) :
    (afterRounds dfa states rounds).Ordered states := by
  induction rounds with
  | zero => exact Ordered.initial dfa states
  | succ rounds induction =>
      rw [afterRounds_succ]
      exact induction.refine dfa

end WordAutomata.Partition
