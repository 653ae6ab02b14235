namespace WordAutomata

/-! Finite sets with an order of traversal. The members are kept as a strictly
increasing list, so a set has exactly one representation: two sets with the
same members are equal as values, and a set can itself be a member or a key. -/

structure OrderedSet (α : Type u) [Ord α] where
  toList : List α
  increasing : toList.Pairwise (compare · · = .lt)
deriving DecidableEq, Repr

namespace OrderedSet

variable {α : Type u} [Ord α]

instance : Membership α (OrderedSet α) where
  mem set value := value ∈ set.toList

theorem mem_iff {value : α} {set : OrderedSet α} :
    value ∈ set ↔ value ∈ set.toList := Iff.rfl

instance [DecidableEq α] (value : α) (set : OrderedSet α) :
    Decidable (value ∈ set) :=
  inferInstanceAs (Decidable (value ∈ set.toList))

def empty : OrderedSet α := ⟨[], .nil⟩

instance : Inhabited (OrderedSet α) := ⟨empty⟩

@[simp] theorem not_mem_empty (value : α) : value ∉ (empty : OrderedSet α) :=
  List.not_mem_nil

def singleton (value : α) : OrderedSet α := ⟨[value], List.pairwise_singleton _ _⟩

@[simp] theorem mem_singleton {value other : α} :
    value ∈ singleton other ↔ value = other := List.mem_singleton

/-! ## Insertion -/

def place (value : α) : List α → List α
  | [] => [value]
  | head :: tail =>
      match compare value head with
      | .lt => value :: head :: tail
      | .eq => head :: tail
      | .gt => head :: place value tail

example : place 2 [1, 3] = [1, 2, 3] := rfl

example : place 3 [1, 3] = [1, 3] := rfl

theorem eq_or_mem_of_mem_place {value other : α} {values : List α}
    (member : other ∈ place value values) : other = value ∨ other ∈ values := by
  induction values with
  | nil => exact .inl (List.mem_singleton.mp member)
  | cons head tail induction =>
      rw [place] at member
      split at member
      · exact List.mem_cons.mp member
      · exact .inr member
      · rcases List.mem_cons.mp member with equal | member
        · exact .inr (equal ▸ List.mem_cons_self)
        · exact (induction member).imp_right (List.mem_cons_of_mem head)

theorem mem_place_of_mem {value other : α} {values : List α}
    (member : other ∈ values) : other ∈ place value values := by
  induction values with
  | nil => cases member
  | cons head tail induction =>
      rw [place]
      split
      · exact List.mem_cons_of_mem value member
      · exact member
      · rcases List.mem_cons.mp member with equal | member
        · exact equal ▸ List.mem_cons_self
        · exact List.mem_cons_of_mem head (induction member)

theorem mem_place_self [Std.LawfulEqOrd α] (value : α) (values : List α) :
    value ∈ place value values := by
  induction values with
  | nil => exact List.mem_singleton_self value
  | cons head tail induction =>
      rw [place]
      split
      · exact List.mem_cons_self
      · rename_i same
        exact Std.LawfulEqCmp.eq_of_compare same ▸ List.mem_cons_self
      · exact List.mem_cons_of_mem head induction

theorem place_increasing [Std.TransOrd α] {value : α} {values : List α}
    (increasing : values.Pairwise (compare · · = .lt)) :
    (place value values).Pairwise (compare · · = .lt) := by
  induction values with
  | nil => exact List.pairwise_singleton _ value
  | cons head tail induction =>
      rcases List.pairwise_cons.mp increasing with ⟨least, tailIncreasing⟩
      rw [place]
      split
      · rename_i below
        refine List.pairwise_cons.mpr ⟨fun other member => ?_, increasing⟩
        rcases List.mem_cons.mp member with equal | member
        · exact equal ▸ below
        · exact Std.TransCmp.lt_trans below (least other member)
      · exact increasing
      · rename_i above
        refine List.pairwise_cons.mpr
          ⟨fun other member => ?_, induction tailIncreasing⟩
        rcases eq_or_mem_of_mem_place member with equal | member
        · exact equal ▸ Std.OrientedCmp.gt_iff_lt.mp above
        · exact least other member

section

variable [Std.TransOrd α]

def insert (set : OrderedSet α) (value : α) : OrderedSet α :=
  ⟨place value set.toList, place_increasing set.increasing⟩

def ofList (values : List α) : OrderedSet α :=
  values.foldr (fun value set => set.insert value) empty

example : (ofList [2, 0, 2, 1]).toList = [0, 1, 2] := rfl

@[simp] theorem ofList_nil : ofList ([] : List α) = empty := rfl

@[simp] theorem ofList_cons (value : α) (values : List α) :
    ofList (value :: values) = (ofList values).insert value := rfl

@[simp] theorem mem_insert [Std.LawfulEqOrd α] {set : OrderedSet α}
    {value other : α} : other ∈ set.insert value ↔ other = value ∨ other ∈ set :=
  ⟨eq_or_mem_of_mem_place,
    fun either => either.elim (fun equal => equal ▸ mem_place_self value set.toList)
      mem_place_of_mem⟩

@[simp] theorem mem_ofList [Std.LawfulEqOrd α] {values : List α} {value : α} :
    value ∈ ofList values ↔ value ∈ values := by
  induction values with
  | nil => simp
  | cons head tail induction => simp [induction]

end

/-! ## Selection -/

def filter (keep : α → Bool) (set : OrderedSet α) : OrderedSet α :=
  ⟨set.toList.filter keep, set.increasing.filter keep⟩

@[simp] theorem mem_filter {keep : α → Bool} {set : OrderedSet α} {value : α} :
    value ∈ set.filter keep ↔ value ∈ set ∧ keep value := List.mem_filter

/-! ## Equality -/

theorem nodup [Std.OrientedOrd α] (set : OrderedSet α) : set.toList.Nodup := by
  refine set.increasing.imp fun {left right} below equal => ?_
  subst equal
  exact absurd below (by simp [Std.ReflOrd.compare_self])

theorem eq_of_increasing_of_mem_iff [Std.TransOrd α] {left right : List α}
    (leftIncreasing : left.Pairwise (compare · · = .lt))
    (rightIncreasing : right.Pairwise (compare · · = .lt))
    (same : ∀ value, value ∈ left ↔ value ∈ right) : left = right := by
  have leftNodup : left.Nodup := nodup ⟨left, leftIncreasing⟩
  have rightNodup : right.Nodup := nodup ⟨right, rightIncreasing⟩
  have perm : left.Perm right := (List.perm_ext_iff_of_nodup leftNodup rightNodup).mpr same
  refine List.Perm.eq_of_pairwise ?_ leftIncreasing rightIncreasing perm
  intro first second _ _ below above
  exact absurd above (Std.OrientedCmp.not_lt_of_lt below)

@[ext] theorem ext [Std.TransOrd α] {left right : OrderedSet α}
    (same : ∀ value, value ∈ left ↔ value ∈ right) : left = right := by
  cases left with
  | mk leftList leftIncreasing =>
      cases right with
      | mk rightList rightIncreasing =>
          have equal : leftList = rightList :=
            eq_of_increasing_of_mem_iff leftIncreasing rightIncreasing same
          subst equal
          rfl

end OrderedSet

end WordAutomata
