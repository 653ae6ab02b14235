import Mathlib.Data.List.Forall2
import WordAutomata.Proofs.Document

namespace WordAutomata

/-! What is read of the members of an object. A reserved key has one value. Any other key
may be repeated: each of its values has to be readable, and the last one counts. So it is
a matter of the values under each key, in their order, what is read, and members with
different keys may change places. -/

/-! ## Values under a key -/

def valuesOf {α : Type u} (key : String) (members : List (String × α)) : List α :=
  (members.filter (·.1 = key)).map Prod.snd

section

variable {α : Type u} {key : String} {value : α} {members : List (String × α)}

theorem valuesOf_append {front back : List (String × α)} :
    valuesOf key (front ++ back) = valuesOf key front ++ valuesOf key back := by
  rw [valuesOf, List.filter_append, List.map_append, valuesOf, valuesOf]

theorem valuesOf_cons (member : String × α) (members : List (String × α)) :
    valuesOf key (member :: members) =
      if member.1 = key then member.2 :: valuesOf key members else valuesOf key members := by
  simp only [valuesOf, List.filter_cons, decide_eq_true_eq]
  split <;> rfl

theorem mem_valuesOf : value ∈ valuesOf key members ↔ (key, value) ∈ members := by
  simp [valuesOf]

theorem valuesOf_swap {first second : String × α} (different : first.1 ≠ second.1)
    (front back : List (String × α)) :
    valuesOf key (front ++ first :: second :: back) =
      valuesOf key (front ++ second :: first :: back) := by
  simp only [valuesOf_append, valuesOf_cons]
  by_cases equal : first.1 = key
  · have other : second.1 ≠ key := fun same => different (equal.trans same.symm)
    rw [if_neg other, if_neg other]
  · rw [if_neg equal, if_neg equal]

theorem head?_valuesOf : (valuesOf key members).head? = members.lookup key := by
  induction members with
  | nil => rfl
  | cons head tail induction =>
      rw [OrderedMap.lookup_cons, valuesOf_cons]
      by_cases equal : head.1 = key
      · rw [if_pos equal, if_pos equal.symm, List.head?_cons]
      · rw [if_neg equal, if_neg (Ne.symm equal), induction]

theorem OrderedMap.get?_ofList_eq_getLast? :
    (OrderedMap.ofList members).get? key = (valuesOf key members).getLast? := by
  rw [OrderedMap.get?_ofList, ← head?_valuesOf, valuesOf, List.filter_reverse,
    List.map_reverse, List.head?_reverse, valuesOf]

end

/-! ## Reordering -/

namespace Json

/-- Whether two values are the same up to the order of members, among which those with one
key keep theirs. -/
inductive Reordered : Json → Json → Prop
  | refl (json : Json) : Reordered json json
  | array {left right : List Json} (items : List.Forall₂ Reordered left right) :
      Reordered (.array left) (.array right)
  | object {left right : List (String × Json)}
      (members : ∀ key, List.Forall₂ Reordered (valuesOf key left) (valuesOf key right)) :
      Reordered (.object left) (.object right)

instance : Std.Refl Reordered := ⟨.refl⟩

theorem Reordered.swap {first second : String × Json} (different : first.1 ≠ second.1)
    (front back : List (String × Json)) :
    (Json.object (front ++ first :: second :: back)).Reordered
      (Json.object (front ++ second :: first :: back)) := by
  apply Reordered.object
  intro key
  rw [valuesOf_swap different]
  exact List.forall₂_refl _

theorem Reordered.inside {key : String} {value other : Json} (reordered : value.Reordered other)
    (front back : List (String × Json)) :
    (Json.object (front ++ (key, value) :: back)).Reordered
      (Json.object (front ++ (key, other) :: back)) := by
  apply Reordered.object
  intro place
  rw [valuesOf_append, valuesOf_append, valuesOf_cons, valuesOf_cons]
  apply List.rel_append (List.forall₂_refl _)
  split
  case isTrue => exact .cons reordered (List.forall₂_refl _)
  case isFalse => exact List.forall₂_refl _

/-- Whether nothing that is read depends on the order of members with different keys. -/
def OrderFree {α : Type u} (read? : Json → Option α) : Prop :=
  ∀ left right, left.Reordered right → read? left = read? right

theorem OrderFree.map_eq {α : Type u} {read? : Json → Option α} (orderFree : OrderFree read?)
    {left right : List Json} (related : List.Forall₂ Reordered left right) :
    left.map read? = right.map read? := by
  induction related with
  | nil => rfl
  | cons head _ induction =>
      rw [List.map_cons, List.map_cons, orderFree _ _ head, induction]

end Json

open Json

/-! ## Lists -/

section

variable {α : Type u} {β : Type v} {read? : β → Option α} {values : List β}

theorem mapM_eq_some_iff {results : List α} :
    values.mapM read? = some results ↔ values.map read? = results.map some := by
  induction values generalizing results with
  | nil => cases results <;> simp
  | cons head tail induction =>
      rw [List.mapM_cons, List.map_cons]
      cases results with
      | nil => cases read? head <;> cases tail.mapM read? <;> simp
      | cons first later =>
          rw [List.map_cons, List.cons.injEq, ← induction]
          cases read? head <;> cases tail.mapM read? <;> simp

theorem isSome_mapM_iff :
    (values.mapM read?).isSome ↔ ∀ value ∈ values, (read? value).isSome := by
  induction values with
  | nil => simp
  | cons head tail induction =>
      rw [List.mapM_cons, List.forall_mem_cons, ← induction]
      cases read? head <;> cases tail.mapM read? <;> simp

theorem map_eq_map_some_iff {spell : α → β}
    (exact : ∀ value result, read? value = some result ↔ value = spell result)
    {results : List α} : values.map read? = results.map some ↔ values = results.map spell := by
  induction values generalizing results with
  | nil => cases results <;> simp
  | cons head tail induction =>
      cases results with
      | nil => simp
      | cons first later =>
          simp only [List.map_cons, List.cons.injEq, induction, exact]

end

namespace Document

/-! ## Spellings -/

/-- Whether each value is read from one spelling, wherever there are no members to be
reordered. -/
structure Spells {α : Type} (read? : Json → Option α) (spell : α → Json) : Prop where
  exact : ∀ json value, read? json = some value ↔ json = spell value
  orderFree : OrderFree read?

def flagOfJson? : Json → Option Bool
  | .bool value => some value
  | _ => none

theorem spells_flag : Spells flagOfJson? .bool where
  exact json _ := by cases json <;> simp [flagOfJson?]
  orderFree := by
    intro left right reordered
    cases reordered <;> rfl

theorem spells_text : Spells textOfJson? .string where
  exact json _ := by cases json <;> simp [textOfJson?]
  orderFree := by
    intro left right reordered
    cases reordered <;> rfl

theorem spells_texts : Spells (Destination.ofJson? : Json → Option (List String))
    fun names => .array (names.map .string) where
  exact json names := by
    cases json with
    | array items =>
        rw [Json.array.injEq, ← map_eq_map_some_iff spells_text.exact, ← mapM_eq_some_iff]
        rfl
    | _ => simp [Destination.ofJson?]
  orderFree := by
    intro left right reordered
    cases reordered with
    | refl => rfl
    | array items =>
        apply Option.ext
        intro names
        apply mapM_eq_some_iff.trans
        rw [spells_text.orderFree.map_eq items]
        exact mapM_eq_some_iff.symm
    | object => rfl

theorem Spells.singleton_iff {α : Type} {read? : Json → Option α} {spell : α → Json}
    (spells : Spells read? spell) {left right : List Json} {value : α}
    (related : List.Forall₂ Reordered left right) :
    left = [spell value] ↔ right = [spell value] := by
  rw [← List.map_singleton, ← map_eq_map_some_iff spells.exact,
    ← map_eq_map_some_iff spells.exact, spells.orderFree.map_eq related]

/-! ## Members -/

section

variable {α β : Type} {key reserved : String} {value : Json}
  {map : OrderedMap String α} {read? : Json → Option α}
  {members left right : List (String × Json)}

theorem only?_eq_some_iff : only? key members = some value ↔ valuesOf key members = [value] := by
  rw [only?, valuesOf]
  cases members.filter (·.1 = key) with
  | nil => simp
  | cons head tail => cases tail <;> simp

theorem valuesOf_filter_ne : valuesOf key (members.filter (·.1 ≠ reserved)) =
    if key = reserved then [] else valuesOf key members := by
  rw [valuesOf, List.filter_filter]
  split
  case isTrue equal =>
    subst equal
    simp
  case isFalse different =>
    rw [valuesOf]
    congr 1
    apply List.filter_congr
    intro member _
    by_cases equal : member.1 = key
    · simp [equal, different]
    · simp [equal]

theorem others?_eq : others? reserved read? members =
    ((members.filter (·.1 ≠ reserved)).mapM fun member =>
      (read? member.2).map (member.1, ·)).map .ofList := by
  simp only [others?, pure, bind, Option.map_eq_bind, Function.comp_def]

/-- Every value is checked that does not stand under the reserved key, also if it does not
count in the end. -/
theorem isSome_others?_iff : (others? reserved read? members).isSome ↔
    ∀ member ∈ members, member.1 ≠ reserved → (read? member.2).isSome := by
  rw [others?_eq, Option.isSome_map, isSome_mapM_iff]
  simp only [Option.isSome_map, List.mem_filter, decide_eq_true_eq, and_imp]

theorem map_valuesOf {entries : List (String × α)}
    (read : members.map (fun member => (read? member.2).map (member.1, ·)) =
      entries.map some) :
    (valuesOf key members).map read? = (valuesOf key entries).map some := by
  induction members generalizing entries with
  | nil =>
      cases entries with
      | nil => rfl
      | cons => cases read
  | cons head tail induction =>
      cases entries with
      | nil => cases read
      | cons entry later =>
          rw [List.map_cons, List.map_cons, List.cons.injEq, Option.map_eq_some_iff] at read
          rcases read with ⟨⟨result, first, rfl⟩, later⟩
          rw [valuesOf_cons, valuesOf_cons]
          split
          · rw [List.map_cons, List.map_cons, first, induction later]
          · exact induction later

theorem get?_of_others? (read : others? reserved read? members = some map) (key : String) :
    map.get? key =
      if key = reserved then none else ((valuesOf key members).map read?).getLast?.join := by
  rw [others?_eq, Option.map_eq_some_iff] at read
  rcases read with ⟨entries, read, rfl⟩
  have values := @map_valuesOf _ key _ _ _ (mapM_eq_some_iff.mp read)
  have last : (valuesOf key entries).getLast? =
      ((valuesOf key entries).map some).getLast?.join := by
    rw [List.getLast?_map]
    cases (valuesOf key entries).getLast? <;> rfl
  rw [OrderedMap.get?_ofList_eq_getLast?, last, ← values, valuesOf_filter_ne]
  split <;> rfl

theorem get?_eq_some_iff_of_others? {result : α}
    (read : others? reserved read? members = some map) : map.get? key = some result ↔
      key ≠ reserved ∧ ∃ value, (valuesOf key members).getLast? = some value ∧
        read? value = some result := by
  rw [get?_of_others? read, List.getLast?_map]
  split
  case isTrue equal => simp [equal]
  case isFalse different => simp [different, Option.join_eq_some_iff]

theorem isSome_others?_iff_map : (others? reserved read? members).isSome ↔
    ∀ key, key ≠ reserved → ∀ reading ∈ (valuesOf key members).map read?, reading.isSome := by
  rw [isSome_others?_iff]
  constructor
  · intro readable key different reading member
    rcases List.mem_map.mp member with ⟨value, found, rfl⟩
    exact readable (key, value) (mem_valuesOf.mp found) different
  · intro readable member found different
    exact readable member.1 different _ (List.mem_map_of_mem (mem_valuesOf.mpr found))

/-- Nothing but the readings under each key counts. -/
theorem others?_eq_of_map_eq
    (same : ∀ key, (valuesOf key left).map read? = (valuesOf key right).map read?) :
    others? reserved read? left = others? reserved read? right := by
  have readable : (others? reserved read? left).isSome =
      (others? reserved read? right).isSome := by
    rw [Bool.eq_iff_iff, isSome_others?_iff_map, isSome_others?_iff_map]
    simp only [same]
  cases leftRead : others? reserved read? left with
  | none =>
      rw [leftRead, Option.isSome_none] at readable
      exact (Option.not_isSome_iff_eq_none.mp (readable ▸ Bool.false_ne_true)).symm
  | some leftMap =>
      rw [leftRead, Option.isSome_some] at readable
      rcases Option.isSome_iff_exists.mp readable.symm with ⟨rightMap, rightRead⟩
      have agree : leftMap = rightMap := by
        apply OrderedMap.ext_get?
        intro key
        rw [get?_of_others? leftRead, get?_of_others? rightRead, same]
      rw [rightRead, agree]

def fields? (reserved : String) (first? : Json → Option β)
    (read? : Json → Option α) (members : List (String × Json)) :
    Option (β × OrderedMap String α) := do
  let first ← (only? reserved members).bind first?
  return (first, ← others? reserved read? members)

section

variable {first? : Json → Option β} {spell : β → Json} (spells : Spells first? spell)
include spells

theorem fields?_eq_some_iff {first : β} :
    fields? reserved first? read? members = some (first, map) ↔
      valuesOf reserved members = [spell first] ∧
        others? reserved read? members = some map := by
  simp only [fields?, pure, bind, Option.bind_eq_some_iff, only?_eq_some_iff, spells.exact,
    Option.some.injEq, Prod.mk.injEq]
  constructor
  · intro given
    rcases given with ⟨_, ⟨_, only, rfl⟩, _, others, rfl, rfl⟩
    exact ⟨only, others⟩
  · intro given
    exact ⟨first, ⟨spell first, given.1, rfl⟩, map, given.2, rfl, rfl⟩

theorem exists_fields?_iff :
    (∃ fields, fields? reserved first? read? members = some fields) ↔
      (∃ first, valuesOf reserved members = [spell first]) ∧
        ∀ member ∈ members, member.1 ≠ reserved → ∃ value, read? member.2 = some value := by
  simp only [← Option.isSome_iff_exists, ← isSome_others?_iff]
  simp only [Option.isSome_iff_exists, Prod.exists, fields?_eq_some_iff spells,
    exists_and_left, exists_and_right]

theorem fields?_eq_of_reordered (orderFree : OrderFree read?)
    (related : ∀ key, List.Forall₂ Reordered (valuesOf key left) (valuesOf key right)) :
    fields? reserved first? read? left = fields? reserved first? read? right := by
  apply Option.ext
  rintro ⟨first, map⟩
  rw [fields?_eq_some_iff spells, fields?_eq_some_iff spells,
    spells.singleton_iff (related reserved),
    others?_eq_of_map_eq fun key => orderFree.map_eq (related key)]

end

end

end Document

end WordAutomata
