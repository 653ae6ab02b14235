import WordAutomata.OrderedSet

namespace WordAutomata

/-! Finite maps with an order of traversal. The entries are kept with strictly
increasing keys, so equal contents give equal values. -/

structure OrderedMap (κ : Type u) (β : Type v) [Ord κ] where
  toList : List (κ × β)
  increasing : (toList.map Prod.fst).Pairwise (compare · · = .lt)
deriving DecidableEq, Repr

namespace OrderedMap

variable {κ : Type u} {β : Type v} {γ : Type w} [Ord κ]

def empty : OrderedMap κ β := ⟨[], by simp⟩

instance : Inhabited (OrderedMap κ β) := ⟨empty⟩

def keys (map : OrderedMap κ β) : OrderedSet κ :=
  ⟨map.toList.map Prod.fst, map.increasing⟩

def values (map : OrderedMap κ β) : List β := map.toList.map Prod.snd

def get? [DecidableEq κ] (map : OrderedMap κ β) (key : κ) : Option β :=
  map.toList.lookup key

@[simp] theorem get?_empty [DecidableEq κ] (key : κ) :
    (empty : OrderedMap κ β).get? key = none := rfl

omit [Ord κ] in
theorem lookup_cons [DecidableEq κ] (key : κ) (head : κ × β) (tail : List (κ × β)) :
    (head :: tail).lookup key = if key = head.1 then some head.2 else tail.lookup key := by
  rcases head with ⟨other, value⟩
  by_cases equal : key = other
  · simp [equal]
  · simp [List.lookup_cons, equal, beq_eq_false_iff_ne.mpr equal]

theorem get?_cons [DecidableEq κ] {key : κ} {head : κ × β} {tail : List (κ × β)}
    (increasing : ((head :: tail).map Prod.fst).Pairwise (compare · · = .lt)) :
    (⟨head :: tail, increasing⟩ : OrderedMap κ β).get? key =
      if key = head.1 then some head.2
      else (⟨tail, (List.pairwise_cons.mp increasing).2⟩ : OrderedMap κ β).get? key :=
  lookup_cons key head tail

/-! ## Insertion -/

/-- Put an entry at its place; an entry with the same key gives way. -/
def place (key : κ) (value : β) : List (κ × β) → List (κ × β)
  | [] => [(key, value)]
  | head :: tail =>
      match compare key head.1 with
      | .lt => (key, value) :: head :: tail
      | .eq => (key, value) :: tail
      | .gt => head :: place key value tail

example : place 1 "new" [(0, "zero"), (1, "old")] = [(0, "zero"), (1, "new")] := rfl

theorem eq_or_mem_of_mem_keys_place {key other : κ} {value : β}
    {entries : List (κ × β)}
    (member : other ∈ (place key value entries).map Prod.fst) :
    other = key ∨ other ∈ entries.map Prod.fst := by
  induction entries with
  | nil => exact .inl (List.mem_singleton.mp member)
  | cons head tail induction =>
      rw [place] at member
      split at member
      · exact List.mem_cons.mp member
      · exact (List.mem_cons.mp member).imp_right (List.mem_cons_of_mem _)
      · rcases List.mem_cons.mp member with equal | member
        · exact .inr (equal ▸ List.mem_cons_self)
        · exact (induction member).imp_right (List.mem_cons_of_mem _)

theorem place_increasing [Std.TransOrd κ] {key : κ} {value : β}
    {entries : List (κ × β)}
    (increasing : (entries.map Prod.fst).Pairwise (compare · · = .lt)) :
    ((place key value entries).map Prod.fst).Pairwise (compare · · = .lt) := by
  induction entries with
  | nil => exact List.pairwise_singleton _ key
  | cons head tail induction =>
      rcases List.pairwise_cons.mp increasing with ⟨least, tailIncreasing⟩
      rw [place]
      split
      · rename_i below
        refine List.pairwise_cons.mpr ⟨fun other member => ?_, increasing⟩
        rcases List.mem_cons.mp member with equal | member
        · exact equal ▸ below
        · exact Std.TransCmp.lt_trans below (least other member)
      · rename_i same
        exact List.pairwise_cons.mpr
          ⟨fun other member => Std.TransCmp.lt_of_eq_of_lt same (least other member),
            tailIncreasing⟩
      · rename_i above
        refine List.pairwise_cons.mpr
          ⟨fun other member => ?_, induction tailIncreasing⟩
        rcases eq_or_mem_of_mem_keys_place member with equal | member
        · exact equal ▸ Std.OrientedCmp.gt_iff_lt.mp above
        · exact least other member

theorem lookup_place [DecidableEq κ] [Std.TransOrd κ] [Std.LawfulEqOrd κ]
    {key other : κ} {value : β} {entries : List (κ × β)}
    (increasing : (entries.map Prod.fst).Pairwise (compare · · = .lt)) :
    (place key value entries).lookup other =
      if other = key then some value else entries.lookup other := by
  induction entries with
  | nil => simp [place, lookup_cons]
  | cons head tail induction =>
      rcases List.pairwise_cons.mp increasing with ⟨least, tailIncreasing⟩
      rw [place]
      split
      · rw [lookup_cons]
      · rename_i same
        have equal : key = head.1 := Std.LawfulEqCmp.eq_of_compare same
        rw [lookup_cons, lookup_cons, ← equal]
        split <;> rfl
      · rename_i above
        have different : key ≠ head.1 := fun equal => by
          subst equal
          exact absurd above (by simp [Std.ReflOrd.compare_self])
        rw [lookup_cons, lookup_cons, induction tailIncreasing]
        by_cases hit : other = key
        · simp [hit, different]
        · simp [hit]

section

variable [Std.TransOrd κ]

def insert (map : OrderedMap κ β) (key : κ) (value : β) : OrderedMap κ β :=
  ⟨place key value map.toList, place_increasing map.increasing⟩

@[simp] theorem get?_insert [DecidableEq κ] [Std.LawfulEqOrd κ]
    (map : OrderedMap κ β) (key other : κ) (value : β) :
    (map.insert key value).get? other =
      if other = key then some value else map.get? other :=
  lookup_place map.increasing

/-- The map that a list of entries describes; of several entries with one key
the last one counts. -/
def ofList (entries : List (κ × β)) : OrderedMap κ β :=
  entries.foldl (fun map entry => map.insert entry.1 entry.2) empty

example : (ofList [(2, "a"), (1, "b"), (2, "c")]).toList = [(1, "b"), (2, "c")] := rfl

theorem ofList_concat (entries : List (κ × β)) (last : κ × β) :
    ofList (entries ++ [last]) = (ofList entries).insert last.1 last.2 := by
  rw [ofList, List.foldl_append]
  rfl

end

/-! ## Construction from keys -/

def tabulate (keys : OrderedSet κ) (value : κ → β) : OrderedMap κ β :=
  ⟨keys.toList.map fun key => (key, value key), by
    simpa [List.map_map, Function.comp_def] using keys.increasing⟩

@[simp] theorem keys_tabulate (keys : OrderedSet κ) (value : κ → β) :
    (tabulate keys value).keys = keys := by
  cases keys
  simp [tabulate, OrderedMap.keys, Function.comp_def]

theorem get?_tabulate [DecidableEq κ] (keys : OrderedSet κ) (value : κ → β)
    (key : κ) :
    (tabulate keys value).get? key = if key ∈ keys then some (value key) else none := by
  cases keys with
  | mk members increasing =>
      simp only [tabulate, get?, OrderedSet.mem_iff]
      clear increasing
      induction members with
      | nil => rfl
      | cons head tail induction =>
          by_cases equal : key = head
          · simp [lookup_cons, equal]
          · simp [lookup_cons, equal, induction]

/-! ## Equality -/

theorem mem_keys_iff [DecidableEq κ] {map : OrderedMap κ β} {key : κ} :
    key ∈ map.keys ↔ (map.get? key).isSome := by
  simp only [keys, get?, OrderedSet.mem_iff, List.mem_map, List.lookup_isSome_iff, beq_iff_eq,
    eq_comm (a := key)]

theorem get?_eq_none_iff [DecidableEq κ] {map : OrderedMap κ β} {key : κ} :
    map.get? key = none ↔ key ∉ map.keys := by
  rw [mem_keys_iff, Option.not_isSome_iff_eq_none]

omit [Ord κ] in
theorem mem_iff_lookup [DecidableEq κ] {key : κ} {value : β} {entries : List (κ × β)}
    (nodup : (entries.map Prod.fst).Nodup) :
    (key, value) ∈ entries ↔ entries.lookup key = some value := by
  rw [List.lookup_eq_some_iff]
  constructor
  · intro member
    rcases List.append_of_mem member with ⟨front, back, rfl⟩
    rw [List.map_append, List.nodup_append] at nodup
    exact ⟨front, back, rfl, fun entry before => bne_iff_ne.mpr (Ne.symm
      (nodup.2.2 entry.1 (List.mem_map_of_mem before) key List.mem_cons_self))⟩
  · intro found
    rcases found with ⟨front, back, rfl, _⟩
    exact List.mem_append_right front List.mem_cons_self

theorem mem_toList_iff [DecidableEq κ] [Std.TransOrd κ] {map : OrderedMap κ β} {key : κ}
    {value : β} : (key, value) ∈ map.toList ↔ map.get? key = some value :=
  mem_iff_lookup map.keys.nodup

theorem mem_values_iff [DecidableEq κ] [Std.TransOrd κ] {map : OrderedMap κ β}
    {value : β} : value ∈ map.values ↔ ∃ key, map.get? key = some value := by
  simp [values, ← mem_toList_iff]

theorem values_eq [DecidableEq κ] [Std.TransOrd κ] (map : OrderedMap κ β) (fallback : β) :
    map.values = map.keys.toList.map fun key => (map.get? key).getD fallback := by
  rw [values, keys, List.map_map]
  apply List.map_congr_left
  intro entry member
  have found := mem_toList_iff.mp (show (entry.1, entry.2) ∈ map.toList from member)
  rw [Function.comp_apply, found, Option.getD_some]

theorem ext_get? [DecidableEq κ] [Std.TransOrd κ] {left right : OrderedMap κ β}
    (same : ∀ key, left.get? key = right.get? key) : left = right := by
  have nodup (map : OrderedMap κ β) : map.toList.Nodup :=
    List.Pairwise.of_map Prod.fst (fun _ _ different => mt (congrArg Prod.fst) different)
      map.keys.nodup
  have perm : left.toList.Perm right.toList := by
    rw [List.perm_ext_iff_of_nodup (nodup left) (nodup right)]
    intro (key, value)
    rw [mem_toList_iff, mem_toList_iff, same]
  have entries : left.toList = right.toList := by
    refine perm.eq_of_pairwise ?_ (List.pairwise_map.mp left.increasing)
      (List.pairwise_map.mp right.increasing)
    intro first second _ _ below above
    exact absurd above (Std.OrientedCmp.not_lt_of_lt below)
  rcases left with ⟨list, increasing⟩
  subst entries
  rfl

/-! ## Lists of entries -/

section

variable [DecidableEq κ] [Std.TransOrd κ] {map : OrderedMap κ β} {key : κ}
  {entries : List (κ × β)}

/-- Of several entries with one key, the last one is found. -/
theorem get?_ofList [Std.LawfulEqOrd κ] :
    (ofList entries).get? key = entries.reverse.lookup key := by
  have folded (map : OrderedMap κ β) :
      (entries.foldl (fun map entry => map.insert entry.1 entry.2) map).get? key =
        (entries.reverse.lookup key).or (map.get? key) := by
    induction entries generalizing map with
    | nil => rfl
    | cons head tail induction =>
        rw [List.foldl_cons, induction, get?_insert, List.reverse_cons, List.lookup_append,
          Option.or_assoc, lookup_cons]
        split <;> rfl
  rw [ofList, folded, get?_empty, Option.or_none]

theorem mem_keys_ofList [Std.LawfulEqOrd κ] :
    key ∈ (ofList entries).keys ↔ key ∈ entries.map Prod.fst := by
  simp only [mem_keys_iff, get?_ofList, List.mem_map, List.lookup_isSome_iff, List.mem_reverse,
    beq_iff_eq, eq_comm (a := key)]

theorem get?_ofList_eq_some_iff [Std.LawfulEqOrd κ] {value : β}
    (nodup : (entries.map Prod.fst).Nodup) :
    (ofList entries).get? key = some value ↔ (key, value) ∈ entries := by
  have reversed : (entries.reverse.map Prod.fst).Nodup := by
    rw [List.map_reverse]
    exact List.pairwise_reverse.mpr (nodup.imp Ne.symm)
  rw [get?_ofList, ← mem_iff_lookup reversed, List.mem_reverse]

theorem ofList_toList [Std.LawfulEqOrd κ] (map : OrderedMap κ β) :
    ofList map.toList = map := by
  apply ext_get?
  intro key
  apply Option.ext
  intro value
  rw [get?_ofList_eq_some_iff map.keys.nodup, mem_toList_iff]

omit [Std.TransOrd κ] in
theorem getElem?_values_idxOf (member : key ∈ map.keys) :
    map.values[map.keys.toList.idxOf key]? = map.get? key := by
  change key ∈ map.toList.map Prod.fst at member
  change (map.toList.map Prod.snd)[(map.toList.map Prod.fst).idxOf key]? =
    map.toList.lookup key
  generalize map.toList = entries at member
  induction entries with
  | nil => cases member
  | cons head tail induction =>
      rw [List.map_cons, List.mem_cons] at member
      rw [lookup_cons, List.map_cons, List.map_cons, List.idxOf_cons]
      by_cases equal : key = head.1
      · rw [if_pos equal, equal, beq_self_eq_true, cond_true, List.getElem?_cons_zero]
      · rw [if_neg equal, beq_eq_false_iff_ne.mpr (Ne.symm equal), cond_false,
          List.getElem?_cons_succ]
        exact induction (member.resolve_left equal)

end

/-! ## Values -/

def filterMap (image : β → Option γ) (map : OrderedMap κ β) : OrderedMap κ γ :=
  ⟨map.toList.filterMap fun entry => (image entry.2).map (entry.1, ·), by
    refine List.Pairwise.sublist ?_ map.increasing
    induction map.toList with
    | nil => exact .slnil
    | cons head tail induction =>
        cases equal : image head.2 with
        | none => simpa [List.filterMap_cons, equal] using induction.cons head.1
        | some value => simpa [List.filterMap_cons, equal] using induction.cons_cons head.1⟩

theorem get?_filterMap [DecidableEq κ] [Std.TransOrd κ] (image : β → Option γ)
    (map : OrderedMap κ β) (key : κ) :
    (map.filterMap image).get? key = (map.get? key).bind image := by
  apply Option.ext
  intro value
  rw [← mem_toList_iff, Option.bind_eq_some_iff, filterMap, List.mem_filterMap]
  constructor
  · intro given
    rcases given with ⟨⟨_, source⟩, member, found⟩
    rcases Option.map_eq_some_iff.mp found with ⟨_, same, equal⟩
    cases equal
    exact ⟨source, mem_toList_iff.mp member, same⟩
  · intro given
    rcases given with ⟨source, member, same⟩
    exact ⟨(key, source), mem_toList_iff.mpr member, by simp [same]⟩

def map (image : β → γ) (source : OrderedMap κ β) : OrderedMap κ γ :=
  ⟨source.toList.map fun entry => (entry.1, image entry.2), by
    simpa [List.map_map, Function.comp_def] using source.increasing⟩

@[simp] theorem keys_map (image : β → γ) (source : OrderedMap κ β) :
    (source.map image).keys = source.keys := by
  simp [map, keys, Function.comp_def]

theorem get?_map [DecidableEq κ] (image : β → γ) (source : OrderedMap κ β)
    (key : κ) : (source.map image).get? key = (source.get? key).map image := by
  cases source with
  | mk entries increasing =>
      simp only [map, get?]
      clear increasing
      induction entries with
      | nil => rfl
      | cons head tail induction =>
          by_cases equal : key = head.1
          · simp [lookup_cons, equal]
          · simp [lookup_cons, equal, induction]

end OrderedMap

end WordAutomata
