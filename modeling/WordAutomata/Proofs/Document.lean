import WordAutomata.Document
import WordAutomata.Proofs.Json

namespace WordAutomata

/-! A document is read as it was written, unless a reserved key is also the name of a
state or a symbol. Then the key occurs twice in one object, and what was written is
refused. -/

/-! ## Lists -/

section

variable {α : Type u} {β : Type v} {read? : β → Option α}

theorem mapM_map_eq_some {write : α → β} {values : List α}
    (inverse : ∀ value ∈ values, read? (write value) = some value) :
    (values.map write).mapM read? = some values := by
  induction values with
  | nil => rfl
  | cons head tail induction =>
      rw [List.forall_mem_cons] at inverse
      rw [List.map_cons, List.mapM_cons, inverse.1, induction inverse.2]
      rfl

theorem mapM_eq_none {values : List β} {value : β} (member : value ∈ values)
    (refused : read? value = none) : values.mapM read? = none := by
  induction values with
  | nil => cases member
  | cons head tail induction =>
      rw [List.mapM_cons]
      rcases List.mem_cons.mp member with equal | member
      · rw [← equal, refused]
        rfl
      · rw [induction member]
        cases read? head <;> rfl

end

namespace Document

/-! ## Members

One key is read apart from the others. If it occurs twice the object is refused, and so it
is if one of the other members is. -/

section

variable {key : String} {value : Json} {members : List (String × Json)}

theorem only?_cons (absent : key ∉ members.map Prod.fst) :
    only? key ((key, value) :: members) = some value := by
  have others : members.filter (·.1 = key) = [] := by
    rw [List.filter_eq_nil_iff]
    intro member found
    rw [decide_eq_true_iff]
    intro equal
    exact absent (equal ▸ List.mem_map_of_mem found)
  simp only [only?, List.filter_cons, decide_true, if_true, others]

theorem only?_cons_of_mem (present : key ∈ members.map Prod.fst) :
    only? key ((key, value) :: members) = none := by
  rcases List.mem_map.mp present with ⟨member, found, equal⟩
  have kept : member ∈ members.filter (·.1 = key) :=
    List.mem_filter.mpr ⟨found, decide_eq_true equal⟩
  simp only [only?, List.filter_cons, decide_true, if_true]
  cases others : members.filter (·.1 = key) with
  | nil => exact absurd (others ▸ kept) List.not_mem_nil
  | cons => rfl

def others {α : Type} (write : α → Json) (map : OrderedMap String α) : List (String × Json) :=
  map.toList.map fun entry => (entry.1, write entry.2)

variable {α : Type} {read? : Json → Option α} {write : α → Json} {map : OrderedMap String α}

theorem map_fst_others : (others write map).map Prod.fst = map.keys.toList := by
  simp [others, OrderedMap.keys, Function.comp_def]

theorem filter_others (absent : key ∉ map.keys) :
    ((key, value) :: others write map).filter (·.1 ≠ key) = others write map := by
  have kept : ∀ member ∈ others write map, decide (member.1 ≠ key) = true := by
    intro member found
    rw [decide_eq_true_iff]
    intro equal
    have occurs : key ∈ (others write map).map Prod.fst :=
      equal ▸ List.mem_map_of_mem found
    rw [map_fst_others] at occurs
    exact absent occurs
  rw [List.filter_cons_of_neg (by simp), List.filter_eq_self.mpr kept]

theorem others?_cons (absent : key ∉ map.keys)
    (inverse : ∀ entry ∈ map.toList, read? (write entry.2) = some entry.2) :
    others? key read? ((key, value) :: others write map) = some map := by
  have entries : (others write map).mapM (fun member =>
      (read? member.2).bind fun read => some (member.1, read)) = some map.toList := by
    apply mapM_map_eq_some
    intro entry found
    rw [inverse entry found, Option.bind_some]
  simp only [others?, filter_others absent, pure, bind]
  rw [entries, Option.bind_some, OrderedMap.ofList_toList]

theorem others?_cons_eq_none (absent : key ∉ map.keys) {entry : String × α}
    (found : entry ∈ map.toList) (refused : read? (write entry.2) = none) :
    others? key read? ((key, value) :: others write map) = none := by
  have entries : (others write map).mapM (fun member =>
      (read? member.2).bind fun read => some (member.1, read)) = none := by
    apply mapM_eq_none (List.mem_map_of_mem found)
    rw [refused, Option.bind_none]
  simp only [others?, filter_others absent, pure, bind]
  rw [entries, Option.bind_none]

end

/-! ## Destinations -/

/-- A destination is written without numbers and read as it was written. -/
class Destination.Lawful (τ : Type) [Destination τ] : Prop where
  numberFree (destination : τ) : (Destination.toJson destination).NumberFree
  ofJson?_toJson (destination : τ) :
    Destination.ofJson? (Destination.toJson destination) = some destination

instance : Destination.Lawful String where
  numberFree name := .string name
  ofJson?_toJson _ := rfl

instance : Destination.Lawful (List String) where
  numberFree names := by
    apply Json.NumberFree.array
    intro item found
    rcases List.mem_map.mp found with ⟨name, _, rfl⟩
    exact .string name
  ofJson?_toJson names := mapM_map_eq_some fun _ _ => rfl

/-! ## Reserved keys

No state may go by the first reserved key, and no symbol may be the second one. -/

def Entry.Unreserved {τ : Type} (entry : Entry τ) : Prop :=
  terminatingKey ∉ entry.transitions.keys

structure Unreserved {τ : Type} (document : Document τ) : Prop where
  states : startKey ∉ document.states.keys
  symbols : ∀ entry ∈ document.states.values, entry.Unreserved

theorem unreserved_iff {τ : Type} {document : Document τ} :
    document.Unreserved ↔ startKey ∉ document.states.keys ∧
      ∀ entry ∈ document.states.values, terminatingKey ∉ entry.transitions.keys :=
  ⟨fun unreserved => ⟨unreserved.states, unreserved.symbols⟩,
    fun given => ⟨given.1, given.2⟩⟩

theorem not_unreserved_iff {τ : Type} {document : Document τ} :
    ¬ document.Unreserved ↔ startKey ∈ document.states.keys ∨
      ∃ entry ∈ document.states.values, terminatingKey ∈ entry.transitions.keys := by
  constructor
  · intro reserved
    by_cases state : startKey ∈ document.states.keys
    · exact .inl state
    · apply Or.inr
      apply Classical.byContradiction
      intro symbols
      exact reserved ⟨state, fun entry member symbol => symbols ⟨entry, member, symbol⟩⟩
  · intro given unreserved
    rcases given with state | ⟨entry, member, symbol⟩
    · exact unreserved.states state
    · exact unreserved.symbols entry member symbol

/-! ## Objects

What is written without a reserved key among the names and symbols is read as it was. With
one, it is refused. -/

section

variable {τ : Type} [Destination τ] {entry : Entry τ} {document : Document τ}

theorem Entry.toJson_eq (entry : Entry τ) :
    entry.toJson = .object ((terminatingKey, .bool entry.terminating) ::
      others Destination.toJson entry.transitions) := rfl

theorem toJson_eq (document : Document τ) :
    document.toJson = .object ((startKey, .string document.start) ::
      others Entry.toJson document.states) := rfl

theorem Entry.ofJson?_toJson_eq_none (reserved : terminatingKey ∈ entry.transitions.keys) :
    (Entry.ofJson? entry.toJson : Option (Entry τ)) = none := by
  have key : terminatingKey ∈ (others Destination.toJson entry.transitions).map Prod.fst :=
    map_fst_others ▸ reserved
  simp only [toJson_eq, Entry.ofJson?, only?_cons_of_mem key]

theorem ofJson?_toJson_eq_none (reserved : ¬ document.Unreserved) :
    (ofJson? document.toJson : Option (Document τ)) = none := by
  by_cases state : startKey ∈ document.states.keys
  · have key : startKey ∈ (others Entry.toJson document.states).map Prod.fst :=
      map_fst_others ▸ state
    simp only [toJson_eq, ofJson?, only?_cons_of_mem key]
  · have key : startKey ∉ (others Entry.toJson document.states).map Prod.fst :=
      map_fst_others ▸ state
    rcases (not_unreserved_iff.mp reserved).resolve_left state with ⟨entry, member, symbol⟩
    rcases List.mem_map.mp member with ⟨named, found, rfl⟩
    have states : others? startKey Entry.ofJson? ((startKey, .string document.start) ::
        others Entry.toJson document.states) = (none : Option (OrderedMap _ (Entry τ))) :=
      others?_cons_eq_none state found (Entry.ofJson?_toJson_eq_none symbol)
    simp only [toJson_eq, ofJson?, only?_cons key, states]
    rfl

end

section

variable {τ : Type} [Destination τ] [Destination.Lawful τ] {entry : Entry τ}
  {document : Document τ}

theorem Entry.ofJson?_toJson (unreserved : entry.Unreserved) :
    Entry.ofJson? entry.toJson = some entry := by
  have key : terminatingKey ∉ (others Destination.toJson entry.transitions).map Prod.fst :=
    map_fst_others ▸ unreserved
  have transitions : others? terminatingKey Destination.ofJson?
      ((terminatingKey, .bool entry.terminating) ::
        others Destination.toJson entry.transitions) = some entry.transitions :=
    others?_cons unreserved fun _ _ => Destination.Lawful.ofJson?_toJson _
  simp only [toJson_eq, Entry.ofJson?, only?_cons key, transitions]
  rfl

theorem ofJson?_toJson (unreserved : document.Unreserved) :
    ofJson? document.toJson = some document := by
  have key : startKey ∉ (others Entry.toJson document.states).map Prod.fst :=
    map_fst_others ▸ unreserved.states
  have states : others? startKey Entry.ofJson? ((startKey, .string document.start) ::
      others Entry.toJson document.states) = some document.states :=
    others?_cons unreserved.states fun state found =>
      Entry.ofJson?_toJson (unreserved.symbols state.2 (List.mem_map_of_mem found))
  simp only [toJson_eq, ofJson?, only?_cons key, states]
  rfl

/-! ## Texts -/

theorem numberFree_others {α : Type} {write : α → Json} {map : OrderedMap String α}
    (numberFree : ∀ value, (write value).NumberFree) :
    ∀ member ∈ others write map, member.2.NumberFree := by
  intro member found
  rcases List.mem_map.mp found with ⟨named, _, rfl⟩
  exact numberFree named.2

theorem numberFree_toJson (document : Document τ) : document.toJson.NumberFree := by
  have entries (entry : Entry τ) : entry.toJson.NumberFree :=
    .object (List.forall_mem_cons.mpr
      ⟨.bool _, numberFree_others Destination.Lawful.numberFree⟩)
  exact .object (List.forall_mem_cons.mpr ⟨.string _, numberFree_others entries⟩)

theorem ofText?_write (document : Document τ) :
    Json.ofText? document.write = some document.toJson :=
  Json.ofText?_toText (numberFree_toJson document)

theorem Unreserved.read_write (unreserved : document.Unreserved) :
    read document.write = .ok document := by
  rw [read, ofText?_write, Option.bind_some, ofJson?_toJson unreserved]

theorem read_write_eq_error (reserved : ¬ document.Unreserved) :
    (read document.write : Except Error (Document τ)) = .error (.document .undecodable) := by
  rw [read, ofText?_write, Option.bind_some, ofJson?_toJson_eq_none reserved]

/-- What is written is either read back as it was or refused. -/
theorem read_write {reserved : Prop} [Decidable reserved]
    (unreserved_iff : document.Unreserved ↔ ¬ reserved) :
    read document.write =
      if reserved then .error (.document .undecodable) else .ok document := by
  split
  case isTrue found =>
    exact read_write_eq_error fun unreserved => unreserved_iff.mp unreserved found
  case isFalse absent => exact (unreserved_iff.mpr absent).read_write

theorem read_write_eq_ok_iff_unreserved :
    read document.write = .ok document ↔ document.Unreserved := by
  constructor
  · intro kept
    apply Classical.byContradiction
    intro reserved
    rw [read_write_eq_error reserved] at kept
    cases kept
  · exact Unreserved.read_write

theorem read_write_eq_error_iff_not_unreserved :
    read document.write = (.error (.document .undecodable) : Except Error (Document τ)) ↔
      ¬ document.Unreserved := by
  constructor
  · intro refused unreserved
    rw [unreserved.read_write] at refused
    cases refused
  · exact read_write_eq_error

end

/-- Whatever the names, symbols and destinations are, a document is written as the JSON
text of its members. It is read back as it was exactly if no state goes by the first
reserved key and no symbol is the second one, and is refused otherwise. -/
theorem read_write_eq_ok_iff :
    (∀ document : DfaDocument, Json.ofText? document.write = some document.toJson ∧
      (read document.write = .ok document ↔ startKey ∉ document.states.keys ∧
        ∀ entry ∈ document.states.values, terminatingKey ∉ entry.transitions.keys) ∧
      (read document.write =
          (.error (.document .undecodable) : Except Error DfaDocument) ↔
        startKey ∈ document.states.keys ∨
          ∃ entry ∈ document.states.values, terminatingKey ∈ entry.transitions.keys)) ∧
    ∀ document : NfaDocument, Json.ofText? document.write = some document.toJson ∧
      (read document.write = .ok document ↔ startKey ∉ document.states.keys ∧
        ∀ entry ∈ document.states.values, terminatingKey ∉ entry.transitions.keys) ∧
      (read document.write =
          (.error (.document .undecodable) : Except Error NfaDocument) ↔
        startKey ∈ document.states.keys ∨
          ∃ entry ∈ document.states.values, terminatingKey ∈ entry.transitions.keys) := by
  constructor
  case left =>
    intro document
    exact ⟨ofText?_write document, read_write_eq_ok_iff_unreserved.trans unreserved_iff,
      read_write_eq_error_iff_not_unreserved.trans not_unreserved_iff⟩
  case right =>
    intro document
    exact ⟨ofText?_write document, read_write_eq_ok_iff_unreserved.trans unreserved_iff,
      read_write_eq_error_iff_not_unreserved.trans not_unreserved_iff⟩

end Document

end WordAutomata
