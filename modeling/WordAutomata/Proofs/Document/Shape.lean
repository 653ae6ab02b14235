import WordAutomata.Proofs.Document.Members

namespace WordAutomata.Document

/-! Which texts are documents, and what they say. An entry is an object with one flag, and
a document is an object with one start state, whose other members are entries. -/

open Json

/-! ## Entries

An entry is read if it has one flag and every other member is a destination. Its
transitions are the last destinations under each symbol, so there is one entry at most
that its members show. -/

section

variable {τ : Type} {spell : τ → Json} {members : List (String × Json)}

structure Entry.Shaped (spell : τ → Json) (members : List (String × Json)) : Prop where
  flag : ∃ terminating, valuesOf terminatingKey members = [.bool terminating]
  others : ∀ member ∈ members, member.1 ≠ terminatingKey →
    ∃ destination, member.2 = spell destination

structure Entry.Shows (spell : τ → Json) (members : List (String × Json))
    (entry : Entry τ) : Prop where
  flag : valuesOf terminatingKey members = [.bool entry.terminating]
  transitions : ∀ symbol destination, entry.transitions.get? symbol = some destination ↔
    symbol ≠ terminatingKey ∧ (valuesOf symbol members).getLast? = some (spell destination)

theorem Entry.Shows.eq {left right : Entry τ} (leftShows : Entry.Shows spell members left)
    (rightShows : Entry.Shows spell members right) : left = right := by
  have flags := leftShows.flag.symm.trans rightShows.flag
  have transitions : left.transitions = right.transitions := by
    apply OrderedMap.ext_get?
    intro symbol
    apply Option.ext
    intro destination
    rw [leftShows.transitions, rightShows.transitions]
  cases left
  cases right
  cases flags
  cases transitions
  rfl

variable [Destination τ]

theorem Entry.ofJson?_object : (Entry.ofJson? (.object members) : Option (Entry τ)) =
    (fields? terminatingKey flagOfJson? Destination.ofJson? members).map
      fun fields => ⟨fields.1, fields.2⟩ := by
  rw [Entry.ofJson?, fields?]
  cases only? terminatingKey members with
  | none => rfl
  | some json =>
      cases json with
      | bool terminating =>
          rw [Option.bind_some, flagOfJson?]
          cases others? terminatingKey (Destination.ofJson? : Json → Option τ) members <;> rfl
      | _ => rfl

variable (spells : Spells Destination.ofJson? spell)
include spells

theorem Entry.orderFree_ofJson? : OrderFree (Entry.ofJson? : Json → Option (Entry τ)) := by
  intro left right reordered
  cases reordered with
  | refl => rfl
  | array => rfl
  | object related =>
      rw [ofJson?_object, ofJson?_object,
        fields?_eq_of_reordered spells_flag spells.orderFree related]

theorem Entry.exists_ofJson?_iff {json : Json} :
    (∃ entry : Entry τ, Entry.ofJson? json = some entry) ↔
      ∃ members, json = .object members ∧ Entry.Shaped spell members := by
  cases json with
  | object members =>
      simp only [Json.object.injEq, exists_eq_left', ofJson?_object, Option.map_eq_some_iff]
      rw [exists_comm]
      simp only [exists_and_left, exists_eq', and_true, exists_fields?_iff spells_flag,
        spells.exact]
      exact ⟨fun given => ⟨given.1, given.2⟩, fun shaped => ⟨shaped.flag, shaped.others⟩⟩
  | _ => simp [Entry.ofJson?]

theorem Entry.shows_of_ofJson? {entry : Entry τ}
    (read : Entry.ofJson? (.object members) = some entry) :
    Entry.Shows spell members entry := by
  rw [ofJson?_object, Option.map_eq_some_iff] at read
  rcases read with ⟨⟨terminating, transitions⟩, read, rfl⟩
  rcases (fields?_eq_some_iff spells_flag).mp read with ⟨flag, others⟩
  refine ⟨flag, fun symbol destination => ?_⟩
  rw [get?_eq_some_iff_of_others? others]
  simp only [spells.exact, exists_eq_right]

end

/-! ## Documents

A document is read if it has one name for the start state and every other member is an
entry. Its states are the last entries under each name. -/

section

variable {τ : Type} {spell : τ → Json} {members : List (String × Json)}

structure Shaped (spell : τ → Json) (members : List (String × Json)) : Prop where
  start : ∃ name, valuesOf startKey members = [.string name]
  others : ∀ member ∈ members, member.1 ≠ startKey →
    ∃ inner, member.2 = .object inner ∧ Entry.Shaped spell inner

structure Shows (spell : τ → Json) (members : List (String × Json))
    (document : Document τ) : Prop where
  start : valuesOf startKey members = [.string document.start]
  states : ∀ name entry, document.states.get? name = some entry ↔
    name ≠ startKey ∧ ∃ inner, (valuesOf name members).getLast? = some (.object inner) ∧
      Entry.Shows spell inner entry

variable [Destination τ]

theorem ofJson?_object : (ofJson? (.object members) : Option (Document τ)) =
    (fields? startKey textOfJson? Entry.ofJson? members).map
      fun fields => ⟨fields.1, fields.2⟩ := by
  rw [ofJson?, fields?]
  cases only? startKey members with
  | none => rfl
  | some json =>
      cases json with
      | string start =>
          rw [Option.bind_some, textOfJson?]
          cases others? startKey (Entry.ofJson? : Json → Option (Entry τ)) members <;> rfl
      | _ => rfl

variable (spells : Spells Destination.ofJson? spell)
include spells

theorem orderFree_ofJson? : OrderFree (ofJson? : Json → Option (Document τ)) := by
  intro left right reordered
  cases reordered with
  | refl => rfl
  | array => rfl
  | object related =>
      rw [ofJson?_object, ofJson?_object,
        fields?_eq_of_reordered spells_text (Entry.orderFree_ofJson? spells) related]

theorem exists_ofJson?_iff {json : Json} :
    (∃ document : Document τ, ofJson? json = some document) ↔
      ∃ members, json = .object members ∧ Shaped spell members := by
  cases json with
  | object members =>
      simp only [Json.object.injEq, exists_eq_left', ofJson?_object, Option.map_eq_some_iff]
      rw [exists_comm]
      simp only [exists_and_left, exists_eq', and_true, exists_fields?_iff spells_text,
        Entry.exists_ofJson?_iff spells]
      exact ⟨fun given => ⟨given.1, given.2⟩, fun shaped => ⟨shaped.start, shaped.others⟩⟩
  | _ => simp [ofJson?]

theorem shows_of_ofJson? {document : Document τ}
    (read : ofJson? (.object members) = some document) : Shows spell members document := by
  rw [ofJson?_object, Option.map_eq_some_iff] at read
  rcases read with ⟨⟨start, states⟩, read, rfl⟩
  rcases (fields?_eq_some_iff spells_text).mp read with ⟨name, others⟩
  refine ⟨name, fun name entry => ?_⟩
  rw [get?_eq_some_iff_of_others? others]
  constructor
  · intro given
    rcases given with ⟨different, json, last, read⟩
    rcases (Entry.exists_ofJson?_iff spells).mp ⟨entry, read⟩ with ⟨inner, rfl, _⟩
    exact ⟨different, inner, last, Entry.shows_of_ofJson? spells read⟩
  · intro given
    rcases given with ⟨different, inner, last, shows⟩
    -- Every value has been checked, so the last one was read as some entry.
    have readable := isSome_others?_iff.mp (Option.isSome_of_eq_some others)
      (name, .object inner) (mem_valuesOf.mp (List.mem_of_getLast? last)) different
    rcases Option.isSome_iff_exists.mp readable with ⟨other, read⟩
    rw [(Entry.shows_of_ofJson? spells read).eq shows] at read
    exact ⟨different, .object inner, last, read⟩

end

/-! ## Texts -/

/-- How texts are read as documents whose destinations are spelled in some way. -/
structure Reading {τ : Type} [Destination τ] (spell : τ → Json) : Prop where
  /-- A document is read exactly from members of the expected shape. -/
  accepted (text : String) : (∃ document : Document τ, read text = .ok document) ↔
    ∃ members, Json.ofText? text = some (.object members) ∧ Shaped spell members
  /-- What is read under a name or a symbol is the last value. -/
  shown (text : String) (document : Document τ) : read text = .ok document →
    ∃ members, Json.ofText? text = some (.object members) ∧ Shows spell members document
  /-- Members with different keys may change places. -/
  reordered (left right : String) (leftJson rightJson : Json) :
    Json.ofText? left = some leftJson → Json.ofText? right = some rightJson →
      leftJson.Reordered rightJson → (read left : Except Error (Document τ)) = read right

section

variable {τ : Type} [Destination τ] {text : String} {document : Document τ}

theorem read_eq_ok_iff_ofJson? : read text = .ok document ↔
    ∃ json, Json.ofText? text = some json ∧ ofJson? json = some document := by
  rw [← Option.bind_eq_some_iff, read]
  cases (Json.ofText? text).bind (ofJson? : Json → Option (Document τ)) <;> simp

theorem Spells.reading {spell : τ → Json} (spells : Spells Destination.ofJson? spell) :
    Reading spell where
  accepted text := by
    simp only [read_eq_ok_iff_ofJson?]
    rw [exists_comm]
    simp only [exists_and_left, exists_ofJson?_iff spells]
    constructor
    · intro given
      rcases given with ⟨_, parsed, members, rfl, shaped⟩
      exact ⟨members, parsed, shaped⟩
    · intro given
      rcases given with ⟨members, parsed, shaped⟩
      exact ⟨_, parsed, members, rfl, shaped⟩
  shown text document := by
    intro read
    rcases read_eq_ok_iff_ofJson?.mp read with ⟨json, parsed, read⟩
    rcases (exists_ofJson?_iff spells).mp ⟨document, read⟩ with ⟨members, rfl, _⟩
    exact ⟨members, parsed, shows_of_ofJson? spells read⟩
  reordered left right leftJson rightJson := by
    intro leftParsed rightParsed reordered
    rw [read, read, leftParsed, rightParsed, Option.bind_some, Option.bind_some,
      orderFree_ofJson? spells _ _ reordered]

end

/-- A document is read exactly from a JSON object with one member for the start state, which
is a text, and whose other members are all objects with one flag and destinations besides. A
destination is a text for a deterministic automaton and a list of texts for a
nondeterministic one. Of the entries under a name and of the destinations under a symbol the
last one counts, and members with different keys may change places. -/
theorem read_spec : Reading Json.string ∧
    Reading fun names : List String => Json.array (names.map .string) :=
  ⟨Spells.reading spells_text, Spells.reading spells_texts⟩

/-- An entry and a destination are overridden by later ones, around which other members are
moved. -/
theorem read_spec_of_repeated_name :
    let start : String × Json := ("startingState", .string "q")
    let flag : String × Json := ("isTerminatingState", .bool true)
    let first : String × Json := ("q", .object [("isTerminatingState", .bool false)])
    let entry : Json := .object [("a", .string "p"), ("a", .string "q"), flag]
    let other : Json := .object [("a", .string "p"), flag, ("a", .string "q")]
    let left : Json := .object [first, ("q", entry), start]
    let middle : Json := .object [first, start, ("q", entry)]
    let right : Json := .object [first, start, ("q", other)]
    let document : DfaDocument := ⟨"q", .ofList [("q", ⟨true, .ofList [("a", "q")]⟩)]⟩
    left.Reordered middle ∧ middle.Reordered right ∧ read left.toText = .ok document ∧
      read middle.toText = .ok document ∧ read right.toText = .ok document := by
  intro start flag first entry other left middle right document
  have outer : left.Reordered middle :=
    @Reordered.swap ("q", entry) start (by decide) [first] []
  have inner : entry.Reordered other :=
    @Reordered.swap ("a", .string "q") flag (by decide) [("a", .string "p")] []
  have inside : middle.Reordered right := inner.inside [first, start] []
  have numberFree : left.NumberFree ∧ middle.NumberFree ∧ right.NumberFree := by
    simp [left, middle, right, first, start, entry, other, flag, NumberFree.object,
      NumberFree.string, NumberFree.bool]
  have accepted : read left.toText = .ok document :=
    read_eq_ok_iff_ofJson?.mpr ⟨left, ofText?_toText numberFree.1, by decide +kernel⟩
  have moved : read left.toText = read middle.toText :=
    read_spec.1.reordered _ _ _ _ (ofText?_toText numberFree.1)
      (ofText?_toText numberFree.2.1) outer
  have movedInside : read middle.toText = read right.toText :=
    read_spec.1.reordered _ _ _ _ (ofText?_toText numberFree.2.1)
      (ofText?_toText numberFree.2.2) inside
  rw [accepted] at moved
  exact ⟨outer, inside, accepted, moved.symm, movedInside.symm.trans moved.symm⟩

/-- An entry is looked at even if it is overridden. -/
example : (ofJson? (.object [("startingState", .string "q"), ("q", .null),
    ("q", .object [("isTerminatingState", .bool true)])]) : Option DfaDocument) = none := by
  decide +kernel

end WordAutomata.Document
