import WordAutomata.Error
import WordAutomata.Json.Reader
import WordAutomata.OrderedMap

namespace WordAutomata

/-! Automata as they are exchanged: states go by names, and a document is a JSON
object with a member for the name of the start state and one for every state. -/

structure Document.Entry (τ : Type) where
  terminating : Bool
  transitions : OrderedMap String τ
deriving DecidableEq, Repr

structure Document (τ : Type) where
  start : String
  states : OrderedMap String (Document.Entry τ)
deriving DecidableEq, Repr

abbrev DfaDocument := Document String

abbrev NfaDocument := Document (List String)

/-! ## Destinations

What a symbol leads to is one name in a deterministic automaton and a list of names in a
nondeterministic one. -/

class Document.Destination (τ : Type) where
  toJson : τ → Json
  ofJson? : Json → Option τ

namespace Document

def textOfJson? : Json → Option String
  | .string text => some text
  | _ => none

instance : Destination String where
  toJson := .string
  ofJson? := textOfJson?

instance : Destination (List String) where
  toJson names := .array (names.map .string)
  ofJson?
    | .array items => items.mapM textOfJson?
    | _ => none

/-! ## Objects -/

def startKey : String := "startingState"

def terminatingKey : String := "isTerminatingState"

theorem toString_injective {left right : Nat} (same : toString left = toString right) :
    left = right := by
  have digits : Nat.toDigits 10 left = Nat.toDigits 10 right := by
    rw [← Nat.toList_repr, ← Nat.toList_repr]
    exact congrArg String.toList same
  rw [← Nat.ofDigitChars_ten_toDigits (n := left), digits, Nat.ofDigitChars_ten_toDigits]

theorem toString_ne_startKey (number : Nat) : toString number ≠ startKey := by
  intro equal
  have letter : 's' ∈ Nat.toDigits 10 number := by
    rw [← Nat.toList_repr]
    have spelled : number.repr.toList = startKey.toList := congrArg String.toList equal
    rw [spelled]
    decide
  have digit : ('s').isDigit :=
    Nat.isDigit_of_mem_toDigits (by decide) (by decide) letter
  exact absurd digit (by decide)

/-- The value of the one member with a key. A key that occurs twice has none. -/
def only? (key : String) (members : List (String × Json)) : Option Json :=
  match members.filter (·.1 = key) with
  | [member] => some member.2
  | _ => none

/-- Read every member but those with the reserved key. Each one has to be
readable, and of several with one key the last one counts. -/
def others? (reserved : String) (read? : Json → Option α)
    (members : List (String × Json)) : Option (OrderedMap String α) := do
  let entries ← (members.filter (·.1 ≠ reserved)).mapM fun member => do
    return (member.1, ← read? member.2)
  return .ofList entries

namespace Entry

variable {τ : Type} [Destination τ]

def toJson (entry : Entry τ) : Json :=
  .object ((terminatingKey, .bool entry.terminating) ::
    entry.transitions.toList.map fun transition =>
      (transition.1, Destination.toJson transition.2))

def ofJson? : Json → Option (Entry τ)
  | .object members =>
      match only? terminatingKey members with
      | some (.bool terminating) => do
          let transitions ← others? terminatingKey Destination.ofJson? members
          return ⟨terminating, transitions⟩
      | _ => none
  | _ => none

end Entry

variable {τ : Type} [Destination τ]

def toJson (document : Document τ) : Json :=
  .object ((startKey, .string document.start) ::
    document.states.toList.map fun state => (state.1, state.2.toJson))

def ofJson? : Json → Option (Document τ)
  | .object members =>
      match only? startKey members with
      | some (.string start) => do
          let states ← others? startKey Entry.ofJson? members
          return ⟨start, states⟩
      | _ => none
  | _ => none

/-! ## Texts -/

def write (document : Document τ) : String := document.toJson.toText

def read (text : String) : Except Error (Document τ) :=
  match (Json.ofText? text).bind ofJson? with
  | some document => .ok document
  | none => .error (.document .undecodable)

end Document

end WordAutomata
