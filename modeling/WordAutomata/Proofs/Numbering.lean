import WordAutomata.Proofs.Nfa.Naming
import WordAutomata.Proofs.Register

namespace WordAutomata

/-! Numbers and names that are given out as states come up. A state that comes up for the
first time is entered under the number of states that have come up before, so the answers
depend on the order of first occurrences alone. -/

namespace Numbering

/-! ## Requests

A numbering is asked for the number of a state or for its name. A new state is entered
under the number of those that are known, and a known state changes nothing. -/

inductive Request
  | number (state : Nat)
  | name (state : Nat)
deriving DecidableEq, Repr

inductive Answer
  | number (number : Nat)
  | name (text : String)
deriving DecidableEq, Repr

namespace Request

def state : Request → Nat
  | number state | name state => state

def answer : Request → Nat → Answer
  | number _, value => .number value
  | name _, value => .name (toString value)

def ask (request : Request) (register : Register Nat Nat) : Answer × Register Nat Nat :=
  let found := register.getOrInsert request.state register.size
  (request.answer found.1, found.2)

end Request

def askAll : List Request → Register Nat Nat → List Answer × Register Nat Nat
  | [], register => ([], register)
  | request :: requests, register =>
      let first := request.ask register
      let later := askAll requests first.2
      (first.1 :: later.1, later.2)

example : askAll [.name 7, .number 3, .name 7, .name 0] .empty =
    ([.name "0", .number 1, .name "0", .name "2"], ⟨[(7, 0), (3, 1), (0, 2)]⟩) := by
  decide +kernel

variable {states : List Nat} {request : Request}

theorem ask_numbered (states : List Nat) (request : Request) :
    request.ask (.numbered states) =
      (request.answer ((states ++ [request.state]).eraseDups.idxOf request.state),
        .numbered (states ++ [request.state])) := by
  rw [Request.ask, Register.size_numbered, Register.getOrInsert_numbered]

theorem ask_numbered_of_mem (known : request.state ∈ states) :
    request.ask (.numbered states) =
      (request.answer (states.eraseDups.idxOf request.state), .numbered states) := by
  rw [Request.ask, Register.getOrInsert_numbered_of_mem known]

/-- Each answer tells the number that the state has in the end. -/
theorem askAll_numbered (requests : List Request) (states : List Nat) :
    askAll requests (.numbered states) =
      (requests.map fun request => request.answer
        ((states ++ requests.map Request.state).eraseDups.idxOf request.state),
        .numbered (states ++ requests.map Request.state)) := by
  induction requests generalizing states with
  | nil => simp [askAll]
  | cons head tail induction =>
      have stays : (states ++ [head.state]).eraseDups.idxOf head.state =
          (states ++ [head.state] ++ tail.map Request.state).eraseDups.idxOf head.state :=
        (List.idxOf_eraseDups_append_of_mem (by simp)).symm
      rw [askAll, ask_numbered, induction, stays, List.map_cons, List.map_cons,
        List.append_assoc, List.singleton_append]

/-! ## Answers -/

/-- The answer to a request is the number of different states that came up before the state
that is asked about, whenever that is asked. To ask again changes nothing, different states
have different numbers and names, and the numbers in use are those below the number of
different states. -/
theorem askAll_spec (requests : List Request) :
    let states := requests.map Request.state
    let number state := (states.takeWhile (· ≠ state)).eraseDups.length
    let answers := (askAll requests .empty).1
    let register := (askAll requests .empty).2
    answers = requests.map (fun request => request.answer (number request.state)) ∧
      (∀ request : Request, request.state ∈ states →
        request.ask register = (request.answer (number request.state), register)) ∧
      (∀ left ∈ states, ∀ right ∈ states, left ≠ right →
        number left ≠ number right ∧ toString (number left) ≠ toString (number right)) ∧
      register.size = states.eraseDups.length ∧
      (∀ value, value < register.size ↔ ∃ state ∈ states, number state = value) ∧
      (empty.addAll states).size = register.size ∧
      ∀ state ∈ states, (empty.addAll states).number state = number state ∧
        (empty.addAll states).name state = toString (number state) := by
  intro states number answers register
  have asked : askAll requests .empty =
      (requests.map fun request => request.answer (states.eraseDups.idxOf request.state),
        .numbered states) := askAll_numbered requests []
  have entered : register = .numbered states := congrArg Prod.snd asked
  have size : register.size = states.eraseDups.length := by
    rw [entered, Register.size_numbered]
  have numbers (state : Nat) (member : state ∈ states) :
      number state = states.eraseDups.idxOf state := (List.idxOf_eraseDups member).symm
  have kept : (empty.addAll states).states = states.eraseDups := states_addAll states
  refine ⟨?answers, ?again, ?different, size, ?dense, ?whole, ?known⟩
  case answers =>
    apply (congrArg Prod.fst asked).trans
    apply List.map_congr_left
    intro request member
    rw [numbers request.state (List.mem_map_of_mem member)]
  case again =>
    intro request member
    rw [entered, numbers request.state member]
    exact ask_numbered_of_mem member
  case different =>
    intro left leftMember right rightMember apart
    have numbersApart : number left ≠ number right := by
      rw [numbers left leftMember, numbers right rightMember]
      exact fun same => apart ((List.idxOf_inj (List.mem_eraseDups.mpr leftMember)).mp same)
    exact ⟨numbersApart, mt Document.toString_injective numbersApart⟩
  case dense =>
    intro value
    rw [size, ← List.exists_idxOf_iff (List.nodup_eraseDups states)]
    apply exists_congr
    intro state
    rw [List.mem_eraseDups]
    apply and_congr_right
    intro member
    rw [numbers state member]
  case whole => rw [size, Numbering.size, kept]
  case known =>
    intro state member
    have same : (empty.addAll states).number state = number state := by
      rw [Numbering.number, kept, numbers state member]
    exact ⟨same, congrArg toString same⟩

/-- One state is asked about twice, in two ways. -/
theorem askAll_spec_of_repeated_state :
    let requests : List Request := [.name 7, .number 3, .number 7, .name 0]
    let states := [7, 3, 7, 0]
    let number state := (states.takeWhile (· ≠ state)).eraseDups.length
    let register := (askAll requests .empty).2
    (askAll requests .empty).1 = [.name "0", .number 1, .number 0, .name "2"] ∧
      7 ∈ states ∧ 0 ∈ states ∧ 7 ≠ 0 ∧
      Request.ask (.name 7) register = (.name "0", register) ∧
      number 7 ≠ number 0 ∧ toString (number 7) ≠ toString (number 0) := by
  intro requests states number register
  rcases askAll_spec requests with ⟨answers, again, different, _⟩
  have first : 7 ∈ states := by decide
  have last : 0 ∈ states := by decide
  exact ⟨answers.trans (by decide), first, last, by decide,
    (again (.name 7) first).trans (congrArg (Prod.mk · register) (by decide)),
    different 7 first 0 last (by decide)⟩

end Numbering

end WordAutomata
