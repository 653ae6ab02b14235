import WordAutomata.Proofs.Regex.Steps

namespace WordAutomata

/-! What the reader of tokens reports where it goes no further. -/

open Grammar

namespace Parser

variable {level : Level} {outer : List Level} {place : Place} {operand : Regex}
  {token : Token} {index : Nat} {parser : Parser}

inductive Refuses : Parser → Token → Nat → GrammarFault → Prop
  | operand {level : Level} {outer : List Level} {token : Token} {index : Nat} :
      Refuses ⟨level, outer, .operand⟩ token index (.unexpected .operand token index)
  | leftover {level : Level} {place : Place} {operand : Regex} {token : Token}
      {index : Nat} :
      place.ended? = some operand →
      Refuses ⟨level, [], place⟩ token index (.leftover token index)
  | closeParen {level enclosing : Level} {outer : List Level} {place : Place}
      {operand : Regex} {token : Token} {index : Nat} :
      place.ended? = some operand →
      Refuses ⟨level, enclosing :: outer, place⟩ token index
        (.unexpected .closeParen token index)
  | count {level : Level} {outer : List Level} {place : Place} {token : Token}
      {index : Nat} :
      place.AwaitsCount →
      Refuses ⟨level, outer, place⟩ token index (.unexpected .count token index)
  | invalidCount {level : Level} {outer : List Level} {place : Place} {token : Token}
      {index : Nat} :
      place.AwaitsCount → token.kind = .count → (¬ ∃ count, Bound token count) →
      Refuses ⟨level, outer, place⟩ token index (.invalidCount token.content)
  | comma {level : Level} {outer : List Level} {body : Regex} {low : Count}
      {token : Token} {index : Nat} :
      Refuses ⟨level, outer, .afterLow body low⟩ token index
        (.unexpected .comma token index)
  | reversedBounds {level : Level} {outer : List Level} {body : Regex} {low high : Count}
      {token : Token} {index : Nat} :
      Bound token high → high < low →
      Refuses ⟨level, outer, .highBound body low⟩ token index (.reversedBounds low high)
  | closeBrace {level : Level} {outer : List Level} {body : Regex} {low high : Count}
      {token : Token} {index : Nat} :
      Refuses ⟨level, outer, .afterHigh body low high⟩ token index
        (.unexpected .closeBrace token index)

variable {failure : Error}

theorem refuses_of_readCount (awaits : place.AwaitsCount)
    (failed : readCount token index = .error failure) :
    ∃ fault, failure = .grammar fault ∧ Refuses ⟨level, outer, place⟩ token index fault := by
  rw [readCount.eq_def] at failed
  split at failed
  · rename_i kind
    split at failed
    · cases failed
    · rename_i misspelled
      cases failed
      refine ⟨_, rfl, .invalidCount awaits kind fun given => ?_⟩
      rcases given with ⟨count, bound⟩
      cases misspelled.symm.trans (bound_iff.mp bound).2
  · cases failed
    exact ⟨_, rfl, .count awaits⟩

theorem refuses_of_afterOperand (ended : place.ended? = some operand)
    (failed : afterOperand level outer operand token index = .error failure) :
    ∃ fault, failure = .grammar fault ∧ Refuses ⟨level, outer, place⟩ token index fault := by
  rw [afterOperand.eq_def] at failed
  split at failed
  · rename_i kind
    simp [beginOperand, kind] at failed
  · rename_i kind
    simp [beginOperand, kind] at failed
  · cases failed
  · cases failed
  · cases failed
    exact ⟨_, rfl, .leftover ended⟩
  · cases failed
    exact ⟨_, rfl, .closeParen ended⟩

theorem refuses_of_step (failed : parser.step token index = .error failure) :
    ∃ fault, failure = .grammar fault ∧ Refuses parser token index fault := by
  rcases parser with ⟨level, outer, place⟩
  cases place with
  | operand =>
      rw [step, beginOperand] at failed
      split at failed <;> cases failed
      exact ⟨_, rfl, .operand⟩
  | atom tree =>
      rw [step] at failed
      split at failed
      · cases failed
      · cases failed
      · exact refuses_of_afterOperand rfl failed
  | repeated tree =>
      rw [step] at failed
      split at failed
      · cases failed
      · exact refuses_of_afterOperand rfl failed
  | starred tree => exact refuses_of_afterOperand rfl failed
  | lowBound body =>
      cases read : readCount token index with
      | error other =>
          rw [step, read] at failed
          cases failed
          exact refuses_of_readCount trivial read
      | ok low =>
          rw [step, read] at failed
          cases failed
  | afterLow body low =>
      rw [step] at failed
      split at failed <;> cases failed
      exact ⟨_, rfl, .comma⟩
  | highBound body low =>
      rw [step] at failed
      split at failed
      · cases failed
      · cases read : readCount token index with
        | error other =>
            rw [read] at failed
            cases failed
            exact refuses_of_readCount trivial read
        | ok high =>
            rw [read] at failed
            simp only [bind, Except.bind] at failed
            split at failed
            · rename_i reversed
              cases failed
              exact ⟨_, rfl, .reversedBounds (readCount_eq_ok_iff.mp read) reversed⟩
            · cases failed
  | afterHigh body low high =>
      rw [step] at failed
      split at failed <;> cases failed
      exact ⟨_, rfl, .closeBrace⟩

theorem incomplete_of_finish (failed : parser.finish = .error failure) :
    ∃ expected, failure = .grammar (.incomplete expected) := by
  rw [finish.eq_def] at failed
  split at failed <;> cases failed <;> exact ⟨_, rfl⟩

inductive Grammatical {α : Type} : Except Error α → Prop
  | ok (result : α) : Grammatical (.ok result)
  | fault (fault : GrammarFault) : Grammatical (.error (.grammar fault))

theorem grammatical_run (parser : Parser) (index : Nat) (tokens : List Token) :
    Grammatical (parser.run index tokens) := by
  cases outcome : parser.run index tokens with
  | ok tree => exact .ok tree
  | error failure =>
      rcases stop_of_run outcome with ⟨_, _, _, _, _, _, refused⟩ | ⟨_, _, ended⟩
      · rcases refuses_of_step refused with ⟨fault, rfl, _⟩
        exact .fault fault
      · rcases incomplete_of_finish ended with ⟨expected, rfl⟩
        exact .fault (.incomplete expected)

end Parser

end WordAutomata
