import WordAutomata.Regex.Grammar
import WordAutomata.Regex.Parser

namespace WordAutomata

/-! All that the reader of tokens does with one token, as a relation that leaves out
the reports of failure. -/

/-! ## Bounds -/

namespace Grammar

theorem bound_iff {token : Token} {count : Count} :
    Bound token count ↔
      token.kind = .count ∧ Count.ofText? token.content = some count := by
  rw [Bound, Count.ofText?_eq_some_iff]
  simp only [Count.ofDigits?_eq_some_iff]

end Grammar

open Grammar

/-! ## Places

There are places where an operand may end, and at some of these a star may still
follow. -/

namespace Place

def unstarred? : Place → Option Regex
  | atom tree | repeated tree => some tree
  | _ => none

def ended? : Place → Option Regex
  | atom tree | repeated tree | starred tree => some tree
  | _ => none

def AwaitsCount : Place → Prop
  | lowBound _ | highBound _ _ => True
  | _ => False

theorem ended?_of_unstarred? {place : Place} {tree : Regex}
    (unstarred : place.unstarred? = some tree) : place.ended? = some tree := by
  cases place with
  | atom other => exact unstarred
  | repeated other => exact unstarred
  | _ => cases unstarred

end Place

/-! ## Steps -/

namespace Parser

inductive Begins : Level → List Level → Token → Parser → Prop
  | symbol {level : Level} {outer : List Level} {token : Token} :
      token.kind = .literal →
      Begins level outer token ⟨level, outer, .atom (.literal token.content)⟩
  | group {level : Level} {outer : List Level} {token : Token} :
      token.kind = .openParen → Begins level outer token ⟨.start, level :: outer, .operand⟩

/-- How a token takes the reader from one state to the next. Where an operand may end,
a token that does not go on with it begins another one, ends the alternative, or closes
the group. -/
inductive Moves : Parser → Token → Parser → Prop
  | first {level : Level} {outer : List Level} {token : Token} {next : Parser} :
      Begins level outer token next → Moves ⟨level, outer, .operand⟩ token next
  | next {level : Level} {outer : List Level} {place : Place} {operand : Regex}
      {token : Token} {next : Parser} :
      place.ended? = some operand → Begins (level.push operand) outer token next →
      Moves ⟨level, outer, place⟩ token next
  | branch {level : Level} {outer : List Level} {place : Place} {operand : Regex}
      {token : Token} :
      place.ended? = some operand → token.kind = .or →
      Moves ⟨level, outer, place⟩ token ⟨level.branch operand, outer, .operand⟩
  | close {level enclosing : Level} {outer : List Level} {place : Place}
      {operand : Regex} {token : Token} :
      place.ended? = some operand → token.kind = .closeParen →
      Moves ⟨level, enclosing :: outer, place⟩ token
        ⟨enclosing, outer, .atom (level.close operand)⟩
  | star {level : Level} {outer : List Level} {place : Place} {operand : Regex}
      {token : Token} :
      place.unstarred? = some operand → token.kind = .star →
      Moves ⟨level, outer, place⟩ token ⟨level, outer, .starred (.star operand)⟩
  | brace {level : Level} {outer : List Level} {body : Regex} {token : Token} :
      token.kind = .openBrace →
      Moves ⟨level, outer, .atom body⟩ token ⟨level, outer, .lowBound body⟩
  | low {level : Level} {outer : List Level} {body : Regex} {token : Token}
      {low : Count} :
      Bound token low →
      Moves ⟨level, outer, .lowBound body⟩ token ⟨level, outer, .afterLow body low⟩
  | exactly {level : Level} {outer : List Level} {body : Regex} {low : Count}
      {token : Token} :
      token.kind = .closeBrace →
      Moves ⟨level, outer, .afterLow body low⟩ token
        ⟨level, outer, .repeated (.exactly body low)⟩
  | comma {level : Level} {outer : List Level} {body : Regex} {low : Count}
      {token : Token} :
      token.kind = .comma →
      Moves ⟨level, outer, .afterLow body low⟩ token ⟨level, outer, .highBound body low⟩
  | atLeast {level : Level} {outer : List Level} {body : Regex} {low : Count}
      {token : Token} :
      token.kind = .closeBrace →
      Moves ⟨level, outer, .highBound body low⟩ token
        ⟨level, outer, .repeated (.atLeast body low)⟩
  | high {level : Level} {outer : List Level} {body : Regex} {low high : Count}
      {token : Token} :
      Bound token high → low ≤ high →
      Moves ⟨level, outer, .highBound body low⟩ token
        ⟨level, outer, .afterHigh body low high⟩
  | between {level : Level} {outer : List Level} {body : Regex} {low high : Count}
      {token : Token} :
      token.kind = .closeBrace →
      Moves ⟨level, outer, .afterHigh body low high⟩ token
        ⟨level, outer, .repeated (.between body low high)⟩

variable {level : Level} {outer : List Level} {place : Place} {operand : Regex}
  {token : Token} {index : Nat} {parser next : Parser}

theorem readCount_eq_ok_iff {count : Count} :
    readCount token index = .ok count ↔ Bound token count := by
  rw [bound_iff, readCount.eq_def]
  split
  · rename_i kind
    split
    · rename_i spelled
      simp [kind, spelled]
    · rename_i misspelled
      simp [misspelled]
  · rename_i other
    simp only [unexpected, reduceCtorEq, false_iff]
    exact fun given => other given.1

theorem beginOperand_eq_ok_iff :
    beginOperand level outer token index = .ok next ↔ Begins level outer token next := by
  constructor
  · intro read
    rw [beginOperand] at read
    split at read
    · rename_i kind
      cases read
      exact .symbol kind
    · rename_i kind
      cases read
      exact .group kind
    · cases read
  · intro begins
    cases begins with
    | symbol kind => simp [beginOperand, kind]
    | group kind => simp [beginOperand, kind]

theorem moves_of_afterOperand (ended : place.ended? = some operand)
    (read : afterOperand level outer operand token index = .ok next) :
    Moves ⟨level, outer, place⟩ token next := by
  rw [afterOperand.eq_def] at read
  split at read
  · exact .next ended (beginOperand_eq_ok_iff.mp read)
  · exact .next ended (beginOperand_eq_ok_iff.mp read)
  · rename_i kind
    cases read
    exact .branch ended kind
  · rename_i kind
    cases read
    exact .close ended kind
  · cases read
  · cases read

theorem moves_of_step (stepped : parser.step token index = .ok next) :
    Moves parser token next := by
  rcases parser with ⟨level, outer, place⟩
  cases place with
  | operand => exact .first (beginOperand_eq_ok_iff.mp stepped)
  | atom tree =>
      rw [step] at stepped
      split at stepped
      · rename_i kind
        cases stepped
        exact .brace kind
      · rename_i kind
        cases stepped
        exact .star rfl kind
      · exact moves_of_afterOperand rfl stepped
  | repeated tree =>
      rw [step] at stepped
      split at stepped
      · rename_i kind
        cases stepped
        exact .star rfl kind
      · exact moves_of_afterOperand rfl stepped
  | starred tree => exact moves_of_afterOperand rfl stepped
  | lowBound body =>
      rcases Except.bind_eq_ok_iff.mp stepped with ⟨low, read, stepped⟩
      cases stepped
      exact .low (readCount_eq_ok_iff.mp read)
  | afterLow body low =>
      rw [step] at stepped
      split at stepped
      · rename_i kind
        cases stepped
        exact .exactly kind
      · rename_i kind
        cases stepped
        exact .comma kind
      · cases stepped
  | highBound body low =>
      rw [step] at stepped
      split at stepped
      · rename_i kind
        cases stepped
        exact .atLeast kind
      · rcases Except.bind_eq_ok_iff.mp stepped with ⟨high, read, stepped⟩
        split at stepped
        · cases stepped
        · rename_i ordered
          cases stepped
          exact .high (readCount_eq_ok_iff.mp read) (UInt32.not_lt.mp ordered)
  | afterHigh body low high =>
      rw [step] at stepped
      split at stepped
      · rename_i kind
        cases stepped
        exact .between kind
      · cases stepped

theorem step_of_ended (ended : place.ended? = some operand)
    (notBrace : token.kind ≠ .openBrace) (notStar : token.kind ≠ .star) :
    step ⟨level, outer, place⟩ token index = afterOperand level outer operand token index := by
  cases place with
  | atom tree =>
      cases ended
      rw [step]
      split
      · rename_i kind
        exact absurd kind notBrace
      · rename_i kind
        exact absurd kind notStar
      · rfl
  | repeated tree =>
      cases ended
      rw [step]
      split
      · rename_i kind
        exact absurd kind notStar
      · rfl
  | starred tree =>
      cases ended
      rfl
  | _ => cases ended

theorem step_of_moves (moves : Moves parser token next) (index : Nat) :
    parser.step token index = .ok next := by
  cases moves with
  | first begins => exact beginOperand_eq_ok_iff.mpr begins
  | next ended begins =>
      cases begins with
      | symbol kind =>
          simp [step_of_ended ended, kind, afterOperand, beginOperand]
      | group kind =>
          simp [step_of_ended ended, kind, afterOperand, beginOperand]
  | branch ended kind => simp [step_of_ended ended, kind, afterOperand]
  | close ended kind => simp [step_of_ended ended, kind, afterOperand]
  | @star _ _ place _ _ unstarred kind =>
      cases place with
      | atom tree =>
          cases unstarred
          simp [step, kind]
      | repeated tree =>
          cases unstarred
          simp [step, kind]
      | _ => cases unstarred
  | brace kind => simp [step, kind]
  | low bound =>
      exact Except.bind_eq_ok_iff.mpr ⟨_, readCount_eq_ok_iff.mpr bound, rfl⟩
  | exactly kind => simp [step, kind]
  | comma kind => simp [step, kind]
  | atLeast kind => simp [step, kind]
  | high bound ordered =>
      rw [step]
      split
      · rename_i kind
        rw [bound.1] at kind
        cases kind
      · refine Except.bind_eq_ok_iff.mpr ⟨_, readCount_eq_ok_iff.mpr bound, ?_⟩
        rw [if_neg (UInt32.not_lt.mpr ordered)]
        rfl
  | between kind => simp [step, kind]

theorem step_eq_ok_iff : parser.step token index = .ok next ↔ Moves parser token next :=
  ⟨moves_of_step, fun moves => step_of_moves moves index⟩

/-! ## Runs -/

theorem finish_eq_ok_iff {tree : Regex} :
    parser.finish = .ok tree ↔
      parser.outer = [] ∧ ∃ operand, parser.place.ended? = some operand ∧
        parser.level.close operand = tree := by
  rcases parser with ⟨level, outer, place⟩
  cases outer with
  | nil => cases place <;> simp [finish, Place.ended?]
  | cons enclosing outer => cases place <;> simp [finish]

inductive Passes : Parser → List Token → Parser → Prop
  | nil {parser : Parser} : Passes parser [] parser
  | cons {parser next last : Parser} {token : Token} {rest : List Token} :
      Moves parser token next → Passes next rest last →
      Passes parser (token :: rest) last

theorem Passes.single (moves : Moves parser token next) : Passes parser [token] next :=
  .cons moves .nil

theorem Passes.append {last : Parser} {tokens more : List Token}
    (passes : Passes parser tokens next) (further : Passes next more last) :
    Passes parser (tokens ++ more) last := by
  induction passes with
  | nil => exact further
  | cons moves _ induction => exact .cons moves (induction further)

theorem run_eq_ok_iff {tokens : List Token} {tree : Regex} :
    parser.run index tokens = .ok tree ↔
      ∃ last, Passes parser tokens last ∧ last.finish = .ok tree := by
  induction tokens generalizing parser index with
  | nil =>
      constructor
      · exact fun finished => ⟨parser, .nil, finished⟩
      · intro given
        rcases given with ⟨last, passes, finished⟩
        cases passes
        exact finished
  | cons token rest induction =>
      rw [run, Except.bind_eq_ok_iff]
      constructor
      · intro given
        rcases given with ⟨next, stepped, read⟩
        rcases induction.mp read with ⟨last, passes, finished⟩
        exact ⟨last, .cons (step_eq_ok_iff.mp stepped) passes, finished⟩
      · intro given
        rcases given with ⟨last, passes, finished⟩
        cases passes with
        | cons moves passes =>
            exact ⟨_, step_eq_ok_iff.mpr moves, induction.mpr ⟨last, passes, finished⟩⟩

theorem run_of_passes {tokens more : List Token} (passes : Passes parser tokens next)
    (index : Nat) :
    parser.run index (tokens ++ more) = next.run (index + tokens.length) more := by
  induction passes generalizing index with
  | nil => rfl
  | @cons _ _ _ token rest moves _ induction =>
      have later : index + (token :: rest).length = index + 1 + rest.length := by
        rw [List.length_cons]
        omega
      rw [List.cons_append, run, step_of_moves moves index, later, ← induction]
      rfl

/-- A reader that fails is stopped by a token, or the tokens end too early. -/
theorem stop_of_run {tokens : List Token} {failure : Error}
    (failed : parser.run index tokens = .error failure) :
    (∃ before token after stopped, tokens = before ++ token :: after ∧
        Passes parser before stopped ∧
        stopped.step token (index + before.length) = .error failure) ∨
      ∃ last, Passes parser tokens last ∧ last.finish = .error failure := by
  induction tokens generalizing parser index with
  | nil => exact .inr ⟨parser, .nil, failed⟩
  | cons token rest induction =>
      rw [run] at failed
      cases stepped : parser.step token index with
      | error other =>
          rw [stepped] at failed
          cases failed
          exact .inl ⟨[], token, rest, parser, rfl, .nil, stepped⟩
      | ok next =>
          rw [stepped] at failed
          have moves := step_eq_ok_iff.mp stepped
          rcases induction failed with
            ⟨before, other, after, stopped, rfl, passes, refused⟩ | ⟨last, passes, ended⟩
          · refine .inl ⟨token :: before, other, after, stopped, rfl, .cons moves passes, ?_⟩
            rwa [List.length_cons, Nat.add_comm before.length, ← Nat.add_assoc]
          · exact .inr ⟨last, .cons moves passes, ended⟩

end Parser

end WordAutomata
