import Mathlib.Control.Monad.Basic
import WordAutomata.Proofs.Regex.Grammar

namespace WordAutomata

/-! Where the reader of tokens stops. Whatever it has taken in can be continued to an
expression, so that the token it is stopped by is the first one with which nothing can be
continued, and where the tokens end too early an expression begins with all of them. -/

open Grammar

/-- Whether an expression begins with some tokens. -/
def Regex.Viable (tokens : List Token) : Prop :=
  ∃ more tree, Regex.ofTokens (tokens ++ more) = .ok tree

/-! ## Completion

From every place an operand can be brought to an end, and where an operand ends all open
groups can be closed. So every state can be brought to an end, and what has been read
begins an expression. -/

namespace Parser

variable {parser next : Parser} {token : Token} {tokens before after : List Token}

theorem exists_ended (level : Level) (outer : List Level) (place : Place) :
    ∃ tokens ended operand, ended.ended? = some operand ∧
      Passes ⟨level, outer, place⟩ tokens ⟨level, outer, ended⟩ := by
  have closing : (Token.mk .closeBrace "\x7d").kind = .closeBrace := rfl
  cases place with
  | operand =>
      have symbol : (Token.mk .literal epsilon).kind = .literal := rfl
      exact ⟨_, _, _, rfl, .single (.first (.symbol symbol))⟩
  | atom | repeated | starred => exact ⟨[], _, _, rfl, .nil⟩
  | lowBound body =>
      have zero : Bound ⟨.count, Count.digits 0⟩ 0 :=
        bound_iff.mpr ⟨rfl, Count.ofText?_digits 0⟩
      exact ⟨_, _, _, rfl, .cons (.low zero) (.single (.exactly closing))⟩
  | afterLow body low => exact ⟨_, _, _, rfl, .single (.exactly closing)⟩
  | highBound body low => exact ⟨_, _, _, rfl, .single (.atLeast closing)⟩
  | afterHigh body low high => exact ⟨_, _, _, rfl, .single (.between closing)⟩

theorem exists_finish (level : Level) (outer : List Level) {place : Place}
    {operand : Regex} (ended : place.ended? = some operand) :
    ∃ tokens last tree, Passes ⟨level, outer, place⟩ tokens last ∧
      last.finish = .ok tree := by
  induction outer generalizing level place operand with
  | nil => exact ⟨[], _, _, .nil, finish_eq_ok_iff.mpr ⟨rfl, operand, ended, rfl⟩⟩
  | cons enclosing outer induction =>
      have closing : (Token.mk .closeParen ")").kind = .closeParen := rfl
      have closed : (Place.atom (level.close operand)).ended? = some _ := rfl
      rcases induction enclosing closed with ⟨tokens, last, tree, passes, finished⟩
      exact ⟨_ :: tokens, last, tree, .cons (.close ended closing) passes, finished⟩

theorem exists_completion (parser : Parser) :
    ∃ tokens last tree, Passes parser tokens last ∧ last.finish = .ok tree := by
  rcases parser with ⟨level, outer, place⟩
  rcases exists_ended level outer place with ⟨tokens, place, operand, ended, passes⟩
  rcases exists_finish level outer ended with ⟨more, last, tree, further, finished⟩
  exact ⟨tokens ++ more, last, tree, passes.append further, finished⟩

theorem viable_of_passes (passes : Passes start tokens parser) : Regex.Viable tokens := by
  rcases parser.exists_completion with ⟨more, last, tree, further, finished⟩
  exact ⟨more, tree, run_eq_ok_iff.mpr ⟨last, passes.append further, finished⟩⟩

/-- No expression goes on with a token that is refused. -/
theorem not_viable_of_step {index : Nat} {failure : Error}
    (passes : Passes start before parser)
    (refused : parser.step token index = .error failure) :
    ¬ Regex.Viable (before ++ [token]) := by
  intro viable
  rcases viable with ⟨more, tree, read⟩
  rw [List.append_assoc, Regex.ofTokens, run_of_passes passes] at read
  rcases Except.bind_eq_ok_iff.mp read with ⟨next, stepped, _⟩
  cases (step_of_moves (moves_of_step stepped) index).symm.trans refused

end Parser

/-! ## Reports -/

/-- Whether some tokens end where a repetition has a count: after its brace, or after the
comma behind the first count. -/
inductive AwaitsCount : List Token → Prop
  | first {before : List Token} {opening : Token} :
      opening.kind = .openBrace → AwaitsCount (before ++ [opening])
  | second {before : List Token} {opening first comma : Token} {low : Count} :
      opening.kind = .openBrace → Bound first low → comma.kind = .comma →
      AwaitsCount (before ++ [opening, first, comma])

theorem Parser.Reads.awaitsCount {level : Level} {outer : List Level} {place : Place}
    {tokens : List Token} (reads : Parser.Reads ⟨level, outer, place⟩ tokens)
    (awaits : place.AwaitsCount) : AwaitsCount tokens := by
  cases reads with
  | mk _ _ placeReads split =>
    subst split
    cases placeReads with
    | lowBound _ opening =>
        rw [← List.append_assoc]
        exact .first opening
    | highBound _ opening low comma =>
        rw [← List.append_assoc]
        exact .second opening low comma
    | _ => exact absurd awaits id

/-- What a report says about the tokens: the first one with which no expression goes on,
or that an expression goes on after all of them. -/
inductive GrammarFault.Blames : List Token → GrammarFault → Prop
  | unexpected {expected : Expected} {before after : List Token} {found : Token} :
      Regex.Viable before → ¬ Regex.Viable (before ++ [found]) →
      Blames (before ++ found :: after) (.unexpected expected found before.length)
  | leftover {before after : List Token} {found : Token} :
      Regex.Viable before → ¬ Regex.Viable (before ++ [found]) →
      Blames (before ++ found :: after) (.leftover found before.length)
  | incomplete {expected : Expected} {tokens more : List Token} {tree : Regex} :
      more ≠ [] → Regex.ofTokens (tokens ++ more) = .ok tree →
      Blames tokens (.incomplete expected)
  | invalidCount {before after : List Token} {count : Token} :
      AwaitsCount before → count.kind = .count → (¬ ∃ value, Bound count value) →
      Regex.Viable before → ¬ Regex.Viable (before ++ [count]) →
      Blames (before ++ count :: after) (.invalidCount count.content)
  | reversedBounds {before after : List Token} {opening first comma second : Token}
      {low high : Count} :
      opening.kind = .openBrace → Bound first low → comma.kind = .comma →
      Bound second high → high < low →
      Regex.Viable (before ++ [opening, first, comma]) →
      ¬ Regex.Viable (before ++ [opening, first, comma] ++ [second]) →
      Blames (before ++ [opening, first, comma] ++ second :: after)
        (.reversedBounds low high)

/-- A list of tokens that is not an expression is refused at the first token with which no
expression goes on, and a report of its end means that one goes on after it. -/
theorem Regex.blames_of_ofTokens {tokens : List Token} {failure : Error}
    (failed : ofTokens tokens = .error failure) :
    ∃ fault, failure = .grammar fault ∧ fault.Blames tokens := by
  rcases Parser.stop_of_run failed with
    ⟨before, token, after, stopped, rfl, passes, refused⟩ | ⟨last, passes, ended⟩
  · rw [Nat.zero_add] at refused
    have viable := Parser.viable_of_passes passes
    have notViable := Parser.not_viable_of_step passes refused
    have reads := Parser.reads_start.passes passes
    rcases Parser.refuses_of_step refused with ⟨fault, rfl, refuses⟩
    refine ⟨fault, rfl, ?_⟩
    rw [List.nil_append] at reads
    cases refuses with
    | operand | closeParen | count | comma | closeBrace => exact .unexpected viable notViable
    | leftover => exact .leftover viable notViable
    | invalidCount awaits kind unbounded =>
        exact .invalidCount (reads.awaitsCount awaits) kind unbounded viable notViable
    | reversedBounds high reversed =>
        cases reads with
        | mk _ _ placeReads split =>
          subst split
          cases placeReads with
          | highBound _ opening low comma =>
              rw [← List.append_assoc] at viable notViable ⊢
              exact .reversedBounds opening low comma high reversed viable notViable
  · rcases Parser.incomplete_of_finish ended with ⟨expected, rfl⟩
    refine ⟨_, rfl, ?_⟩
    rcases Parser.viable_of_passes passes with ⟨more, tree, read⟩
    refine .incomplete ?_ read
    intro nothing
    rw [nothing, List.append_nil] at read
    cases read.symm.trans failed

/-- Within an open group, a second bound is too small, and a group is closed before it. -/
theorem Regex.blames_of_ofTokens_of_open_group :
    let before : List Token := [⟨.openParen, "("⟩, ⟨.literal, "a"⟩, ⟨.openBrace, "\x7b"⟩,
      ⟨.count, "+03"⟩, ⟨.comma, ","⟩]
    let small : Token := ⟨.count, "1"⟩
    let closing : Token := ⟨.closeParen, ")"⟩
    let reversed : GrammarFault := .reversedBounds 3 1
    let unexpected : GrammarFault := .unexpected .count closing 5
    ofTokens (before ++ [small, closing]) = .error (.grammar reversed) ∧
      reversed.Blames (before ++ [small, closing]) ∧
      ofTokens (before ++ [closing, small]) = .error (.grammar unexpected) ∧
      unexpected.Blames (before ++ [closing, small]) := by
  intro before small closing reversed unexpected
  have first : ofTokens (before ++ [small, closing]) = .error (.grammar reversed) := by
    decide +kernel
  have second : ofTokens (before ++ [closing, small]) = .error (.grammar unexpected) := by
    decide +kernel
  rcases blames_of_ofTokens first with ⟨_, same, blames⟩
  rcases blames_of_ofTokens second with ⟨_, otherSame, otherBlames⟩
  cases same
  cases otherSame
  exact ⟨first, blames, second, otherBlames⟩

end WordAutomata
