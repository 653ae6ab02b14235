import Mathlib.Logic.ExistsUnique
import WordAutomata.Proofs.Regex.Refusals
import WordAutomata.Proofs.Regex.Soundness

namespace WordAutomata

/-! The reader of tokens follows every derivation of the grammar. One token is always
enough to tell how the derivation goes on, so no derivation is missed, and no list of
tokens has two trees. -/

open Grammar

namespace Parser

variable {tokens bounds left right : List Token} {tree first second body : Regex}
  {opening closing operator : Token} {wrap : Regex → Regex}

/-- Whether the reader, where a part of an expression may begin, takes in the tokens
of the part and has its tree in the end. What has been read before is arbitrary: the
groups around, and what it takes to begin the part within the innermost one. -/
def Follows : Category → List Token → Regex → Prop
  | .atom, tokens, tree => ∀ level outer,
      Passes ⟨level, outer, .operand⟩ tokens ⟨level, outer, .atom tree⟩
  | .repeated, tokens, tree => ∀ level outer, ∃ place,
      place.unstarred? = some tree ∧
        Passes ⟨level, outer, .operand⟩ tokens ⟨level, outer, place⟩
  | .operand, tokens, tree => ∀ level outer, ∃ place,
      place.ended? = some tree ∧
        Passes ⟨level, outer, .operand⟩ tokens ⟨level, outer, place⟩
  | .alternative, tokens, tree => ∀ alternatives outer, ∃ level place operand,
      level.alternatives = alternatives ∧ level.extend operand = tree ∧
        place.ended? = some operand ∧
        Passes ⟨⟨alternatives, none⟩, outer, .operand⟩ tokens ⟨level, outer, place⟩
  | .expression, tokens, tree => ∀ alternatives outer, ∃ level place operand,
      level.close operand = Level.close ⟨alternatives, none⟩ tree ∧
        place.ended? = some operand ∧
        Passes ⟨⟨alternatives, none⟩, outer, .operand⟩ tokens ⟨level, outer, place⟩

/-! ## Operands -/

theorem follows_symbol {token : Token} (kind : token.kind = .literal) :
    Follows .atom [token] (.literal token.content) :=
  fun _ _ => .single (.first (.symbol kind))

theorem follows_group (openParen : opening.kind = .openParen)
    (inside : Follows .expression tokens tree) (closeParen : closing.kind = .closeParen) :
    Follows .atom (opening :: (tokens ++ [closing])) tree := by
  intro level outer
  rcases inside [] (level :: outer) with ⟨inner, place, operand, closed, ended, passes⟩
  have moves : Moves ⟨inner, level :: outer, place⟩ closing ⟨level, outer, .atom tree⟩ := by
    have closes : inner.close operand = tree := closed
    rw [← closes]
    exact .close ended closeParen
  exact .cons (.first (.group openParen)) (passes.append (.single moves))

theorem passes_of_repetition {level : Level} {outer : List Level}
    (repetition : Repetition bounds wrap) (body : Regex) :
    Passes ⟨level, outer, .atom body⟩ bounds ⟨level, outer, .repeated (wrap body)⟩ := by
  cases repetition with
  | exactly opening bound closing =>
      exact .cons (.brace opening) (.cons (.low bound) (.single (.exactly closing)))
  | atLeast opening bound comma closing =>
      exact .cons (.brace opening) (.cons (.low bound) (.cons (.comma comma)
        (.single (.atLeast closing))))
  | between opening low comma high ordered closing =>
      exact .cons (.brace opening) (.cons (.low low) (.cons (.comma comma)
        (.cons (.high high ordered) (.single (.between closing)))))

theorem follows_unrepeated (atom : Follows .atom tokens tree) :
    Follows .repeated tokens tree :=
  fun level outer => ⟨.atom tree, rfl, atom level outer⟩

theorem follows_repeated (atom : Follows .atom tokens body)
    (repetition : Repetition bounds wrap) :
    Follows .repeated (tokens ++ bounds) (wrap body) := by
  intro level outer
  exact ⟨.repeated (wrap body), rfl,
    (atom level outer).append (passes_of_repetition repetition body)⟩

theorem follows_unstarred (repeated : Follows .repeated tokens tree) :
    Follows .operand tokens tree := by
  intro level outer
  rcases repeated level outer with ⟨place, unstarred, passes⟩
  exact ⟨place, Place.ended?_of_unstarred? unstarred, passes⟩

theorem follows_starred (repeated : Follows .repeated tokens body)
    (star : operator.kind = .star) :
    Follows .operand (tokens ++ [operator]) (.star body) := by
  intro level outer
  rcases repeated level outer with ⟨place, unstarred, passes⟩
  exact ⟨.starred (.star body), rfl, passes.append (.single (.star unstarred star))⟩

/-! ## Sequences and alternatives -/

theorem Passes.after_operand {level : Level} {outer : List Level} {place : Place}
    {operand : Regex} {last : Parser} (ended : place.ended? = some operand)
    (passes : Passes ⟨level.push operand, outer, .operand⟩ tokens last)
    (lastEnded : last.place.ended? = some tree) :
    Passes ⟨level, outer, place⟩ tokens last := by
  cases passes with
  | nil => cases lastEnded
  | cons moves further =>
      -- The first token begins an operand, which is what ends the one before.
      cases moves with
      | first begins => exact .cons (.next ended begins) further
      | next impossible => cases impossible
      | branch impossible => cases impossible
      | close impossible => cases impossible
      | star impossible => cases impossible

theorem follows_single (operand : Follows .operand tokens tree) :
    Follows .alternative tokens tree := by
  intro alternatives outer
  rcases operand ⟨alternatives, none⟩ outer with ⟨place, ended, passes⟩
  exact ⟨⟨alternatives, none⟩, place, tree, rfl, rfl, ended, passes⟩

theorem follows_append (alternative : Follows .alternative left first)
    (operand : Follows .operand right second) :
    Follows .alternative (left ++ right) (.seq first second) := by
  intro alternatives outer
  rcases alternative alternatives outer with
    ⟨level, place, last, same, extended, ended, passes⟩
  rcases operand (level.push last) outer with ⟨nextPlace, nextEnded, further⟩
  refine ⟨level.push last, nextPlace, second, same, ?_, nextEnded,
    passes.append (further.after_operand ended nextEnded)⟩
  rw [← extended]
  rfl

theorem follows_last (alternative : Follows .alternative tokens tree) :
    Follows .expression tokens tree := by
  intro alternatives outer
  rcases alternative alternatives outer with
    ⟨level, place, operand, same, extended, ended, passes⟩
  refine ⟨level, place, operand, ?_, ended, passes⟩
  rw [Level.close, same, extended]
  rfl

theorem follows_branch (alternative : Follows .alternative left first)
    (or : operator.kind = .or) (expression : Follows .expression right second) :
    Follows .expression (left ++ operator :: right) (.or first second) := by
  intro alternatives outer
  rcases alternative alternatives outer with
    ⟨level, place, operand, same, extended, ended, passes⟩
  have moves : Moves ⟨level, outer, place⟩ operator
      ⟨⟨first :: alternatives, none⟩, outer, .operand⟩ := by
    rw [← extended, ← same]
    exact .branch ended or
  rcases expression (first :: alternatives) outer with
    ⟨lastLevel, lastPlace, lastOperand, closed, lastEnded, further⟩
  exact ⟨lastLevel, lastPlace, lastOperand, closed, lastEnded,
    passes.append (.cons moves further)⟩

/-- The reader follows every derivation. -/
theorem follows_of_derives {category : Category} (derives : Derives category tokens tree) :
    Follows category tokens tree := by
  induction derives with
  | last _ induction => exact follows_last induction
  | branch _ or _ left right => exact follows_branch left or right
  | single _ induction => exact follows_single induction
  | append _ _ left right => exact follows_append left right
  | unstarred _ induction => exact follows_unstarred induction
  | starred _ star induction => exact follows_starred induction star
  | unrepeated _ induction => exact follows_unrepeated induction
  | repeated _ repetition induction => exact follows_repeated induction repetition
  | symbol kind => exact follows_symbol kind
  | group opening _ closing induction => exact follows_group opening induction closing

end Parser

/-! ## Expressions -/

namespace Regex

variable {tokens : List Token} {tree : Regex}

theorem derives_of_ofTokens (read : ofTokens tokens = .ok tree) :
    Derives .expression tokens tree := by
  rcases Parser.run_eq_ok_iff.mp read with ⟨last, passes, finished⟩
  exact (Parser.reads_start.passes passes).finish finished

theorem ofTokens_of_derives (derives : Derives .expression tokens tree) :
    ofTokens tokens = .ok tree := by
  rcases Parser.follows_of_derives derives [] [] with
    ⟨level, place, operand, closed, ended, passes⟩
  exact Parser.run_eq_ok_iff.mpr
    ⟨_, passes, Parser.finish_eq_ok_iff.mpr ⟨rfl, operand, ended, closed⟩⟩

/-- A list of tokens is read as a tree if and only if the grammar gives it that tree.
There is one such tree at most, and without one there is a report. -/
theorem ofTokens_eq_ok_iff_derives (tokens : List Token) :
    (∀ tree, ofTokens tokens = .ok tree ↔ Derives .expression tokens tree) ∧
      ((∃ tree, Derives .expression tokens tree) →
        ∃! tree, Derives .expression tokens tree) ∧
      ((¬ ∃ tree, Derives .expression tokens tree) →
        ∃ fault, ofTokens tokens = .error (.grammar fault)) := by
  refine ⟨fun tree => ⟨derives_of_ofTokens, ofTokens_of_derives⟩, ?unique, ?report⟩
  case unique =>
    intro given
    rcases given with ⟨tree, derives⟩
    refine ⟨tree, derives, fun other otherDerives => ?_⟩
    have same := (ofTokens_of_derives otherDerives).symm.trans (ofTokens_of_derives derives)
    exact Except.ok.inj same
  case report =>
    intro absent
    have grammatical := Parser.grammatical_run Parser.start 0 tokens
    rw [← ofTokens] at grammatical
    cases outcome : ofTokens tokens with
    | ok tree => exact absurd ⟨tree, derives_of_ofTokens outcome⟩ absent
    | error failure =>
        rw [outcome] at grammatical
        cases grammatical with
        | fault fault => exact ⟨fault, rfl⟩

end Regex

end WordAutomata
