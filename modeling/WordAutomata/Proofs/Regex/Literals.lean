import WordAutomata.Proofs.Regex.Steps
import WordAutomata.Proofs.Token.Scanning
import WordAutomata.Regex.Language

namespace WordAutomata

/-! Every literal of an expression that is read from a text is a member of the
alphabet. -/

namespace Regex

def Over (allowed : String → Prop) : Regex → Prop
  | literal symbol => allowed symbol
  | seq left right | or left right => left.Over allowed ∧ right.Over allowed
  | star body | exactly body _ | between body _ _ | atLeast body _ => body.Over allowed

theorem Over.of_mem_symbols {allowed : String → Prop} {expression : Regex}
    (holds : expression.Over allowed) {symbol : String}
    (member : symbol ∈ expression.symbols) :
    allowed symbol ∧ symbol ≠ epsilon := by
  induction expression with
  | literal other =>
      rw [symbols] at member
      split at member
      · exact absurd member (OrderedSet.not_mem_empty symbol)
      · rename_i different
        rw [OrderedSet.mem_singleton.mp member]
        exact ⟨holds, different⟩
  | seq _ _ left right =>
      rcases mem_symbols_seq.mp member with member | member
      · exact left holds.1 member
      · exact right holds.2 member
  | or _ _ left right =>
      rcases mem_symbols_or.mp member with member | member
      · exact left holds.1 member
      · exact right holds.2 member
  | star _ body | atLeast _ _ body => exact body holds member
  | exactly _ _ body | between _ _ _ body =>
      rw [symbols] at member
      split at member
      · exact absurd member (OrderedSet.not_mem_empty symbol)
      · exact body holds member

end Regex

/-! ## Reading tokens

As long as the tokens have allowed literals, the reader has no others in its state. -/

section

variable {allowed : String → Prop}

structure Level.Over (allowed : String → Prop) (level : Level) : Prop where
  alternatives : ∀ tree ∈ level.alternatives, tree.Over allowed
  sequence : ∀ tree ∈ level.sequence?, tree.Over allowed

def Place.Over (allowed : String → Prop) : Place → Prop
  | operand => True
  | atom tree | repeated tree | starred tree | lowBound tree | afterLow tree _
  | highBound tree _ | afterHigh tree _ _ => tree.Over allowed

structure Parser.Over (allowed : String → Prop) (parser : Parser) : Prop where
  level : parser.level.Over allowed
  outer : ∀ level ∈ parser.outer, level.Over allowed
  place : parser.place.Over allowed

theorem Place.Over.of_ended? {place : Place} {tree : Regex} (holds : place.Over allowed)
    (ended : place.ended? = some tree) : tree.Over allowed := by
  cases place with
  | atom other =>
      cases ended
      exact holds
  | repeated other =>
      cases ended
      exact holds
  | starred other =>
      cases ended
      exact holds
  | _ => cases ended

def Token.Over (allowed : String → Prop) (token : Token) : Prop :=
  token.kind = .literal → allowed token.content

namespace Level.Over

variable {level : Level} {operand : Regex}

theorem start : Level.start.Over allowed where
  alternatives := fun _ member => absurd member List.not_mem_nil
  sequence := fun _ equal => by cases equal

variable (holds : level.Over allowed) (operandOver : operand.Over allowed)
include holds operandOver

theorem extend : (level.extend operand).Over allowed := by
  rw [Level.extend]
  split
  · exact operandOver
  · rename_i sequence found
    exact ⟨holds.sequence sequence found, operandOver⟩

theorem push : (level.push operand).Over allowed where
  alternatives := holds.alternatives
  sequence := by
    intro tree equal
    cases equal
    exact holds.extend operandOver

theorem branch : (level.branch operand).Over allowed where
  alternatives :=
    List.forall_mem_cons.mpr ⟨holds.extend operandOver, holds.alternatives⟩
  sequence := fun _ equal => by cases equal

theorem close : (level.close operand).Over allowed := by
  have folded (alternatives : List Regex)
      (all : ∀ tree ∈ alternatives, tree.Over allowed) :
      ∀ last : Regex, last.Over allowed →
        (alternatives.foldl (fun right left => .or left right) last).Over allowed := by
    induction alternatives with
    | nil => exact fun _ lastOver => lastOver
    | cons head tail induction =>
        intro last lastOver
        rcases List.forall_mem_cons.mp all with ⟨headOver, tailOver⟩
        exact induction tailOver _ ⟨headOver, lastOver⟩
  exact folded level.alternatives holds.alternatives _ (holds.extend operandOver)

end Level.Over

namespace Parser

variable {level : Level} {outer : List Level} {token : Token}
  {parser next : Parser}

theorem over_start : start.Over allowed where
  level := .start
  outer := fun _ member => absurd member List.not_mem_nil
  place := trivial

theorem over_of_begins (levelOver : level.Over allowed)
    (outerOver : ∀ level ∈ outer, level.Over allowed) (tokenOver : token.Over allowed)
    (begins : Begins level outer token next) : next.Over allowed := by
  cases begins with
  | symbol kind => exact ⟨levelOver, outerOver, tokenOver kind⟩
  | group kind =>
      exact ⟨.start, List.forall_mem_cons.mpr ⟨levelOver, outerOver⟩, trivial⟩

theorem over_of_moves (holds : parser.Over allowed) (tokenOver : token.Over allowed)
    (moves : Moves parser token next) : next.Over allowed := by
  rcases holds with ⟨levelOver, outerOver, placeOver⟩
  cases moves with
  | first begins => exact over_of_begins levelOver outerOver tokenOver begins
  | next ended begins =>
      exact over_of_begins (levelOver.push (placeOver.of_ended? ended)) outerOver tokenOver
        begins
  | branch ended kind =>
      exact ⟨levelOver.branch (placeOver.of_ended? ended), outerOver, trivial⟩
  | close ended kind =>
      rcases List.forall_mem_cons.mp outerOver with ⟨enclosingOver, outerOver⟩
      exact ⟨enclosingOver, outerOver, levelOver.close (placeOver.of_ended? ended)⟩
  | star unstarred kind =>
      have bodyOver := placeOver.of_ended? (Place.ended?_of_unstarred? unstarred)
      exact ⟨levelOver, outerOver, bodyOver⟩
  | brace kind => exact ⟨levelOver, outerOver, placeOver⟩
  | low bound => exact ⟨levelOver, outerOver, placeOver⟩
  | exactly kind => exact ⟨levelOver, outerOver, placeOver⟩
  | comma kind => exact ⟨levelOver, outerOver, placeOver⟩
  | atLeast kind => exact ⟨levelOver, outerOver, placeOver⟩
  | high bound ordered => exact ⟨levelOver, outerOver, placeOver⟩
  | between kind => exact ⟨levelOver, outerOver, placeOver⟩

theorem over_of_passes {tokens : List Token} (holds : parser.Over allowed)
    (tokensOver : ∀ token ∈ tokens, token.Over allowed)
    (passes : Passes parser tokens next) : next.Over allowed := by
  induction passes with
  | nil => exact holds
  | cons moves _ induction =>
      rcases List.forall_mem_cons.mp tokensOver with ⟨tokenOver, restOver⟩
      exact induction (over_of_moves holds tokenOver moves) restOver

theorem over_of_run {index : Nat} {tree : Regex} {tokens : List Token}
    (holds : parser.Over allowed) (tokensOver : ∀ token ∈ tokens, token.Over allowed)
    (read : parser.run index tokens = .ok tree) : tree.Over allowed := by
  rcases run_eq_ok_iff.mp read with ⟨last, passes, finished⟩
  rcases finish_eq_ok_iff.mp finished with ⟨_, operand, ended, rfl⟩
  have lastOver := over_of_passes holds tokensOver passes
  exact lastOver.level.close (lastOver.place.of_ended? ended)

end Parser

end

/-! ## Reading characters -/

namespace BoundsReading

variable {position : Nat} {text : List Char} {reading : BoundsReading}

theorem kind_ne_literal (read : ofText position text = .ok reading) :
    ∀ token ∈ reading.tokens, token.kind ≠ .literal := by
  cases spells_of_ofText read with
  | exactly | atLeast | between => simp

end BoundsReading

namespace Alphabet

variable {alphabet : Alphabet}

theorem over_of_mem_scanFrom (alphabet : Alphabet) (position : Nat) (text : List Char) :
    ∀ token ∈ (alphabet.scanFrom position text).tokens, token.Over (· ∈ alphabet) := by
  fun_induction scanFrom alphabet position text with
  | case1 => simp
  | case2 position c rest symbol found induction =>
      rw [Scan.after]
      refine List.forall_mem_cons.mpr ⟨fun _ => ?_, induction⟩
      exact (longest?_eq_some_iff.mp found).mem
  | case3 => simp
  | case4 => simp
  | case5 position c rest stuck operator bounds read consumed induction =>
      intro token member
      rw [Scan.after, List.cons_append, List.mem_cons, List.mem_append] at member
      rcases member with rfl | member | member
      · exact fun literal => by cases literal
      · exact fun literal =>
          absurd literal (BoundsReading.kind_ne_literal read token member)
      · exact induction token member
  | case6 position c rest stuck kind _ operator induction =>
      rw [Scan.after]
      refine List.forall_mem_cons.mpr ⟨?_, induction⟩
      intro equal
      subst equal
      exact absurd operator (Token.Kind.ofOperator?_ne_literal c)

theorem over_of_tokenize {text : String} {tokens : List Token}
    (read : alphabet.tokenize text = .ok tokens) :
    ∀ token ∈ tokens, token.Over (· ∈ alphabet) := by
  have holds := alphabet.over_of_mem_scanFrom 0 text.toList
  rwa [tokenize_eq_ok_iff.mp read] at holds

/-- Every literal of an expression that is read over an alphabet is a member of it. -/
theorem over_of_ofText {text : String} {tree : Regex}
    (read : Regex.ofText alphabet text = .ok tree) : tree.Over (· ∈ alphabet) := by
  rw [Regex.ofText] at read
  cases tokenized : alphabet.tokenize text with
  | error failure =>
      rw [tokenized] at read
      cases read
  | ok tokens =>
      rw [tokenized] at read
      exact Parser.over_of_run Parser.over_start (over_of_tokenize tokenized) read

theorem mem_symbols_of_ofText {text : String} {tree : Regex} {symbol : String}
    (read : Regex.ofText alphabet text = .ok tree) (member : symbol ∈ tree.symbols) :
    symbol ∈ alphabet.symbols :=
  mem_symbols.mpr ((over_of_ofText read).of_mem_symbols member)

end Alphabet

end WordAutomata
