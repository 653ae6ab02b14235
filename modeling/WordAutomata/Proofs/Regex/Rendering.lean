import WordAutomata.Proofs.Regex.Grammar
import WordAutomata.Proofs.Regex.Literals
import WordAutomata.Proofs.Segmentation
import WordAutomata.Regex.Render

namespace WordAutomata

/-! Writing an expression out and reading it. Where no symbol holds an operator
character, a symbol ends where the written form has it end, so the tokens are those
that were meant, and the grammar gives them the tree that was written. -/

open Grammar

/-! ## Trees -/

namespace Regex

theorem over_iff {allowed : String → Prop} {expression : Regex} :
    expression.Over allowed ↔ ∀ symbol ∈ expression.literals, allowed symbol := by
  induction expression with
  | literal symbol => simp [Over, literals]
  | seq _ _ left right | or _ _ left right =>
      rw [Over, literals, left, right, List.forall_mem_append]
  | star _ body | exactly _ _ body | between _ _ _ body | atLeast _ _ body => exact body

theorem ordered_of_derives {category : Category} {tokens : List Token} {tree : Regex}
    (derives : Derives category tokens tree) : tree.Ordered := by
  induction derives with
  | last _ induction | single _ induction | unstarred _ induction
  | unrepeated _ induction | starred _ _ induction | group _ _ _ induction =>
      exact induction
  | branch _ _ _ left right | append _ _ left right => exact ⟨left, right⟩
  | symbol _ => trivial
  | repeated _ repetition induction =>
      cases repetition with
      | exactly | atLeast => exact induction
      | between _ _ _ _ ordered _ => exact ⟨induction, ordered⟩

/-! ## Tokens of the written form -/

def grouped (inside : List Token) : List Token :=
  ⟨.openParen, "("⟩ :: (inside ++ [⟨.closeParen, ")"⟩])

def bound (count : Count) : Token := ⟨.count, count.digits⟩

def braced (bounds : List Token) : List Token :=
  ⟨.openBrace, "\x7b"⟩ :: (bounds ++ [⟨.closeBrace, "\x7d"⟩])

def tokens : Regex → List Token
  | literal symbol => [⟨.literal, symbol⟩]
  | seq left right => grouped left.tokens ++ grouped right.tokens
  | or left right => grouped left.tokens ++ ⟨.or, "+"⟩ :: grouped right.tokens
  | star body => grouped body.tokens ++ [⟨.star, "*"⟩]
  | exactly body count => grouped body.tokens ++ braced [bound count]
  | between body low high =>
      grouped body.tokens ++ braced [bound low, ⟨.comma, ","⟩, bound high]
  | atLeast body low => grouped body.tokens ++ braced [bound low, ⟨.comma, ","⟩]

theorem bound_bound (count : Count) : Bound (bound count) count :=
  bound_iff.mpr ⟨rfl, Count.ofText?_digits count⟩

section

variable {category : Category} {inside bounds : List Token} {tree body : Regex}
  {wrap : Regex → Regex}

theorem derives_grouped (derives : Derives .expression inside tree) :
    Derives .repeated (grouped inside) tree :=
  .unrepeated (.group rfl derives rfl)

theorem derives_grouped_repeated (derives : Derives .expression inside body)
    (repetition : Repetition bounds wrap) :
    Derives .expression (grouped inside ++ bounds) (wrap body) :=
  .last (.single (.unstarred (.repeated (.group rfl derives rfl) repetition)))

end

theorem derives_tokens {expression : Regex} (ordered : expression.Ordered) :
    Derives .expression expression.tokens expression := by
  induction expression with
  | literal symbol =>
      exact .last (.single (.unstarred (.unrepeated (.symbol rfl))))
  | seq _ _ left right =>
      have first := derives_grouped (left ordered.1)
      have second := derives_grouped (right ordered.2)
      exact .last (.append (.single (.unstarred first)) (.unstarred second))
  | or _ _ left right =>
      have first := derives_grouped (left ordered.1)
      have second := derives_grouped (right ordered.2)
      exact .branch (.single (.unstarred first)) rfl
        (.last (.single (.unstarred second)))
  | star _ body =>
      exact .last (.single (.starred (derives_grouped (body ordered)) rfl))
  | exactly _ count body =>
      exact derives_grouped_repeated (body ordered)
        (.exactly rfl (bound_bound count) rfl)
  | between _ low high body =>
      exact derives_grouped_repeated (body ordered.1)
        (.between rfl (bound_bound low) rfl (bound_bound high) ordered.2 rfl)
  | atLeast _ low body =>
      exact derives_grouped_repeated (body ordered)
        (.atLeast rfl (bound_bound low) rfl rfl)

end Regex

/-! ## Written bounds -/

namespace BoundsReading.Spells

@[simp] theorem ofList_digits (count : Count) :
    Token.mk .count (String.ofList count.digits.toList) = Regex.bound count := by
  simp [Regex.bound]

theorem exactly_digits (count : Count) :
    Spells (count.digits.toList ++ ['}'])
      ⟨[Regex.bound count, ⟨.closeBrace, "\x7d"⟩], []⟩ := by
  rw [← ofList_digits]
  exact .exactly (Count.ofDigits?_digits count)

theorem atLeast_digits (low : Count) :
    Spells (low.digits.toList ++ [',', '}'])
      ⟨[Regex.bound low, ⟨.comma, ","⟩, ⟨.closeBrace, "\x7d"⟩], []⟩ := by
  rw [← ofList_digits]
  exact .atLeast (Count.ofDigits?_digits low)

theorem between_digits {low high : Count} (ordered : low ≤ high) :
    Spells (low.digits.toList ++ ',' :: (high.digits.toList ++ ['}']))
      ⟨[Regex.bound low, ⟨.comma, ","⟩, Regex.bound high, ⟨.closeBrace, "\x7d"⟩], []⟩ := by
  rw [← ofList_digits, ← ofList_digits]
  exact .between (Count.ofDigits?_digits low) (Count.ofDigits?_digits high) ordered

end BoundsReading.Spells

/-! ## Scanning expressions -/

namespace Alphabet

/-- Whether no symbol holds an operator character. -/
def Plain (alphabet : Alphabet) : Prop :=
  ∀ symbol ∈ alphabet, ∀ c ∈ symbol.toList, c ∉ Token.operators

def Ends (text : List Char) : Prop := ∀ c ∈ text.head?, c ∈ Token.operators

variable {alphabet : Alphabet} {text rest : List Char} {tokens bounds : List Token}
  {symbol : String} {c : Char}

namespace Plain

variable (plain : alphabet.Plain)
include plain

/-- A symbol is the longest one where it stands before an operator. -/
theorem longest (member : symbol ∈ alphabet) (ends : Ends rest) :
    alphabet.Longest (symbol.toList ++ rest) symbol where
  mem := member
  starts := List.prefix_append ..
  longest := by
    intro other otherMember starts
    rcases starts with ⟨tail, equal⟩
    rcases List.append_eq_append_iff.mp equal with
      ⟨missing, split, _⟩ | ⟨beyond, split, further⟩
    · rw [← String.length_toList, ← String.length_toList, split, List.length_append]
      exact Nat.le_add_right _ _
    · cases beyond with
      | nil =>
          rw [← String.length_toList, ← String.length_toList, split, List.append_nil]
      | cons first beyond =>
          -- The symbol would go on with the operator that comes next.
          have operator : first ∈ Token.operators := ends first (by rw [further]; rfl)
          exact absurd operator (plain other otherMember first (by simp [split]))

theorem stuck (operator : c ∈ Token.operators) : alphabet.Stuck (c :: rest) := by
  intro symbol member starts
  cases shown : symbol.toList with
  | nil =>
      have empty : symbol = "" := by simpa using shown
      exact alphabet.empty_not_mem (empty ▸ member)
  | cons first others =>
      rw [shown, List.cons_prefix_cons] at starts
      rcases starts with ⟨rfl, _⟩
      exact plain symbol member first (shown ▸ List.mem_cons_self) operator

theorem scans_single {kind : Token.Kind}
    (operator : Token.Kind.ofOperator? c = some kind) (single : kind ≠ .openBrace) :
    alphabet.Scans [c] rest [⟨kind, c.toString⟩] :=
  scans_operator (plain.stuck (Token.mem_operators_of_ofOperator? operator)) operator single

theorem scans_bounds (spells : BoundsReading.Spells text ⟨bounds, []⟩) :
    alphabet.Scans ('{' :: text) rest (⟨.openBrace, "\x7b"⟩ :: bounds) :=
  scans_braces (plain.stuck (by decide)) spells

theorem scans_group (scans : alphabet.Scans text (')' :: rest) tokens) :
    alphabet.Scans ('(' :: (text ++ [')'])) rest (Regex.grouped tokens) := by
  have opening : alphabet.Scans ['('] (text ++ [')'] ++ rest) [⟨.openParen, "("⟩] :=
    plain.scans_single rfl (by decide)
  have closing : alphabet.Scans [')'] rest [⟨.closeParen, ")"⟩] :=
    plain.scans_single rfl (by decide)
  exact opening.append (scans.append closing)

/-- A written expression is scanned as its tokens, whatever operator comes next. -/
theorem scans_render {expression : Regex}
    (members : ∀ symbol ∈ expression.literals, symbol ∈ alphabet)
    (ordered : expression.Ordered) (ends : Ends rest) :
    alphabet.Scans expression.render.toList rest expression.tokens := by
  have closes {more : List Char} : Ends (')' :: more) := by
    intro c member
    cases member
    decide
  induction expression generalizing rest with
  | literal symbol =>
      exact scans_symbol (plain.longest (members symbol (List.mem_singleton_self symbol)) ends)
  | seq left right leftInduction rightInduction =>
      rw [Regex.literals, List.forall_mem_append] at members
      have shown : (Regex.seq left right).render.toList =
          '(' :: (left.render.toList ++ [')']) ++ '(' :: (right.render.toList ++ [')']) := by
        simp [Regex.render, toString]
      rw [shown]
      exact (plain.scans_group (leftInduction members.1 ordered.1 closes)).append
        (plain.scans_group (rightInduction members.2 ordered.2 closes))
  | or left right leftInduction rightInduction =>
      rw [Regex.literals, List.forall_mem_append] at members
      have shown : (Regex.or left right).render.toList =
          '(' :: (left.render.toList ++ [')']) ++
            (['+'] ++ '(' :: (right.render.toList ++ [')'])) := by
        simp [Regex.render, toString]
      rw [shown]
      exact (plain.scans_group (leftInduction members.1 ordered.1 closes)).append
        ((plain.scans_single rfl (by decide)).append
          (plain.scans_group (rightInduction members.2 ordered.2 closes)))
  | star body induction =>
      have shown : (Regex.star body).render.toList =
          '(' :: (body.render.toList ++ [')']) ++ ['*'] := by
        simp [Regex.render, toString]
      rw [shown]
      exact (plain.scans_group (induction members ordered closes)).append
        (plain.scans_single rfl (by decide))
  | exactly body count induction =>
      have shown : (Regex.exactly body count).render.toList =
          '(' :: (body.render.toList ++ [')']) ++ '{' :: (count.digits.toList ++ ['}']) := by
        simp [Regex.render, toString]
      rw [shown]
      exact (plain.scans_group (induction members ordered closes)).append
        (plain.scans_bounds (.exactly_digits count))
  | between body low high induction =>
      have shown : (Regex.between body low high).render.toList =
          '(' :: (body.render.toList ++ [')']) ++
            '{' :: (low.digits.toList ++ ',' :: (high.digits.toList ++ ['}'])) := by
        simp [Regex.render, toString]
      rw [shown]
      exact (plain.scans_group (induction members ordered.1 closes)).append
        (plain.scans_bounds (.between_digits ordered.2))
  | atLeast body low induction =>
      have shown : (Regex.atLeast body low).render.toList =
          '(' :: (body.render.toList ++ [')']) ++
            '{' :: (low.digits.toList ++ [',', '}']) := by
        simp [Regex.render, toString]
      rw [shown]
      exact (plain.scans_group (induction members ordered closes)).append
        (plain.scans_bounds (.atLeast_digits low))

end Plain

/-- Where no symbol holds an operator character, a written expression reads back as
itself. Over any alphabet, what is read has its literals in the alphabet and its
bounds in order. -/
theorem ofText_render (alphabet : Alphabet) :
    ((∀ symbol ∈ alphabet, ∀ c ∈ symbol.toList, c ∉ Token.operators) →
      ∀ expression : Regex, (∀ symbol ∈ expression.literals, symbol ∈ alphabet) →
        expression.Ordered → Regex.ofText alphabet expression.render = .ok expression) ∧
    ∀ (text : String) (expression : Regex), Regex.ofText alphabet text = .ok expression →
      (∀ symbol ∈ expression.literals, symbol ∈ alphabet) ∧ expression.Ordered := by
  constructor
  · intro plain expression members ordered
    have ends : Ends [] := fun _ given => by cases given
    have scans := Plain.scans_render plain members ordered ends
    rw [Regex.ofText, tokenize_of_scans scans]
    exact Regex.ofTokens_of_derives (Regex.derives_tokens ordered)
  · intro text expression read
    refine ⟨Regex.over_iff.mp (over_of_ofText read), ?_⟩
    rcases Except.bind_eq_ok_iff.mp read with ⟨tokens, _, parsed⟩
    exact Regex.ordered_of_derives (Regex.derives_of_ofTokens parsed)

/-- Digits are symbols here, and one symbol begins with another one. -/
theorem ofText_render_of_digit_symbols :
    let expression : Regex := .seq (.between (.literal "1") 1 12)
      (.star (.or (.literal "12") (.literal epsilon)))
    expression.render = "((1)\x7b1,12\x7d)(((12)+(ε))*)" ∧
      Regex.ofText (.ofText "1, 12") expression.render = .ok expression := by
  intro expression
  have members : (Alphabet.ofText "1, 12").members.toList = ["1", "12", "ε"] := by
    decide +kernel
  refine ⟨by decide +kernel, (ofText_render (.ofText "1, 12")).1 ?_ expression ?_ ?_⟩
  · change ∀ symbol ∈ (Alphabet.ofText "1, 12").members.toList, _
    rw [members]
    simp [Token.operators]
  · decide +kernel
  · exact ⟨⟨trivial, by decide⟩, trivial, trivial⟩

end Alphabet

end WordAutomata
