import WordAutomata.Proofs.Regex.Rendering

namespace WordAutomata

/-! The drawing of an expression shows which expression it is. A line tells the kind of
its node, the kind tells how many children are drawn below it, and nothing but the end of
a line is a line feed. -/

/-! ## Lists -/

section

variable {α : Type u} {β : Type v}

theorem eq_of_append_mark {mark : α} {front back otherFront otherBack : List α}
    (absent : mark ∉ front) (otherAbsent : mark ∉ otherFront)
    (same : front ++ mark :: back = otherFront ++ mark :: otherBack) :
    front = otherFront ∧ back = otherBack := by
  induction front generalizing otherFront with
  | nil =>
      cases otherFront with
      | nil => exact ⟨rfl, (List.cons.inj same).2⟩
      | cons head tail =>
          have equal : mark = head := (List.cons.inj same).1
          exact absurd List.mem_cons_self (equal ▸ otherAbsent)
  | cons head tail induction =>
      cases otherFront with
      | nil =>
          have equal : head = mark := (List.cons.inj same).1
          exact absurd List.mem_cons_self (equal ▸ absent)
      | cons other others =>
          rcases List.cons.inj same with ⟨equal, rest⟩
          have later := induction (mt (List.mem_cons_of_mem _) absent)
            (mt (List.mem_cons_of_mem _) otherAbsent) rest
          rw [equal, later.1]
          exact ⟨rfl, later.2⟩

/-- Parts that are put together can be told apart if there are as many of them and each of
them shows where it ends. -/
theorem eq_of_flatMap_append {write : α → List β}
    {left right : List α} {leftRest rightRest : List β} (long : left.length = right.length)
    (ends : ∀ value ∈ left, ∀ other ∈ right, ∀ rest otherRest,
      write value ++ rest = write other ++ otherRest → value = other ∧ rest = otherRest)
    (same : left.flatMap write ++ leftRest = right.flatMap write ++ rightRest) :
    left = right ∧ leftRest = rightRest := by
  induction left generalizing right with
  | nil =>
      rw [List.length_nil, eq_comm, List.length_eq_zero_iff] at long
      subst long
      exact ⟨rfl, same⟩
  | cons value left induction =>
      cases right with
      | nil => cases long
      | cons other right =>
          rw [List.flatMap_cons, List.flatMap_cons, List.append_assoc, List.append_assoc] at same
          rcases ends value List.mem_cons_self other List.mem_cons_self _ _ same with
            ⟨equal, rest⟩
          have later := induction (Nat.succ.inj long)
            (fun value member other otherMember =>
              ends value (List.mem_cons_of_mem _ member) other
                (List.mem_cons_of_mem _ otherMember)) rest
          rw [equal, later.1]
          exact ⟨rfl, later.2⟩

end

/-! ## Counts -/

namespace Count

theorem digits_injective {left right : Count} (same : left.digits = right.digits) :
    left = right := by
  apply Option.some.inj
  rw [← ofText?_digits left, same, ofText?_digits]

theorem isDigit_of_mem_digits {count : Count} {c : Char} (member : c ∈ count.digits.toList) :
    c.isDigit :=
  (ofDigits?_eq_some_iff.mp (ofDigits?_digits count)).2.1 c member

theorem not_mem_digits {c : Char} (other : c.isDigit = false) (count : Count) :
    c ∉ count.digits.toList := by
  intro member
  rw [isDigit_of_mem_digits member] at other
  cases other

end Count

/-! ## Kinds

A node has a kind, and its line begins with the title of the kind. -/

namespace Regex

inductive Kind
  | literal
  | seq
  | or
  | star
  | exactly
  | between
  | atLeast
deriving DecidableEq

namespace Kind

def title : Kind → String
  | literal => "LITERAL"
  | seq => "SEQ"
  | or => "OR"
  | star => "STAR"
  | exactly => "REPEAT_EXACTLY"
  | between => "REPEAT_BETWEEN"
  | atLeast => "REPEAT_MIN"

def arity : Kind → Nat
  | literal => 0
  | seq | or => 2
  | star | exactly | between | atLeast => 1

def ofTitle? (title : String) : Option Kind :=
  [literal, seq, or, star, exactly, between, atLeast].find? (·.title = title)

theorem ofTitle?_title (kind : Kind) : ofTitle? kind.title = some kind := by
  cases kind <;> decide

theorem title_injective {left right : Kind} (same : left.title = right.title) :
    left = right := by
  apply Option.some.inj
  rw [← ofTitle?_title left, same, ofTitle?_title]

theorem colon_not_mem_title (kind : Kind) : ':' ∉ kind.title.toList := by
  cases kind <;> decide

theorem newline_not_mem_title (kind : Kind) : '\n' ∉ kind.title.toList := by
  cases kind <;> decide

end Kind

/-! ## Nodes

A node is its kind with its caption, which is what it holds besides its children, and its
children. -/

def kind : Regex → Kind
  | literal _ => .literal
  | seq _ _ => .seq
  | or _ _ => .or
  | star _ => .star
  | exactly _ _ => .exactly
  | between _ _ _ => .between
  | atLeast _ _ => .atLeast

def caption : Regex → Option (List Char)
  | literal symbol => some symbol.toList
  | seq _ _ | or _ _ | star _ => none
  | exactly _ count => some count.digits.toList
  | between _ low high => some (low.digits.toList ++ '-' :: high.digits.toList)
  | atLeast _ low => some low.digits.toList

def children : Regex → List Regex
  | literal _ => []
  | seq left right | or left right => [left, right]
  | star body | exactly body _ | between body _ _ | atLeast body _ => [body]

variable {expression child left right : Regex} {indent : Nat}

theorem length_children (expression : Regex) :
    expression.children.length = expression.kind.arity := by
  cases expression <;> rfl

/-- What holds of an expression whenever it holds of its children holds of all. -/
theorem induction_children {motive : Regex → Prop}
    (step : ∀ expression, (∀ child ∈ expression.children, motive child) → motive expression)
    (expression : Regex) : motive expression := by
  induction expression with
  | literal => exact step _ fun _ member => by cases member
  | seq _ _ left right | or _ _ left right =>
      apply step
      intro child member
      rcases List.mem_pair.mp member with rfl | rfl
      · exact left
      · exact right
  | star _ body | exactly _ _ body | between _ _ _ body | atLeast _ _ body =>
      apply step
      intro child member
      rw [List.mem_singleton.mp member]
      exact body

theorem mem_literals_of_mem_children (member : child ∈ expression.children)
    {symbol : String} (literal : symbol ∈ child.literals) : symbol ∈ expression.literals := by
  cases expression with
  | literal => cases member
  | seq | or =>
      rcases List.mem_pair.mp member with rfl | rfl
      · exact List.mem_append_left _ literal
      · exact List.mem_append_right _ literal
  | star | exactly | between | atLeast =>
      rw [children, List.mem_singleton] at member
      rwa [member] at literal

theorem eq_of_node (sameKind : left.kind = right.kind)
    (sameCaption : left.caption = right.caption)
    (sameChildren : left.children = right.children) : left = right := by
  cases left <;> cases right
  all_goals simp only [kind, reduceCtorEq] at sameKind
  all_goals
    simp only [caption, children, Option.some.injEq, List.cons.injEq, and_true]
      at sameCaption sameChildren
  case literal.literal => rw [String.toList_inj.mp sameCaption]
  case seq.seq | or.or => rw [sameChildren.1, sameChildren.2]
  case star.star => rw [sameChildren]
  case exactly.exactly | atLeast.atLeast =>
    rw [Count.digits_injective (String.toList_inj.mp sameCaption), sameChildren]
  case between.between body low high other otherLow otherHigh =>
    have dash (count : Count) : '-' ∉ count.digits.toList :=
      Count.not_mem_digits (by decide) count
    rcases eq_of_append_mark (dash low) (dash otherLow) sameCaption with
      ⟨sameLow, sameHigh⟩
    rw [Count.digits_injective (String.toList_inj.mp sameLow),
      Count.digits_injective (String.toList_inj.mp sameHigh), sameChildren]

/-! ## Lines -/

def header (expression : Regex) : List Char :=
  expression.kind.title.toList ++ expression.caption.elim [] (':' :: ' ' :: ·)

def drawing (indent : Nat) (expression : Regex) : List Char :=
  (expression.outline indent).flatMap fun line => line.toList ++ ['\n']

theorem toList_display (expression : Regex) :
    expression.display.toList = expression.drawing 0 := by
  simp [display, drawing, String.toList_join, List.flatMap_map]

theorem toList_line (indent : Nat) (text : String) :
    (outline.line indent text).toList = List.replicate indent ' ' ++ text.toList := by
  rw [outline.line, String.toList_append, String.toList_ofList]

theorem drawing_eq (expression : Regex) (indent : Nat) :
    expression.drawing indent =
      List.replicate indent ' ' ++ (expression.header ++
        '\n' :: expression.children.flatMap (drawing (indent + 2))) := by
  cases expression <;>
    simp [drawing, outline, toList_line, header, kind, caption, children, toString, Kind.title]

theorem newline_not_mem_header
    (plain : ∀ symbol ∈ expression.literals, '\n' ∉ symbol.toList) :
    '\n' ∉ expression.header := by
  have digits (count : Count) : '\n' ∉ count.digits.toList :=
    Count.not_mem_digits (by decide) count
  have title := expression.kind.newline_not_mem_title
  cases expression with
  | literal symbol =>
      simpa [header, caption] using ⟨title, plain symbol (List.mem_singleton_self symbol)⟩
  | seq | or | star => simpa [header, caption] using title
  | exactly | between | atLeast => simpa [header, caption, digits] using title

theorem eq_of_elim_caption {left right : Option (List Char)}
    (same : left.elim [] (':' :: ' ' :: ·) = right.elim [] (':' :: ' ' :: ·)) :
    left = right := by
  cases left with
  | none =>
      cases right with
      | none => rfl
      | some => cases same
  | some text =>
      cases right with
      | none => cases same
      | some other => rw [(List.cons.inj (List.cons.inj same).2).2]

/-- The title of a header ends before the first colon. -/
theorem node_of_header (same : left.header = right.header) :
    left.kind = right.kind ∧ left.caption = right.caption := by
  have title (expression : Regex) :
      expression.header.takeWhile (· ≠ ':') = expression.kind.title.toList := by
    have ends : (expression.caption.elim [] (':' :: ' ' :: ·)).takeWhile (· ≠ ':') = [] := by
      cases expression.caption <;> rfl
    have goes : ∀ c ∈ expression.kind.title.toList, decide (c ≠ ':') = true := by
      intro c member
      rw [decide_eq_true_iff]
      exact fun equal => expression.kind.colon_not_mem_title (equal ▸ member)
    rw [header, List.takeWhile_append_of_pos goes, ends, List.append_nil]
  have sameTitle : left.kind.title.toList = right.kind.title.toList := by
    rw [← title, same, title]
  have sameKind : left.kind = right.kind :=
    Kind.title_injective (String.toList_inj.mp sameTitle)
  rw [header, header, sameTitle] at same
  exact ⟨sameKind, eq_of_elim_caption (List.append_cancel_left same)⟩

/-! ## Drawings -/

/-- A drawing shows where it ends, whatever comes after it. -/
theorem eq_of_drawing_append {leftRest rightRest : List Char}
    (leftPlain : ∀ symbol ∈ left.literals, '\n' ∉ symbol.toList)
    (rightPlain : ∀ symbol ∈ right.literals, '\n' ∉ symbol.toList)
    (same : left.drawing indent ++ leftRest = right.drawing indent ++ rightRest) :
    left = right ∧ leftRest = rightRest := by
  induction left using induction_children generalizing right indent leftRest rightRest with
  | step left induction =>
      simp only [drawing_eq, List.append_assoc, List.cons_append] at same
      rw [List.append_cancel_left_eq] at same
      rcases eq_of_append_mark (newline_not_mem_header leftPlain)
        (newline_not_mem_header rightPlain) same with ⟨sameHeader, below⟩
      rcases node_of_header sameHeader with ⟨sameKind, sameCaption⟩
      have long : left.children.length = right.children.length := by
        rw [length_children, length_children, sameKind]
      have ends : ∀ child ∈ left.children, ∀ other ∈ right.children, ∀ rest otherRest,
          child.drawing (indent + 2) ++ rest = other.drawing (indent + 2) ++ otherRest →
            child = other ∧ rest = otherRest := by
        intro child member other otherMember rest otherRest
        apply induction child member
        · intro symbol literal
          exact leftPlain symbol (mem_literals_of_mem_children member literal)
        · intro symbol literal
          exact rightPlain symbol (mem_literals_of_mem_children otherMember literal)
      rcases eq_of_flatMap_append long ends below with ⟨sameChildren, sameRest⟩
      exact ⟨eq_of_node sameKind sameCaption sameChildren, sameRest⟩

end Regex

/-! ## Listed symbols -/

namespace Alphabet

theorem separates_eq_false_of_mem_fields {separates : Char → Bool} {text field : List Char}
    (member : field ∈ fields separates text) : ∀ c ∈ field, separates c = false := by
  induction text generalizing field with
  | nil =>
      rw [List.mem_singleton.mp member]
      exact fun _ inside => by cases inside
  | cons first rest induction =>
      rw [fields] at member
      split at member
      case isTrue separated =>
        rcases List.mem_cons.mp member with rfl | later
        · exact fun _ inside => by cases inside
        · exact induction later
      case isFalse kept =>
        have single : separates first = false := Bool.eq_false_of_not_eq_true kept
        split at member
        case h_1 _ =>
          rw [List.mem_singleton.mp member]
          exact List.forall_mem_singleton.mpr single
        case h_2 head others equal =>
          rw [equal] at induction
          rcases List.mem_cons.mp member with rfl | later
          · exact List.forall_mem_cons.mpr ⟨single, induction List.mem_cons_self⟩
          · exact induction (List.mem_cons_of_mem _ later)

theorem isBlank_eq_false_of_mem_ofText {list symbol : String} (member : symbol ∈ ofText list) :
    ∀ c ∈ symbol.toList, Text.isBlank c = false := by
  rcases mem_ofSymbols.mp member with rfl | ⟨listed, _⟩
  · exact List.forall_mem_singleton.mpr (by decide : Text.isBlank 'ε' = false)
  · rcases List.mem_map.mp listed with ⟨field, inside, rfl⟩
    rw [String.toList_ofList]
    intro c found
    have kept := separates_eq_false_of_mem_fields inside c found
    exact (Bool.or_eq_false_iff.mp kept).1

end Alphabet

namespace Regex

/-- Expressions that are drawn alike are equal, unless a line feed in one of their literals
passes for the end of a line. No expression over a list of symbols has such a literal. -/
theorem eq_of_display_eq :
    (∀ left right : Regex, (∀ symbol ∈ left.literals, '\n' ∉ symbol.toList) →
      (∀ symbol ∈ right.literals, '\n' ∉ symbol.toList) →
      left.display = right.display → left = right) ∧
    ∀ (list text : String) (expression : Regex),
      Regex.ofText (.ofText list) text = .ok expression →
        ∀ symbol ∈ expression.literals, '\n' ∉ symbol.toList := by
  constructor
  case left =>
    intro left right leftPlain rightPlain same
    have drawn : left.drawing 0 ++ [] = right.drawing 0 ++ [] := by
      rw [← toList_display, ← toList_display, same]
    exact (eq_of_drawing_append leftPlain rightPlain drawn).1
  case right =>
    intro list text expression read symbol literal newline
    have member := over_iff.mp (Alphabet.over_of_ofText read) symbol literal
    have blank := Alphabet.isBlank_eq_false_of_mem_ofText member '\n' newline
    exact absurd blank (by decide)

/-- With a line feed in a literal, a line can end at two places. -/
example :
    let left : Regex := .seq (.literal "a\n  LITERAL: b") (.literal "c")
    let right : Regex := .seq (.literal "a") (.literal "b\n  LITERAL: c")
    left ≠ right ∧ left.display = right.display := by decide +kernel

/-- The symbols are the words with which the lines of a drawing begin. What is read from
two texts is drawn alike, and is the same. -/
theorem eq_of_display_eq_of_title_symbols :
    let alphabet : Alphabet := .ofText "STAR, SEQ LITERAL:"
    let read text := (Regex.ofText alphabet text).toOption.getD (.literal "")
    let left := read "SEQ*(STAR+LITERAL:)"
    let right := read "((SEQ)*)((STAR)+(LITERAL:))"
    left.display =
        "SEQ\n  STAR\n    LITERAL: SEQ\n  OR\n    LITERAL: STAR\n    LITERAL: LITERAL:\n" ∧
      (∀ symbol ∈ left.literals, '\n' ∉ symbol.toList) ∧
      left.display = right.display ∧ left = right := by
  intro alphabet read left right
  have leftRead : Regex.ofText alphabet "SEQ*(STAR+LITERAL:)" = .ok left := by
    decide +kernel
  have rightRead : Regex.ofText alphabet "((SEQ)*)((STAR)+(LITERAL:))" = .ok right := by
    decide +kernel
  have leftPlain := eq_of_display_eq.2 _ _ left leftRead
  have rightPlain := eq_of_display_eq.2 _ _ right rightRead
  have same : left.display = right.display := by decide +kernel
  exact ⟨by decide +kernel, leftPlain, same,
    eq_of_display_eq.1 left right leftPlain rightPlain same⟩

end Regex

end WordAutomata
