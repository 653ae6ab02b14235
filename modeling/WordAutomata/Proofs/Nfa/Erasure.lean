import WordAutomata.Proofs.Nfa.Reading
import WordAutomata.Proofs.Nfa.Shape
import WordAutomata.Proofs.Regex.Symbols
import WordAutomata.Regex.Parser

namespace WordAutomata

/-! The symbol that is spelled like the key of the empty label. In a document it cannot
be told from the reserved symbol, as the two automata have the same document. Without it,
the document of an expression determines the language. -/

open Nfa (emptyKey legible)

/-! ## Expressions

To erase the symbol that is spelled like the key is to put the reserved symbol in its
place. The edges stay where they are, and those that read the symbol read nothing. -/

def Label.erased (label : Label) : Label :=
  if label = some emptyKey then none else label

def Edge.erased (edge : Edge) : Edge :=
  ⟨edge.source, edge.label.erased, edge.target⟩

namespace Regex

open Edge

def erased : Regex → Regex
  | literal symbol => literal (if symbol = emptyKey then epsilon else symbol)
  | seq left right => seq left.erased right.erased
  | or left right => or left.erased right.erased
  | star body => star body.erased
  | exactly body count => exactly body.erased count
  | between body low high => between body.erased low high
  | atLeast body low => atLeast body.erased low

example : (seq (literal "a") (star (literal "epsilon"))).erased =
    seq (literal "a") (star (literal "ε")) := by decide +kernel

theorem size_erased (expression : Regex) : expression.erased.size = expression.size := by
  induction expression with
  | literal => rfl
  | seq _ _ left right => simp only [erased, size, left, right]
  | or _ _ left right => simp only [erased, size, left, right]
  | star _ body => simp only [erased, size, body]
  | exactly _ _ body => simp only [erased, size, body]
  | between _ _ _ body => simp only [erased, size, body]
  | atLeast _ _ body => simp only [erased, size, body]

theorem exit_erased (expression : Regex) : expression.erased.exit = expression.exit := by
  funext base
  induction expression generalizing base with
  | literal => rfl
  | seq left _ _ right => simp only [erased, exit, size_erased, right]
  | or => simp only [erased, exit, size_erased]
  | star => simp only [erased, exit, size_erased]
  | exactly _ _ body => simp only [erased, exit, size_erased, body]
  | between => rfl
  | atLeast => simp only [erased, exit, size_erased]

theorem erased_jump (source target : Nat) :
    (jump source target).erased = jump source target := rfl

theorem ofLiteral_erased (symbol : String) :
    Label.ofLiteral (if symbol = emptyKey then epsilon else symbol) =
      (Label.ofLiteral symbol).erased := by
  by_cases equal : symbol = emptyKey
  · subst equal
    decide
  · rw [if_neg equal, Label.erased, if_neg]
    rw [Label.ofLiteral]
    split
    · exact fun same => Option.noConfusion rfl (heq_of_eq same)
    · exact fun same => equal (Option.some.inj same)

theorem chain_erased {size : Nat} {exit : Nat → Nat} {edges edgesErased : Nat → List Edge}
    (body : ∀ base, edgesErased base = (edges base).map Edge.erased) (count base : Nat) :
    chain count size exit edgesErased base =
      (chain count size exit edges base).map Edge.erased := by
  simp only [chain, body, List.map_append, List.map_flatMap, List.map_map,
    Function.comp_def, erased_jump]

theorem edges_erased (expression : Regex) (base : Nat) :
    expression.erased.edges base = (expression.edges base).map Edge.erased := by
  induction expression generalizing base with
  | literal symbol =>
      simp only [erased, edges, ofLiteral_erased, List.map_cons, List.map_nil, Edge.erased]
  | seq left right leftInduction rightInduction =>
      simp only [erased, edges, size_erased, exit_erased, leftInduction, rightInduction,
        List.map_append, List.map_cons, List.map_nil, erased_jump]
  | or left right leftInduction rightInduction =>
      simp only [erased, edges, size_erased, exit_erased, leftInduction, rightInduction,
        List.map_append, List.map_cons, List.map_nil, erased_jump]
  | star body induction =>
      simp only [erased, edges, loop, size_erased, exit_erased, induction,
        List.map_append, List.map_cons, List.map_nil, erased_jump]
  | exactly body count induction =>
      simp only [erased, edges, size_erased, exit_erased, chain_erased induction]
      split <;> rfl
  | between body low high induction =>
      simp only [erased, edges, size_erased, exit_erased, chain_erased induction,
        List.map_append, List.map_cons, List.map_nil, List.map_map, Function.comp_def,
        erased_jump]
      split <;> rfl
  | atLeast body low induction =>
      simp only [erased, edges, loop, size_erased, exit_erased, chain_erased induction,
        induction]
      split <;> simp only [List.map_append, List.map_cons, List.map_nil, erased_jump]

end Regex

/-! ## Rows

A document shows a row with keys in place of labels. A row whose edges have one label
shows it once, whether or not it is erased. -/

namespace Nfa

def shown (row : OrderedMap Label StateSet) : List (String × StateSet) :=
  row.toList.map fun transition => (transition.1.getD emptyKey, transition.2)

theorem successors_eq (nfa : Nfa) (state : Nat) :
    nfa.successors state =
      (shown ((nfa.rows[state]?).getD .empty)).flatMap fun entry => entry.2.toList := by
  rw [successors]
  cases nfa.rows[state]? with
  | none => rfl
  | some row => simp only [Option.getD_some, shown, OrderedMap.values, List.flatMap_map]

theorem entry_eq (nfa : Nfa) (numbering : Numbering) (state : Nat) :
    nfa.entry numbering state = ⟨decide (state = nfa.final), .ofList
      ((shown ((nfa.rows[state]?).getD .empty)).map fun entry =>
        (entry.1, entry.2.toList.map numbering.name))⟩ := by
  rw [entry, shown, List.map_map]
  rfl

/-- Automata that show the same in their rows have the same document. -/
theorem toDocument_eq_of_shown {left right : Nfa} (starts : left.start = right.start)
    (finals : left.final = right.final)
    (rows : left.rows.map shown = right.rows.map shown) :
    left.toDocument = right.toDocument := by
  have row (state : Nat) : shown ((left.rows[state]?).getD .empty) =
      shown ((right.rows[state]?).getD .empty) := by
    have same := congrArg (·[state]?) rows
    simp only [List.getElem?_map] at same
    cases leftRow : left.rows[state]? <;> cases rightRow : right.rows[state]? <;>
      simp_all
  have sizes : left.size = right.size := by
    have lengths := congrArg List.length rows
    rwa [List.length_map, List.length_map] at lengths
  have successors : left.successors = right.successors := by
    funext state
    rw [successors_eq, successors_eq, row]
  have reachables : left.reachable = right.reachable := by
    rw [reachable, reachable, successors, sizes, starts]
  have numberings : left.numbering = right.numbering := by
    rw [numbering, numbering, starts, finals, reachables]
  simp only [toDocument, entry_eq, row, reachables, numberings, starts, finals]

theorem shown_rowOfEdges {first : Edge} {outgoing : List Edge} {label : Label}
    (alike : ∀ edge ∈ first :: outgoing, edge.label = label) :
    shown (rowOfEdges (first :: outgoing)) =
      [(label.getD emptyKey, .ofList ((first :: outgoing).map (·.target)))] := by
  rw [shown, toList_rowOfEdges alike]
  rfl

theorem shown_rowOfEdges_erased {outgoing : List Edge}
    (alike : ∀ edge ∈ outgoing, edge.label = some emptyKey →
      ∀ other ∈ outgoing, other.label = edge.label) :
    shown (rowOfEdges (outgoing.map Edge.erased)) = shown (rowOfEdges outgoing) := by
  by_cases spelled : ∃ edge ∈ outgoing, edge.label = some emptyKey
  -- Then every label is spelled like the key, before and after, and the row is one entry.
  · rcases spelled with ⟨edge, member, label⟩
    have labels : ∀ other ∈ outgoing, other.label = some emptyKey :=
      fun other otherMember => (alike edge member label other otherMember).trans label
    cases outgoing with
    | nil => cases member
    | cons first more =>
        have erasedLabels :
            ∀ other ∈ (first :: more).map Edge.erased, other.label = none := by
          intro other otherMember
          rcases List.mem_map.mp otherMember with ⟨original, originalMember, rfl⟩
          rw [Edge.erased, labels original originalMember]
          rfl
        rw [shown_rowOfEdges labels]
        refine (shown_rowOfEdges erasedLabels).trans ?_
        rw [← List.map_cons, List.map_map]
        rfl
  · have kept : ∀ edge ∈ outgoing, edge.erased = id edge := by
      intro edge member
      rw [Edge.erased, Label.erased, if_neg fun label => spelled ⟨edge, member, label⟩]
      rfl
    rw [List.map_congr_left kept, List.map_id]

/-- The document does not change if no other label goes with the symbol that is spelled
like the key. -/
theorem toDocument_ofEdges_erased {size start final : Nat} {edges : List Edge}
    (alike : ∀ edge ∈ edges, edge.label = some emptyKey →
      ∀ other ∈ edges, other.source = edge.source → other.label = edge.label) :
    (ofEdges size (edges.map Edge.erased) start final).toDocument =
      (ofEdges size edges start final).toDocument := by
  have rows : (ofEdges size (edges.map Edge.erased) start final).rows.map shown =
      (ofEdges size edges start final).rows.map shown := by
    rw [rows_ofEdges, rows_ofEdges, List.map_map, List.map_map]
    apply List.map_congr_left
    intro state _
    have outgoing : (edges.map Edge.erased).filter (·.source = state) =
        (edges.filter (·.source = state)).map Edge.erased := List.filter_map
    simp only [Function.comp_apply, outgoing]
    apply shown_rowOfEdges_erased
    intro edge member label other otherMember
    rcases List.mem_filter.mp member with ⟨member, source⟩
    rcases List.mem_filter.mp otherMember with ⟨otherMember, otherSource⟩
    exact alike edge member label other otherMember
      ((of_decide_eq_true otherSource).trans (of_decide_eq_true source).symm)
  exact toDocument_eq_of_shown rfl rfl rows

theorem label_eq_of_mem_edges (expression : Regex) {edge other : Edge} {symbol : String}
    (member : edge ∈ expression.edges 0) (label : edge.label = some symbol)
    (otherMember : other ∈ expression.edges 0) (same : other.source = edge.source) :
    other.label = edge.label := by
  have reads : edge.label ≠ none := label ▸ Option.some_ne_none symbol
  rw [(expression.guarded 0 edge member reads).2 other otherMember same]

theorem toDocument_erased (expression : Regex) :
    (ofRegex expression.erased).toDocument = (ofRegex expression).toDocument := by
  rw [ofRegex, Regex.size_erased, Regex.exit_erased, Regex.edges_erased]
  apply toDocument_ofEdges_erased
  intro edge member label other otherMember same
  exact label_eq_of_mem_edges expression member label otherMember same

theorem mem_labels_ofEdges {size start final state : Nat} {edges : List Edge}
    {label : Label} :
    label ∈ (ofEdges size edges start final).labels state ↔
      state < size ∧ ∃ edge ∈ edges, edge.source = state ∧ edge.label = label := by
  rw [labels, rows_ofEdges, List.getElem?_map]
  by_cases inside : state < size
  · rw [List.getElem?_range inside, Option.map_some, Option.getD_some, rowOfEdges,
      OrderedMap.keys_tabulate, OrderedSet.mem_ofList, List.mem_map]
    simp only [List.mem_filter, decide_eq_true_eq, inside, true_and, and_assoc]
  · rw [List.getElem?_eq_none (by simpa using inside), Option.map_none, Option.getD_none]
    simp [inside, OrderedMap.keys, OrderedMap.empty, OrderedSet.mem_iff]

theorem unmixed_ofRegex (expression : Regex) : (ofRegex expression).Unmixed := by
  intro state jumps spelled
  rcases mem_labels_ofEdges.mp jumps with ⟨_, edge, member, source, label⟩
  rcases mem_labels_ofEdges.mp spelled with ⟨_, other, otherMember, otherSource, otherLabel⟩
  have same := label_eq_of_mem_edges expression otherMember otherLabel member
    (source.trans otherSource.symm)
  rw [label, otherLabel] at same
  cases same

theorem not_mem_symbols_erased (expression : Regex) :
    emptyKey ∉ expression.erased.symbols := by
  intro member
  rw [← Regex.alphabet_ofRegex] at member
  rcases exists_edge_of_mem_alphabet member with ⟨edge, edgeMember, label⟩
  rw [Regex.edges_erased] at edgeMember
  rcases List.mem_map.mp edgeMember with ⟨original, _, rfl⟩
  rw [Edge.erased, Label.erased] at label
  split at label
  · cases label
  · contradiction

/-! ## Languages

An expression in which the symbol occurs accepts a word with it, and the erased expression
does not. Where it does not occur, the document tells which words are accepted. -/

theorem exists_accepts_erased_eq_false {expression : Regex}
    (member : emptyKey ∈ expression.symbols) :
    ∃ word, (ofRegex expression).accepts word = true ∧
      (ofRegex expression.erased).accepts word = false := by
  rcases Regex.mem_symbols_iff.mp member with ⟨word, wordMember, occurs⟩
  refine ⟨word, (accepts_ofRegex_iff expression word).mpr wordMember, ?_⟩
  rw [Bool.eq_false_iff]
  intro accepted
  have erasedMember := (accepts_ofRegex_iff expression.erased word).mp accepted
  exact not_mem_symbols_erased expression
    (Regex.mem_symbols_iff.mpr ⟨word, erasedMember, occurs⟩)

/-- Without that symbol, a document describes the words that are accepted. -/
theorem describes_toDocument_ofRegex {expression : Regex}
    (absent : emptyKey ∉ expression.symbols) {word : List String} :
    (ofRegex expression).toDocument.Describes word ↔
      (ofRegex expression).accepts word = true := by
  rw [(inRange_ofRegex expression).describes_toDocument (unmixed_ofRegex expression)]
  have kept {original : List String}
      (accepted : (ofRegex expression).accepts original = true) :
      legible original = original := by
    apply legible_eq
    intro occurs
    have member := (accepts_ofRegex_iff expression original).mp accepted
    exact absent (Regex.mem_symbols_iff.mpr ⟨original, member, occurs⟩)
  constructor
  · intro given
    rcases given with ⟨original, accepted, left⟩
    rw [← left, kept accepted]
    exact accepted
  · exact fun accepted => ⟨word, accepted, kept accepted⟩

/-- Expressions with the same document accept the same words, but for the symbol that is
spelled like the key of the empty label: as far as documents go, it reads nothing. An
expression with that symbol has the document of another one, and does not accept the same
words. -/
theorem accepts_of_toDocument_eq (left right : Regex) :
    ((ofRegex left).toDocument = (ofRegex right).toDocument →
      (∀ word,
        (∃ original, (ofRegex left).accepts original = true ∧ legible original = word) ↔
        ∃ original, (ofRegex right).accepts original = true ∧ legible original = word) ∧
      (emptyKey ∉ left.symbols → emptyKey ∉ right.symbols →
        ∀ word, (ofRegex left).accepts word = (ofRegex right).accepts word)) ∧
    (emptyKey ∈ left.symbols →
      (ofRegex left.erased).toDocument = (ofRegex left).toDocument ∧
      ∃ word, (ofRegex left).accepts word = true ∧
        (ofRegex left.erased).accepts word = false) := by
  refine ⟨fun same => ⟨fun word => ?described, fun leftAbsent rightAbsent word => ?equal⟩,
    fun member => ⟨toDocument_erased left, exists_accepts_erased_eq_false member⟩⟩
  case described =>
    rw [← (inRange_ofRegex left).describes_toDocument (unmixed_ofRegex left),
      ← (inRange_ofRegex right).describes_toDocument (unmixed_ofRegex right), same]
  case equal =>
    rw [Bool.eq_iff_iff, ← describes_toDocument_ofRegex leftAbsent,
      ← describes_toDocument_ofRegex rightAbsent, same]

/-- A repetition from zero copies on has the document of a star, and accepts what it does.
The symbol "epsilon" has the document of the reserved symbol, and does not. -/
theorem accepts_of_toDocument_eq_of_key_symbol :
    Regex.ofText (.ofText "a, b") "a\x7b0,\x7d" = .ok (.atLeast (.literal "a") 0) ∧
      Regex.ofText (.ofText "a") "a*" = .ok (.star (.literal "a")) ∧
      (∀ word, (ofRegex (.atLeast (.literal "a") 0)).accepts word =
        (ofRegex (.star (.literal "a"))).accepts word) ∧
      Regex.ofText (.ofText "epsilon") "epsilon" = .ok (.literal "epsilon") ∧
      Regex.ofText (.ofText "epsilon") "ε" = .ok (.literal "ε") ∧
      (ofRegex (.literal "ε")).toDocument = (ofRegex (.literal "epsilon")).toDocument ∧
      ∃ word, (ofRegex (.literal "epsilon")).accepts word = true ∧
        (ofRegex (.literal "ε")).accepts word = false := by
  have same : (ofRegex (.atLeast (.literal "a") 0)).toDocument =
      (ofRegex (.star (.literal "a"))).toDocument := by decide +kernel
  have agree := ((accepts_of_toDocument_eq _ _).1 same).2 (by decide +kernel)
    (by decide +kernel)
  have erased : (Regex.literal "epsilon").erased = .literal "ε" := by decide +kernel
  rcases (accepts_of_toDocument_eq (.literal "epsilon") (.literal "ε")).2
    (by decide +kernel) with ⟨document, lost⟩
  rw [erased] at document lost
  exact ⟨by decide +kernel, by decide +kernel, agree, by decide +kernel, by decide +kernel,
    document, lost⟩

end Nfa

end WordAutomata
