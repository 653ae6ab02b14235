import WordAutomata.Proofs.Termination
import WordAutomata.Segmentation

namespace WordAutomata.Segmentation

/-! Cutting a text, as a relation that says nothing about how the longest symbol
is looked for, and as a process that takes one symbol after the other. -/

/-- Whether a text, read from the left, falls into pieces that are each the
longest symbol at their place, and a rest that begins with no symbol. -/
inductive Cuts (symbols : List String) : List Char → List String → List Char → Prop
  | stuck {text : List Char} :
      (∀ symbol ∈ symbols, symbol ≠ "" → ¬ symbol.toList <+: text) →
        Cuts symbols text [] text
  | piece {symbol : String} {later rest : List Char} {pieces : List String} :
      symbol ∈ symbols → symbol ≠ "" →
      (∀ other ∈ symbols, other.toList <+: symbol.toList ++ later →
        other.length ≤ symbol.length) →
      Cuts symbols later pieces rest →
      Cuts symbols (symbol.toList ++ later) (symbol :: pieces) rest

variable {symbols : List String} {text later rest : List Char} {symbol : String}
  {pieces : List String}

theorem longest?_eq_some (member : symbol ∈ symbols) (nonempty : symbol ≠ "")
    (longest : ∀ other ∈ symbols, other.toList <+: symbol.toList ++ later →
      other.length ≤ symbol.length) :
    longest? symbols (symbol.toList ++ later) = some symbol := by
  have starts : symbol.toList <+: symbol.toList ++ later := List.prefix_append _ _
  cases found : longest? symbols (symbol.toList ++ later) with
  | none => exact absurd starts (longest?_eq_none_iff.mp found symbol member nonempty)
  | some other =>
      rcases of_longest?_eq_some found with ⟨otherMember, _, otherStarts, otherLongest⟩
      have lengths : other.toList.length = symbol.toList.length := by
        rw [String.length_toList, String.length_toList]
        exact Nat.le_antisymm (longest other otherMember otherStarts)
          (otherLongest symbol member starts)
      have lists : other.toList = symbol.toList :=
        (List.prefix_of_prefix_length_le otherStarts starts
          (Nat.le_of_eq lengths)).eq_of_length lengths
      rw [String.toList_inj.mp lists]

theorem cuts_cut (symbols : List String) (text : List Char) :
    Cuts symbols text (cut symbols text).pieces (cut symbols text).rest := by
  cases found : longest? symbols text with
  | none =>
      rw [cut_of_longest?_eq_none found]
      exact .stuck (longest?_eq_none_iff.mp found)
  | some symbol =>
      rcases of_longest?_eq_some found with ⟨member, nonempty, ⟨later, whole⟩, longest⟩
      have dropped : text.drop symbol.length = later := by
        rw [← whole, ← String.length_toList, List.drop_left]
      have smaller := cuts_cut symbols (text.drop symbol.length)
      rw [cut_of_longest?_eq_some found]
      rw [dropped] at smaller ⊢
      rw [← whole] at longest ⊢
      exact .piece member nonempty longest smaller
termination_by text.length
decreasing_by exact length_drop_lt found

/-- A text can be cut in exactly one way. -/
theorem cuts_iff :
    Cuts symbols text pieces rest ↔ cut symbols text = ⟨pieces, rest⟩ := by
  constructor
  · intro cuts
    induction cuts with
    | stuck none => exact cut_of_longest?_eq_none (longest?_eq_none_iff.mpr none)
    | @piece symbol later _ _ member nonempty longest _ induction =>
        have dropped : (symbol.toList ++ later).drop symbol.length = later := by
          rw [← String.length_toList, List.drop_left]
        rw [cut_of_longest?_eq_some (longest?_eq_some member nonempty longest), dropped,
          induction]
  · intro equal
    have cuts := cuts_cut symbols text
    rwa [equal] at cuts

theorem Cuts.forall_mem (cuts : Cuts symbols text pieces rest) :
    ∀ piece ∈ pieces, piece ∈ symbols := by
  induction cuts with
  | stuck => exact fun _ member => absurd member List.not_mem_nil
  | piece member _ _ _ induction => exact List.forall_mem_cons.mpr ⟨member, induction⟩

theorem Cuts.restrict {fewer : List String} (cuts : Cuts symbols text pieces rest)
    (subset : ∀ symbol ∈ fewer, symbol ∈ symbols) (kept : ∀ piece ∈ pieces, piece ∈ fewer) :
    Cuts fewer text pieces rest := by
  induction cuts with
  | stuck none => exact .stuck fun symbol member => none symbol (subset symbol member)
  | piece _ nonempty longest _ induction =>
      rcases List.forall_mem_cons.mp kept with ⟨member, laterKept⟩
      exact .piece member nonempty (fun other given => longest other (subset other given))
        (induction laterKept)

theorem Cuts.flatMap_append (cuts : Cuts symbols text pieces rest) :
    pieces.flatMap String.toList ++ rest = text := by
  have whole := pieces_append_rest_cut symbols text
  rwa [cuts_iff.mp cuts] at whole

theorem Cuts.join_append {text : String} (cuts : Cuts symbols text.toList pieces rest) :
    String.join pieces ++ String.ofList rest = text := by
  apply String.toList_inj.mp
  rw [String.toList_append, String.toList_join, String.toList_ofList, cuts.flatMap_append]

theorem Cuts.stuck_rest (cuts : Cuts symbols text pieces rest) :
    ∀ symbol ∈ symbols, symbol ≠ "" → ¬ symbol.toList <+: rest := by
  induction cuts with
  | stuck none => exact none
  | piece _ _ _ _ induction => exact induction

/-- Without the rest, the text is cut into the same pieces. What does not fit into the
text does not fit into a part of it. -/
theorem Cuts.without_rest (cuts : Cuts symbols text pieces rest) :
    Cuts symbols (pieces.flatMap String.toList) pieces [] := by
  induction cuts with
  | stuck => exact .stuck fun symbol _ nonempty starts =>
      nonempty (String.toList_inj.mp (List.prefix_nil.mp starts))
  | @piece symbol later _ pieces member nonempty longest cuts induction =>
      have part : symbol.toList ++ pieces.flatMap String.toList <+: symbol.toList ++ later :=
        (List.prefix_append_right_inj _).mpr ⟨_, cuts.flatMap_append⟩
      exact .piece member nonempty
        (fun other given starts => longest other given (starts.trans part)) induction

/-! ## The longest symbol

Symbols are compared by their bytes. Among the texts with which one text begins, those of
more bytes are those of more characters, so it makes no difference which are counted. -/

theorem utf8ByteSize_le_iff {left right : String} (leftStarts : left.toList <+: text)
    (rightStarts : right.toList <+: text) :
    left.utf8ByteSize ≤ right.utf8ByteSize ↔ left.length ≤ right.length := by
  have extend {part whole : String} (starts : part.toList <+: whole.toList) :
      ∃ more, part ++ more = whole := by
    rcases starts with ⟨more, whole⟩
    refine ⟨String.ofList more, String.toList_inj.mp ?_⟩
    rw [String.toList_append, String.toList_ofList, whole]
  rcases List.prefix_or_prefix_of_prefix leftStarts rightStarts with starts | starts
  · rcases extend starts with ⟨more, rfl⟩
    simp only [String.utf8ByteSize_append, String.length_append, Nat.le_add_right]
  · rcases extend starts with ⟨more, rfl⟩
    have empty : more.utf8ByteSize = 0 ↔ more.length = 0 :=
      String.utf8ByteSize_eq_zero_iff.trans String.length_eq_zero_iff.symm
    rw [String.utf8ByteSize_append, String.length_append]
    omega

/-- Whether a symbol fits at the start of a text, and no other one that does has more
bytes. -/
structure Longest (symbols : List String) (text : List Char) (symbol : String) : Prop where
  mem : symbol ∈ symbols
  starts : symbol.toList <+: text
  longest : ∀ other ∈ symbols, other.toList <+: text →
    other.utf8ByteSize ≤ symbol.utf8ByteSize

theorem longest?_eq_some_iff (proper : "" ∉ symbols) :
    longest? symbols text = some symbol ↔ Longest symbols text symbol := by
  constructor
  · intro found
    rcases of_longest?_eq_some found with ⟨member, _, starts, longest⟩
    refine ⟨member, starts, fun other otherMember otherStarts => ?_⟩
    exact (utf8ByteSize_le_iff otherStarts starts).mpr
      (longest other otherMember otherStarts)
  · intro found
    rcases found with ⟨member, ⟨later, rfl⟩, longest⟩
    refine longest?_eq_some member (fun empty => proper (empty ▸ member)) ?_
    intro other otherMember otherStarts
    exact (utf8ByteSize_le_iff otherStarts (List.prefix_append _ _)).mp
      (longest other otherMember otherStarts)

theorem Cuts.longest (cuts : Cuts symbols text pieces rest) {before after : List String}
    {piece : String} (split : pieces = before ++ piece :: after) :
    Longest symbols ((piece :: after).flatMap String.toList ++ rest) piece := by
  induction cuts generalizing before with
  | stuck => cases before <;> cases split
  | @piece symbol later rest pieces member _ longest cuts induction =>
      cases before with
      | cons first before =>
          cases split
          exact induction rfl
      | nil =>
          cases split
          rw [List.flatMap_cons, List.append_assoc, cuts.flatMap_append]
          refine ⟨member, List.prefix_append _ _, fun other otherMember otherStarts => ?_⟩
          exact (utf8ByteSize_le_iff otherStarts (List.prefix_append _ _)).mpr
            (longest other otherMember otherStarts)

/-! ## One piece after the other -/

inductive Step (symbols : List String) : Segmentation → Segmentation → Prop
  | take (pieces : List String) (symbol : String) (rest : List Char) :
      symbol.toList ++ rest ≠ [] → Longest symbols (symbol.toList ++ rest) symbol →
      Step symbols ⟨pieces, symbol.toList ++ rest⟩ ⟨pieces ++ [symbol], rest⟩

/-- Taking one symbol after the other comes to an end, which is the cut, unless the empty
symbol can be taken. -/
theorem ends_cut (proper : "" ∉ symbols) (text : List Char) :
    Ends (Step symbols) (· = cut symbols text) ⟨[], text⟩ := by
  apply Ends.of_invariant
    (fun state => cut symbols text =
      ⟨state.pieces ++ (cut symbols state.rest).pieces, (cut symbols state.rest).rest⟩)
    (·.rest.length)
  case keep =>
    intro state later whole taken
    rcases taken with ⟨pieces, symbol, rest, _, longest⟩
    have found := (longest?_eq_some_iff proper).mpr longest
    have dropped : (symbol.toList ++ rest).drop symbol.length = rest := by
      rw [← String.length_toList, List.drop_left]
    have shorter := length_drop_lt found
    rw [dropped] at shorter
    refine ⟨?_, shorter⟩
    rw [whole, cut_of_longest?_eq_some found, dropped, List.append_assoc]
    rfl
  case finish =>
    intro state whole stopped
    have stuck : longest? symbols state.rest = none := by
      cases found : longest? symbols state.rest with
      | none => rfl
      | some symbol =>
          rcases state with ⟨pieces, left⟩
          have nonempty : left ≠ [] := by
            have positive := length_pos_of_longest? found
            have bound := length_le_of_longest? found
            exact List.ne_nil_of_length_pos (Nat.lt_of_lt_of_le positive bound)
          have longest := (longest?_eq_some_iff proper).mp found
          rcases longest.starts with ⟨rest, rfl⟩
          exact absurd (.take pieces symbol rest nonempty longest) (stopped _)
    rw [whole, cut_of_longest?_eq_none stuck, List.append_nil]
  case begins => rfl

end WordAutomata.Segmentation
