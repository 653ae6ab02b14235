namespace WordAutomata

/-! Cutting a text from left to right into the longest symbols that fit. -/

namespace Segmentation

/-- The longest of the symbols that the text starts with. The empty symbol
never counts, because taking it would leave the text as it was. -/
def longest? (symbols : List String) (text : List Char) : Option String :=
  (symbols.filter fun symbol =>
    symbol ≠ "" && symbol.toList.isPrefixOf text).maxOn? String.length

example : longest? ["a", "ab", "b"] ['a', 'b', 'b'] = some "ab" := by decide

example : longest? ["", "b"] ['a'] = none := by decide

theorem of_longest?_eq_some {symbols : List String} {text : List Char}
    {symbol : String} (found : longest? symbols text = some symbol) :
    symbol ∈ symbols ∧ symbol ≠ "" ∧ symbol.toList <+: text ∧
      ∀ other ∈ symbols, other.toList <+: text → other.length ≤ symbol.length := by
  have member := List.maxOn?_mem found
  simp only [List.mem_filter, Bool.and_eq_true, decide_eq_true_eq,
    List.isPrefixOf_iff_prefix] at member
  refine ⟨member.1, member.2.1, member.2.2, fun other otherMember starts => ?_⟩
  by_cases empty : other = ""
  · simp [empty]
  · have candidate : other ∈ symbols.filter fun symbol =>
        symbol ≠ "" && symbol.toList.isPrefixOf text := by
      simp [List.mem_filter, otherMember, empty, starts]
    have bound := List.le_apply_get_maxOn?_of_mem (f := String.length) candidate
    have equal := Option.get_of_eq_some (List.isSome_maxOn?_of_mem candidate) found
    rwa [equal] at bound

theorem longest?_eq_none_iff {symbols : List String} {text : List Char} :
    longest? symbols text = none ↔
      ∀ symbol ∈ symbols, symbol ≠ "" → ¬ symbol.toList <+: text := by
  rw [longest?, ← Option.not_isSome_iff_eq_none, List.isSome_maxOn?_iff,
    ne_eq, Classical.not_not, List.filter_eq_nil_iff]
  simp

theorem length_pos_of_longest? {symbols : List String} {text : List Char}
    {symbol : String} (found : longest? symbols text = some symbol) :
    0 < symbol.length := by
  have nonempty := (of_longest?_eq_some found).2.1
  exact Nat.pos_of_ne_zero fun zero => nonempty (by simpa using zero)

theorem length_le_of_longest? {symbols : List String} {text : List Char}
    {symbol : String} (found : longest? symbols text = some symbol) :
    symbol.length ≤ text.length := by
  rw [← String.length_toList]
  exact (of_longest?_eq_some found).2.2.1.length_le

theorem length_drop_lt {symbols : List String} {text : List Char} {symbol : String}
    (found : longest? symbols text = some symbol) :
    (text.drop symbol.length).length < text.length := by
  have positive := length_pos_of_longest? found
  have bound := length_le_of_longest? found
  rw [List.length_drop]
  omega

end Segmentation

/-- A text cut as far as symbols fit: the symbols in order, and the text that
begins with none of them. -/
structure Segmentation where
  pieces : List String
  rest : List Char
deriving DecidableEq, Repr

namespace Segmentation

def cut (symbols : List String) (text : List Char) : Segmentation :=
  match _found : longest? symbols text with
  | none => ⟨[], text⟩
  | some symbol =>
      let later := cut symbols (text.drop symbol.length)
      ⟨symbol :: later.pieces, later.rest⟩
termination_by text.length
decreasing_by exact length_drop_lt _found

theorem cut_of_longest?_eq_none {symbols : List String} {text : List Char}
    (stuck : longest? symbols text = none) : cut symbols text = ⟨[], text⟩ := by
  rw [cut]
  split
  · rfl
  · rename_i found
    rw [stuck] at found
    cases found

theorem cut_of_longest?_eq_some {symbols : List String} {text : List Char}
    {symbol : String} (found : longest? symbols text = some symbol) :
    cut symbols text =
      ⟨symbol :: (cut symbols (text.drop symbol.length)).pieces,
        (cut symbols (text.drop symbol.length)).rest⟩ := by
  rw [cut]
  split
  · rename_i stuck
    rw [found] at stuck
    cases stuck
  · rename_i other otherFound
    rw [found] at otherFound
    cases otherFound
    rfl

theorem pieces_append_rest_cut (symbols : List String) (text : List Char) :
    (cut symbols text).pieces.flatMap String.toList ++ (cut symbols text).rest = text := by
  cases found : longest? symbols text with
  | none => simp [cut_of_longest?_eq_none found]
  | some symbol =>
      have starts : text.take symbol.length = symbol.toList := by
        rw [← String.length_toList]
        exact (List.prefix_iff_eq_take.mp (of_longest?_eq_some found).2.2.1).symm
      rw [cut_of_longest?_eq_some found]
      simp only [List.flatMap_cons, List.append_assoc]
      rw [pieces_append_rest_cut symbols (text.drop symbol.length), ← starts,
        List.take_append_drop]
termination_by text.length
decreasing_by exact length_drop_lt found

example : cut ["A", "AB"] ['A', 'A', 'B', 'x'] = ⟨["A", "AB"], ['x']⟩ := by
  decide +kernel

end Segmentation

end WordAutomata
