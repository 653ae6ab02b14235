import WordAutomata.Proofs.Dfa.Runs

namespace WordAutomata.Dfa

/-! How a text is split into the symbols of an automaton: without loss, each time as long a
symbol as there is, and up to the place where none fits. -/

open Segmentation

variable {dfa : Dfa} {text : String} {pieces : List String} {rest : List Char}
  {failure : Error}

theorem split_eq_ok_iff :
    dfa.split text = .ok pieces ↔ Cuts dfa.alphabet.toList text.toList pieces [] := by
  constructor
  · intro splits
    have cuts := cuts_cut dfa.alphabet.toList text.toList
    rw [split_of_cuts cuts] at splits
    split at splits
    case isTrue ended =>
      rw [ended] at cuts
      cases splits
      exact cuts
    case isFalse => cases splits
  · exact fun cuts => (split_of_cuts cuts).trans (if_pos rfl)

theorem exists_cuts_of_split (fails : dfa.split text = .error failure) :
    ∃ pieces rest, Cuts dfa.alphabet.toList text.toList pieces rest ∧ rest ≠ [] ∧
      failure = .usage (.unsplittable text (String.join pieces).utf8ByteSize) := by
  have cuts := cuts_cut dfa.alphabet.toList text.toList
  rw [split_of_cuts cuts] at fails
  split at fails
  case isTrue => cases fails
  case isFalse stuck =>
    cases fails
    exact ⟨_, _, cuts, stuck, rfl⟩

theorem utf8ByteSize_join (cuts : Cuts dfa.alphabet.toList text.toList pieces rest) :
    (String.join pieces).utf8ByteSize =
      text.utf8ByteSize - (String.ofList rest).utf8ByteSize := by
  rw [← cuts.join_append, String.utf8ByteSize_append, Nat.add_sub_cancel]

theorem runText_eq_error_iff :
    dfa.runText text = .error failure ↔ dfa.split text = .error failure := by
  have cuts := cuts_cut dfa.alphabet.toList text.toList
  rw [runText_of_cuts cuts, split_of_cuts cuts]
  split
  case isTrue => exact ⟨nofun, nofun⟩
  case isFalse => rw [Except.error.injEq, Except.error.injEq]

/-- Over symbols that are not empty, taking the longest symbol time and again comes to an
end. A text that is used up is put together from the symbols taken, each of which is the
longest in its place. Otherwise the reported byte is where what was taken ends: the text
before it can be split, and no symbol fits behind it. An automaton has an answer to every
text that can be split. -/
theorem split_spec (proper : "" ∉ dfa.alphabet) (text : String) :
    Ends (Step dfa.alphabet.toList)
        (fun state => dfa.split text =
          if state.rest = [] then .ok state.pieces
          else .error (.usage (.unsplittable text
            (text.utf8ByteSize - (String.ofList state.rest).utf8ByteSize))))
        ⟨[], text.toList⟩ ∧
      (∀ pieces, dfa.split text = .ok pieces → String.join pieces = text ∧
        ∀ before piece after, pieces = before ++ piece :: after →
          Longest dfa.alphabet.toList (String.join (piece :: after)).toList piece) ∧
      (∀ failure, dfa.split text = .error failure → ∃ before after : String,
        text = before ++ after ∧ after ≠ "" ∧
          failure = .usage (.unsplittable text before.utf8ByteSize) ∧
          (∃ pieces, dfa.split before = .ok pieces) ∧
          ∀ symbol ∈ dfa.alphabet, ¬ symbol.toList <+: after.toList) ∧
      ∀ failure, dfa.runText text = .error failure ↔ dfa.split text = .error failure := by
  refine ⟨?ends, ?lossless, ?stuck, fun failure => runText_eq_error_iff⟩
  case ends =>
    refine (ends_cut proper text.toList).imp fun state done => ?_
    have cuts := cuts_cut dfa.alphabet.toList text.toList
    rw [split_of_cuts cuts, utf8ByteSize_join cuts, done]
  case lossless =>
    intro pieces splits
    have cuts := split_eq_ok_iff.mp splits
    refine ⟨?_, fun before piece after divided => ?_⟩
    · have whole := cuts.join_append
      rwa [String.ofList_nil, String.append_empty] at whole
    · have longest := cuts.longest divided
      rwa [List.append_nil, ← String.toList_join] at longest
  case stuck =>
    intro failure fails
    rcases exists_cuts_of_split fails with ⟨pieces, rest, cuts, left, rfl⟩
    refine ⟨String.join pieces, String.ofList rest, cuts.join_append.symm, fun empty => ?_,
      rfl, ⟨pieces, ?_⟩, fun symbol member => ?_⟩
    · have none := congrArg String.toList empty
      rw [String.toList_ofList] at none
      exact left none
    · rw [split_eq_ok_iff, String.toList_join]
      exact cuts.without_rest
    · rw [String.toList_ofList]
      exact cuts.stuck_rest symbol member fun empty => proper (empty ▸ member)

theorem split_spec_of_multibyte_symbols :
    let dfa : Dfa := ⟨.ofList ["a", "ab", "é", "éa"], [.empty], 0, .empty⟩
    "" ∉ dfa.alphabet ∧ dfa.split "éaabaé" = .ok ["éa", "ab", "a", "é"] ∧
      Longest dfa.alphabet.toList "abaé".toList "ab" ∧
      dfa.split "éaéabb" = .error (.usage (.unsplittable "éaéabb" 6)) ∧
      ∃ before after, "éaéabb" = before ++ after ∧ before.utf8ByteSize = 6 ∧
        ∃ pieces, dfa.split before = .ok pieces := by
  intro dfa
  have proper : "" ∉ dfa.alphabet := by decide
  have splits : dfa.split "éaabaé" = .ok ["éa", "ab", "a", "é"] := by decide +kernel
  have fails : dfa.split "éaéabb" = .error (.usage (.unsplittable "éaéabb" 6)) := by
    decide +kernel
  refine ⟨proper, splits, ?_, fails, ?_⟩
  · rcases split_spec proper "éaabaé" with ⟨_, lossless, _, _⟩
    exact (lossless _ splits).2 ["éa"] "ab" ["a", "é"] rfl
  · rcases split_spec proper "éaéabb" with ⟨_, _, stuck, _⟩
    rcases stuck _ fails with ⟨before, after, divided, _, place, parts, _⟩
    simp only [Error.usage.injEq, UsageFault.unsplittable.injEq, true_and] at place
    exact ⟨before, after, divided, place.symm, parts⟩

end WordAutomata.Dfa
