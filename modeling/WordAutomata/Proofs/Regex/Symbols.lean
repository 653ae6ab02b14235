import WordAutomata.Proofs.Nfa.Thompson

namespace WordAutomata

/-! The symbols of an expression are those that occur in the words of its
language, and those on which its automaton moves. -/

namespace Language

variable {language : Language String} {symbol : String}

theorem exists_mem_of_mem_pow {count : Nat} {word : List String}
    (member : word ∈ language ^ count) (occurs : symbol ∈ word) :
    ∃ factor ∈ language, symbol ∈ factor := by
  induction count generalizing word with
  | zero =>
      rw [pow_zero, Language.mem_one] at member
      subst member
      exact absurd occurs List.not_mem_nil
  | succ count induction =>
      rw [pow_succ'] at member
      rcases Language.mem_mul.mp member with ⟨first, firstMember, rest, restMember, rfl⟩
      rcases List.mem_append.mp occurs with occurs | occurs
      · exact ⟨first, firstMember, occurs⟩
      · exact induction restMember occurs

theorem exists_mem_pow (nonempty : ∃ word, word ∈ language) (count : Nat) :
    ∃ word, word ∈ language ^ count := by
  rcases nonempty with ⟨word, member⟩
  induction count with
  | zero => exact ⟨[], Language.nil_mem_one⟩
  | succ count induction =>
      rcases induction with ⟨rest, restMember⟩
      rw [pow_succ']
      exact ⟨word ++ rest, Language.append_mem_mul member restMember⟩

theorem exists_mem_iff_of_powers {whole : Language String} {count : Nat}
    (positive : 0 < count)
    (powers : ∀ word ∈ whole, ∃ copies, word ∈ language ^ copies)
    (included : ∀ word ∈ language ^ count, word ∈ whole) :
    (∃ word ∈ whole, symbol ∈ word) ↔ ∃ word ∈ language, symbol ∈ word := by
  constructor
  · intro given
    rcases given with ⟨word, member, occurs⟩
    rcases powers word member with ⟨copies, member⟩
    exact exists_mem_of_mem_pow member occurs
  · intro given
    rcases given with ⟨word, member, occurs⟩
    rcases exists_mem_pow ⟨word, member⟩ (count - 1) with ⟨rest, restMember⟩
    refine ⟨word ++ rest, included _ ?_, List.mem_append_left rest occurs⟩
    rw [← Nat.sub_add_cancel positive, pow_succ']
    exact Language.append_mem_mul member restMember

theorem exists_mem_mul_iff {left right : Language String} (leftNonempty : ∃ word, word ∈ left)
    (rightNonempty : ∃ word, word ∈ right) :
    (∃ word ∈ left * right, symbol ∈ word) ↔
      (∃ word ∈ left, symbol ∈ word) ∨ ∃ word ∈ right, symbol ∈ word := by
  constructor
  · intro given
    rcases given with ⟨word, member, occurs⟩
    rcases Language.mem_mul.mp member with ⟨first, firstMember, second, secondMember, rfl⟩
    rcases List.mem_append.mp occurs with occurs | occurs
    · exact .inl ⟨first, firstMember, occurs⟩
    · exact .inr ⟨second, secondMember, occurs⟩
  · intro either
    rcases either with ⟨first, firstMember, occurs⟩ | ⟨second, secondMember, occurs⟩
    · rcases rightNonempty with ⟨second, secondMember⟩
      exact ⟨first ++ second, Language.append_mem_mul firstMember secondMember,
        List.mem_append_left second occurs⟩
    · rcases leftNonempty with ⟨first, firstMember⟩
      exact ⟨first ++ second, Language.append_mem_mul firstMember secondMember,
        List.mem_append_right first occurs⟩

theorem not_exists_mem_one : ¬ ∃ word ∈ (1 : Language String), symbol ∈ word := by
  intro given
  rcases given with ⟨word, member, occurs⟩
  rw [Language.mem_one] at member
  subst member
  exact List.not_mem_nil occurs

end Language

namespace Regex

open Edge

variable {symbol : String}

/-! ## Languages -/

theorem language_nonempty (expression : Regex) :
    ∃ word, word ∈ expression.language := by
  induction expression with
  | literal symbol =>
      rw [language_literal]
      exact ⟨_, rfl⟩
  | seq _ _ left right =>
      rcases left with ⟨first, firstMember⟩
      rcases right with ⟨second, secondMember⟩
      exact ⟨first ++ second, Language.append_mem_mul firstMember secondMember⟩
  | or _ _ left _ =>
      rcases left with ⟨word, member⟩
      exact ⟨word, .inl member⟩
  | star body _ => exact ⟨[], Language.nil_mem_kstar body.language⟩
  | exactly _ count body => exact Language.exists_mem_pow body count.toNat
  | between _ low high body =>
      rcases Language.exists_mem_pow body high.toNat with ⟨word, member⟩
      exact ⟨word, high.toNat, Nat.min_le_right _ _, le_rfl, member⟩
  | atLeast _ low body =>
      rcases Language.exists_mem_pow body low.toNat with ⟨word, member⟩
      exact ⟨word, low.toNat, le_rfl, member⟩

/-- The symbols are those that occur in some word. -/
theorem mem_symbols_iff {expression : Regex} :
    symbol ∈ expression.symbols ↔ ∃ word ∈ expression.language, symbol ∈ word := by
  induction expression with
  | literal other =>
      rw [symbols, language]
      split
      · simp only [OrderedSet.not_mem_empty, Language.not_exists_mem_one]
      · rw [OrderedSet.mem_singleton]
        constructor
        · intro equal
          subst equal
          exact ⟨_, rfl, List.mem_singleton_self symbol⟩
        · intro given
          rcases given with ⟨_, rfl, occurs⟩
          exact List.mem_singleton.mp occurs
  | seq left right leftInduction rightInduction =>
      rw [mem_symbols_seq, leftInduction, rightInduction]
      exact (Language.exists_mem_mul_iff left.language_nonempty right.language_nonempty).symm
  | or left right leftInduction rightInduction =>
      rw [mem_symbols_or, leftInduction, rightInduction]
      simp only [language, Language.mem_add, or_and_right, exists_or]
  | star body induction =>
      rw [symbols, induction, language, Language.kstar_eq_iSup_pow]
      apply (Language.exists_mem_iff_of_powers Nat.one_pos ?_ ?_).symm
      · exact fun word member => Language.mem_iSup.mp member
      · exact fun word member => Language.mem_iSup.mpr ⟨1, member⟩
  | exactly body count induction =>
      rw [symbols, language]
      split
      · rename_i zero
        rw [zero, UInt32.toNat_zero, pow_zero]
        simp only [OrderedSet.not_mem_empty, Language.not_exists_mem_one]
      · rename_i nonzero
        rw [induction]
        apply (Language.exists_mem_iff_of_powers (toNat_pos nonzero) ?_ ?_).symm
        · exact fun word member => ⟨_, member⟩
        · exact fun word member => member
  | between body low high induction =>
      rw [symbols, language]
      split
      · rename_i zero
        simp only [OrderedSet.not_mem_empty, false_iff]
        intro given
        rcases given with ⟨word, ⟨copies, _, upper, member⟩, occurs⟩
        rw [zero, UInt32.toNat_zero, Nat.le_zero] at upper
        rw [upper, pow_zero] at member
        exact Language.not_exists_mem_one ⟨word, member, occurs⟩
      · rename_i nonzero
        rw [induction]
        apply (Language.exists_mem_iff_of_powers (toNat_pos nonzero) ?_ ?_).symm
        · intro word given
          rcases given with ⟨copies, _, _, member⟩
          exact ⟨copies, member⟩
        · exact fun word member => ⟨high.toNat, Nat.min_le_right _ _, le_rfl, member⟩
  | atLeast body low induction =>
      rw [symbols, induction, language]
      apply (Language.exists_mem_iff_of_powers (Nat.succ_pos low.toNat) ?_ ?_).symm
      · intro word given
        rcases given with ⟨copies, _, member⟩
        exact ⟨copies, member⟩
      · exact fun word member => ⟨_, Nat.le_succ _, member⟩

theorem symbols_eq_of_language_eq {left right : Regex}
    (same : left.language = right.language) :
    left.symbols = right.symbols := by
  apply OrderedSet.ext
  intro symbol
  rw [mem_symbols_iff, mem_symbols_iff, same]

/-! ## Automata -/

section

variable {expression left right body : Regex}

theorem mem_symbols_of_mem_chain {edge : Edge} {count base : Nat}
    (induction : ∀ {base}, edge ∈ body.edges base → symbol ∈ body.symbols)
    (label : edge.label = some symbol) (member : edge ∈ body.layout.chain count base) :
    0 < count ∧ symbol ∈ body.symbols := by
  rcases Layout.mem_chain.mp member with ⟨copy, inside, member⟩ | ⟨copy, inside, rfl⟩
  · exact ⟨Nat.lt_of_le_of_lt (Nat.zero_le copy) inside, induction member⟩
  · cases label

theorem mem_symbols_of_mem_edges_star {edge : Edge} {base : Nat}
    (induction : ∀ {base}, edge ∈ body.edges base → symbol ∈ body.symbols)
    (label : edge.label = some symbol) (member : edge ∈ (star body).edges base) :
    symbol ∈ body.symbols := by
  simp only [edges, loop, List.mem_append, List.mem_cons, List.not_mem_nil, or_false] at member
  rcases member with member | rfl | rfl | rfl | rfl
  · exact induction member
  all_goals cases label

theorem mem_symbols_of_mem_edges {edge : Edge} {base : Nat}
    (label : edge.label = some symbol)
    (member : edge ∈ expression.edges base) : symbol ∈ expression.symbols := by
  induction expression generalizing base with
  | literal other =>
      rw [edges, List.mem_singleton] at member
      subst member
      rw [Label.ofLiteral] at label
      rw [symbols]
      split at label
      · cases label
      · rename_i different
        cases label
        rw [if_neg different]
        exact OrderedSet.mem_singleton.mpr rfl
  | seq left right leftInduction rightInduction =>
      simp only [edges, List.mem_append, List.mem_singleton] at member
      rw [mem_symbols_seq]
      rcases member with (member | member) | rfl
      · exact .inl (leftInduction member)
      · exact .inr (rightInduction member)
      · cases label
  | or left right leftInduction rightInduction =>
      simp only [edges, List.mem_append, List.mem_cons, List.not_mem_nil,
        or_false] at member
      rw [mem_symbols_or]
      rcases member with (member | member) | rfl | rfl | rfl | rfl
      · exact .inl (leftInduction member)
      · exact .inr (rightInduction member)
      all_goals cases label
  | star body induction =>
      rw [symbols]
      exact mem_symbols_of_mem_edges_star induction label member
  | exactly body count induction =>
      rw [edges] at member
      rw [symbols]
      split at member
      · rw [List.mem_singleton.mp member] at label
        cases label
      · rename_i nonzero
        rw [if_neg nonzero]
        exact (mem_symbols_of_mem_chain induction label member).2
  | between body low high induction =>
      rw [symbols]
      rcases mem_edges_between.mp member with member | ⟨_, rfl⟩ | ⟨_, _, _, rfl⟩
      · rcases mem_symbols_of_mem_chain induction label member with ⟨positive, occurs⟩
        have nonzero : high ≠ 0 := by
          intro zero
          rw [zero, UInt32.toNat_zero] at positive
          omega
        rw [if_neg nonzero]
        exact occurs
      all_goals cases label
  | atLeast body low induction =>
      rw [symbols]
      by_cases zero : low = 0
      · rw [zero, edges_atLeast_zero] at member
        exact mem_symbols_of_mem_edges_star induction label member
      · rcases (mem_edges_atLeast zero).mp member with member | rfl | rfl
        · exact (mem_symbols_of_mem_chain induction label member).2
        all_goals cases label

end

theorem alphabet_ofRegex (expression : Regex) :
    (Nfa.ofRegex expression).alphabet = expression.symbols := by
  apply OrderedSet.ext
  intro symbol
  constructor
  · intro member
    rcases Nfa.exists_edge_of_mem_alphabet member with ⟨edge, edgeMember, label⟩
    exact mem_symbols_of_mem_edges label edgeMember
  · intro member
    rcases mem_symbols_iff.mp member with ⟨word, wordMember, occurs⟩
    exact (Nfa.path_ofRegex_iff.mpr wordMember).forall_mem_alphabet symbol occurs

end Regex

end WordAutomata
