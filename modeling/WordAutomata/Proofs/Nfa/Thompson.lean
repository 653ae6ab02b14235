import WordAutomata.Proofs.Nfa.Repetitions
import WordAutomata.Proofs.Nfa.Simulation

namespace WordAutomata

/-! The automaton of an expression accepts the language of the expression. A walk
through it is read backwards from the exit: what remains to be read in a state depends
only on the part in which the state lies. -/

open Edge

namespace Regex

section

variable {left right : Regex} {base : Nat} {word : List String}

/-! ## Sequences -/

theorem mem_language_of_walk_seq (leftRecognizes : left.layout.Recognizes left.language)
    (rightRecognizes : right.layout.Recognizes right.language)
    (walk : Walk ((seq left right).edges base) base word ((seq left right).exit base)) :
    word ∈ (seq left right).language := by
  have leftExit := left.exit_mem base
  have rightExit := right.exit_mem (base + left.size)
  have reads := Walk.mem_of_backward (blockwise base left.size
    (left.layout.meaning right.language base)
    (right.layout.meaning 1 (base + left.size))) ?final ?backward walk
  case final =>
    rw [exit, blockwise_outside (by omega)]
    exact Layout.meaning_exit Language.nil_mem_one
  case backward =>
    intro edge member rest reads
    simp only [edges, List.mem_append, List.mem_singleton] at member
    rcases member with (member | member) | rfl
    -- What remains in the left part goes on with a word of the right one.
    · have inside := left.confined base edge member
      rw [blockwise_inside inside.2] at reads
      rw [blockwise_inside inside.1]
      exact Layout.meaning_edge member reads
    · have inside := right.confined _ edge member
      rw [blockwise_outside (by omega)] at reads ⊢
      exact Layout.meaning_edge member reads
    · simp only [jump] at reads ⊢
      rw [blockwise_outside (by omega), rightRecognizes.meaning_entry, mul_one] at reads
      rw [blockwise_inside leftExit]
      exact Layout.meaning_exit reads
  rwa [blockwise_inside (by omega), leftRecognizes.meaning_entry] at reads

theorem walk_seq (leftRecognizes : left.layout.Recognizes left.language)
    (rightRecognizes : right.layout.Recognizes right.language)
    (member : word ∈ (seq left right).language) :
    Walk ((seq left right).edges base) base word ((seq left right).exit base) := by
  rcases Language.mem_mul.mp member with ⟨first, firstMember, rest, restMember, rfl⟩
  rw [← leftRecognizes base] at firstMember
  rw [← rightRecognizes (base + left.size)] at restMember
  have firstWalk : Walk ((seq left right).edges base) base first (left.exit base) :=
    Walk.mono (fun edge member => by simp_all [edges, layout]) firstMember
  have restWalk : Walk ((seq left right).edges base) (base + left.size) rest
      (right.exit (base + left.size)) :=
    Walk.mono (fun edge member => by simp_all [edges, layout]) restMember
  have link : jump (left.exit base) (base + left.size) ∈
      (seq left right).edges base := by
    simp [edges]
  exact firstWalk.append (.jump link restWalk)

/-! ## Alternatives -/

theorem mem_language_of_walk_or (leftRecognizes : left.layout.Recognizes left.language)
    (rightRecognizes : right.layout.Recognizes right.language)
    (walk : Walk ((or left right).edges base) base word ((or left right).exit base)) :
    word ∈ (or left right).language := by
  have leftExit := left.exit_mem (base + 1)
  have rightExit := right.exit_mem (base + 1 + left.size)
  have reads := Walk.mem_of_backward (blockwise (base + 1) left.size
    (left.layout.meaning 1 (base + 1))
    (blockwise (base + 1 + left.size) right.size
      (right.layout.meaning 1 (base + 1 + left.size))
      (blockwise base 1 (fun _ => left.language + right.language) fun _ => 1)))
    ?final ?backward walk
  case final =>
    rw [exit, blockwise_outside (by omega), blockwise_outside (by omega),
      blockwise_outside (by omega)]
    exact Language.nil_mem_one
  case backward =>
    intro edge member rest reads
    simp only [edges, List.mem_append, List.mem_cons, List.not_mem_nil,
      or_false] at member
    rcases member with (member | member) | rfl | rfl | rfl | rfl
    -- Within a part, the part tells what remains.
    · have inside := left.confined _ edge member
      rw [blockwise_inside inside.2] at reads
      rw [blockwise_inside inside.1]
      exact Layout.meaning_edge member reads
    · have inside := right.confined _ edge member
      rw [blockwise_outside (by omega), blockwise_inside inside.2] at reads
      rw [blockwise_outside (by omega), blockwise_inside inside.1]
      exact Layout.meaning_edge member reads
    -- At the base, what remains is a word of one part or of the other.
    · simp only [jump] at reads ⊢
      rw [blockwise_inside (by omega), leftRecognizes.meaning_entry, mul_one] at reads
      rw [blockwise_outside (by omega), blockwise_outside (by omega),
        blockwise_inside (by omega)]
      exact .inl reads
    · simp only [jump] at reads ⊢
      rw [blockwise_outside (by omega), blockwise_inside (by omega),
        rightRecognizes.meaning_entry, mul_one] at reads
      rw [blockwise_outside (by omega), blockwise_outside (by omega),
        blockwise_inside (by omega)]
      exact .inr reads
    -- Behind the exit of a part, nothing remains.
    · simp only [jump] at reads ⊢
      rw [blockwise_outside (by omega), blockwise_outside (by omega),
        blockwise_outside (by omega)] at reads
      rw [blockwise_inside leftExit]
      exact Layout.meaning_exit reads
    · simp only [jump] at reads ⊢
      rw [blockwise_outside (by omega), blockwise_outside (by omega),
        blockwise_outside (by omega)] at reads
      rw [blockwise_outside (by omega), blockwise_inside rightExit]
      exact Layout.meaning_exit reads
  rwa [blockwise_outside (by omega), blockwise_outside (by omega),
    blockwise_inside (by omega)] at reads

theorem walk_or (leftRecognizes : left.layout.Recognizes left.language)
    (rightRecognizes : right.layout.Recognizes right.language)
    (member : word ∈ (or left right).language) :
    Walk ((or left right).edges base) base word ((or left right).exit base) := by
  have exit_eq : (or left right).exit base = base + 1 + left.size + right.size := by
    rw [exit]
    omega
  rcases member with member | member
  · rw [← leftRecognizes (base + 1)] at member
    have walk : Walk ((or left right).edges base) (base + 1) word
        (left.exit (base + 1)) :=
      Walk.mono (fun edge member => by simp_all [edges, layout]) member
    have entry : jump base (base + 1) ∈ (or left right).edges base := by simp [edges]
    have leave : jump (left.exit (base + 1)) ((or left right).exit base) ∈
        (or left right).edges base := by
      simp [edges, exit_eq]
    exact .jump entry (walk.leave leave)
  · rw [← rightRecognizes (base + 1 + left.size)] at member
    have walk : Walk ((or left right).edges base) (base + 1 + left.size) word
        (right.exit (base + 1 + left.size)) :=
      Walk.mono (fun edge member => by simp_all [edges, layout]) member
    have entry : jump base (base + 1 + left.size) ∈ (or left right).edges base := by
      simp [edges]
    have leave : jump (right.exit (base + 1 + left.size)) ((or left right).exit base) ∈
        (or left right).edges base := by
      simp [edges, exit_eq]
    exact .jump entry (walk.leave leave)

end

/-! ## Expressions -/

/-- The words that lead through the automaton of an expression are those of its
language. -/
theorem recognizes (expression : Regex) :
    expression.layout.Recognizes expression.language := by
  induction expression with
  | literal symbol => exact recognizes_literal symbol
  | seq _ _ left right =>
      exact .of_walks (fun _ _ walk => mem_language_of_walk_seq left right walk)
        fun _ _ member => walk_seq left right member
  | or _ _ left right =>
      exact .of_walks (fun _ _ walk => mem_language_of_walk_or left right walk)
        fun _ _ member => walk_or left right member
  | star _ body => exact recognizes_star body
  | exactly _ count body => exact recognizes_exactly body count
  | between _ _ _ body =>
      exact .of_walks (fun _ _ walk => mem_language_of_walk_between body walk)
        fun _ _ member => walk_between body member
  | atLeast _ low body => exact recognizes_atLeast body low

end Regex

/-! ## Automata -/

namespace Nfa

theorem inRange_ofRegex (expression : Regex) : (ofRegex expression).InRange := by
  apply inRange_ofEdges
  · have exit := expression.exit_mem 0
    omega
  · intro edge member
    have inside := expression.confined 0 edge member
    omega

theorem final_lt_size_ofRegex (expression : Regex) :
    (ofRegex expression).final < (ofRegex expression).size := by
  have inside := (expression.exit_mem 0).2
  rw [Nat.zero_add] at inside
  rwa [ofRegex, size_ofEdges]

theorem path_ofRegex_iff_walk {expression : Regex} {source target : Nat}
    {word : List String} :
    (ofRegex expression).Path source word target ↔
      Walk (expression.edges 0) source word target := by
  apply path_ofEdges_iff
  intro edge member
  have confined := expression.confined 0 edge member
  omega

theorem path_ofRegex_iff {expression : Regex} {word : List String} :
    (ofRegex expression).Path (ofRegex expression).start word
        (ofRegex expression).final ↔
      word ∈ expression.language := by
  rw [path_ofRegex_iff_walk, ← expression.recognizes 0]
  exact Iff.rfl

/-- The automaton of an expression accepts the words of its language, whatever
tree the expression is. -/
theorem accepts_ofRegex_iff (expression : Regex) (word : List String) :
    (ofRegex expression).accepts word = true ↔ word ∈ expression.language := by
  rw [(inRange_ofRegex expression).accepts_iff]
  exact path_ofRegex_iff

end Nfa

end WordAutomata
