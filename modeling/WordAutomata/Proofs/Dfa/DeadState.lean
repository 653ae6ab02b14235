import WordAutomata.Proofs.Compile
import WordAutomata.Proofs.Dfa.SubsetStates
import WordAutomata.Proofs.Nfa.Trim

namespace WordAutomata.Dfa

/-! When an automaton can come to its final state from everywhere, its subset
construction has no state from which nothing is accepted but the empty set. -/

variable {nfa : Nfa} {state other : Nat} {word : List String} {expression : Regex}

section

variable (inRange : nfa.InRange)
  (leaves : ∀ state < nfa.size, ∃ word, nfa.Path state word nfa.final)
include inRange leaves

theorem not_path_of_dead (dead : ∀ more, (ofNfa nfa).decides state more = false)
    (leads : (ofNfa nfa).follow? (ofNfa nfa).start word = some state) (target : Nat) :
    ¬ nfa.Path nfa.start word target := by
  intro path
  rcases leaves target (inRange.lt_size_of_path inRange.start path) with ⟨more, rest⟩
  have whole := path.append rest
  have accepted := decides_ofNfa inRange whole.forall_mem_alphabet
  rw [inRange.accepts_iff.mpr whole, decides_append, leads, Option.any_some, dead] at accepted
  cases accepted

/-- A dead state is what the words lead to that no run is left after. -/
theorem follow?_eq_dead_iff (dead : (ofNfa nfa).live[state]? = some false) :
    (ofNfa nfa).follow? (ofNfa nfa).start word = some state ↔
      (∀ symbol ∈ word, symbol ∈ nfa.alphabet) ∧
        ∀ target, ¬ nfa.Path nfa.start word target := by
  rw [(inRange_ofNfa inRange).getElem?_live_eq_some_false_iff] at dead
  rcases dead with ⟨inside, dead⟩
  constructor
  · intro leads
    exact ⟨closed_ofNfa.forall_mem_alphabet leads,
      not_path_of_dead inRange leaves dead leads⟩
  · intro given
    rcases given with ⟨allKnown, stuck⟩
    rcases exists_follow?_ofNfa inRange inside with ⟨access, leads⟩
    have accessStuck := not_path_of_dead inRange leaves dead leads
    have accessKnown := closed_ofNfa.forall_mem_alphabet leads
    rw [← leads, follow?_start_ofNfa_eq_iff inRange allKnown accessKnown]
    exact fun target => iff_of_false (stuck target) (accessStuck target)

theorem dead_unique (dead : (ofNfa nfa).live[state]? = some false)
    (otherDead : (ofNfa nfa).live[other]? = some false) : state = other := by
  have inside := ((inRange_ofNfa inRange).getElem?_live_eq_some_false_iff.mp dead).1
  rcases exists_follow?_ofNfa inRange inside with ⟨access, leads⟩
  have stuck := (follow?_eq_dead_iff inRange leaves dead).mp leads
  have otherLeads := (follow?_eq_dead_iff inRange leaves otherDead).mpr stuck
  exact Option.some.inj (leads.symm.trans otherLeads)

end

/-! ## Expressions -/

theorem exists_accepts_of_mem_alphabet {symbol : String}
    (member : symbol ∈ (Nfa.ofRegex expression).alphabet) :
    ∃ word, (Nfa.ofRegex expression).accepts word ∧ symbol ∈ word := by
  rw [Regex.alphabet_ofRegex, Regex.mem_symbols_iff] at member
  rcases member with ⟨word, accepted, occurs⟩
  exact ⟨word, (Nfa.accepts_ofRegex_iff expression word).mpr accepted, occurs⟩

theorem exists_next?_minimize_of_mem_alphabet {symbol : String}
    (member : symbol ∈ (Nfa.ofRegex expression).alphabet) :
    ∃ source target, (ofRegex expression).minimize.next? source symbol = some target := by
  rw [Regex.alphabet_ofRegex] at member
  exact (Compiled.minimal : Compiled expression _).mem_symbols_iff.mp member

/-- The automaton of an expression has no state and no symbol that no accepted word
needs. Its subset construction has at most one dead state, the one that stands for no
state at all, and minimization leaves a transition for every symbol. -/
theorem ofRegex_spec (expression : Regex) :
    let nfa := Nfa.ofRegex expression
    let dfa := ofRegex expression
    (∀ state < nfa.size, (∃ word, nfa.Path nfa.start word state) ∧
        ∃ word, nfa.Path state word nfa.final) ∧
      (∃ word, nfa.accepts word) ∧
      (∀ symbol ∈ nfa.alphabet, ∃ word, nfa.accepts word ∧ symbol ∈ word) ∧
      (∀ state other : Nat, dfa.live[state]? = some false → dfa.live[other]? = some false →
        state = other) ∧
      (∀ state : Nat, dfa.live[state]? = some false → ∀ word,
        (dfa.follow? dfa.start word = some state ↔
          (∀ symbol ∈ word, symbol ∈ nfa.alphabet) ∧
            ∀ target, ¬ nfa.Path nfa.start word target)) ∧
      ∀ symbol ∈ nfa.alphabet, ∃ source target,
        dfa.minimize.next? source symbol = some target := by
  intro nfa dfa
  have inRange : nfa.InRange := Nfa.inRange_ofRegex expression
  have ways (state : Nat) (inside : state < nfa.size) :=
    Nfa.exists_paths_ofRegex expression inside
  have leaves (state : Nat) (inside : state < nfa.size) := (ways state inside).2
  refine ⟨ways, ?accepted, fun symbol member => exists_accepts_of_mem_alphabet member,
    fun state other dead otherDead => dead_unique inRange leaves dead otherDead,
    fun state dead word => follow?_eq_dead_iff inRange leaves dead,
    fun symbol member => exists_next?_minimize_of_mem_alphabet member⟩
  case accepted =>
    rcases expression.language_nonempty with ⟨word, member⟩
    exact ⟨word, (Nfa.accepts_ofRegex_iff expression word).mpr member⟩

/-- The only accepted word begins with the other symbol. -/
theorem ofRegex_spec_of_dead_state :
    let expression := Regex.seq (.literal "a") (.literal "b")
    (ofRegex expression).live[2]? = some false ∧
      ∀ target, ¬ (Nfa.ofRegex expression).Path (Nfa.ofRegex expression).start ["b"]
        target := by
  intro expression
  have dead : (ofRegex expression).live[2]? = some false := by decide +kernel
  have leads : (ofRegex expression).follow? (ofRegex expression).start ["b"] = some 2 := by
    decide +kernel
  rcases ofRegex_spec expression with ⟨_, _, _, _, reached, _⟩
  exact ⟨dead, ((reached 2 dead ["b"]).mp leads).2⟩

end WordAutomata.Dfa
