import WordAutomata.Proofs.Dfa.Minimal
import WordAutomata.Proofs.Segmentation

namespace WordAutomata.Dfa

/-! What minimization does to the answers, reports of foreign symbols included. States
from which nothing is accepted are dropped, so a run may end before it comes to a
foreign symbol. -/

variable {dfa : Dfa} {state : Nat} {symbol : String} {word : List String}

/-! ## Dead ends

A word comes to a dead end if it takes some steps to a state from which no accepting state
can be reached. Minimization drops such states, so there the run is cut short. -/

def DeadEnd (dfa : Dfa) (word : List String) : Prop :=
  word ≠ [] ∧ ∃ state, dfa.follow? dfa.start word = some state ∧
    ∀ more target, dfa.follow? state more = some target → target ∉ dfa.accepting

theorem follow?_void (alphabet : OrderedSet String) (word : List String) :
    (void alphabet).follow? (void alphabet).start word =
      if word = [] then some (void alphabet).start else none := by
  cases word with
  | nil => rfl
  | cons symbol rest => rfl

namespace InRange

variable (inRange : dfa.InRange)
include inRange

theorem deadEnd_iff (nonempty : word ≠ [])
    (leads : dfa.follow? dfa.start word = some state) :
    dfa.DeadEnd word ↔ state ∉ dfa.useful := by
  have useless : state ∉ dfa.useful ↔ ¬ ∃ more, dfa.decides state more := by
    rw [inRange.mem_useful, not_and]
    exact ⟨fun given => given ⟨word, leads⟩, fun given _ => given⟩
  rw [DeadEnd, useless]
  simp [nonempty, leads, decides_iff, isAccepting]

/-- Minimization cuts a run short where it comes to a dead end, and nowhere else. -/
theorem isSome_follow?_minimize_iff
    (allKnown : ∀ symbol ∈ word, symbol ∈ dfa.alphabet) :
    (dfa.minimize.follow? dfa.minimize.start word).isSome ↔
      (dfa.follow? dfa.start word).isSome ∧ ¬ dfa.DeadEnd word := by
  by_cases empty : word = []
  · subst empty
    simp [follow?, DeadEnd]
  cases found : dfa.merged.classOf? dfa.start with
  | some start =>
      rw [minimize_of_classOf?_eq_some found]
      change ((dfa.quotient dfa.merged start).follow? start word).isSome ↔ _
      rw [inRange.follow?_quotient found allKnown]
      cases leads : dfa.follow? dfa.start word with
      | none => simp
      | some state =>
          rw [Option.bind_some, inRange.deadEnd_iff empty leads,
            (Partition.divides_coarsest dfa dfa.useful).isSome_classOf?_iff]
          simp
  | none =>
      rw [minimize_of_classOf?_eq_none found, follow?_void, if_neg empty]
      have useless : dfa.start ∉ dfa.useful := classOf?_eq_none_iff.mp found
      have reached : dfa.follow? dfa.start [] = some dfa.start := rfl
      cases leads : dfa.follow? dfa.start word with
      | none => simp
      | some state =>
          have deadEnd := (inRange.deadEnd_iff empty leads).mpr
            (inRange.not_mem_useful_of_follow? reached useless leads)
          simp [deadEnd]

/-! ## Answers

If a word comes to a dead end before its first foreign symbol, the report of that symbol
gives way to a rejection. All other answers stay. -/

theorem run_minimize_foreign {before after : List String}
    (allKnown : ∀ symbol ∈ before, symbol ∈ dfa.alphabet)
    (foreign : symbol ∉ dfa.alphabet) :
    (¬ dfa.DeadEnd before → dfa.minimize.run (before ++ symbol :: after) =
      dfa.run (before ++ symbol :: after)) ∧
    (dfa.DeadEnd before →
      dfa.run (before ++ symbol :: after) = .error (.usage (.foreignSymbol symbol)) ∧
        dfa.minimize.run (before ++ symbol :: after) = .ok false) := by
  have minimalKnown : ∀ symbol ∈ before, symbol ∈ dfa.minimize.alphabet := by
    rwa [alphabet_minimize]
  have minimalForeign : symbol ∉ dfa.minimize.alphabet := by rwa [alphabet_minimize]
  have continues := inRange.isSome_follow?_minimize_iff allKnown
  rw [run, run, runFrom_foreign allKnown foreign,
    runFrom_foreign minimalKnown minimalForeign]
  constructor
  · intro alive
    by_cases leads : (dfa.follow? dfa.start before).isSome
    · rw [if_pos (continues.mpr ⟨leads, alive⟩), if_pos leads]
    · rw [if_neg fun further => leads (continues.mp further).1, if_neg leads]
  · intro deadEnd
    rcases deadEnd.2 with ⟨state, leads, _⟩
    rw [leads, if_neg fun further => (continues.mp further).2 deadEnd]
    exact ⟨rfl, rfl⟩

/-- Texts are cut into symbols of the alphabet, so nothing is foreign in them. -/
theorem runText_minimize (text : String) :
    dfa.minimize.runText text = dfa.runText text := by
  simp only [runText, split, alphabet_minimize]
  split
  · exact inRange.run_minimize (Segmentation.cuts_cut _ _).forall_mem
  · rfl

/-- Minimization keeps every answer to a text. It keeps the answers to words as
well, but for one case: a word that comes to a dead end before its first foreign
symbol is rejected there, and the foreign symbol is not reported. -/
theorem answers_minimize :
    dfa.minimize.alphabet = dfa.alphabet ∧
      ("" ∉ dfa.alphabet → ∀ text, dfa.minimize.runText text = dfa.runText text) ∧
      ∀ word : List String,
        (∀ answer, dfa.run word = .ok answer → dfa.minimize.run word = .ok answer) ∧
        ∀ failure, dfa.run word = .error failure →
          (dfa.minimize.run word = .ok false ↔
            dfa.DeadEnd (word.takeWhile (· ∈ dfa.alphabet))) ∧
          (dfa.minimize.run word = .error failure ↔
            ¬ dfa.DeadEnd (word.takeWhile (· ∈ dfa.alphabet))) := by
  refine ⟨alphabet_minimize dfa, fun _ text => inRange.runText_minimize text, ?_⟩
  intro word
  rcases forall_mem_or_exists_foreign dfa.alphabet word with
    allKnown | ⟨before, symbol, after, rfl, allKnown, foreign⟩
  · have answer : dfa.run word = .ok (dfa.decides dfa.start word) :=
      runFrom_of_forall_mem allKnown
    rw [inRange.run_minimize allKnown, answer]
    exact ⟨fun _ given => given, fun _ given => by cases given⟩
  · have known : (before ++ symbol :: after).takeWhile (· ∈ dfa.alphabet) = before := by
      rw [List.takeWhile_append_of_pos (by simpa using allKnown),
        List.takeWhile_cons_of_neg (by simpa using foreign), List.append_nil]
    rw [known]
    rcases inRange.run_minimize_foreign allKnown foreign with ⟨kept, rejected⟩
    by_cases deadEnd : dfa.DeadEnd before
    · rcases rejected deadEnd with ⟨report, rejection⟩
      rw [report, rejection]
      refine ⟨fun _ given => ?_, fun failure _ => ?_⟩
      · cases given
      · simp [deadEnd]
    · rw [kept deadEnd]
      refine ⟨fun _ given => given, fun failure given => ?_⟩
      simp [given, deadEnd]

omit inRange in
/-- The state after "b" is a dead end, a transition is on a foreign symbol, and one
state is not reached. -/
theorem answers_minimize_of_dead_end :
    let dfa : Dfa := ⟨.ofList ["a", "b"],
      [.ofList [("a", 1), ("b", 2), ("c", 3)], .empty, .ofList [("b", 2)],
        .ofList [("a", 1)], .ofList [("b", 0)]], 0, .ofList [1, 4]⟩
    dfa.InRange ∧ dfa.minimize.runText "a" = .ok true ∧
      dfa.run ["b", "x"] = .error (.usage (.foreignSymbol "x")) ∧
      dfa.minimize.run ["b", "x"] = .ok false ∧
      dfa.minimize.run ["a", "x"] = .error (.usage (.foreignSymbol "x")) := by
  intro dfa
  have inRange : dfa.InRange := by decide +kernel
  have accepted : dfa.runText "a" = .ok true := by decide +kernel
  have deadReport : dfa.run ["b", "x"] = .error (.usage (.foreignSymbol "x")) := by
    decide +kernel
  have liveReport : dfa.run ["a", "x"] = .error (.usage (.foreignSymbol "x")) := by
    decide +kernel
  have dead : dfa.DeadEnd (["b", "x"].takeWhile (· ∈ dfa.alphabet)) := by
    have leads : dfa.follow? dfa.start ["b"] = some 2 := by decide +kernel
    have known : ["b", "x"].takeWhile (· ∈ dfa.alphabet) = ["b"] := by decide +kernel
    rw [known]
    exact (inRange.deadEnd_iff (by decide) leads).mpr (by decide +kernel)
  have alive : ¬ dfa.DeadEnd (["a", "x"].takeWhile (· ∈ dfa.alphabet)) := by
    have leads : dfa.follow? dfa.start ["a"] = some 1 := by decide +kernel
    have known : ["a", "x"].takeWhile (· ∈ dfa.alphabet) = ["a"] := by decide +kernel
    rw [known, inRange.deadEnd_iff (by decide) leads]
    decide +kernel
  rcases answers_minimize inRange with ⟨_, texts, words⟩
  have minimalAccepted : dfa.minimize.runText "a" = .ok true := by
    rw [texts (by decide +kernel), accepted]
  exact ⟨inRange, minimalAccepted, deadReport, ((words _).2 _ deadReport).1.mpr dead,
    ((words _).2 _ liveReport).2.mpr alive⟩

end InRange

end WordAutomata.Dfa
