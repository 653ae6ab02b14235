import WordAutomata.Dfa
import WordAutomata.Proofs.Segmentation
import WordAutomata.Proofs.Traversal

namespace WordAutomata.Dfa

/-! Where the transitions of a deterministic automaton lead, whether or not their
symbols belong to the alphabet. -/

/-! An automaton is in range if its start state, all targets and all accepting states are
states. It is closed if all transitions are on symbols of the alphabet. -/

structure InRange (dfa : Dfa) : Prop where
  start : dfa.start < dfa.size
  target : ∀ {source symbol target}, dfa.next? source symbol = some target →
    target < dfa.size
  accepting : ∀ state ∈ dfa.accepting, state < dfa.size

def Closed (dfa : Dfa) : Prop :=
  ∀ {source symbol target}, dfa.next? source symbol = some target →
    symbol ∈ dfa.alphabet

def follow? (dfa : Dfa) (state : Nat) : List String → Option Nat
  | [] => some state
  | symbol :: rest => (dfa.next? state symbol).bind (dfa.follow? · rest)

def decides (dfa : Dfa) (state : Nat) (word : List String) : Bool :=
  (dfa.follow? state word).any dfa.isAccepting

variable {dfa : Dfa} {source target state : Nat} {symbol : String} {word : List String}

theorem follow?_append (left right : List String) :
    dfa.follow? state (left ++ right) =
      (dfa.follow? state left).bind (dfa.follow? · right) := by
  induction left generalizing state with
  | nil => rfl
  | cons symbol left induction =>
      rw [List.cons_append, follow?, follow?, Option.bind_assoc]
      congr 1
      funext middle
      exact induction

theorem follow?_concat (word : List String) (symbol : String) :
    dfa.follow? state (word ++ [symbol]) =
      (dfa.follow? state word).bind (dfa.next? · symbol) := by
  rw [follow?_append]
  congr 1
  funext middle
  simp [follow?]

theorem decides_append (left right : List String) :
    dfa.decides state (left ++ right) =
      (dfa.follow? state left).any (dfa.decides · right) := by
  rw [decides, follow?_append]
  cases dfa.follow? state left with
  | none => rfl
  | some middle => rfl

theorem decides_nil : dfa.decides state [] = dfa.isAccepting state := rfl

theorem decides_cons (symbol : String) (rest : List String) :
    dfa.decides state (symbol :: rest) =
      (dfa.next? state symbol).any (dfa.decides · rest) := by
  rw [decides, follow?]
  cases dfa.next? state symbol with
  | none => rfl
  | some target => rfl

theorem decides_iff :
    dfa.decides state word ↔
      ∃ target, dfa.follow? state word = some target ∧ dfa.isAccepting target := by
  rw [decides, Option.any_eq_true]

/-! ## Answers

Over the alphabet, the answer to a word is whether it leads to an accepting state.
Otherwise it has a first foreign symbol, which is reported if the word before it leads
somewhere. -/

theorem runFrom_of_forall_mem (allKnown : ∀ symbol ∈ word, symbol ∈ dfa.alphabet) :
    dfa.runFrom state word = .ok (dfa.decides state word) := by
  induction word generalizing state with
  | nil => rfl
  | cons symbol rest induction =>
      rcases List.forall_mem_cons.mp allKnown with ⟨known, restKnown⟩
      rw [runFrom, if_pos known, decides, follow?]
      cases dfa.next? state symbol with
      | none => rfl
      | some target => exact induction restKnown

theorem decides_eq_of_run_eq {left right : Dfa} (alphabets : left.alphabet = right.alphabet)
    (allKnown : ∀ symbol ∈ word, symbol ∈ left.alphabet)
    (same : left.run word = right.run word) :
    left.decides left.start word = right.decides right.start word := by
  have rightKnown : ∀ symbol ∈ word, symbol ∈ right.alphabet := alphabets ▸ allKnown
  rw [run, run, runFrom_of_forall_mem allKnown, runFrom_of_forall_mem rightKnown] at same
  exact Except.ok.inj same

/-- A symbol outside the alphabet is an error where the word before it leads
somewhere. -/
theorem runFrom_foreign {before after : List String}
    (allKnown : ∀ symbol ∈ before, symbol ∈ dfa.alphabet)
    (foreign : symbol ∉ dfa.alphabet) :
    dfa.runFrom state (before ++ symbol :: after) =
      if (dfa.follow? state before).isSome then .error (.usage (.foreignSymbol symbol))
      else .ok false := by
  induction before generalizing state with
  | nil => simp [runFrom, foreign, follow?]
  | cons first before induction =>
      rcases List.forall_mem_cons.mp allKnown with ⟨known, restKnown⟩
      rw [List.cons_append, runFrom, if_pos known, follow?]
      cases dfa.next? state first with
      | none => rfl
      | some target => exact induction restKnown

theorem forall_mem_or_exists_foreign (alphabet : OrderedSet String) (word : List String) :
    (∀ symbol ∈ word, symbol ∈ alphabet) ∨
      ∃ before symbol after, word = before ++ symbol :: after ∧
        (∀ other ∈ before, other ∈ alphabet) ∧ symbol ∉ alphabet := by
  cases found : word.find? (· ∉ alphabet) with
  | none =>
      left
      intro symbol member
      simpa using List.find?_eq_none.mp found symbol member
  | some symbol =>
      right
      rcases List.find?_eq_some_iff_append.mp found with ⟨foreign, before, after, split, known⟩
      refine ⟨before, symbol, after, split, fun other member => ?_, by simpa using foreign⟩
      simpa using known other member

/-! ## Texts -/

theorem split_of_cuts {text : String} {pieces : List String} {rest : List Char}
    (cuts : Segmentation.Cuts dfa.alphabet.toList text.toList pieces rest) :
    dfa.split text =
      if rest = [] then .ok pieces
      else .error (.usage (.unsplittable text (String.join pieces).utf8ByteSize)) := by
  simp only [split, Segmentation.cuts_iff.mp cuts]

/-- A text that falls into pieces is answered like the word of the pieces, and any
other text is an error. -/
theorem runText_of_cuts {text : String} {pieces : List String}
    {rest : List Char}
    (cuts : Segmentation.Cuts dfa.alphabet.toList text.toList pieces rest) :
    dfa.runText text =
      if rest = [] then .ok (dfa.decides dfa.start pieces)
      else .error (.usage (.unsplittable text (String.join pieces).utf8ByteSize)) := by
  rw [runText, split_of_cuts cuts]
  split
  · exact runFrom_of_forall_mem cuts.forall_mem
  · rfl

theorem runText_ok_or_usage (dfa : Dfa) (text : String) :
    (∃ answer, dfa.runText text = .ok answer) ∨
      ∃ fault, dfa.runText text = .error (.usage fault) := by
  rw [runText_of_cuts (Segmentation.cuts_cut dfa.alphabet.toList text.toList)]
  split
  case isTrue => exact .inl ⟨_, rfl⟩
  case isFalse => exact .inr ⟨_, rfl⟩

/-! ## States -/

theorem mem_positions_iff {α : Type} (keep : α → Bool) {values : List α} {position : Nat} :
    position ∈ OrderedSet.ofList
        ((values.zipIdx.filter fun entry => keep entry.1).map Prod.snd) ↔
      ∃ value, values[position]? = some value ∧ keep value := by
  simp only [OrderedSet.mem_ofList, List.mem_map, List.mem_filter]
  constructor
  · intro given
    rcases given with ⟨⟨value, other⟩, ⟨member, kept⟩, rfl⟩
    exact ⟨value, List.mem_zipIdx_iff_getElem?.mp member, kept⟩
  · intro given
    rcases given with ⟨value, found, kept⟩
    exact ⟨(value, position), ⟨List.mem_zipIdx_iff_getElem?.mpr found, kept⟩, rfl⟩

theorem lt_size_of_next? (step : dfa.next? source symbol = some target) :
    source < dfa.size := by
  apply Nat.lt_of_not_le
  intro outside
  rw [next?, row, List.getElem?_eq_none outside] at step
  cases step

theorem next?_eq_some_iff :
    dfa.next? source symbol = some target ↔
      ∃ row, dfa.rows[source]? = some row ∧ row.get? symbol = some target := by
  rw [next?, row]
  cases dfa.rows[source]? with
  | none => simp
  | some row => simp

theorem follow?_lt_size {source target : Nat}
    (targets : ∀ source symbol target, dfa.next? source symbol = some target →
      target < dfa.size)
    (inside : source < dfa.size) (leads : dfa.follow? source word = some target) :
    target < dfa.size := by
  induction word generalizing source with
  | nil =>
      cases leads
      exact inside
  | cons symbol rest induction =>
      rcases Option.bind_eq_some_iff.mp leads with ⟨middle, step, further⟩
      exact induction (targets source symbol middle step) further

theorem forall_target_iff {property : Nat → Prop} :
    (∀ source symbol target, dfa.next? source symbol = some target → property target) ↔
      ∀ row ∈ dfa.rows, ∀ target ∈ row.values, property target := by
  constructor
  · intro given row member target occurs
    rcases List.mem_iff_getElem?.mp member with ⟨source, found⟩
    rcases OrderedMap.mem_values_iff.mp occurs with ⟨symbol, entry⟩
    exact given source symbol target (next?_eq_some_iff.mpr ⟨row, found, entry⟩)
  · intro given source symbol target step
    rcases next?_eq_some_iff.mp step with ⟨row, found, entry⟩
    exact given row (List.mem_of_getElem? found) target
      (OrderedMap.mem_values_iff.mpr ⟨symbol, entry⟩)

theorem inRange_iff :
    dfa.InRange ↔
      dfa.start < dfa.size ∧
        (∀ row ∈ dfa.rows, ∀ target ∈ row.values, target < dfa.size) ∧
        ∀ state ∈ dfa.accepting.toList, state < dfa.size := by
  rw [← forall_target_iff]
  constructor
  · intro inRange
    exact ⟨inRange.start, fun _ _ _ step => inRange.target step, inRange.accepting⟩
  · intro given
    exact ⟨given.1, fun step => given.2.1 _ _ _ step, given.2.2⟩

instance (dfa : Dfa) : Decidable dfa.InRange := decidable_of_iff _ inRange_iff.symm

theorem exists_next?_iff :
    (∃ source target, dfa.next? source symbol = some target) ↔
      ∃ row ∈ dfa.rows, symbol ∈ row.keys := by
  simp only [next?_eq_some_iff, OrderedMap.mem_keys_iff, Option.isSome_iff_exists]
  constructor
  · intro given
    rcases given with ⟨source, target, row, found, entry⟩
    exact ⟨row, List.mem_of_getElem? found, target, entry⟩
  · intro given
    rcases given with ⟨row, member, target, entry⟩
    rcases List.mem_iff_getElem?.mp member with ⟨source, found⟩
    exact ⟨source, target, row, found, entry⟩

theorem closed_iff :
    dfa.Closed ↔ ∀ row ∈ dfa.rows, ∀ symbol ∈ row.keys.toList, symbol ∈ dfa.alphabet := by
  constructor
  · intro closed row member symbol known
    rcases exists_next?_iff.mpr ⟨row, member, known⟩ with ⟨source, target, step⟩
    exact closed step
  · intro given source symbol target step
    rcases exists_next?_iff.mp ⟨source, target, step⟩ with ⟨row, member, known⟩
    exact given row member symbol known

instance (dfa : Dfa) : Decidable dfa.Closed := decidable_of_iff _ closed_iff.symm

theorem Closed.forall_mem_alphabet (closed : dfa.Closed)
    (leads : dfa.follow? source word = some target) :
    ∀ symbol ∈ word, symbol ∈ dfa.alphabet := by
  induction word generalizing source with
  | nil => exact fun _ member => absurd member List.not_mem_nil
  | cons symbol rest induction =>
      rcases Option.bind_eq_some_iff.mp leads with ⟨middle, step, rest⟩
      exact List.forall_mem_cons.mpr ⟨closed step, induction rest⟩

theorem exists_next?_of_follow? (leads : dfa.follow? source word = some target)
    (occurs : symbol ∈ word) :
    ∃ before after, dfa.next? before symbol = some after := by
  induction word generalizing source with
  | nil => exact absurd occurs List.not_mem_nil
  | cons first rest induction =>
      rcases Option.bind_eq_some_iff.mp leads with ⟨middle, step, further⟩
      rcases List.mem_cons.mp occurs with rfl | occurs
      · exact ⟨source, middle, step⟩
      · exact induction further occurs

theorem Closed.decides_ext {left right : Dfa} {leftState rightState : Nat}
    (leftClosed : left.Closed) (rightClosed : right.Closed)
    (alphabets : left.alphabet = right.alphabet)
    (same : ∀ word : List String, (∀ symbol ∈ word, symbol ∈ left.alphabet) →
      left.decides leftState word = right.decides rightState word) :
    left.decides leftState = right.decides rightState := by
  funext word
  by_cases allKnown : ∀ symbol ∈ word, symbol ∈ left.alphabet
  · exact same word allKnown
  · have leftRejects : ¬ left.decides leftState word := by
      intro accepted
      rcases decides_iff.mp accepted with ⟨_, leads, _⟩
      exact allKnown (leftClosed.forall_mem_alphabet leads)
    have rightRejects : ¬ right.decides rightState word := by
      intro accepted
      rcases decides_iff.mp accepted with ⟨_, leads, _⟩
      exact allKnown (alphabets ▸ rightClosed.forall_mem_alphabet leads)
    rw [Bool.eq_false_iff.mpr leftRejects, Bool.eq_false_iff.mpr rightRejects]

theorem mem_values_row_iff :
    target ∈ (dfa.row source).values ↔
      ∃ symbol, dfa.next? source symbol = some target :=
  OrderedMap.mem_values_iff

theorem mem_predecessors :
    source ∈ dfa.predecessors target ↔
      ∃ symbol, dfa.next? source symbol = some target := by
  rw [predecessors, List.mem_filter, List.mem_range, decide_eq_true_eq,
    mem_values_row_iff]
  constructor
  · exact fun both => both.2
  · intro given
    rcases given with ⟨symbol, step⟩
    exact ⟨lt_size_of_next? step, symbol, step⟩

theorem reaches_iff :
    Traversal.Reaches (fun state => (dfa.row state).values) source target ↔
      ∃ word, dfa.follow? source word = some target := by
  constructor
  · intro path
    induction path with
    | refl => exact ⟨[], rfl⟩
    | tail _ step induction =>
        rcases induction with ⟨word, leads⟩
        rcases mem_values_row_iff.mp step with ⟨symbol, step⟩
        refine ⟨word ++ [symbol], ?_⟩
        rw [follow?_concat, leads]
        exact step
  · intro given
    rcases given with ⟨word, leads⟩
    induction word generalizing source with
    | nil =>
        cases leads
        exact .refl
    | cons symbol rest induction =>
        rcases Option.bind_eq_some_iff.mp leads with ⟨middle, step, rest⟩
        exact .head (mem_values_row_iff.mpr ⟨symbol, step⟩) (induction rest)

theorem reaches_predecessors_iff :
    Traversal.Reaches dfa.predecessors target source ↔
      ∃ word, dfa.follow? source word = some target := by
  rw [← reaches_iff, Traversal.Reaches, Traversal.Reaches, ← Relation.reflTransGen_swap]
  have same : (Function.swap fun source target => target ∈ dfa.predecessors source) =
      fun source target => target ∈ (dfa.row source).values := by
    funext before after
    apply propext
    exact mem_predecessors.trans mem_values_row_iff.symm
  rw [same]

/-! ## Searches -/

theorem bounds_reachable (start : dfa.start < dfa.size)
    (targets : ∀ source symbol target, dfa.next? source symbol = some target →
      target < dfa.size) :
    Traversal.Bounds (fun state => (dfa.row state).values) [dfa.start] dfa.size := by
  apply Traversal.bounds_of_lt
  · intro seed member
    rw [List.mem_singleton.mp member]
    exact start
  · intro source _ target member
    rcases mem_values_row_iff.mp member with ⟨symbol, step⟩
    exact targets source symbol target step

theorem mem_reachable_of_bounds
    (bounded : Traversal.Bounds (fun state => (dfa.row state).values) [dfa.start] dfa.size) :
    state ∈ dfa.reachable ↔ ∃ word, dfa.follow? dfa.start word = some state := by
  rw [reachable, Traversal.mem_breadthFirst bounded]
  simp [reaches_iff]

theorem bounds_productive (accepting : ∀ state ∈ dfa.accepting, state < dfa.size) :
    Traversal.Bounds dfa.predecessors dfa.accepting.toList dfa.size := by
  apply Traversal.bounds_of_lt accepting
  intro target _ source member
  rcases mem_predecessors.mp member with ⟨_, step⟩
  exact lt_size_of_next? step

theorem mem_productive_of_bounds
    (bounded : Traversal.Bounds dfa.predecessors dfa.accepting.toList dfa.size) :
    state ∈ dfa.productive ↔ ∃ word, dfa.decides state word := by
  rw [productive, Traversal.mem_breadthFirst bounded]
  simp only [reaches_predecessors_iff, decides_iff, isAccepting, decide_eq_true_eq]
  constructor
  · intro given
    rcases given with ⟨target, accepting, word, leads⟩
    exact ⟨word, target, leads, accepting⟩
  · intro given
    rcases given with ⟨word, target, leads, accepting⟩
    exact ⟨target, accepting, word, leads⟩

namespace InRange

variable (inRange : dfa.InRange)
include inRange

theorem bounds_reachable :
    Traversal.Bounds (fun state => (dfa.row state).values) [dfa.start] dfa.size :=
  Dfa.bounds_reachable inRange.start fun _ _ _ step => inRange.target step

theorem mem_reachable :
    state ∈ dfa.reachable ↔ ∃ word, dfa.follow? dfa.start word = some state :=
  mem_reachable_of_bounds inRange.bounds_reachable

theorem mem_productive : state ∈ dfa.productive ↔ ∃ word, dfa.decides state word :=
  mem_productive_of_bounds (bounds_productive inRange.accepting)

theorem getElem?_live_eq_some_false_iff :
    dfa.live[state]? = some false ↔
      state < dfa.size ∧ ∀ word, dfa.decides state word = false := by
  rw [live, List.getElem?_map]
  by_cases inside : state < dfa.size
  · rw [List.getElem?_range inside, Option.map_some, Option.some.injEq,
      decide_eq_false_iff_not, inRange.mem_productive]
    simp [inside]
  · rw [List.getElem?_eq_none (by simpa using inside)]
    simp [inside]

theorem mem_useful :
    state ∈ dfa.useful ↔
      (∃ word, dfa.follow? dfa.start word = some state) ∧
        ∃ word, dfa.decides state word := by
  rw [useful, List.mem_filter, decide_eq_true_eq, inRange.mem_reachable,
    inRange.mem_productive]

end InRange

end WordAutomata.Dfa
