import WordAutomata.Proofs.Nfa.Naming

namespace WordAutomata

/-! The document of a nondeterministic automaton, written in one pass. A state has its number
when its name is first needed, be it in the row of another state; when its own row is written
is a matter of the queue. Both go by the same order, so what is written is the document in
which all numbers are known beforehand. -/

/-- How far the document is written: the numbers that have been given out, the states that
have been met, those of them that wait for their entries, and the entries. -/
structure Draft where
  numbering : Numbering
  met : List Nat
  pending : List Nat
  states : OrderedMap String (Document.Entry (List String))

namespace Draft

def name (state : Nat) : StateM Draft String := fun draft =>
  let numbering := draft.numbering.add state
  (numbering.name state, { draft with numbering })

def meet (state : Nat) : StateM Draft Unit :=
  modify fun draft =>
    if state ∈ draft.met then draft
    else { draft with met := draft.met ++ [state], pending := draft.pending ++ [state] }

def addTransition (transitions : OrderedMap String (List String))
    (transition : Label × StateSet) : StateM Draft (OrderedMap String (List String)) := do
  let names ← transition.2.toList.mapM name
  transition.2.toList.forM meet
  return transitions.insert (transition.1.getD Nfa.emptyKey) names

def addEntry (nfa : Nfa) (state : Nat) : StateM Draft Unit := do
  let transitions ← (nfa.row state).toList.foldlM addTransition .empty
  let own ← name state
  modify fun draft =>
    { draft with states := draft.states.insert own ⟨state = nfa.final, transitions⟩ }

def addEntries (nfa : Nfa) : Nat → StateM Draft Unit
  | 0 => pure ()
  | budget + 1 => do
      let draft ← get
      match draft.pending with
      | [] => pure ()
      | state :: pending =>
          set { draft with pending }
          addEntry nfa state
          addEntries nfa budget

end Draft

def Nfa.transcribe (nfa : Nfa) : NfaDocument :=
  let write : StateM Draft String := do
    let start ← Draft.name nfa.start
    let _ ← Draft.name nfa.final
    Draft.meet nfa.start
    Draft.addEntries nfa nfa.size
    return start
  let (start, draft) := write ⟨.empty, [], [], .empty⟩
  ⟨start, draft.states⟩

example : (Nfa.ofRegex (.star (.literal "a"))).transcribe.states.keys.toList =
    ["0", "1", "2", "3"] := by decide +kernel

/-! ## Numbers

A number stays what it is when others are given out, so a name may be given before all
states are known. -/

namespace Numbering

variable {numbering : Numbering} {state other : Nat} {states : List Nat}

theorem add_of_mem (known : state ∈ numbering.states) : numbering.add state = numbering :=
  dif_pos known

theorem addAll_append (front back : List Nat) :
    numbering.addAll (front ++ back) = (numbering.addAll front).addAll back :=
  List.foldl_append

theorem name_add (known : state ∈ numbering.states) :
    (numbering.add other).name state = numbering.name state := by
  rw [add]
  split
  · rfl
  · exact congrArg toString (List.idxOf_append_of_mem known)

theorem name_addAll (known : state ∈ numbering.states) :
    (numbering.addAll states).name state = numbering.name state := by
  induction states generalizing numbering with
  | nil => rfl
  | cons head tail induction =>
      rw [addAll, List.foldl_cons, ← addAll, induction (mem_add.mpr (.inr known)), name_add known]

theorem addAll_fresh {met : List Nat} (known : ∀ state ∈ met, state ∈ numbering.states) :
    numbering.addAll (Traversal.fresh met states) = numbering.addAll states := by
  induction states generalizing met numbering with
  | nil => rfl
  | cons head tail induction =>
      rw [Traversal.fresh_cons, addAll, addAll, List.foldl_cons]
      split
      · rename_i member
        rw [add_of_mem (known head member)]
        exact induction known
      · rw [List.foldl_cons]
        apply induction
        intro state member
        rcases List.mem_cons.mp member with rfl | earlier
        · exact mem_add.mpr (.inl rfl)
        · exact mem_add.mpr (.inr (known state earlier))

end Numbering

/-! ## Entries -/

/-- An entry says no more of a numbering than the names of the states that come next. -/
theorem Nfa.entry_congr {nfa : Nfa} {state : Nat} {left right : Numbering}
    (same : ∀ target ∈ nfa.successors state, left.name target = right.name target) :
    nfa.entry left state = nfa.entry right state := by
  have rows : (nfa.row state).toList.map (fun transition =>
        (transition.1.getD emptyKey, transition.2.toList.map left.name)) =
      (nfa.row state).toList.map fun transition =>
        (transition.1.getD emptyKey, transition.2.toList.map right.name) := by
    apply List.map_congr_left
    intro transition member
    refine congrArg (Prod.mk _) (List.map_congr_left fun target step => same target ?_)
    rw [successors_eq_row]
    exact List.mem_flatMap.mpr ⟨transition.2, List.mem_map_of_mem member, step⟩
  exact congrArg (fun row => (⟨decide (state = nfa.final), .ofList row⟩ : Document.Entry _)) rows

namespace Draft

variable {draft : Draft} {states : List Nat}

theorem bind_eq {α β : Type} {first : StateM Draft α} {next : α → StateM Draft β}
    {value : α} {middle : Draft} (run : first draft = (value, middle)) :
    (first >>= next) draft = next value middle := by
  change next (first draft).1 (first draft).2 = _
  rw [run]

def follow (draft : Draft) (states : List Nat) : Draft :=
  let new := Traversal.fresh draft.met states
  { draft with
    numbering := draft.numbering.addAll states
    met := draft.met ++ new
    pending := draft.pending ++ new }

theorem follow_nil (draft : Draft) : draft.follow [] = draft := by
  simp [follow, Traversal.fresh, Numbering.addAll]

theorem follow_append (draft : Draft) (front back : List Nat) :
    draft.follow (front ++ back) = (draft.follow front).follow back := by
  simp only [follow, Numbering.addAll_append, Traversal.fresh_append, List.append_assoc]

theorem mapM_name (states : List Nat) (draft : Draft) :
    states.mapM name draft =
      (states.map (draft.numbering.addAll states).name,
        { draft with numbering := draft.numbering.addAll states }) := by
  induction states generalizing draft with
  | nil => rfl
  | cons head tail induction =>
      have known : head ∈ (draft.numbering.add head).states := Numbering.mem_add.mpr (.inl rfl)
      have named : (name head draft).1 = (draft.numbering.addAll (head :: tail)).name head :=
        (Numbering.name_addAll known).symm
      have later := induction (name head draft).2
      rw [List.mapM_cons]
      change ((name head draft).1 :: (tail.mapM name (name head draft).2).1,
        (tail.mapM name (name head draft).2).2) = _
      rw [later, named]
      rfl

theorem forM_meet (states : List Nat) (draft : Draft) :
    states.forM meet draft =
      ((), { draft with
        met := draft.met ++ Traversal.fresh draft.met states
        pending := draft.pending ++ Traversal.fresh draft.met states }) := by
  induction states generalizing draft with
  | nil =>
      simp only [Traversal.fresh, List.eraseDups_nil, List.filter_nil, List.append_nil]
      rfl
  | cons head tail induction =>
      have later := induction (meet head draft).2
      change tail.forM meet (meet head draft).2 = _
      rw [later, Traversal.fresh_cons]
      by_cases known : head ∈ draft.met
      · have same : (meet head draft).2 = draft := if_pos known
        rw [same, if_pos known]
      · have added : (meet head draft).2 =
            { draft with met := draft.met ++ [head], pending := draft.pending ++ [head] } :=
          if_neg known
        have seen : Traversal.fresh (draft.met ++ [head]) tail =
            Traversal.fresh (head :: draft.met) tail :=
          Traversal.fresh_congr (by simp [or_comm]) tail
        rw [added, if_neg known, seen]
        simp

theorem addTransition_eq (transitions : OrderedMap String (List String))
    (transition : Label × StateSet) (draft : Draft) :
    addTransition transitions transition draft =
      (transitions.insert (transition.1.getD Nfa.emptyKey)
        (transition.2.toList.map (draft.follow transition.2.toList).numbering.name),
        draft.follow transition.2.toList) := by
  rw [addTransition, bind_eq (mapM_name transition.2.toList draft),
    bind_eq (forM_meet transition.2.toList _)]
  rfl

theorem foldlM_addTransition (row : List (Label × StateSet))
    (transitions : OrderedMap String (List String)) (draft : Draft) :
    row.foldlM addTransition transitions draft =
      (row.foldl (fun transitions transition =>
        transitions.insert (transition.1.getD Nfa.emptyKey) (transition.2.toList.map
          (draft.follow (row.flatMap fun transition => transition.2.toList)).numbering.name))
        transitions,
        draft.follow (row.flatMap fun transition => transition.2.toList)) := by
  induction row generalizing transitions draft with
  | nil => rw [List.flatMap_nil, follow_nil]; rfl
  | cons head tail induction =>
      -- The targets of the first transition keep the names that they are listed with.
      have kept : head.2.toList.map (draft.follow head.2.toList).numbering.name =
          head.2.toList.map ((draft.follow head.2.toList).follow
            (tail.flatMap fun transition => transition.2.toList)).numbering.name := by
        apply List.map_congr_left
        intro target member
        exact (Numbering.name_addAll (Numbering.mem_addAll.mpr (.inl member))).symm
      rw [List.foldlM_cons, bind_eq (addTransition_eq transitions head draft), induction,
        List.flatMap_cons, follow_append, List.foldl_cons, kept]

/-- Writing an entry follows the transitions of its state. -/
theorem addEntry_eq {nfa : Nfa} {state : Nat} (known : state ∈ draft.numbering.states) :
    addEntry nfa state draft =
      ((), { draft.follow (nfa.successors state) with
        states := draft.states.insert
          ((draft.follow (nfa.successors state)).numbering.name state)
          (nfa.entry (draft.follow (nfa.successors state)).numbering state) }) := by
  have targets : nfa.successors state =
      (nfa.row state).toList.flatMap fun transition => transition.2.toList := by
    rw [Nfa.successors_eq_row, OrderedMap.values, List.flatMap_map]
  have kept : (draft.follow (nfa.successors state)).numbering.add state =
      (draft.follow (nfa.successors state)).numbering :=
    Numbering.add_of_mem (Numbering.mem_addAll.mpr (.inr known))
  have row := foldlM_addTransition (nfa.row state).toList .empty draft
  rw [← targets] at row
  have named : name state (draft.follow (nfa.successors state)) =
      ((draft.follow (nfa.successors state)).numbering.name state,
        draft.follow (nfa.successors state)) := by
    rw [name, kept]
  have transitions :
      (nfa.entry (draft.follow (nfa.successors state)).numbering state).transitions =
        (nfa.row state).toList.foldl (fun transitions transition =>
        transitions.insert (transition.1.getD Nfa.emptyKey) (transition.2.toList.map
          (draft.follow (nfa.successors state)).numbering.name)) .empty := by
    rw [Nfa.entry, OrderedMap.ofList, List.foldl_map]
    rfl
  rw [addEntry, bind_eq row, bind_eq named, ← transitions]
  rfl

/-! ## Documents -/

variable {nfa : Nfa}

/-- What holds of a draft when the entries of some states are written. -/
structure Keeps (nfa : Nfa) (written : List Nat) (draft : Draft) : Prop where
  met : draft.met = (nfa.start :: written.flatMap nfa.successors).eraseDups
  queued : draft.met = written ++ draft.pending
  numbering : draft.numbering = Numbering.empty.addAll (nfa.start :: nfa.final :: draft.met)
  states : draft.states = .ofList (written.map fun state =>
    (draft.numbering.name state, nfa.entry draft.numbering state))

namespace Keeps

variable {written pending : List Nat} {state : Nat}

theorem mem_numbering (keeps : Keeps nfa written draft) (member : state ∈ draft.met) :
    state ∈ draft.numbering.states := by
  rw [keeps.numbering]
  exact Numbering.mem_addAll.mpr
    (.inl (List.mem_cons_of_mem _ (List.mem_cons_of_mem _ member)))

theorem mem_numbering_of_next (keeps : Keeps nfa written draft)
    (next : draft.pending = state :: pending) : state ∈ draft.numbering.states := by
  apply keeps.mem_numbering
  rw [keeps.queued, next]
  simp

theorem pending_addEntry (keeps : Keeps nfa written draft)
    (next : draft.pending = state :: pending) :
    (addEntry nfa state { draft with pending }).2.pending =
      pending ++ Traversal.fresh (written ++ state :: pending) (nfa.successors state) := by
  rw [@addEntry_eq { draft with pending } nfa state (keeps.mem_numbering_of_next next), ← next,
    ← keeps.queued]
  rfl

theorem addEntry (keeps : Keeps nfa written draft) (next : draft.pending = state :: pending) :
    Keeps nfa (written ++ [state]) (addEntry nfa state { draft with pending }).2 := by
  rw [@addEntry_eq { draft with pending } nfa state (keeps.mem_numbering_of_next next)]
  refine ⟨?met, ?queued, ?numbering, ?states⟩
  case met =>
    simp only [follow]
    rw [List.flatMap_append, List.flatMap_singleton, ← List.cons_append,
      Traversal.eraseDups_append, ← keeps.met]
  case queued =>
    simp only [follow]
    rw [keeps.queued, next]
    simp
  case numbering =>
    simp only [follow]
    rw [← List.cons_append, ← List.cons_append, Numbering.addAll_append, ← keeps.numbering,
      Numbering.addAll_fresh fun other member => keeps.mem_numbering member]
  case states =>
    -- The names in the entries that are there already are those that their states keep.
    have kept : written.map (fun other =>
          (draft.numbering.name other, nfa.entry draft.numbering other)) =
        written.map fun other =>
          ((draft.numbering.addAll (nfa.successors state)).name other,
            nfa.entry (draft.numbering.addAll (nfa.successors state)) other) := by
      apply List.map_congr_left
      intro other member
      have otherMet : other ∈ draft.met := keeps.queued ▸ List.mem_append_left _ member
      have followed : ∀ target ∈ nfa.successors other, target ∈ draft.met := by
        intro target step
        rw [keeps.met, List.mem_eraseDups]
        exact List.mem_cons_of_mem _ (List.mem_flatMap.mpr ⟨other, member, step⟩)
      rw [Numbering.name_addAll (keeps.mem_numbering otherMet),
        Nfa.entry_congr fun target step =>
          (Numbering.name_addAll (keeps.mem_numbering (followed target step))).symm]
    simp only [follow]
    rw [keeps.states, kept, List.map_append, List.map_singleton, OrderedMap.ofList_concat]

end Keeps

theorem keeps_addEntries {written : List Nat} (budget : Nat) (keeps : Keeps nfa written draft) :
    Keeps nfa (Traversal.explore nfa.successors budget written draft.pending)
      (addEntries nfa budget draft).2 := by
  induction budget generalizing written draft with
  | zero => exact keeps
  | succ budget induction =>
      have run : addEntries nfa (budget + 1) draft =
          (match draft.pending with
            | [] => pure ()
            | state :: pending => do
                set { draft with pending }
                addEntry nfa state
                addEntries nfa budget) draft := rfl
      cases next : draft.pending with
      | nil =>
          rw [run, next]
          exact keeps
      | cons state pending =>
          have later := induction (keeps.addEntry next)
          rw [keeps.pending_addEntry next] at later
          rw [run, next]
          exact later

end Draft

namespace Nfa

/-- The document that is written in one pass is the document of the automaton. -/
theorem InRange.transcribe_eq {nfa : Nfa} (inRange : nfa.InRange) :
    nfa.transcribe = nfa.toDocument := by
  let begun : Draft :=
    ⟨(Numbering.empty.add nfa.start).add nfa.final, [nfa.start], [nfa.start], .empty⟩
  have known : nfa.start ∈ begun.numbering.states :=
    Numbering.mem_add.mpr (.inr (Numbering.mem_add.mpr (.inl rfl)))
  have keeps : begun.Keeps nfa [] := ⟨rfl, rfl, (Numbering.add_of_mem known).symm, rfl⟩
  have written : Traversal.explore nfa.successors nfa.size [] [nfa.start] = nfa.reachable := rfl
  have finished := Draft.keeps_addEntries nfa.size keeps
  rw [written] at finished
  have met := finished.met.trans
    (Traversal.breadthFirst_eq_eraseDups inRange.bounds_reachable).symm
  have numbering : (Draft.addEntries nfa nfa.size begun).2.numbering = nfa.numbering := by
    rw [finished.numbering, met]
    rfl
  have states := finished.states
  rw [numbering] at states
  have start : (Numbering.empty.add nfa.start).name nfa.start = nfa.numbering.name nfa.start :=
    (Numbering.name_addAll (Numbering.mem_add.mpr (.inl rfl))).symm
  change (⟨(Numbering.empty.add nfa.start).name nfa.start,
    (Draft.addEntries nfa nfa.size begun).2.states⟩ : NfaDocument) = _
  rw [start, states]
  rfl

/-- The document of an automaton has an entry for every state that can be reached and no
other, under names that go by the order in which a breadth-first search meets them. Of an
expression's automaton, all states have entries. -/
theorem toDocument_spec :
    (∀ nfa : Nfa, nfa.InRange → nfa.transcribe = nfa.toDocument ∧
      ∃ order number, nfa.Discovers order ∧ nfa.Numbers order number ∧
        nfa.Shows order (fun state => toString (number state)) nfa.toDocument) ∧
    ∀ (expression : Regex) (name : String),
      name ∈ (ofRegex expression).toDocument.states.keys ↔
        ∃ number < (ofRegex expression).size, toString number = name := by
  refine ⟨?document, ?expression⟩
  case document =>
    intro nfa inRange
    rcases exists_numbers inRange.nodup_reachable with ⟨number, numbers, agrees⟩
    refine ⟨inRange.transcribe_eq, nfa.reachable, number, inRange.discovers_reachable,
      numbers, inRange.shows_toDocument fun state member => ?_⟩
    exact congrArg toString (agrees state member).symm
  case expression =>
    intro expression name
    have inRange := inRange_ofRegex expression
    rw [inRange.mem_keys_toDocument]
    simp only [mem_reachable_ofRegex, ← size_numbering_ofRegex,
      ← Numbering.exists_name_iff, mem_numbering_ofRegex]

/-- The final state keeps its number where nothing leads to it, and a state that is reached
by nothing but a hidden jump is written all the same. -/
theorem toDocument_spec_of_hidden_jump :
    let nfa := ofEdges 5 [⟨2, none, 2⟩, ⟨2, none, 3⟩, ⟨2, some "epsilon", 0⟩,
      ⟨2, some "a", 1⟩, ⟨1, some "a", 2⟩] 2 4
    nfa.InRange ∧
      (nfa.transcribe = nfa.toDocument ∧
        ∃ order number, nfa.Discovers order ∧ nfa.Numbers order number ∧
          nfa.Shows order (fun state => toString (number state)) nfa.toDocument) ∧
      nfa.toDocument.states.toList.map (fun entry => (entry.1, entry.2.transitions.toList)) =
        [("0", [("a", ["3"]), ("epsilon", ["4"])]), ("2", []), ("3", [("a", ["0"])]),
          ("4", [])] := by
  intro nfa
  have inRange : nfa.InRange := inRange_ofEdges (by decide) (by decide)
  exact ⟨inRange, toDocument_spec.1 nfa inRange, by decide +kernel⟩

end Nfa

end WordAutomata
