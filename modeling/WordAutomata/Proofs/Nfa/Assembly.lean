import WordAutomata.Proofs.Nfa.Shape

namespace WordAutomata

/-! The automaton of an expression, put together step by step. States are added to one list
while the parts around them still wait for their ends, and the parts of a repetition are
made anew every time. Every action turns the rows of some edges into those of others. -/

abbrev Assembly := List (OrderedMap Label StateSet)

namespace Assembly

structure Part where
  entry : Nat
  exit : Nat
deriving DecidableEq, Repr

def addState : StateM Assembly Nat := fun rows => (rows.length, rows ++ [.empty])

def connect (edge : Edge) : StateM Assembly Unit :=
  modify fun rows => rows.modify edge.source fun row =>
    row.insert edge.label (((row.get? edge.label).getD .empty).insert edge.target)

def iterate {α : Type} (step : α → StateM Assembly α) : Nat → α → StateM Assembly α
  | 0, value => pure value
  | count + 1, value => do iterate step count (← step value)

def addEdge (label : Label) : StateM Assembly Part := do
  let entry ← addState
  let exit ← addState
  connect ⟨entry, label, exit⟩
  return ⟨entry, exit⟩

def addLoop (body : StateM Assembly Part) : StateM Assembly Part := do
  let entry ← addState
  let inner ← body
  let exit ← addState
  connect (.jump entry inner.entry)
  connect (.jump entry exit)
  connect (.jump inner.exit entry)
  connect (.jump inner.exit exit)
  return ⟨entry, exit⟩

/-- A further copy of a body behind the last one. -/
def addCopy (body : StateM Assembly Part) (last : Part) : StateM Assembly Part := do
  let copy ← body
  connect (.jump last.exit copy.entry)
  return copy

/-- A further copy of an optional body: from where the copies before it are left, one goes
to its entry, or to the exit once there are enough of them. -/
def addOption (body : StateM Assembly Part) (low : Nat) (exit : Nat) (last : Nat × Nat) :
    StateM Assembly (Nat × Nat) := do
  let copy ← body
  (if low ≤ last.1 then connect (.jump last.2 exit) else pure ())
  connect (.jump last.2 copy.entry)
  return (last.1 + 1, copy.exit)

def add : Regex → StateM Assembly Part
  | .literal symbol => addEdge (.ofLiteral symbol)
  | .seq left right => do
      let first ← add left
      let second ← add right
      connect (.jump first.exit second.entry)
      return ⟨first.entry, second.exit⟩
  | .or left right => do
      let entry ← addState
      let first ← add left
      let second ← add right
      let exit ← addState
      connect (.jump entry first.entry)
      connect (.jump entry second.entry)
      connect (.jump first.exit exit)
      connect (.jump second.exit exit)
      return ⟨entry, exit⟩
  | .star body => addLoop (add body)
  | .exactly body count =>
      if count = 0 then addEdge none
      else do
        let first ← add body
        let last ← iterate (addCopy (add body)) (count.toNat - 1) first
        return ⟨first.entry, last.exit⟩
  | .between body low high => do
      let entry ← addState
      let exit ← addState
      let last ← iterate (addOption (add body) low.toNat exit) high.toNat (0, entry)
      connect (.jump last.2 exit)
      return ⟨entry, exit⟩
  | .atLeast body low =>
      if low = 0 then addLoop (add body)
      else do
        let first ← add body
        let last ← iterate (addCopy (add body)) (low.toNat - 1) first
        let exit ← addState
        connect (.jump last.exit last.entry)
        connect (.jump last.exit exit)
        return ⟨first.entry, exit⟩

/-! ## Rows and edges

Rows are those of edges, of which only the set counts: it makes no difference in which
order and how often they are given. -/

def ofEdges (size : Nat) (edges : List Edge) : Assembly :=
  (List.range size).map fun state => Nfa.rowOfEdges (edges.filter (·.source = state))

end Assembly

namespace Nfa

variable {outgoing more : List Edge} {label : Label}

theorem getD_get?_rowOfEdges :
    ((rowOfEdges outgoing).get? label).getD .empty =
      .ofList ((outgoing.filter (·.label = label)).map (·.target)) := by
  rw [rowOfEdges, OrderedMap.get?_tabulate]
  split
  · rfl
  · rename_i absent
    have none : outgoing.filter (·.label = label) = [] := by
      apply List.filter_eq_nil_iff.mpr
      intro edge member same
      exact absent (OrderedSet.mem_ofList.mpr
        (List.mem_map.mpr ⟨edge, member, of_decide_eq_true same⟩))
    rw [none]
    rfl

theorem rowOfEdges_congr (same : ∀ edge, edge ∈ outgoing ↔ edge ∈ more) :
    rowOfEdges outgoing = rowOfEdges more := by
  have keys : OrderedSet.ofList (outgoing.map (·.label)) =
      OrderedSet.ofList (more.map (·.label)) := by
    apply OrderedSet.ext
    simp [same]
  have targets (label : Label) :
      OrderedSet.ofList ((outgoing.filter (·.label = label)).map (·.target)) =
        OrderedSet.ofList ((more.filter (·.label = label)).map (·.target)) := by
    apply OrderedSet.ext
    simp [same]
  rw [rowOfEdges, rowOfEdges, keys, funext targets]

theorem rowOfEdges_concat (outgoing : List Edge) (edge : Edge) :
    rowOfEdges (outgoing ++ [edge]) =
      (rowOfEdges outgoing).insert edge.label
        ((((rowOfEdges outgoing).get? edge.label).getD .empty).insert edge.target) := by
  apply OrderedMap.ext_get?
  intro label
  rw [OrderedMap.get?_insert, getD_get?_rowOfEdges, rowOfEdges, rowOfEdges,
    OrderedMap.get?_tabulate, OrderedMap.get?_tabulate]
  by_cases same : label = edge.label
  · subst same
    rw [if_pos (by simp), if_pos rfl]
    refine congrArg some (OrderedSet.ext fun target => ?_)
    simp [or_comm]
  · simp [same, Ne.symm same]

end Nfa

namespace Assembly

variable {size newSize : Nat} {edges newEdges : List Edge}

theorem ofEdges_congr {more : List Edge} (same : ∀ edge, edge ∈ edges ↔ edge ∈ more) :
    ofEdges size edges = ofEdges size more := by
  apply List.map_congr_left
  intro state _
  apply Nfa.rowOfEdges_congr
  simp [same]

/-- Whether an action turns the rows of some states and edges into those of others. -/
def Builds {α : Type} (action : StateM Assembly α) (size : Nat) (edges : List Edge) (value : α)
    (newSize : Nat) (newEdges : List Edge) : Prop :=
  (∀ edge ∈ edges, edge.source < size) →
    action (ofEdges size edges) = (value, ofEdges newSize newEdges) ∧
      ∀ edge ∈ newEdges, edge.source < newSize

namespace Builds

theorem bind {α β : Type} {first : StateM Assembly α} {next : α → StateM Assembly β}
    {middle last : Nat} {middleEdges lastEdges : List Edge} {value : α} {result : β}
    (firstBuilds : Builds first size edges value middle middleEdges)
    (nextBuilds : Builds (next value) middle middleEdges result last lastEdges) :
    Builds (first >>= next) size edges result last lastEdges := by
  intro inside
  rcases firstBuilds inside with ⟨run, middleInside⟩
  rcases nextBuilds middleInside with ⟨nextRun, lastInside⟩
  refine ⟨?_, lastInside⟩
  change next (first (ofEdges size edges)).1 (first (ofEdges size edges)).2 = _
  rw [run]
  exact nextRun

theorem pure {α : Type} (value : α) : Builds (Pure.pure value) size edges value size edges :=
  fun inside => ⟨rfl, inside⟩

theorem congr {α : Type} {action : StateM Assembly α} {value result : α} {last : Nat}
    {more : List Edge} (builds : Builds action size edges value newSize newEdges)
    (values : value = result) (sizes : newSize = last)
    (same : ∀ edge, edge ∈ newEdges ↔ edge ∈ more) :
    Builds action size edges result last more := by
  subst values sizes
  intro inside
  rcases builds inside with ⟨run, newInside⟩
  exact ⟨run.trans (by rw [ofEdges_congr same]),
    fun edge member => newInside edge ((same edge).mpr member)⟩

theorem addState : Builds addState size edges size (size + 1) edges := by
  intro inside
  have empty : edges.filter (·.source = size) = [] := by
    apply List.filter_eq_nil_iff.mpr
    intro edge member same
    exact absurd (inside edge member) (by simpa using Nat.le_of_eq (of_decide_eq_true same).symm)
  refine ⟨?_, fun edge member => Nat.lt_succ_of_lt (inside edge member)⟩
  rw [Assembly.addState, ofEdges, ofEdges, List.length_map, List.length_range,
    List.range_succ, List.map_append, List.map_singleton, empty]
  rfl

theorem connect {edge : Edge} (old : edge.source < size) :
    Builds (connect edge) size edges () size (edges ++ [edge]) := by
  intro inside
  refine ⟨?_, ?_⟩
  · refine congrArg (Prod.mk ()) (List.ext_getElem? fun state => ?_)
    rw [List.getElem?_modify, ofEdges, ofEdges, List.getElem?_map, List.getElem?_map,
      Option.map_eq_map, Option.map_map]
    refine Option.map_congr fun place found => ?_
    have same : place = state := by
      rcases List.getElem?_eq_some_iff.mp found with ⟨_, rfl⟩
      exact List.getElem_range _
    subst same
    rw [Function.comp_apply, List.filter_append]
    by_cases leaves : edge.source = place
    · have added : [edge].filter (·.source = place) = [edge] := by simp [leaves]
      rw [if_pos leaves, added, Nfa.rowOfEdges_concat]
    · have omitted : [edge].filter (·.source = place) = [] := by simp [leaves]
      rw [if_neg leaves, omitted, List.append_nil]
  · intro other member
    rcases List.mem_append.mp member with known | new
    · exact inside other known
    · rwa [List.mem_singleton.mp new]

theorem connect_if {condition : Prop} [Decidable condition] {edge : Edge}
    (old : edge.source < size) :
    Builds (if condition then Assembly.connect edge else Pure.pure ()) size edges () size
      (edges ++ if condition then [edge] else []) := by
  split
  · exact connect old
  · rw [List.append_nil]
    exact pure ()

theorem iterate {α : Type} {step : α → StateM Assembly α} {count : Nat} (values : Nat → α)
    (sizes : Nat → Nat) (edges : Nat → List Edge)
    (steps : ∀ place < count, Builds (step (values place)) (sizes place) (edges place)
      (values (place + 1)) (sizes (place + 1)) (edges (place + 1))) :
    Builds (iterate step count (values 0)) (sizes 0) (edges 0) (values count) (sizes count)
      (edges count) := by
  induction count generalizing values sizes edges with
  | zero => exact .pure _
  | succ count induction =>
      exact (steps 0 (Nat.succ_pos count)).bind (induction (fun place => values (place + 1))
        (fun place => sizes (place + 1)) (fun place => edges (place + 1))
        fun place inside => steps (place + 1) (Nat.succ_lt_succ inside))

end Builds

end Assembly

end WordAutomata
