import WordAutomata.Nfa
import WordAutomata.Regex

namespace WordAutomata

/-! Thompson's construction. Every part of an expression has a block of
consecutive states to itself, within the block of the part around it. A block is
entered at its first state, so once that state is given, the state in which the
block is left (`exit`) and its transitions (`edges`) are known. -/

structure Edge where
  source : Nat
  label : Label
  target : Nat
deriving DecidableEq, Repr

namespace Edge

def jump (source target : Nat) : Edge := ⟨source, none, target⟩

def loop (base bodyExit exit : Nat) : List Edge :=
  [jump base (base + 1), jump base exit, jump bodyExit base, jump bodyExit exit]

/-- The edges of `count` copies of a body, one behind the other, in which each
copy is left into the next one. -/
def chain (count size : Nat) (bodyExit : Nat → Nat) (bodyEdges : Nat → List Edge)
    (base : Nat) : List Edge :=
  (List.range count).flatMap (fun copy => bodyEdges (base + copy * size)) ++
    (List.range (count - 1)).map fun copy =>
      jump (bodyExit (base + copy * size)) (base + (copy + 1) * size)

end Edge

namespace Regex

open Edge

def size : Regex → Nat
  | literal _ => 2
  | seq left right => left.size + right.size
  | or left right => left.size + right.size + 2
  | star body => body.size + 2
  | exactly body count => if count = 0 then 2 else count.toNat * body.size
  | between body _ high => high.toNat * body.size + 2
  | atLeast body low => if low = 0 then body.size + 2 else low.toNat * body.size + 1

def exit (expression : Regex) (base : Nat) : Nat :=
  match expression with
  | literal _ => base + 1
  | seq left right => right.exit (base + left.size)
  | or left right => base + left.size + right.size + 1
  | star body => base + body.size + 1
  | exactly body count =>
      if count = 0 then base + 1
      else body.exit (base + (count.toNat - 1) * body.size)
  | between _ _ _ => base + 1
  | atLeast body low =>
      if low = 0 then base + body.size + 1 else base + low.toNat * body.size

def edges (expression : Regex) (base : Nat) : List Edge :=
  match expression with
  | literal symbol => [⟨base, .ofLiteral symbol, base + 1⟩]
  | seq left right =>
      left.edges base ++ right.edges (base + left.size) ++
        [jump (left.exit base) (base + left.size)]
  | or left right =>
      let second := base + 1 + left.size
      let exit := second + right.size
      left.edges (base + 1) ++ right.edges second ++
        [jump base (base + 1), jump base second,
          jump (left.exit (base + 1)) exit, jump (right.exit second) exit]
  | star body =>
      body.edges (base + 1) ++
        loop base (body.exit (base + 1)) (base + body.size + 1)
  | exactly body count =>
      if count = 0 then [jump base (base + 1)]
      else chain count.toNat body.size body.exit body.edges base
  | between body low high =>
      let first := base + 2
      -- The state from which the automaton goes on after so many copies.
      let junction (copies : Nat) : Nat :=
        if copies = 0 then base else body.exit (first + (copies - 1) * body.size)
      chain high.toNat body.size body.exit body.edges first ++
        (if high = 0 then [] else [jump base first]) ++
        ((List.range high.toNat).filter (low.toNat ≤ ·)).map
          (fun copies => jump (junction copies) (base + 1)) ++
        [jump (junction high.toNat) (base + 1)]
  | atLeast body low =>
      if low = 0 then
        body.edges (base + 1) ++
          loop base (body.exit (base + 1)) (base + body.size + 1)
      else
        let last := base + (low.toNat - 1) * body.size
        let exit := base + low.toNat * body.size
        chain low.toNat body.size body.exit body.edges base ++
          [jump (body.exit last) last, jump (body.exit last) exit]

/-! A repetition from zero copies on is laid out like a star. -/

theorem size_atLeast_zero (body : Regex) : (atLeast body 0).size = (star body).size := by
  simp [size]

theorem exit_atLeast_zero (body : Regex) (base : Nat) :
    (atLeast body 0).exit base = (star body).exit base := by
  simp [exit]

theorem edges_atLeast_zero (body : Regex) (base : Nat) :
    (atLeast body 0).edges base = (star body).edges base := by
  simp [edges]

end Regex

namespace Nfa

def ofEdges (size : Nat) (edges : List Edge) (start final : Nat) : Nfa where
  rows := (List.range size).map fun state =>
    let outgoing := edges.filter (·.source = state)
    .tabulate (.ofList (outgoing.map (·.label))) fun label =>
      .ofList ((outgoing.filter (·.label = label)).map (·.target))
  start := start
  final := final

theorem size_ofEdges (size : Nat) (edges : List Edge) (start final : Nat) :
    (ofEdges size edges start final).size = size := by
  simp [ofEdges, Nfa.size]

theorem mem_targets_ofEdges {size : Nat} {edges : List Edge} {start final : Nat}
    {source target : Nat} {label : Label} :
    target ∈ (ofEdges size edges start final).targets source label ↔
      source < size ∧ ⟨source, label, target⟩ ∈ edges := by
  by_cases inside : source < size
  · simp only [targets, ofEdges, List.getElem?_map, List.getElem?_range inside,
      Option.map_some, Option.bind_some, OrderedMap.get?_tabulate, inside, true_and]
    split
    · simp only [Option.getD_some, OrderedSet.mem_ofList, List.mem_map, List.mem_filter,
        decide_eq_true_eq]
      constructor
      · rintro ⟨⟨_, _, _⟩, ⟨⟨member, rfl⟩, rfl⟩, rfl⟩
        exact member
      · exact fun member => ⟨_, ⟨⟨member, rfl⟩, rfl⟩, rfl⟩
    · rename_i absent
      simp only [Option.getD_none, OrderedSet.not_mem_empty, false_iff]
      intro member
      exact absent (OrderedSet.mem_ofList.mpr (List.mem_map.mpr
        ⟨⟨source, label, target⟩, List.mem_filter.mpr ⟨member, by simp⟩, rfl⟩))
  · simp [targets, ofEdges, inside]

def ofRegex (expression : Regex) : Nfa :=
  ofEdges expression.size (expression.edges 0) 0 (expression.exit 0)

/-- A star is entered as often as the word needs. -/
example : (ofRegex (.star (.literal "a"))).accepts ["a", "a"] = true := by
  decide +kernel

end Nfa

end WordAutomata
