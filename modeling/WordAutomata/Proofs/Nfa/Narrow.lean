import WordAutomata.Proofs.Nfa.Guarded

namespace WordAutomata

/-! The shape of an expression's automaton. A state that reads a symbol has one place to go
to, and any other state has at most two. Edges are only added to states that none leaves
yet: new ones, and the exits of parts that are complete. -/

namespace Edge

def Fork (source first second : Nat) (edge : Edge) : Prop :=
  edge.source = source ∧ (edge.target = first ∨ edge.target = second)

/-- Whether no free state is left by an edge, and every other one by edges to two states at
most. -/
structure Narrow (edges : Edge → Prop) (free : Nat → Prop) : Prop where
  unused : ∀ edge, edges edge → ¬ free edge.source
  few : ∀ state, ∃ first second, ∀ edge, edges edge → edge.source = state →
    Fork state first second edge

namespace Narrow

variable {edges fewer left right : Edge → Prop} {free less leftFree rightFree : Nat → Prop}
  {source first second : Nat}

theorem weaken (narrow : Narrow edges free) (parts : ∀ edge, fewer edge → edges edge)
    (subset : ∀ state, less state → free state) : Narrow fewer less where
  unused := fun edge member given => narrow.unused edge (parts edge member) (subset _ given)
  few := by
    intro state
    rcases narrow.few state with ⟨first, second, fork⟩
    exact ⟨first, second, fun edge member => fork edge (parts edge member)⟩

theorem union (leftNarrow : Narrow left leftFree) (rightNarrow : Narrow right rightFree)
    (apart : ∀ edge, left edge → ∀ other, right other → edge.source ≠ other.source) :
    Narrow (fun edge => left edge ∨ right edge)
      fun state => leftFree state ∧ rightFree state where
  unused := by
    intro edge member given
    rcases member with member | member
    · exact leftNarrow.unused edge member given.1
    · exact rightNarrow.unused edge member given.2
  few := by
    intro state
    by_cases used : ∃ edge, left edge ∧ edge.source = state
    · rcases used with ⟨edge, member, leaves⟩
      rcases leftNarrow.few state with ⟨first, second, fork⟩
      refine ⟨first, second, fun other otherMember same => ?_⟩
      rcases otherMember with otherMember | otherMember
      · exact fork other otherMember same
      · exact absurd (leaves.trans same.symm) (apart edge member other otherMember)
    · rcases rightNarrow.few state with ⟨first, second, fork⟩
      refine ⟨first, second, fun other otherMember same => ?_⟩
      rcases otherMember with otherMember | otherMember
      · exact absurd ⟨other, otherMember, same⟩ used
      · exact fork other otherMember same

theorem fork (source first second : Nat) : Narrow (Fork source first second) (· ≠ source) where
  unused := fun _ member given => given member.1
  few := fun _ => ⟨first, second, fun _ member same => ⟨same, member.2⟩⟩

/-- A free state may be left by edges to two states, and is no longer free. -/
theorem branch (narrow : Narrow edges free) (given : free source) (first second : Nat) :
    Narrow (fun edge => edges edge ∨ Fork source first second edge)
      fun state => free state ∧ state ≠ source := by
  apply narrow.union (fork source first second)
  intro edge member other otherMember same
  exact narrow.unused edge member (same.trans otherMember.1 ▸ given)

end Narrow

end Edge

open Edge

namespace Layout

def Narrow (layout : Layout) : Prop :=
  ∀ base, Edge.Narrow (· ∈ layout.edges base) (layout.free base)

/-! Copies are narrow as long as they are not joined. They are linked at their exits, each
of which may also lead elsewhere. -/

def Copies (layout : Layout) (count base : Nat) (edge : Edge) : Prop :=
  ∃ copy < count, edge ∈ layout.edges (base + copy * layout.size)

def Links (layout : Layout) (linked : Nat → Prop) (base : Nat) (elsewhere : Nat → Nat)
    (edge : Edge) : Prop :=
  ∃ copy, linked copy ∧ Fork (layout.exit (base + copy * layout.size))
    (base + (copy + 1) * layout.size) (elsewhere copy) edge

namespace Placed

variable {layout : Layout} (placed : layout.Placed)
include placed

theorem eq_of_exit_eq {base copy other : Nat}
    (same : layout.exit (base + copy * layout.size) =
      layout.exit (base + other * layout.size)) : copy = other := by
  have exit := placed.exit_mem (base + copy * layout.size)
  have otherExit := placed.exit_mem (base + other * layout.size)
  exact @copy_unique layout.size copy other (layout.exit (base + copy * layout.size) - base)
    (by omega) (by omega)

theorem narrow_copies (narrow : layout.Narrow) (count base : Nat) :
    Edge.Narrow (layout.Copies count base) fun state =>
      (∃ copy < count, state = layout.exit (base + copy * layout.size)) ∨
        state < base ∨ base + count * layout.size ≤ state where
  unused := by
    intro edge member given
    rcases member with ⟨copy, inside, member⟩
    have confined := placed.confined _ edge member
    have bound := mul_add_le_mul inside layout.size
    rcases given with ⟨other, _, equal⟩ | outside
    · have exit := placed.exit_mem (base + other * layout.size)
      have same : other = copy :=
        @copy_unique layout.size other copy (edge.source - base) (by omega) (by omega)
      subst same
      exact (narrow _).unused edge member (.inl equal)
    · omega
  few := by
    intro state
    by_cases used : ∃ edge, layout.Copies count base edge ∧ edge.source = state
    · rcases used with ⟨edge, ⟨copy, inside, member⟩, rfl⟩
      have confined := placed.confined _ edge member
      rcases (narrow (base + copy * layout.size)).few edge.source with ⟨first, second, fork⟩
      refine ⟨first, second, fun other otherMember same => ?_⟩
      rcases otherMember with ⟨otherCopy, _, otherMember⟩
      have otherConfined := placed.confined _ other otherMember
      have copies : otherCopy = copy :=
        @copy_unique layout.size otherCopy copy (edge.source - base) (by omega) (by omega)
      subst copies
      exact fork other otherMember same
    · exact ⟨0, 0, fun edge member same => absurd ⟨edge, member, same⟩ used⟩

theorem narrow_links (linked : Nat → Prop) (base : Nat) (elsewhere : Nat → Nat) :
    Edge.Narrow (layout.Links linked base elsewhere) fun state =>
      ∀ copy, linked copy → state ≠ layout.exit (base + copy * layout.size) where
  unused := by
    intro edge member given
    rcases member with ⟨copy, inside, source, _⟩
    exact given copy inside source
  few := by
    intro state
    by_cases exit : ∃ copy, linked copy ∧ state = layout.exit (base + copy * layout.size)
    · rcases exit with ⟨copy, _, rfl⟩
      refine ⟨base + (copy + 1) * layout.size, elsewhere copy, fun edge member same => ?_⟩
      rcases member with ⟨other, _, source, targets⟩
      have copies := placed.eq_of_exit_eq (source.symm.trans same)
      subst copies
      exact ⟨source, targets⟩
    · refine ⟨0, 0, fun edge member same => ?_⟩
      rcases member with ⟨copy, inside, source, _⟩
      exact absurd ⟨copy, inside, same.symm.trans source⟩ exit

theorem narrow_linked (narrow : layout.Narrow) {count : Nat} {linked : Nat → Prop}
    (inside : ∀ copy, linked copy → copy < count) (base : Nat) (elsewhere : Nat → Nat) :
    Edge.Narrow
      (fun edge => layout.Copies count base edge ∨ layout.Links linked base elsewhere edge)
      fun state =>
        (∃ copy < count, ¬ linked copy ∧ state = layout.exit (base + copy * layout.size)) ∨
          state < base ∨ base + count * layout.size ≤ state := by
  have apart : ∀ edge, layout.Copies count base edge →
      ∀ other, layout.Links linked base elsewhere other → edge.source ≠ other.source := by
    intro edge member other otherMember same
    rcases otherMember with ⟨copy, given, source, _⟩
    exact (placed.narrow_copies narrow count base).unused edge member
      (.inl ⟨copy, inside copy given, same.trans source⟩)
  apply ((placed.narrow_copies narrow count base).union
    (placed.narrow_links linked base elsewhere) apart).weaken (fun _ member => member)
  intro state given
  rcases given with ⟨copy, below, open_, rfl⟩ | outside
  · refine ⟨.inl ⟨copy, below, rfl⟩, fun other given same => ?_⟩
    exact open_ (placed.eq_of_exit_eq same ▸ given)
  · refine ⟨.inr outside, fun copy given same => ?_⟩
    have exit := placed.exit_mem (base + copy * layout.size)
    have bound := mul_add_le_mul (inside copy given) layout.size
    omega

end Placed

end Layout

namespace Regex

variable {left right body : Regex}

theorem narrow_literal (symbol : String) : (literal symbol).layout.Narrow := by
  intro base
  apply (Edge.Narrow.fork base (base + 1) (base + 1)).weaken
  · intro edge member
    simp only [layout, edges, List.mem_singleton] at member
    subst member
    exact ⟨rfl, .inl rfl⟩
  · intro state given
    simp only [Layout.free, layout, exit, size] at given
    omega

theorem narrow_seq (leftNarrow : left.layout.Narrow) (rightNarrow : right.layout.Narrow) :
    (seq left right).layout.Narrow := by
  intro base
  have leftExit := left.exit_mem base
  have rightExit := right.exit_mem (base + left.size)
  have both := (leftNarrow base).union (rightNarrow (base + left.size)) ?apart
  case apart =>
    intro edge member other otherMember
    have inside := left.confined base edge member
    have otherInside := right.confined _ other otherMember
    omega
  apply (both.branch ⟨.inl rfl, .inr (.inl leftExit.2)⟩ (base + left.size)
    (base + left.size)).weaken
  · intro edge member
    simp only [layout, edges, List.mem_append, List.mem_singleton] at member ⊢
    rcases member with member | rfl
    · exact .inl member
    · exact .inr ⟨rfl, .inl rfl⟩
  · intro state given
    simp only [Layout.free, layout, exit, size] at given ⊢
    omega

theorem narrow_or (leftNarrow : left.layout.Narrow) (rightNarrow : right.layout.Narrow) :
    (or left right).layout.Narrow := by
  intro base
  have leftExit := left.exit_mem (base + 1)
  have rightExit := right.exit_mem (base + 1 + left.size)
  have both := (leftNarrow (base + 1)).union (rightNarrow (base + 1 + left.size)) ?apart
  case apart =>
    intro edge member other otherMember
    have inside := left.confined _ edge member
    have otherInside := right.confined _ other otherMember
    omega
  have outside : left.layout.free (base + 1) base ∧
      right.layout.free (base + 1 + left.size) base :=
    ⟨.inr (.inl (by omega)), .inr (.inl (by omega))⟩
  have entered := both.branch outside (base + 1) (base + 1 + left.size)
  have leftLeft := entered.branch ⟨⟨.inl rfl, .inr (.inl leftExit.2)⟩, Nat.ne_of_gt leftExit.1⟩
    (base + 1 + left.size + right.size) (base + 1 + left.size + right.size)
  have rightLeft := leftLeft.branch
    ⟨⟨⟨.inr (.inr rightExit.1), .inl rfl⟩, by omega⟩, by simp only [layout]; omega⟩
    (base + 1 + left.size + right.size) (base + 1 + left.size + right.size)
  apply rightLeft.weaken
  · intro edge member
    simp only [layout, edges, List.mem_append, List.mem_cons, List.not_mem_nil,
      or_false] at member ⊢
    rcases member with member | rfl | rfl | rfl | rfl
    · exact .inl (.inl (.inl member))
    · exact .inl (.inl (.inr ⟨rfl, .inl rfl⟩))
    · exact .inl (.inl (.inr ⟨rfl, .inr rfl⟩))
    · exact .inl (.inr ⟨rfl, .inl rfl⟩)
    · exact .inr ⟨rfl, .inl rfl⟩
  · intro state given
    simp only [Layout.free, layout, exit, size] at given ⊢
    omega

theorem narrow_star (narrow : body.layout.Narrow) : (star body).layout.Narrow := by
  intro base
  have bodyExit := body.exit_mem (base + 1)
  have outside : body.layout.free (base + 1) base := .inr (.inl (by omega))
  have entered := (narrow (base + 1)).branch outside (base + 1) (base + body.size + 1)
  have left := entered.branch ⟨.inl rfl, Nat.ne_of_gt bodyExit.1⟩ base (base + body.size + 1)
  apply left.weaken
  · intro edge member
    simp only [layout, edges, loop, List.mem_append, List.mem_cons, List.not_mem_nil,
      or_false] at member ⊢
    rcases member with member | rfl | rfl | rfl | rfl
    · exact .inl (.inl member)
    · exact .inl (.inr ⟨rfl, .inl rfl⟩)
    · exact .inl (.inr ⟨rfl, .inr rfl⟩)
    · exact .inr ⟨rfl, .inl rfl⟩
    · exact .inr ⟨rfl, .inr rfl⟩
  · intro state given
    simp only [Layout.free, layout, exit, size] at given ⊢
    omega

theorem narrow_exactly (narrow : body.layout.Narrow) (count : Count) :
    (exactly body count).layout.Narrow := by
  by_cases zero : count = 0
  · rw [zero, layout_exactly_zero]
    exact narrow_literal epsilon
  · intro base
    have linked := body.placed.narrow_linked narrow
      (fun copy (given : copy + 1 < count.toNat) => Nat.lt_of_succ_lt given) base
      fun copy => base + (copy + 1) * body.size
    simp only [layout, edges, if_neg zero]
    apply linked.weaken
    · intro edge member
      change edge ∈ body.layout.chain count.toNat base at member
      rcases Layout.mem_chain.mp member with inside | ⟨copy, below, rfl⟩
      · exact .inl inside
      · exact .inr ⟨copy, below, rfl, .inl rfl⟩
    · intro state given
      simp only [Layout.free, layout, exit, size, if_neg zero] at given ⊢
      rcases given with last | outside
      · have positive := toNat_pos zero
        exact .inl ⟨count.toNat - 1, by omega, by omega, last⟩
      · exact .inr outside

theorem narrow_between (narrow : body.layout.Narrow) (low high : Count) :
    (between body low high).layout.Narrow := by
  intro base
  have linked := body.placed.narrow_linked narrow (fun copy (given : copy < high.toNat) => given)
    (base + 2) fun _ => base + 1
  have entered := linked.branch (.inr (.inl (by omega : base < base + 2))) (base + 2) (base + 1)
  apply entered.weaken
  · intro edge member
    rcases mem_edges_between.mp member with member | ⟨_, rfl⟩ | ⟨copies, _, upper, rfl⟩
    · rcases Layout.mem_chain.mp member with inside | ⟨copy, below, rfl⟩
      · exact .inl (.inl inside)
      · exact .inl (.inr ⟨copy, Nat.lt_of_succ_lt below, rfl, .inl rfl⟩)
    · exact .inr ⟨rfl, .inl rfl⟩
    · cases copies with
      | zero => exact .inr ⟨rfl, .inr rfl⟩
      | succ copy => exact .inl (.inr ⟨copy, upper, rfl, .inr rfl⟩)
  · intro state given
    simp only [Layout.free, layout, exit, size] at given ⊢
    omega

theorem narrow_atLeast (narrow : body.layout.Narrow) (low : Count) :
    (atLeast body low).layout.Narrow := by
  by_cases zero : low = 0
  · rw [zero, layout_atLeast_zero]
    exact narrow_star narrow
  · intro base
    have positive := toNat_pos zero
    have linked := body.placed.narrow_linked narrow (fun copy (given : copy < low.toNat) => given)
      base fun copy => base + copy * body.size
    apply linked.weaken
    · intro edge member
      rcases (mem_edges_atLeast zero).mp member with member | rfl | rfl
      · rcases Layout.mem_chain.mp member with inside | ⟨copy, below, rfl⟩
        · exact .inl inside
        · exact .inr ⟨copy, Nat.lt_of_succ_lt below, rfl, .inl rfl⟩
      · exact .inr ⟨low.toNat - 1, by omega, rfl, .inr rfl⟩
      · refine .inr ⟨low.toNat - 1, by omega, rfl, .inl ?_⟩
        rw [Nat.sub_add_cancel positive]
        rfl
    · intro state given
      simp only [Layout.free, layout, exit, size, if_neg zero] at given ⊢
      exact .inr (by omega)

theorem narrow (expression : Regex) : expression.layout.Narrow := by
  induction expression with
  | literal symbol => exact narrow_literal symbol
  | seq _ _ left right => exact narrow_seq left right
  | or _ _ left right => exact narrow_or left right
  | star _ body => exact narrow_star body
  | exactly _ count body => exact narrow_exactly body count
  | between _ low high body => exact narrow_between body low high
  | atLeast _ low body => exact narrow_atLeast body low

theorem lt_exit (expression : Regex) (base : Nat) : base < expression.exit base := by
  induction expression generalizing base with
  | literal symbol => exact Nat.lt_succ_self base
  | seq left right _ rightInduction =>
      have further := rightInduction (base + left.size)
      simp only [exit]
      omega
  | or left right _ _ =>
      simp only [exit]
      omega
  | star body _ =>
      simp only [exit]
      omega
  | exactly body count induction =>
      have further := induction (base + (count.toNat - 1) * body.size)
      simp only [exit]
      split <;> omega
  | between body low high _ => exact Nat.lt_succ_self base
  | atLeast body low induction =>
      have inside := (body.exit_mem 0).2
      simp only [exit]
      split
      · omega
      · rename_i positive
        have some := Nat.mul_pos (toNat_pos positive) (Nat.zero_lt_of_lt (by omega : 0 < body.size))
        omega

end Regex

end WordAutomata
