import WordAutomata.Proofs.Nfa.Blocks

namespace WordAutomata

/-! In the automaton of an expression, a transition that reads a symbol is the only one
of its state: wherever there is a choice, or an end, nothing is read. -/

namespace Edge

/-- Whether the edges that read symbols leave no free state, and each of them is the only
edge to leave its source. To the free states, more edges may be added. -/
def Guarded (edges : List Edge) (free : Nat → Prop) : Prop :=
  ∀ edge ∈ edges, edge.label ≠ none → ¬ free edge.source ∧
    ∀ other ∈ edges, other.source = edge.source → other = edge

namespace Guarded

variable {edges left right : List Edge} {free fewer leftFree rightFree : Nat → Prop}

theorem weaken (guarded : Guarded edges free) (subset : ∀ state, fewer state → free state) :
    Guarded edges fewer := by
  intro edge member reads
  rcases guarded edge member reads with ⟨taken, only⟩
  exact ⟨fun given => taken (subset _ given), only⟩

theorem extend (guarded : Guarded edges free) {more : List Edge}
    (parts : ∀ edge ∈ more, edge ∈ edges ∨ edge.label = none ∧ free edge.source) :
    Guarded more free := by
  intro edge member reads
  have inside := (parts edge member).resolve_right fun added => reads added.1
  rcases guarded edge inside reads with ⟨taken, only⟩
  refine ⟨taken, fun other otherMember same => ?_⟩
  rcases parts other otherMember with otherInside | ⟨_, given⟩
  · exact only other otherInside same
  · exact absurd (same ▸ given) taken

theorem append (leftGuarded : Guarded left leftFree)
    (rightGuarded : Guarded right rightFree)
    (apart : ∀ edge ∈ left, ∀ other ∈ right, edge.source ≠ other.source) :
    Guarded (left ++ right) fun state => leftFree state ∧ rightFree state := by
  intro edge member reads
  rcases List.mem_append.mp member with member | member
  · rcases leftGuarded edge member reads with ⟨taken, only⟩
    refine ⟨fun given => taken given.1, fun other otherMember same => ?_⟩
    rcases List.mem_append.mp otherMember with otherMember | otherMember
    · exact only other otherMember same
    · exact absurd same.symm (apart edge member other otherMember)
  · rcases rightGuarded edge member reads with ⟨taken, only⟩
    refine ⟨fun given => taken given.2, fun other otherMember same => ?_⟩
    rcases List.mem_append.mp otherMember with otherMember | otherMember
    · exact absurd same (apart other otherMember edge member)
    · exact only other otherMember same

end Guarded

end Edge

open Edge

namespace Layout

/-- The states from which edges may lead out of a layout: its exit, and all states
outside its block. -/
def free (layout : Layout) (base state : Nat) : Prop :=
  state = layout.exit base ∨ state < base ∨ base + layout.size ≤ state

def Guarded (layout : Layout) : Prop :=
  ∀ base, Edge.Guarded (layout.edges base) (layout.free base)

theorem Placed.guarded_chain {layout : Layout} (placed : layout.Placed)
    (guarded : layout.Guarded) (count base : Nat) :
    Edge.Guarded (layout.chain count base) fun state =>
      (∃ copy < count, state = layout.exit (base + copy * layout.size)) ∨
        state < base ∨ base + count * layout.size ≤ state := by
  intro edge member reads
  rcases mem_chain.mp member with ⟨copy, inside, member⟩ | ⟨_, _, rfl⟩
  case inr => exact absurd rfl reads
  case inl =>
    rcases guarded _ edge member reads with ⟨taken, only⟩
    have bound := mul_add_le_mul inside layout.size
    have confined := placed.confined _ edge member
    -- An edge leaves this copy at its exit only, and such an edge reads nothing.
    have noExit (other : Nat) :
        edge.source ≠ layout.exit (base + other * layout.size) := by
      intro equal
      have exit := placed.exit_mem (base + other * layout.size)
      have same : other = copy :=
        @copy_unique layout.size other copy (edge.source - base) (by omega) (by omega)
      subst same
      exact taken (.inl equal)
    constructor
    · intro given
      rcases given with ⟨other, _, equal⟩ | outside
      · exact noExit other equal
      · omega
    · intro other otherMember same
      rcases mem_chain.mp otherMember with
        ⟨otherCopy, otherInside, otherMember⟩ | ⟨otherCopy, _, rfl⟩
      · have otherConfined := placed.confined _ other otherMember
        have copies : otherCopy = copy :=
          @copy_unique layout.size otherCopy copy (edge.source - base) (by omega) (by omega)
        subst copies
        exact only other otherMember same
      · exact absurd same.symm (noExit otherCopy)

end Layout

namespace Regex

variable {left right body : Regex}

theorem guarded_literal (symbol : String) : (literal symbol).layout.Guarded := by
  intro base edge member reads
  simp only [layout, edges, List.mem_singleton] at member ⊢
  subst member
  refine ⟨?_, fun other equal _ => equal⟩
  simp [Layout.free, exit, size]

theorem guarded_seq (leftGuarded : left.layout.Guarded)
    (rightGuarded : right.layout.Guarded) :
    (seq left right).layout.Guarded := by
  intro base
  have leftExit := left.exit_mem base
  have rightExit := right.exit_mem (base + left.size)
  have both := (leftGuarded base).append (rightGuarded (base + left.size)) ?apart
  case apart =>
    intro edge member other otherMember
    have inside := left.confined base edge member
    have otherInside := right.confined _ other otherMember
    omega
  apply (both.extend ?parts).weaken ?free
  case parts =>
    intro edge member
    simp only [layout, edges, List.mem_append, List.mem_singleton] at member ⊢
    rcases member with member | rfl
    · exact .inl member
    · exact .inr ⟨rfl, .inl rfl, .inr (.inl leftExit.2)⟩
  case free =>
    intro state given
    simp only [Layout.free, layout, exit, size] at given ⊢
    omega

theorem guarded_or (leftGuarded : left.layout.Guarded)
    (rightGuarded : right.layout.Guarded) :
    (or left right).layout.Guarded := by
  intro base
  have leftExit := left.exit_mem (base + 1)
  have rightExit := right.exit_mem (base + 1 + left.size)
  have both := (leftGuarded (base + 1)).append (rightGuarded (base + 1 + left.size)) ?apart
  case apart =>
    intro edge member other otherMember
    have inside := left.confined _ edge member
    have otherInside := right.confined _ other otherMember
    omega
  apply (both.extend ?parts).weaken ?free
  case parts =>
    intro edge member
    simp only [layout, edges, List.mem_append, List.mem_cons, List.not_mem_nil,
      or_false] at member ⊢
    have fork : left.layout.free (base + 1) base ∧
        right.layout.free (base + 1 + left.size) base :=
      ⟨.inr (.inl (by omega)), .inr (.inl (by omega))⟩
    rcases member with member | rfl | rfl | rfl | rfl
    · exact .inl member
    · exact .inr ⟨rfl, fork⟩
    · exact .inr ⟨rfl, fork⟩
    · exact .inr ⟨rfl, .inl rfl, .inr (.inl leftExit.2)⟩
    · exact .inr ⟨rfl, .inr (.inr rightExit.1), .inl rfl⟩
  case free =>
    intro state given
    simp only [Layout.free, layout, exit, size] at given ⊢
    omega

theorem guarded_star (guarded : body.layout.Guarded) : (star body).layout.Guarded := by
  intro base
  have bodyExit := body.exit_mem (base + 1)
  apply ((guarded (base + 1)).extend ?parts).weaken ?free
  case parts =>
    intro edge member
    simp only [layout, edges, loop, List.mem_append, List.mem_cons, List.not_mem_nil,
      or_false] at member ⊢
    have outside : body.layout.free (base + 1) base := .inr (.inl (by omega))
    rcases member with member | rfl | rfl | rfl | rfl
    · exact .inl member
    · exact .inr ⟨rfl, outside⟩
    · exact .inr ⟨rfl, outside⟩
    · exact .inr ⟨rfl, .inl rfl⟩
    · exact .inr ⟨rfl, .inl rfl⟩
  case free =>
    intro state given
    simp only [Layout.free, layout, exit, size] at given ⊢
    omega

theorem guarded_exactly (guarded : body.layout.Guarded) (count : Count) :
    (exactly body count).layout.Guarded := by
  by_cases zero : count = 0
  · rw [zero, layout_exactly_zero]
    exact guarded_literal epsilon
  · intro base
    have chained := body.placed.guarded_chain guarded count.toNat base
    simp only [layout, edges, if_neg zero]
    apply chained.weaken
    intro state given
    simp only [Layout.free, layout, exit, size, if_neg zero] at given ⊢
    rcases given with last | outside
    · exact .inl ⟨_, Nat.sub_one_lt_of_lt (toNat_pos zero), last⟩
    · exact .inr outside

theorem guarded_between (guarded : body.layout.Guarded) (low high : Count) :
    (between body low high).layout.Guarded := by
  intro base
  have chained := body.placed.guarded_chain guarded high.toNat (base + 2)
  apply (chained.extend ?parts).weaken ?free
  case parts =>
    intro edge member
    rcases mem_edges_between.mp member with member | ⟨_, rfl⟩ | ⟨copies, _, upper, rfl⟩
    · exact .inl member
    · refine .inr ⟨rfl, .inr ?_⟩
      simp only [jump]
      omega
    · refine .inr ⟨rfl, ?_⟩
      simp only [jump, junction]
      split
      · exact .inr (.inl (by omega))
      · exact .inl ⟨copies - 1, by omega, rfl⟩
  case free =>
    intro state given
    simp only [Layout.free, layout, exit, size] at given ⊢
    exact .inr (by omega)

theorem guarded_atLeast (guarded : body.layout.Guarded) (low : Count) :
    (atLeast body low).layout.Guarded := by
  by_cases zero : low = 0
  · rw [zero, layout_atLeast_zero]
    exact guarded_star guarded
  · intro base
    have chained := body.placed.guarded_chain guarded low.toNat base
    have last := Nat.sub_one_lt_of_lt (toNat_pos zero)
    apply (chained.extend ?parts).weaken ?free
    case parts =>
      intro edge member
      rcases (mem_edges_atLeast zero).mp member with member | rfl | rfl
      · exact .inl member
      all_goals exact .inr ⟨rfl, .inl ⟨_, last, rfl⟩⟩
    case free =>
      intro state given
      simp only [Layout.free, layout, exit, size, if_neg zero] at given ⊢
      exact .inr (by omega)

theorem guarded (expression : Regex) : expression.layout.Guarded := by
  induction expression with
  | literal symbol => exact guarded_literal symbol
  | seq _ _ left right => exact guarded_seq left right
  | or _ _ left right => exact guarded_or left right
  | star _ body => exact guarded_star body
  | exactly _ count body => exact guarded_exactly body count
  | between _ low high body => exact guarded_between body low high
  | atLeast _ low body => exact guarded_atLeast body low

end Regex

end WordAutomata
