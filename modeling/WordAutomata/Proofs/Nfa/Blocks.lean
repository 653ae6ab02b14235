import WordAutomata.Proofs.Nfa.Layout
import WordAutomata.Regex.Language

namespace WordAutomata

/-! The block of states that an expression takes up. For every constructor, the layout
of the whole is put together from those of the parts, and no edge leaves the block.
The smallest block is that of a symbol: it reads the symbol and nothing else. -/

open Edge

namespace Regex

def layout (expression : Regex) : Layout :=
  ⟨expression.size, expression.exit, expression.edges⟩

/-! ## Blocks -/

theorem toNat_pos {count : Count} (positive : count ≠ 0) : 0 < count.toNat :=
  Nat.pos_of_ne_zero fun zero => positive (UInt32.toNat_inj.mp zero)

theorem layout_atLeast_zero (body : Regex) :
    (atLeast body 0).layout = (star body).layout := by
  have exits : (atLeast body 0).exit = (star body).exit := funext (exit_atLeast_zero body)
  have edges : (atLeast body 0).edges = (star body).edges :=
    funext (edges_atLeast_zero body)
  rw [layout, layout, size_atLeast_zero, exits, edges]

theorem layout_exactly_zero (body : Regex) :
    (exactly body 0).layout = (literal epsilon).layout := by
  simp [layout, size, exit, edges, jump, Label.ofLiteral]

/-- The state from which a repetition with bounds goes on after so many copies. -/
def junction (body : Regex) (base copies : Nat) : Nat :=
  if copies = 0 then base else body.exit (base + 2 + (copies - 1) * body.size)

theorem mem_edges_between {body : Regex} {low high : Count} {base : Nat} {edge : Edge} :
    edge ∈ (between body low high).edges base ↔
      edge ∈ body.layout.chain high.toNat (base + 2) ∨
      (high ≠ 0 ∧ edge = jump base (base + 2)) ∨
      ∃ copies, min low.toNat high.toNat ≤ copies ∧ copies ≤ high.toNat ∧
        edge = jump (body.junction base copies) (base + 1) := by
  have exits : (∃ copies, (copies < high.toNat ∧ low.toNat ≤ copies) ∧
        jump (body.junction base copies) (base + 1) = edge) ∨
      edge = jump (body.junction base high.toNat) (base + 1) ↔
      ∃ copies, min low.toNat high.toNat ≤ copies ∧ copies ≤ high.toNat ∧
        edge = jump (body.junction base copies) (base + 1) := by
    constructor
    · intro either
      rcases either with ⟨copies, bounds, rfl⟩ | rfl
      · exact ⟨copies, by omega, by omega, rfl⟩
      · exact ⟨high.toNat, by omega, by omega, rfl⟩
    · intro given
      rcases given with ⟨copies, lower, upper, rfl⟩
      rcases Nat.lt_or_eq_of_le upper with below | equal
      · exact .inl ⟨copies, by omega, rfl⟩
      · exact .inr (equal ▸ rfl)
  rw [← exits]
  by_cases empty : high = 0
  · simp [edges, Layout.chain, layout, junction, empty]
  · simp [edges, Layout.chain, layout, junction, empty]

theorem mem_edges_atLeast {body : Regex} {low : Count} (positive : low ≠ 0) {base : Nat}
    {edge : Edge} :
    edge ∈ (atLeast body low).edges base ↔
      edge ∈ body.layout.chain low.toNat base ∨
      edge = jump (body.exit (base + (low.toNat - 1) * body.size))
        (base + (low.toNat - 1) * body.size) ∨
      edge = jump (body.exit (base + (low.toNat - 1) * body.size))
        (base + low.toNat * body.size) := by
  simp [edges, positive, Layout.chain, layout]

theorem placed_literal (symbol : String) : (literal symbol).layout.Placed where
  exit_mem := by
    intro base
    simp [layout, exit, size]
  confined := by
    intro base edge member
    simp only [layout, edges, List.mem_singleton] at member
    subst member
    simp [layout, size]

section

variable {left right body : Regex}

theorem placed_seq (leftPlaced : left.layout.Placed)
    (rightPlaced : right.layout.Placed) :
    (seq left right).layout.Placed where
  exit_mem := by
    intro base
    have rightExit := rightPlaced.exit_mem (base + left.size)
    simp only [layout] at rightExit
    simp only [layout, exit, size]
    omega
  confined := by
    intro base edge member
    have leftExit := leftPlaced.exit_mem base
    have rightExit := rightPlaced.exit_mem (base + left.size)
    have leftInside := leftPlaced.confined base
    have rightInside := rightPlaced.confined (base + left.size)
    simp only [layout] at leftExit rightExit leftInside rightInside
    simp only [layout, edges, List.mem_append, List.mem_singleton] at member
    simp only [layout, size]
    rcases member with (member | member) | rfl
    · have inside := leftInside edge member
      omega
    · have inside := rightInside edge member
      omega
    · simp only [jump]
      omega

theorem placed_or (leftPlaced : left.layout.Placed)
    (rightPlaced : right.layout.Placed) :
    (or left right).layout.Placed where
  exit_mem := by
    intro base
    simp only [layout, exit, size]
    omega
  confined := by
    intro base edge member
    have leftExit := leftPlaced.exit_mem (base + 1)
    have rightExit := rightPlaced.exit_mem (base + 1 + left.size)
    have leftInside := leftPlaced.confined (base + 1)
    have rightInside := rightPlaced.confined (base + 1 + left.size)
    simp only [layout] at leftExit rightExit leftInside rightInside
    simp only [layout, edges, List.mem_append, List.mem_cons, List.not_mem_nil,
      or_false] at member
    simp only [layout, size]
    rcases member with (member | member) | rfl | rfl | rfl | rfl
    · have inside := leftInside edge member
      omega
    · have inside := rightInside edge member
      omega
    all_goals simp only [jump]; omega

theorem placed_star (placed : body.layout.Placed) : (star body).layout.Placed where
  exit_mem := by
    intro base
    simp only [layout, exit, size]
    omega
  confined := by
    intro base edge member
    have bodyExit := placed.exit_mem (base + 1)
    have bodyInside := placed.confined (base + 1)
    simp only [layout] at bodyExit bodyInside
    simp only [layout, edges, loop, List.mem_append, List.mem_cons, List.not_mem_nil,
      or_false] at member
    simp only [layout, size]
    rcases member with member | rfl | rfl | rfl | rfl
    · have inside := bodyInside edge member
      omega
    all_goals simp only [jump]; omega

theorem placed_exactly (placed : body.layout.Placed) (count : Count) :
    (exactly body count).layout.Placed := by
  by_cases zero : count = 0
  · rw [zero, layout_exactly_zero]
    exact placed_literal epsilon
  · have size_eq : (exactly body count).size = count.toNat * body.size := by
      rw [size, if_neg zero]
    constructor
    case exit_mem =>
      intro base
      have last := Layout.mul_add_le_mul
          (Nat.sub_one_lt_of_lt (toNat_pos zero)) body.size
      have bodyExit := placed.exit_mem (base + (count.toNat - 1) * body.size)
      simp only [layout] at bodyExit
      simp only [layout, size_eq, exit, if_neg zero]
      omega
    case confined =>
      intro base
      have chained : Confined (body.layout.chain count.toNat base) base _ :=
        placed.confined_chain
      simp only [layout, size_eq, edges, if_neg zero]
      exact chained

theorem junction_mem (placed : body.layout.Placed) (base : Nat) {copies count : Nat}
    (bound : copies ≤ count) :
    base ≤ body.junction base copies ∧
      body.junction base copies < base + (count * body.size + 2) := by
  rw [junction]
  split
  · omega
  · have last := Layout.mul_add_le_mul (by omega : copies - 1 < count) body.size
    have bodyExit := placed.exit_mem (base + 2 + (copies - 1) * body.size)
    simp only [layout] at bodyExit
    omega

theorem placed_between (placed : body.layout.Placed) (low high : Count) :
    (between body low high).layout.Placed where
  exit_mem := by
    intro base
    simp only [layout, exit, size]
    omega
  confined := by
    intro base edge member
    simp only [layout, size]
    rcases mem_edges_between.mp member with
      member | ⟨positive, rfl⟩ | ⟨copies, _, bound, rfl⟩
    · have inside := placed.confined_chain edge member
      simp only [layout] at inside
      omega
    · have bodyExit := placed.exit_mem base
      have last := Layout.mul_add_le_mul (toNat_pos positive) body.size
      simp only [layout] at bodyExit
      simp only [jump]
      omega
    · have inside := junction_mem placed base bound
      simp only [jump]
      omega

theorem placed_atLeast (placed : body.layout.Placed) (low : Count) :
    (atLeast body low).layout.Placed := by
  by_cases zero : low = 0
  · rw [zero, layout_atLeast_zero]
    exact placed_star placed
  · have size_eq : (atLeast body low).size = low.toNat * body.size + 1 := by
      rw [size, if_neg zero]
    constructor
    case exit_mem =>
      intro base
      simp only [layout, size_eq, exit, if_neg zero]
      omega
    case confined =>
      intro base edge member
      have last := Layout.mul_add_le_mul
          (Nat.sub_one_lt_of_lt (toNat_pos zero)) body.size
      have bodyExit := placed.exit_mem (base + (low.toNat - 1) * body.size)
      simp only [layout] at bodyExit
      simp only [layout, size_eq]
      rcases (mem_edges_atLeast zero).mp member with member | rfl | rfl
      · have inside := placed.confined_chain edge member
        simp only [layout] at inside
        omega
      all_goals simp only [jump]; omega

end

theorem placed (expression : Regex) : expression.layout.Placed := by
  induction expression with
  | literal symbol => exact placed_literal symbol
  | seq _ _ left right => exact placed_seq left right
  | or _ _ left right => exact placed_or left right
  | star _ body => exact placed_star body
  | exactly _ count body => exact placed_exactly body count
  | between _ low high body => exact placed_between body low high
  | atLeast _ low body => exact placed_atLeast body low

theorem exit_mem (expression : Regex) (base : Nat) :
    base ≤ expression.exit base ∧ expression.exit base < base + expression.size :=
  expression.placed.exit_mem base

theorem confined (expression : Regex) (base : Nat) :
    Confined (expression.edges base) base expression.size :=
  expression.placed.confined base

/-! ## Symbols -/

theorem language_literal (symbol : String) :
    (literal symbol).language = {(Label.ofLiteral symbol).toList} := by
  rw [language, Label.ofLiteral]
  split <;> rfl

theorem recognizes_literal (symbol : String) :
    (literal symbol).layout.Recognizes (literal symbol).language := by
  apply Layout.Recognizes.of_walks
  · intro base word walk
    have reads := Walk.mem_of_backward
      (fun state => if state = base then (literal symbol).language else 1)
      ?final ?backward walk
    case final => simp [layout, exit]
    case backward =>
      intro edge member rest reads
      simp only [layout, edges, List.mem_singleton] at member
      subst member
      simp only [Nat.succ_ne_self, if_false, if_true] at reads ⊢
      rw [(Language.mem_one rest).mp reads, language_literal]
      exact List.append_nil _
    simpa using reads
  · intro base word member
    rw [language_literal] at member
    have walk : Walk ((literal symbol).edges base) base
        ((Label.ofLiteral symbol).toList ++ []) (base + 1) :=
      .step (List.mem_singleton_self _) (.nil _)
    rw [List.append_nil] at walk
    exact (Set.mem_singleton_iff.mp member) ▸ walk

end Regex

end WordAutomata
