import WordAutomata.Proofs.Nfa.Thompson

namespace WordAutomata

/-! No state of an expression's automaton is there for nothing: each lies on some way
from the start state to the final one. -/

namespace Edge

def Linked (edges : List Edge) (source target : Nat) : Prop :=
  ∃ word, Walk edges source word target

structure Between (edges : List Edge) (entry exit state : Nat) : Prop where
  before : Linked edges entry state
  after : Linked edges state exit

variable {edges more : List Edge} {source middle target entry exit state : Nat}

namespace Linked

theorem refl (edges : List Edge) (state : Nat) : Linked edges state state :=
  ⟨[], .nil state⟩

theorem of_edge {label : Label} (edge : ⟨source, label, target⟩ ∈ edges) :
    Linked edges source target := ⟨_, .step edge (.nil target)⟩

theorem trans (first : Linked edges source middle) (second : Linked edges middle target) :
    Linked edges source target := by
  rcases first with ⟨_, first⟩
  rcases second with ⟨_, second⟩
  exact ⟨_, first.append second⟩

theorem mono (subset : edges ⊆ more) (linked : Linked edges source target) :
    Linked more source target := by
  rcases linked with ⟨word, walk⟩
  exact ⟨word, walk.mono subset⟩

end Linked

namespace Between

theorem at_entry (through : Linked edges entry exit) : Between edges entry exit entry :=
  ⟨.refl _ _, through⟩

theorem at_exit (through : Linked edges entry exit) : Between edges entry exit exit :=
  ⟨through, .refl _ _⟩

theorem through (between : Between edges entry exit state) : Linked edges entry exit :=
  between.before.trans between.after

/-- A way through a part continues a way to its entry and goes on from its exit. -/
theorem within {partEntry partExit : Nat}
    (between : Between edges partEntry partExit state) (subset : edges ⊆ more)
    (enter : Linked more entry partEntry) (leave : Linked more partExit exit) :
    Between more entry exit state :=
  ⟨enter.trans (between.before.mono subset), (between.after.mono subset).trans leave⟩

end Between

end Edge

open Edge

namespace Layout

def Trim (layout : Layout) : Prop :=
  ∀ base state, base ≤ state → state < base + layout.size →
    Between (layout.edges base) base (layout.exit base) state

variable {layout : Layout} {count base : Nat}

theorem Trim.through (trim : layout.Trim) (placed : layout.Placed) (base : Nat) :
    Linked (layout.edges base) base (layout.exit base) :=
  (trim base _ (placed.exit_mem base).1 (placed.exit_mem base).2).before

theorem exists_copy {size offset : Nat} (inside : offset < count * size) :
    ∃ copy < count, copy * size ≤ offset ∧ offset < copy * size + size := by
  have positive : 0 < size := Nat.pos_of_mul_pos_left (Nat.zero_lt_of_lt inside)
  refine ⟨offset / size, (Nat.div_lt_iff_lt_mul positive).mpr inside,
    Nat.div_mul_le_self offset size, ?_⟩
  exact Nat.lt_div_mul_add positive

section

variable (trim : layout.Trim) (placed : layout.Placed)
include trim placed

theorem Trim.linked_copy {copy : Nat} (inside : copy < count) :
    Linked (layout.chain count base) base (base + copy * layout.size) := by
  induction copy with
  | zero => simpa using Linked.refl _ base
  | succ copy induction =>
      have inner : layout.edges (base + copy * layout.size) ⊆ layout.chain count base :=
        fun edge member => mem_chain.mpr (.inl ⟨copy, by omega, member⟩)
      have link : jump _ _ ∈ layout.chain count base :=
        mem_chain.mpr (.inr ⟨copy, inside, rfl⟩)
      exact (induction (by omega)).trans
        (((trim.through placed _).mono inner).trans (.of_edge link))

theorem Trim.linked_last {copy rest : Nat} (last : copy + rest + 1 = count) :
    Linked (layout.chain count base) (layout.exit (base + copy * layout.size))
      (layout.exit (base + (count - 1) * layout.size)) := by
  induction rest generalizing copy with
  | zero =>
      rw [← last, Nat.add_sub_cancel]
      exact .refl _ _
  | succ rest induction =>
      have link : jump _ _ ∈ layout.chain count base :=
        mem_chain.mpr (.inr ⟨copy, by omega, rfl⟩)
      have inner : layout.edges (base + (copy + 1) * layout.size) ⊆
          layout.chain count base :=
        fun edge member => mem_chain.mpr (.inl ⟨copy + 1, by omega, member⟩)
      have later := @induction (copy + 1) (by omega)
      exact (Linked.of_edge link).trans (((trim.through placed _).mono inner).trans later)

theorem Trim.chain {state : Nat} (above : base ≤ state)
    (below : state < base + count * layout.size) :
    Between (layout.chain count base) base
      (layout.exit (base + (count - 1) * layout.size)) state := by
  have inside : state - base < count * layout.size := by omega
  rcases exists_copy inside with ⟨copy, place, lower, upper⟩
  have between := trim (base + copy * layout.size) state (by omega) (by omega)
  have rest : copy + (count - copy - 1) + 1 = count := by omega
  exact between.within (fun edge member => mem_chain.mpr (.inl ⟨copy, place, member⟩))
    (trim.linked_copy placed place) (trim.linked_last placed rest)

end

end Layout

namespace Regex

/-! ## Expressions

A way through a part continues a way to its entry. So if all states of a part are on ways
through it, they are on ways through the whole. -/

variable {left right body : Regex}

theorem trim_literal (symbol : String) : (literal symbol).layout.Trim := by
  intro base state above below
  simp only [layout, size, edges, exit] at below ⊢
  have through := Linked.of_edge (List.mem_singleton_self
    (⟨base, .ofLiteral symbol, base + 1⟩ : Edge))
  have place : state = base ∨ state = base + 1 := by omega
  rcases place with rfl | rfl
  · exact .at_entry through
  · exact .at_exit through

theorem trim_seq (leftTrim : left.layout.Trim) (rightTrim : right.layout.Trim) :
    (seq left right).layout.Trim := by
  intro base state above below
  simp only [layout, size] at below ⊢
  have leftInside : left.edges base ⊆ (seq left right).edges base :=
    fun edge member => by simp [edges, member]
  have rightInside : right.edges (base + left.size) ⊆ (seq left right).edges base :=
    fun edge member => by simp [edges, member]
  have link : jump (left.exit base) (base + left.size) ∈ (seq left right).edges base := by
    simp [edges]
  have leftThrough := (leftTrim.through left.placed base).mono leftInside
  have rightThrough := (rightTrim.through right.placed (base + left.size)).mono rightInside
  by_cases first : state < base + left.size
  · exact (leftTrim base state above first).within leftInside (.refl _ _)
      (.trans (.of_edge link) rightThrough)
  · have inside : state < base + left.size + right.size := by omega
    exact (rightTrim _ state (Nat.le_of_not_lt first) inside).within rightInside
      (.trans leftThrough (.of_edge link)) (.refl _ _)

theorem trim_or (leftTrim : left.layout.Trim) (rightTrim : right.layout.Trim) :
    (or left right).layout.Trim := by
  intro base state above below
  simp only [layout, size] at below ⊢
  have exit_eq : (or left right).exit base = base + 1 + left.size + right.size := by
    simp only [exit]
    omega
  have leftInside : left.edges (base + 1) ⊆ (or left right).edges base :=
    fun edge member => by simp [edges, member]
  have rightInside : right.edges (base + 1 + left.size) ⊆ (or left right).edges base :=
    fun edge member => by simp [edges, member]
  have enterLeft : jump base (base + 1) ∈ (or left right).edges base := by simp [edges]
  have enterRight : jump base (base + 1 + left.size) ∈ (or left right).edges base := by
    simp [edges]
  have leaveLeft : jump (left.exit (base + 1)) ((or left right).exit base) ∈
      (or left right).edges base := by
    simp [edges, exit_eq]
  have leaveRight : jump (right.exit (base + 1 + left.size)) ((or left right).exit base) ∈
      (or left right).edges base := by
    simp [edges, exit_eq]
  have inLeft (state : Nat) (above : base + 1 ≤ state) (below : state < base + 1 + left.size) :
      Between ((or left right).edges base) base ((or left right).exit base) state :=
    (leftTrim _ state above below).within leftInside (.of_edge enterLeft)
      (.of_edge leaveLeft)
  have inRight (state : Nat) (above : base + 1 + left.size ≤ state)
      (below : state < base + 1 + left.size + right.size) :
      Between ((or left right).edges base) base ((or left right).exit base) state :=
    (rightTrim _ state above below).within rightInside (.of_edge enterRight)
      (.of_edge leaveRight)
  have through : Linked ((or left right).edges base) base ((or left right).exit base) := by
    have leftExit := left.exit_mem (base + 1)
    exact (inLeft _ leftExit.1 leftExit.2).through
  have place : state = base ∨ (base + 1 ≤ state ∧ state < base + 1 + left.size) ∨
      (base + 1 + left.size ≤ state ∧ state < base + 1 + left.size + right.size) ∨
      state = (or left right).exit base := by omega
  rcases place with rfl | ⟨above, below⟩ | ⟨above, below⟩ | rfl
  · exact .at_entry through
  · exact inLeft state above below
  · exact inRight state above below
  · exact .at_exit through

theorem trim_star (trim : body.layout.Trim) : (star body).layout.Trim := by
  intro base state above below
  simp only [layout, size] at below ⊢
  have exit_eq : (star body).exit base = base + body.size + 1 := rfl
  have inside : body.edges (base + 1) ⊆ (star body).edges base :=
    fun edge member => by simp [edges, member]
  have enter : jump base (base + 1) ∈ (star body).edges base := by simp [edges, loop]
  have pass : jump base ((star body).exit base) ∈ (star body).edges base := by
    simp [edges, loop, exit]
  have leave : jump (body.exit (base + 1)) ((star body).exit base) ∈
      (star body).edges base := by
    simp [edges, loop, exit]
  have place : state = base ∨ (base + 1 ≤ state ∧ state < base + 1 + body.size) ∨
      state = (star body).exit base := by omega
  rcases place with rfl | ⟨above, below⟩ | rfl
  · exact .at_entry (.of_edge pass)
  · exact (trim _ state above below).within inside (.of_edge enter) (.of_edge leave)
  · exact .at_exit (.of_edge pass)

theorem trim_exactly (trim : body.layout.Trim) (count : Count) :
    (exactly body count).layout.Trim := by
  by_cases zero : count = 0
  · rw [zero, layout_exactly_zero]
    exact trim_literal epsilon
  · intro base state above below
    simp only [layout, size, edges, exit, if_neg zero] at below ⊢
    exact trim.chain body.placed above below

theorem trim_between (trim : body.layout.Trim) (low high : Count) :
    (between body low high).layout.Trim := by
  intro base state above below
  simp only [layout, size] at below ⊢
  have inside : body.layout.chain high.toNat (base + 2) ⊆ (between body low high).edges base :=
    fun edge member => mem_edges_between.mpr (.inl member)
  have leave : jump (body.junction base high.toNat) ((between body low high).exit base) ∈
      (between body low high).edges base :=
    mem_edges_between.mpr (.inr (.inr ⟨_, Nat.min_le_right _ _, le_rfl, rfl⟩))
  -- The way through all copies is open, whatever the lower bound is.
  have inChain (state : Nat) (above : base + 2 ≤ state)
      (below : state < base + 2 + high.toNat * body.size) :
      Between ((between body low high).edges base) base ((between body low high).exit base)
        state := by
    have nonzero : high ≠ 0 := by
      intro zero
      rw [zero, UInt32.toNat_zero] at below
      omega
    have enter : jump base (base + 2) ∈ (between body low high).edges base :=
      mem_edges_between.mpr (.inr (.inl ⟨nonzero, rfl⟩))
    rw [junction_of_pos (toNat_pos nonzero)] at leave
    exact (trim.chain body.placed above below).within inside (.of_edge enter) (.of_edge leave)
  have through : Linked ((between body low high).edges base) base
      ((between body low high).exit base) := by
    by_cases zero : high = 0
    · rw [zero, UInt32.toNat_zero, junction, if_pos rfl, ← zero] at leave
      exact .of_edge leave
    · have first := Layout.mul_add_le_mul (toNat_pos zero) body.size
      have bodyExit := body.exit_mem base
      exact (inChain (base + 2) le_rfl (by omega)).through
  have exit_eq : (between body low high).exit base = base + 1 := rfl
  have place : state = base ∨ state = (between body low high).exit base ∨
      (base + 2 ≤ state ∧ state < base + 2 + high.toNat * body.size) := by omega
  rcases place with rfl | rfl | ⟨above, below⟩
  · exact .at_entry through
  · exact .at_exit through
  · exact inChain state above below

theorem trim_atLeast (trim : body.layout.Trim) (low : Count) :
    (atLeast body low).layout.Trim := by
  by_cases zero : low = 0
  · rw [zero, layout_atLeast_zero]
    exact trim_star trim
  · intro base state above below
    simp only [layout, size, if_neg zero] at below ⊢
    have exit_eq : (atLeast body low).exit base = base + low.toNat * body.size := by
      rw [exit, if_neg zero]
    have inside : body.layout.chain low.toNat base ⊆ (atLeast body low).edges base :=
      fun edge member => (mem_edges_atLeast zero).mpr (.inl member)
    have leave : jump (body.exit (base + (low.toNat - 1) * body.size))
        ((atLeast body low).exit base) ∈ (atLeast body low).edges base := by
      rw [exit_eq]
      exact (mem_edges_atLeast zero).mpr (.inr (.inr rfl))
    have inChain (state : Nat) (above : base ≤ state)
        (below : state < base + low.toNat * body.size) :
        Between ((atLeast body low).edges base) base ((atLeast body low).exit base) state :=
      (trim.chain body.placed above below).within inside (.refl _ _) (.of_edge leave)
    have place : state < base + low.toNat * body.size ∨
        state = (atLeast body low).exit base := by omega
    rcases place with below | rfl
    · exact inChain state above below
    · have first := Layout.mul_add_le_mul (toNat_pos zero) body.size
      have bodyExit := body.exit_mem base
      exact .at_exit (inChain base le_rfl (by omega)).through

/-- Every state of an expression's block lies on a way through it. -/
theorem trim (expression : Regex) : expression.layout.Trim := by
  induction expression with
  | literal symbol => exact trim_literal symbol
  | seq _ _ left right => exact trim_seq left right
  | or _ _ left right => exact trim_or left right
  | star _ body => exact trim_star body
  | exactly _ count body => exact trim_exactly body count
  | between _ low high body => exact trim_between body low high
  | atLeast _ low body => exact trim_atLeast body low

end Regex

theorem Nfa.exists_paths_ofRegex (expression : Regex) {state : Nat}
    (inside : state < (ofRegex expression).size) :
    (∃ word, (ofRegex expression).Path (ofRegex expression).start word state) ∧
      ∃ word, (ofRegex expression).Path state word (ofRegex expression).final := by
  rw [ofRegex, size_ofEdges] at inside
  rw [← Nat.zero_add expression.size] at inside
  have between := expression.trim 0 state (Nat.zero_le _) inside
  rcases between.before with ⟨before, reaches⟩
  rcases between.after with ⟨after, leaves⟩
  exact ⟨⟨before, path_ofRegex_iff_walk.mpr reaches⟩,
    ⟨after, path_ofRegex_iff_walk.mpr leaves⟩⟩

end WordAutomata
