import WordAutomata.Proofs.Nfa.Assembly
import WordAutomata.Proofs.Nfa.Thompson

namespace WordAutomata

/-! What is put together step by step is the automaton of the layout. For every
constructor, the actions that make its part add the block of its layout, at whatever base
they start. -/

namespace Assembly

open Edge (jump)

/-! ## Copies

Copies are added one behind the other. One more of them adds its edges and the way to it,
and if it is optional also the way past it. -/

theorem mem_chain_succ {layout : Layout} {count base : Nat} {edge : Edge} :
    edge ∈ layout.chain (count + 1) base ↔
      edge ∈ layout.chain count base ∨ edge ∈ layout.edges (base + count * layout.size) ∨
        ∃ copy, copy + 1 = count ∧ edge = jump (layout.exit (base + copy * layout.size))
          (base + count * layout.size) := by
  simp only [Layout.mem_chain, Nat.lt_succ_iff_lt_or_eq]
  constructor
  · intro given
    rcases given with ⟨copy, inside | rfl, member⟩ | ⟨copy, inside | rfl, rfl⟩
    · exact .inl (.inl ⟨copy, inside, member⟩)
    · exact .inr (.inl member)
    · exact .inl (.inr ⟨copy, inside, rfl⟩)
    · exact .inr (.inr ⟨copy, rfl, rfl⟩)
  · intro given
    rcases given with (⟨copy, inside, member⟩ | ⟨copy, inside, rfl⟩) | member | ⟨copy, rfl, rfl⟩
    · exact .inl ⟨copy, .inl inside, member⟩
    · exact .inr ⟨copy, .inl inside, rfl⟩
    · exact .inl ⟨count, .inr rfl, member⟩
    · exact .inr ⟨copy, .inr rfl, rfl⟩

section

variable {body : Regex}

def options (body : Regex) (low count base : Nat) : List Edge :=
  body.layout.chain count (base + 2) ++ (if count = 0 then [] else [jump base (base + 2)]) ++
    ((List.range count).filter (low ≤ ·)).map fun copies =>
      jump (body.junction base copies) (base + 1)

theorem mem_options_succ {low count base : Nat} {edge : Edge} :
    edge ∈ options body low (count + 1) base ↔
      edge ∈ options body low count base ∨ edge ∈ body.edges (base + 2 + count * body.size) ∨
        (low ≤ count ∧ edge = jump (body.junction base count) (base + 1)) ∨
          edge = jump (body.junction base count) (base + 2 + count * body.size) := by
  have entered : edge ∈ body.layout.chain (count + 1) (base + 2) ∨ edge = jump base (base + 2) ↔
      edge ∈ body.layout.chain count (base + 2) ∨ (count ≠ 0 ∧ edge = jump base (base + 2)) ∨
        edge ∈ body.edges (base + 2 + count * body.size) ∨
          edge = jump (body.junction base count) (base + 2 + count * body.size) := by
    rw [mem_chain_succ]
    cases count with
    | zero => simp [Layout.chain, Edge.chain, Regex.layout, Regex.junction]
    | succ copy =>
        simp only [Regex.layout, Regex.junction, Nat.succ_ne_zero, if_false, ne_eq,
          not_false_eq_true, true_and, Nat.add_sub_cancel, Nat.succ_inj, exists_eq_left]
        simp only [or_comm, or_left_comm]
  have passed : edge ∈ ((List.range (count + 1)).filter (low ≤ ·)).map (fun copies =>
        jump (body.junction base copies) (base + 1)) ↔
      edge ∈ ((List.range count).filter (low ≤ ·)).map (fun copies =>
        jump (body.junction base copies) (base + 1)) ∨
        (low ≤ count ∧ edge = jump (body.junction base count) (base + 1)) := by
    rw [List.range_succ, List.filter_append, List.map_append, List.mem_append]
    by_cases enough : low ≤ count <;> simp [enough]
  have begun (copies : Nat) :
      edge ∈ (if copies = 0 then [] else [jump base (base + 2)]) ↔
        copies ≠ 0 ∧ edge = jump base (base + 2) := by
    split <;> simp [*]
  rw [options, options, List.mem_append, List.mem_append, List.mem_append, List.mem_append,
    passed, begun, begun, and_iff_right (Nat.succ_ne_zero count), entered]
  simp only [or_assoc, or_comm, or_left_comm]

theorem edges_between (body : Regex) (low high : Count) (base : Nat) :
    (Regex.between body low high).edges base =
      options body low.toNat high.toNat base ++
        [jump (body.junction base high.toNat) (base + 1)] := by
  have zero : high = 0 ↔ high.toNat = 0 := UInt32.toNat_inj.symm
  simp only [Regex.edges, options, zero]
  rfl

end

/-- Whether an action adds the part of a layout, wherever it is begun. -/
def Adds (action : StateM Assembly Part) (layout : Layout) : Prop :=
  ∀ base known, Builds action base known ⟨base, layout.exit base⟩ (base + layout.size)
    (known ++ layout.edges base)

namespace Adds

variable {left right body : Regex}

theorem addEdge (symbol : String) :
    Adds (addEdge (.ofLiteral symbol)) (Regex.literal symbol).layout := by
  intro base known
  refine Builds.congr (Builds.addState.bind (Builds.addState.bind
    ((Builds.connect ?_).bind (.pure _)))) rfl rfl fun edge => ?_
  · exact Nat.lt_add_of_pos_right (by decide : 0 < 2)
  · rfl

theorem seq (leftAdds : Adds (add left) left.layout)
    (rightAdds : Adds (add right) right.layout) :
    Adds (add (.seq left right)) (Regex.seq left right).layout := by
  intro base known
  have leftExit := left.exit_mem base
  refine Builds.congr ((leftAdds base known).bind ((rightAdds _ _).bind
    ((Builds.connect ?_).bind (.pure _)))) rfl ?_ fun edge => ?_
  · simp only [jump, Regex.layout]
    omega
  · simp only [Regex.layout, Regex.size]
    omega
  · simp only [Regex.layout, Regex.edges, List.append_assoc]

theorem or (leftAdds : Adds (add left) left.layout)
    (rightAdds : Adds (add right) right.layout) :
    Adds (add (.or left right)) (Regex.or left right).layout := by
  intro base known
  have leftExit := left.exit_mem (base + 1)
  have rightExit := right.exit_mem (base + 1 + left.size)
  refine Builds.congr (Builds.addState.bind ((leftAdds _ _).bind ((rightAdds _ _).bind
    (Builds.addState.bind ((Builds.connect ?_).bind ((Builds.connect ?_).bind
    ((Builds.connect ?_).bind ((Builds.connect ?_).bind (.pure _)))))))))
    ?_ ?_ fun edge => ?_
  all_goals simp only [jump, Regex.layout, Regex.exit, Regex.size, Regex.edges]
  · omega
  · omega
  · omega
  · omega
  · congr 1
    omega
  · omega
  · simp only [List.append_assoc, List.cons_append, List.nil_append]

theorem loop (adds : Adds (add body) body.layout) :
    Adds (addLoop (add body)) (Regex.star body).layout := by
  intro base known
  have bodyExit := body.exit_mem (base + 1)
  have exit : base + 1 + body.size = base + body.size + 1 := by omega
  refine Builds.congr (Builds.addState.bind ((adds _ _).bind (Builds.addState.bind
    ((Builds.connect ?_).bind ((Builds.connect ?_).bind ((Builds.connect ?_).bind
    ((Builds.connect ?_).bind (.pure _)))))))) ?_ ?_ fun edge => ?_
  all_goals simp only [jump, Regex.layout, Regex.exit, Regex.size, Regex.edges, Edge.loop, exit]
  · omega
  · omega
  · omega
  · omega
  · omega
  · simp only [List.append_assoc, List.cons_append, List.nil_append]

theorem copies (adds : Adds (add body) body.layout) (base : Nat) (known : List Edge)
    (more : Nat) :
    Builds (iterate (addCopy (add body)) more ⟨base, body.exit base⟩) (base + body.size)
      (known ++ body.edges base)
      ⟨base + more * body.size, body.exit (base + more * body.size)⟩
      (base + (more + 1) * body.size) (known ++ body.layout.chain (more + 1) base) := by
  have run := @Builds.iterate _ (addCopy (add body)) more
    (fun copy => ⟨base + copy * body.size, body.exit (base + copy * body.size)⟩)
    (fun copy => base + (copy + 1) * body.size)
    (fun copy => known ++ body.layout.chain (copy + 1) base) fun copy _ => ?step
  case step =>
    -- The copy that comes next begins where the last one ends.
    have bodyExit := body.exit_mem (base + copy * body.size)
    have next : base + (copy + 1) * body.size = base + copy * body.size + body.size := by
      rw [Nat.succ_mul, Nat.add_assoc]
    refine Builds.congr ((adds _ _).bind ((Builds.connect ?_).bind (.pure _))) rfl ?_
      fun edge => ?_
    · simp only [jump, Regex.layout]
      omega
    · simp only [Regex.layout]
      rw [Nat.succ_mul (copy + 1)]
      omega
    · simp only [List.mem_append, List.mem_singleton, mem_chain_succ, Nat.succ_inj]
      simp [Regex.layout, or_assoc]
  simpa [Layout.chain, Edge.chain, Regex.layout] using run

theorem exactly (adds : Adds (add body) body.layout) (count : Count) :
    Adds (add (.exactly body count)) (Regex.exactly body count).layout := by
  by_cases zero : count = 0
  · subst zero
    rw [Regex.layout_exactly_zero]
    exact addEdge epsilon
  · intro base known
    have positive : count.toNat - 1 + 1 = count.toNat :=
      Nat.sub_add_cancel (Regex.toNat_pos zero)
    rw [add, if_neg zero]
    refine Builds.congr ((adds base known).bind ((adds.copies base known _).bind (.pure _)))
      ?_ ?_ fun edge => ?_
    all_goals simp only [Regex.layout, Regex.exit, Regex.size, Regex.edges, if_neg zero, positive]
    exact Iff.rfl

theorem atLeast (adds : Adds (add body) body.layout) (low : Count) :
    Adds (add (.atLeast body low)) (Regex.atLeast body low).layout := by
  by_cases zero : low = 0
  · subst zero
    rw [Regex.layout_atLeast_zero]
    exact loop adds
  · intro base known
    have positive : low.toNat - 1 + 1 = low.toNat :=
      Nat.sub_add_cancel (Regex.toNat_pos zero)
    have lastExit := body.exit_mem (base + (low.toNat - 1) * body.size)
    have last := Layout.mul_add_le_mul (by omega : low.toNat - 1 < low.toNat) body.size
    rw [add, if_neg zero]
    refine Builds.congr ((adds base known).bind ((adds.copies base known _).bind
      (Builds.addState.bind ((Builds.connect ?_).bind ((Builds.connect ?_).bind (.pure _))))))
      ?_ ?_ fun edge => ?_
    all_goals simp only [jump, Regex.layout, Regex.exit, Regex.size, Regex.edges, if_neg zero,
      positive]
    · omega
    · omega
    · omega
    · simp [Layout.chain]

theorem addOptions (adds : Adds (add body) body.layout) (base : Nat) (known : List Edge)
    (low high : Nat) :
    Builds (iterate (addOption (add body) low (base + 1)) high (0, base)) (base + 2) known
      (high, body.junction base high) (base + 2 + high * body.size)
      (known ++ options body low high base) := by
  have run := @Builds.iterate _ (addOption (add body) low (base + 1)) high
    (fun copy => (copy, body.junction base copy))
    (fun copy => base + 2 + copy * body.size)
    (fun copy => known ++ options body low copy base) fun copy inside => ?step
  case step =>
    have left := (body.junction_mem body.placed base (Nat.le_refl copy)).2
    refine Builds.congr ((adds _ _).bind ((Builds.connect_if ?_).bind
      ((Builds.connect ?_).bind (.pure _)))) rfl ?_ fun edge => ?_
    · simp only [jump, Regex.layout]
      omega
    · simp only [jump, Regex.layout]
      omega
    · simp only [Regex.layout]
      rw [Nat.succ_mul]
      omega
    · simp only [List.mem_append, List.mem_singleton, mem_options_succ, Regex.layout]
      by_cases enough : low ≤ copy <;> simp [enough, or_assoc]
  simpa [options, Layout.chain, Edge.chain, Regex.junction] using run

theorem between (adds : Adds (add body) body.layout) (low high : Count) :
    Adds (add (.between body low high)) (Regex.between body low high).layout := by
  intro base known
  have left := (body.junction_mem body.placed base (Nat.le_refl high.toNat)).2
  rw [add]
  refine Builds.congr (Builds.addState.bind (Builds.addState.bind
    ((adds.addOptions base known low.toNat high.toNat).bind ((Builds.connect ?_).bind (.pure _)))))
    rfl ?_ fun edge => ?_
  · simp only [jump]
    omega
  · simp only [Regex.layout, Regex.size]
    omega
  · rw [List.append_assoc, ← edges_between]
    rfl

end Adds

/-- What is put together is the layout of the expression. -/
theorem adds (expression : Regex) : Adds (add expression) expression.layout := by
  induction expression with
  | literal symbol => exact .addEdge symbol
  | seq _ _ left right => exact .seq left right
  | or _ _ left right => exact .or left right
  | star _ body => exact .loop body
  | exactly _ count body => exact .exactly body count
  | between _ low high body => exact .between body low high
  | atLeast _ low body => exact .atLeast body low

end Assembly

namespace Nfa

def assemble (expression : Regex) : Nfa :=
  let (part, rows) := Assembly.add expression []
  ⟨rows, part.entry, part.exit⟩

theorem assemble_eq (expression : Regex) : assemble expression = ofRegex expression := by
  have run := (Assembly.adds expression 0 [] (by simp)).1
  have rows : Assembly.add expression [] =
      (⟨0, expression.exit 0⟩, Assembly.ofEdges expression.size (expression.edges 0)) := by
    rwa [Nat.zero_add, List.nil_append] at run
  rw [assemble, rows]
  rfl

/-- The automaton that is put together for an expression has as many states as the
expression says. Its exit is a state of its own that nothing leads out of, and in every state
it either reads one symbol or chooses between two states at most. -/
theorem ofRegex_shape (expression : Regex) :
    assemble expression = ofRegex expression ∧
      (ofRegex expression).InRange ∧
      (ofRegex expression).final < (ofRegex expression).size ∧
      (ofRegex expression).start ≠ (ofRegex expression).final ∧
      (ofRegex expression).rows[(ofRegex expression).final]? = some .empty ∧
      (∀ row ∈ (ofRegex expression).rows, Simple row) ∧
      (ofRegex expression).size = expression.size :=
  ⟨assemble_eq expression, inRange_ofRegex expression, final_lt_size_ofRegex expression,
    Nat.ne_of_lt (expression.lt_exit 0), row_final_ofRegex expression,
    fun _ => simple_of_mem_ofRegex, size_ofEdges _ _ _ _⟩

end Nfa

end WordAutomata
