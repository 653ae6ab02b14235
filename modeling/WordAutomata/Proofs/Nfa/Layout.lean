import WordAutomata.Proofs.Nfa.Walk

namespace WordAutomata

/-! Parts of an automaton that can be put at any base, alone or in a chain of
copies, and what remains to be read in their states. -/

open Edge

def blockwise (base size : Nat) (inside outside : Nat → Language String) (state : Nat) :
    Language String :=
  if base ≤ state ∧ state < base + size then inside state else outside state

section

variable {base size state : Nat} {inside outside : Nat → Language String}

theorem blockwise_inside (place : base ≤ state ∧ state < base + size) :
    blockwise base size inside outside state = inside state := if_pos place

theorem blockwise_outside (place : ¬ (base ≤ state ∧ state < base + size)) :
    blockwise base size inside outside state = outside state := if_neg place

end

/-- A block of states with its exit and its edges, for every base. -/
structure Layout where
  size : Nat
  exit : Nat → Nat
  edges : Nat → List Edge

namespace Layout

structure Placed (layout : Layout) : Prop where
  exit_mem : ∀ base, base ≤ layout.exit base ∧ layout.exit base < base + layout.size
  confined : ∀ base, Confined (layout.edges base) base layout.size

def Recognizes (layout : Layout) (language : Language String) : Prop :=
  ∀ base, remainder (layout.edges base) (layout.exit base) base = language

theorem Recognizes.of_walks {layout : Layout} {language : Language String}
    (reads : ∀ base word, Walk (layout.edges base) base word (layout.exit base) →
      word ∈ language)
    (leads : ∀ base, ∀ word ∈ language,
      Walk (layout.edges base) base word (layout.exit base)) :
    layout.Recognizes language := by
  intro base
  apply Language.ext
  intro word
  exact ⟨reads base word, leads base word⟩

/-- The words that remain to be read in a state of a block, when after its exit
those of a language remain. -/
def meaning (layout : Layout) (after : Language String) (base state : Nat) :
    Language String :=
  remainder (layout.edges base) (layout.exit base) state * after

section

variable {layout : Layout} {after : Language String} {base : Nat}

theorem meaning_edge {edge : Edge} (member : edge ∈ layout.edges base)
    {rest : List String}
    (reads : rest ∈ layout.meaning after base edge.target) :
    edge.label.toList ++ rest ∈ layout.meaning after base edge.source := by
  rcases Language.mem_mul.mp reads with
    ⟨inside, insideReads, outside, outsideReads, rfl⟩
  rw [← List.append_assoc]
  exact Language.append_mem_mul (Walk.step member insideReads) outsideReads

theorem meaning_exit {word : List String} (member : word ∈ after) :
    word ∈ layout.meaning after base (layout.exit base) :=
  Language.mem_mul.mpr ⟨[], Walk.nil _, word, member, rfl⟩

theorem Recognizes.meaning_entry {language : Language String}
    (recognizes : layout.Recognizes language) :
    layout.meaning after base base = language * after := by
  rw [meaning, recognizes]

end

/-! ## Chains of copies

When some copies of a chain have been read, words of as many factors remain as are missing
to an allowed number. Copies do not overlap, so it is known from a state how many are
behind it. -/

def powersFrom (language : Language String) (allowed : Nat → Prop) (copies : Nat) :
    Language String :=
  {word | ∃ more, allowed (copies + more) ∧ word ∈ language ^ more}

section

variable {language : Language String} {allowed : Nat → Prop} {copies : Nat}

theorem nil_mem_powersFrom (enough : allowed copies) :
    [] ∈ powersFrom language allowed copies :=
  ⟨0, enough, Language.nil_mem_one⟩

theorem mem_powersFrom_of_mul {word : List String}
    (member : word ∈ language * powersFrom language allowed (copies + 1)) :
    word ∈ powersFrom language allowed copies := by
  rcases Language.mem_mul.mp member with ⟨first, firstMember, rest, restMember, rfl⟩
  rcases restMember with ⟨more, enough, restMember⟩
  refine ⟨more + 1, by rwa [Nat.add_comm more, ← Nat.add_assoc], ?_⟩
  rw [pow_succ']
  exact Language.append_mem_mul firstMember restMember

theorem mem_powersFrom_zero {word : List String} :
    word ∈ powersFrom language allowed 0 ↔
      ∃ copies, allowed copies ∧ word ∈ language ^ copies := by
  simp only [powersFrom, Nat.zero_add]
  exact Iff.rfl

end

def chain (layout : Layout) (count base : Nat) : List Edge :=
  Edge.chain count layout.size layout.exit layout.edges base

variable {layout : Layout} {count base : Nat}

theorem mem_chain {edge : Edge} :
    edge ∈ layout.chain count base ↔
      (∃ copy < count, edge ∈ layout.edges (base + copy * layout.size)) ∨
      ∃ copy, copy + 1 < count ∧
        edge = jump (layout.exit (base + copy * layout.size))
          (base + (copy + 1) * layout.size) := by
  simp only [chain, Edge.chain, List.mem_append, List.mem_flatMap, List.mem_range,
    List.mem_map, Nat.lt_sub_iff_add_lt]
  constructor
  · intro either
    rcases either with inside | ⟨copy, inside, rfl⟩
    · exact .inl inside
    · exact .inr ⟨copy, inside, rfl⟩
  · intro either
    rcases either with inside | ⟨copy, inside, rfl⟩
    · exact .inl inside
    · exact .inr ⟨copy, inside, rfl⟩

theorem mul_add_le_mul {copy count : Nat} (below : copy < count) (size : Nat) :
    copy * size + size ≤ count * size := by
  have bound := Nat.mul_le_mul_right size (Nat.succ_le_of_lt below)
  rwa [Nat.succ_mul] at bound

theorem copy_unique {size left right state : Nat}
    (leftInside : left * size ≤ state ∧ state < left * size + size)
    (rightInside : right * size ≤ state ∧ state < right * size + size) :
      left = right := by
  rcases Nat.lt_trichotomy left right with below | equal | above
  · have apart := mul_add_le_mul below size
    omega
  · exact equal
  · have apart := mul_add_le_mul above size
    omega

theorem Placed.confined_chain (placed : layout.Placed) :
    Confined (layout.chain count base) base (count * layout.size) := by
  intro edge member
  rcases mem_chain.mp member with ⟨copy, inside, member⟩ | ⟨copy, inside, rfl⟩
  · have bound := mul_add_le_mul inside layout.size
    have confined := placed.confined _ edge member
    omega
  · have bound := mul_add_le_mul inside layout.size
    have exit := placed.exit_mem (base + copy * layout.size)
    rw [Nat.succ_mul] at bound ⊢
    simp only [jump]
    have positive : 0 < layout.size := by omega
    omega

def chainMeaning (layout : Layout) (count : Nat) (language : Language String)
    (allowed : Nat → Prop) (base state : Nat) : Language String :=
  {word | ∃ copy < count, (base + copy * layout.size ≤ state ∧
      state < base + copy * layout.size + layout.size) ∧
    word ∈ layout.meaning (powersFrom language allowed (copy + 1))
      (base + copy * layout.size) state}

section

variable {language : Language String} {allowed : Nat → Prop}

theorem Placed.chainMeaning_exit (placed : layout.Placed) {copy : Nat}
    (inside : copy < count)
    {word : List String} (member : word ∈ powersFrom language allowed (copy + 1)) :
    word ∈ layout.chainMeaning count language allowed base
      (layout.exit (base + copy * layout.size)) :=
  ⟨copy, inside, placed.exit_mem _, meaning_exit member⟩

variable (placed : layout.Placed) (recognizes : layout.Recognizes language)
include placed recognizes

theorem Placed.chainMeaning_entry (copy : Nat) {word : List String}
    (reads : word ∈ layout.chainMeaning count language allowed base
      (base + copy * layout.size)) : word ∈ powersFrom language allowed copy := by
  rcases reads with ⟨other, _, place, reads⟩
  have positive : 0 < layout.size := by
    have exit := placed.exit_mem base
    omega
  have same : other = copy :=
    @copy_unique layout.size other copy (copy * layout.size) (by omega) (by omega)
  subst same
  rw [recognizes.meaning_entry] at reads
  exact mem_powersFrom_of_mul reads

theorem Placed.chainMeaning_base {word : List String}
    (reads : word ∈ layout.chainMeaning count language allowed base base) :
    word ∈ powersFrom language allowed 0 :=
  placed.chainMeaning_entry recognizes 0 (by simpa using reads)

/-- What remains to be read in a chain can be read backwards along its edges. -/
theorem Placed.chainMeaning_edge {edge : Edge} (member : edge ∈ layout.chain count base)
    {rest : List String}
    (reads : rest ∈ layout.chainMeaning count language allowed base edge.target) :
    edge.label.toList ++ rest ∈
      layout.chainMeaning count language allowed base edge.source := by
  rcases mem_chain.mp member with ⟨copy, inside, member⟩ | ⟨copy, inside, rfl⟩
  · have confined := placed.confined _ edge member
    rcases reads with ⟨other, _, place, reads⟩
    have same : other = copy :=
      @copy_unique layout.size other copy (edge.target - base) (by omega) (by omega)
    subst same
    exact ⟨other, inside, confined.1, meaning_edge member reads⟩
  · have entered := placed.chainMeaning_entry recognizes _ reads
    exact placed.chainMeaning_exit (by omega) entered

end

theorem Recognizes.walk_copies {language : Language String}
    (recognizes : layout.Recognizes language) {edges : List Edge}
    (included : layout.chain count base ⊆ edges) {more : Nat} :
    ∀ copy : Nat, copy + more < count → ∀ word ∈ language ^ (more + 1),
      Walk edges (base + copy * layout.size) word
        (layout.exit (base + (copy + more) * layout.size)) := by
  have single (copy : Nat) (inside : copy < count) (word : List String)
      (member : word ∈ language) : Walk edges (base + copy * layout.size) word
        (layout.exit (base + copy * layout.size)) := by
    rw [← recognizes (base + copy * layout.size)] at member
    exact Walk.mono (fun edge edgeMember =>
      included (mem_chain.mpr (.inl ⟨copy, inside, edgeMember⟩))) member
  induction more with
  | zero =>
      intro copy inside word member
      rw [Nat.zero_add, pow_one] at member
      exact single copy inside word member
  | succ more induction =>
      intro copy inside word member
      rw [pow_succ'] at member
      rcases Language.mem_mul.mp member with ⟨first, firstMember, rest, restMember, rfl⟩
      have link : jump (layout.exit (base + copy * layout.size))
          (base + (copy + 1) * layout.size) ∈ edges :=
        included (mem_chain.mpr (.inr ⟨copy, by omega, rfl⟩))
      have later := induction (copy + 1) (by omega) rest restMember
      rw [Nat.add_assoc, Nat.add_comm 1 more] at later
      exact (single copy (by omega) first firstMember).append (.jump link later)

theorem Recognizes.walk_chain {language : Language String}
    (recognizes : layout.Recognizes language) {edges : List Edge}
    (included : layout.chain count base ⊆ edges) {copies : Nat} (positive : 0 < copies)
    (bound : copies ≤ count) {word : List String} (member : word ∈ language ^ copies) :
    Walk edges base word (layout.exit (base + (copies - 1) * layout.size)) := by
  have last : copies - 1 + 1 = copies := by omega
  rw [← last] at member
  have walk := recognizes.walk_copies included 0 (by omega) word member
  simpa using walk

end Layout

end WordAutomata
