import WordAutomata.Proofs.Nfa.Blocks

namespace WordAutomata

/-! The blocks in which a part is read over and over. A star leads back to its base. A
repetition has a copy of its body for every time that is counted, and what remains to
be read in a copy depends on how many copies are behind it. -/

open Edge
open scoped Computability

namespace Regex

variable {body : Regex} {low high count : Count} {base : Nat} {word : List String}

/-! ## Stars -/

theorem mem_language_of_walk_star (recognizes : body.layout.Recognizes body.language)
    (walk : Walk ((star body).edges base) base word ((star body).exit base)) :
    word ∈ (star body).language := by
  have bodyExit := body.exit_mem (base + 1)
  have unfolded : 1 + body.language * body.language∗ = body.language∗ :=
    Language.one_add_self_mul_kstar_eq_kstar body.language
  have reads := Walk.mem_of_backward (blockwise (base + 1) body.size
    (body.layout.meaning body.language∗ (base + 1))
    (blockwise base 1 (fun _ => body.language∗) fun _ => 1)) ?final ?backward walk
  case final =>
    rw [exit, blockwise_outside (by omega), blockwise_outside (by omega)]
    exact Language.nil_mem_one
  case backward =>
    intro edge member rest reads
    simp only [edges, loop, List.mem_append, List.mem_cons, List.not_mem_nil,
      or_false] at member
    rcases member with member | rfl | rfl | rfl | rfl
    · have inside := body.confined _ edge member
      rw [blockwise_inside inside.2] at reads
      rw [blockwise_inside inside.1]
      exact Layout.meaning_edge member reads
    -- At the base, what remains has a further factor or is empty.
    · simp only [jump] at reads ⊢
      rw [blockwise_inside (by omega), recognizes.meaning_entry] at reads
      rw [blockwise_outside (by omega), blockwise_inside (by omega), ← unfolded]
      exact .inr reads
    · simp only [jump] at reads ⊢
      rw [blockwise_outside (by omega), blockwise_outside (by omega)] at reads
      rw [blockwise_outside (by omega), blockwise_inside (by omega), ← unfolded]
      exact .inl reads
    -- Behind the body, it is what remains at the base, or nothing.
    · simp only [jump] at reads ⊢
      rw [blockwise_outside (by omega), blockwise_inside (by omega)] at reads
      rw [blockwise_inside bodyExit]
      exact Layout.meaning_exit reads
    · simp only [jump] at reads ⊢
      rw [blockwise_outside (by omega), blockwise_outside (by omega)] at reads
      rw [blockwise_inside bodyExit]
      apply Layout.meaning_exit
      rw [← unfolded]
      exact .inl reads
  rwa [blockwise_outside (by omega), blockwise_inside (by omega)] at reads

theorem walk_star (recognizes : body.layout.Recognizes body.language)
    (member : word ∈ (star body).language) :
    Walk ((star body).edges base) base word ((star body).exit base) := by
  rcases Language.mem_kstar.mp member with ⟨factors, rfl, factorsMember⟩
  clear member
  induction factors with
  | nil => exact .jump (by simp [edges, loop, exit]) (.nil _)
  | cons factor factors induction =>
      rcases List.forall_mem_cons.mp factorsMember with ⟨first, others⟩
      rw [← recognizes (base + 1)] at first
      have walk : Walk ((star body).edges base) (base + 1) factor
          (body.exit (base + 1)) :=
        Walk.mono (fun edge member => by simp_all [edges, layout]) first
      have entry : jump base (base + 1) ∈ (star body).edges base := by
        simp [edges, loop]
      have back : jump (body.exit (base + 1)) base ∈ (star body).edges base := by
        simp [edges, loop]
      exact .jump entry ((walk.leave back).append (induction others))

theorem recognizes_star (recognizes : body.layout.Recognizes body.language) :
    (star body).layout.Recognizes (star body).language :=
  .of_walks (fun _ _ walk => mem_language_of_walk_star recognizes walk)
    fun _ _ member => walk_star recognizes member

/-! ## Exact repetitions -/

theorem language_exactly_zero (body : Regex) :
    (exactly body 0).language = (literal epsilon).language := by
  simp [language]

theorem mem_language_of_walk_exactly (recognizes : body.layout.Recognizes body.language)
    (positive : count ≠ 0)
    (walk : Walk ((exactly body count).edges base) base word
      ((exactly body count).exit base)) :
    word ∈ (exactly body count).language := by
  have bound := toNat_pos positive
  rw [edges, if_neg positive, exit, if_neg positive] at walk
  have reads := Walk.mem_of_backward (body.layout.chainMeaning count.toNat body.language
    (fun copies => copies = count.toNat) base) ?final ?backward walk
  case final =>
    apply body.placed.chainMeaning_exit (by omega)
    exact Layout.nil_mem_powersFrom (Nat.sub_add_cancel bound)
  case backward =>
    intro edge member rest reads
    exact body.placed.chainMeaning_edge recognizes member reads
  have entered := body.placed.chainMeaning_base recognizes reads
  rcases Layout.mem_powersFrom_zero.mp entered with ⟨copies, rfl, member⟩
  exact member

theorem recognizes_exactly (recognizes : body.layout.Recognizes body.language)
    (count : Count) :
    (exactly body count).layout.Recognizes (exactly body count).language := by
  by_cases zero : count = 0
  · rw [zero, layout_exactly_zero, language_exactly_zero]
    exact recognizes_literal epsilon
  · apply Layout.Recognizes.of_walks
    · intro base word walk
      exact mem_language_of_walk_exactly recognizes zero walk
    · intro base word member
      simp only [layout, edges, exit, if_neg zero]
      exact recognizes.walk_chain (List.Subset.refl _) (toNat_pos zero) le_rfl member

/-! ## Repetitions without an upper bound -/

theorem language_atLeast_zero (body : Regex) :
    (atLeast body 0).language = (star body).language := by
  apply Language.ext
  intro word
  rw [language, language, Language.kstar_eq_iSup_pow, Language.mem_iSup]
  constructor
  · intro given
    rcases given with ⟨copies, _, member⟩
    exact ⟨copies, member⟩
  · intro given
    rcases given with ⟨copies, member⟩
    exact ⟨copies, Nat.zero_le _, member⟩

theorem mem_language_of_walk_atLeast (recognizes : body.layout.Recognizes body.language)
    (positive : low ≠ 0)
    (walk : Walk ((atLeast body low).edges base) base word
      ((atLeast body low).exit base)) :
    word ∈ (atLeast body low).language := by
  have bound := toNat_pos positive
  have lastExit := body.exit_mem (base + (low.toNat - 1) * body.size)
  have lastCopy :=
    Layout.mul_add_le_mul (by omega : low.toNat - 1 < low.toNat) body.size
  have reads := Walk.mem_of_backward (blockwise base (low.toNat * body.size)
    (body.layout.chainMeaning low.toNat body.language (low.toNat ≤ ·) base) fun _ => 1)
    ?final ?backward walk
  case final =>
    rw [exit, if_neg positive, blockwise_outside (by omega)]
    exact Language.nil_mem_one
  case backward =>
    intro edge member rest reads
    rcases (mem_edges_atLeast positive).mp member with member | rfl | rfl
    · have inside := body.placed.confined_chain edge member
      simp only [layout] at inside
      rw [blockwise_inside inside.2] at reads
      rw [blockwise_inside inside.1]
      exact body.placed.chainMeaning_edge recognizes member reads
    -- The last copy may be read again when all of them have been read.
    · simp only [jump] at reads ⊢
      rw [blockwise_inside (by omega)] at reads
      rw [blockwise_inside (by omega)]
      apply body.placed.chainMeaning_exit (by omega)
      rcases body.placed.chainMeaning_entry recognizes _ reads with
        ⟨more, _, restMember⟩
      exact ⟨more, by omega, restMember⟩
    · simp only [jump] at reads ⊢
      rw [blockwise_outside (by omega)] at reads
      rw [blockwise_inside (by omega)]
      apply body.placed.chainMeaning_exit (by omega)
      exact ⟨0, by omega, reads⟩
  rw [blockwise_inside (by omega)] at reads
  have entered := body.placed.chainMeaning_base recognizes reads
  exact Layout.mem_powersFrom_zero.mp entered

/-- From the last copy on, any number of further factors can be read. -/
theorem walk_atLeast_exit (recognizes : body.layout.Recognizes body.language)
    (positive : low ≠ 0) {extra : Nat} (member : word ∈ body.language ^ extra) :
    Walk ((atLeast body low).edges base)
      (body.exit (base + (low.toNat - 1) * body.size)) word
      (base + low.toNat * body.size) := by
  have back : jump (body.exit (base + (low.toNat - 1) * body.size))
      (base + (low.toNat - 1) * body.size) ∈ (atLeast body low).edges base :=
    (mem_edges_atLeast positive).mpr (.inr (.inl rfl))
  have leave : jump (body.exit (base + (low.toNat - 1) * body.size))
      (base + low.toNat * body.size) ∈ (atLeast body low).edges base :=
    (mem_edges_atLeast positive).mpr (.inr (.inr rfl))
  induction extra generalizing word with
  | zero =>
      rw [pow_zero, Language.mem_one] at member
      subst member
      exact .jump leave (.nil _)
  | succ extra induction =>
      rw [pow_succ'] at member
      rcases Language.mem_mul.mp member with ⟨first, firstMember, rest, restMember, rfl⟩
      have bound := Nat.sub_one_lt_of_lt (toNat_pos positive)
      rw [← recognizes (base + (low.toNat - 1) * body.size)] at firstMember
      have walk : Walk ((atLeast body low).edges base)
          (base + (low.toNat - 1) * body.size)
          first (body.exit (base + (low.toNat - 1) * body.size)) :=
        Walk.mono (fun edge edgeMember => (mem_edges_atLeast positive).mpr
          (.inl (Layout.mem_chain.mpr (.inl ⟨_, bound, edgeMember⟩)))) firstMember
      exact .jump back (walk.append (induction restMember))

theorem walk_atLeast (recognizes : body.layout.Recognizes body.language)
    (positive : low ≠ 0)
    (member : word ∈ (atLeast body low).language) :
    Walk ((atLeast body low).edges base) base word ((atLeast body low).exit base) := by
  rcases member with ⟨copies, enough, member⟩
  obtain ⟨extra, rfl⟩ := Nat.exists_eq_add_of_le enough
  rw [pow_add] at member
  rcases Language.mem_mul.mp member with ⟨first, firstMember, rest, restMember, rfl⟩
  have chained : body.layout.chain low.toNat base ⊆ (atLeast body low).edges base :=
    fun edge member => (mem_edges_atLeast positive).mpr (.inl member)
  rw [exit, if_neg positive]
  exact (recognizes.walk_chain chained (toNat_pos positive) le_rfl firstMember).append
    (walk_atLeast_exit recognizes positive restMember)

theorem recognizes_atLeast (recognizes : body.layout.Recognizes body.language)
    (low : Count) :
    (atLeast body low).layout.Recognizes (atLeast body low).language := by
  by_cases zero : low = 0
  · rw [zero, layout_atLeast_zero, language_atLeast_zero]
    exact recognizes_star recognizes
  · exact .of_walks (fun _ _ walk => mem_language_of_walk_atLeast recognizes zero walk)
      fun _ _ member => walk_atLeast recognizes zero member

/-! ## Repetitions between two bounds -/

theorem junction_of_pos {copies : Nat} (positive : 0 < copies) :
    body.junction base copies = body.exit (base + 2 + (copies - 1) * body.size) := by
  rw [junction, if_neg (Nat.ne_of_gt positive)]

theorem mem_language_of_walk_between (recognizes : body.layout.Recognizes body.language)
    (walk : Walk ((between body low high).edges base) base word
      ((between body low high).exit base)) :
    word ∈ (between body low high).language := by
  have reads := Walk.mem_of_backward (blockwise (base + 2) (high.toNat * body.size)
    (body.layout.chainMeaning high.toNat body.language
      (fun copies => min low.toNat high.toNat ≤ copies ∧ copies ≤ high.toNat)
      (base + 2))
    (blockwise base 1 (fun _ => (between body low high).language) fun _ => 1))
    ?final ?backward walk
  case final =>
    rw [exit, blockwise_outside (by omega), blockwise_outside (by omega)]
    exact Language.nil_mem_one
  case backward =>
    intro edge member rest reads
    rcases mem_edges_between.mp member with
      member | ⟨positive, rfl⟩ | ⟨copies, lower, upper, rfl⟩
    · have inside := body.placed.confined_chain edge member
      simp only [layout] at inside
      rw [blockwise_inside inside.2] at reads
      rw [blockwise_inside inside.1]
      exact body.placed.chainMeaning_edge recognizes member reads
    -- At the base, an allowed number of factors remains.
    · have bodyExit := body.exit_mem base
      have first := Layout.mul_add_le_mul (toNat_pos positive) body.size
      simp only [jump] at reads ⊢
      rw [blockwise_inside (by omega)] at reads
      rw [blockwise_outside (by omega), blockwise_inside (by omega)]
      have entered := body.placed.chainMeaning_base recognizes reads
      rcases Layout.mem_powersFrom_zero.mp entered with ⟨copies, bounds, restMember⟩
      exact ⟨copies, bounds.1, bounds.2, restMember⟩
    -- Where the copies behind are enough, none need remain.
    · simp only [jump] at reads ⊢
      rw [blockwise_outside (by omega), blockwise_outside (by omega)] at reads
      rcases Nat.eq_zero_or_pos copies with rfl | positive
      · rw [junction, if_pos rfl, blockwise_outside (by omega),
          blockwise_inside (by omega)]
        exact ⟨0, lower, upper, reads⟩
      · have last := Layout.mul_add_le_mul
            (by omega : copies - 1 < high.toNat) body.size
        have bodyExit := body.exit_mem (base + 2 + (copies - 1) * body.size)
        rw [junction_of_pos positive, blockwise_inside (by omega)]
        apply body.placed.chainMeaning_exit (by omega)
        exact ⟨0, by omega, reads⟩
  rwa [blockwise_outside (by omega), blockwise_inside (by omega)] at reads

theorem walk_between (recognizes : body.layout.Recognizes body.language)
    (member : word ∈ (between body low high).language) :
    Walk ((between body low high).edges base) base word
      ((between body low high).exit base) := by
  rcases member with ⟨copies, lower, upper, member⟩
  have leave : jump (body.junction base copies) ((between body low high).exit base) ∈
      (between body low high).edges base :=
    mem_edges_between.mpr (.inr (.inr ⟨copies, lower, upper, rfl⟩))
  rcases Nat.eq_zero_or_pos copies with rfl | positive
  · rw [pow_zero, Language.mem_one] at member
    subst member
    exact .jump leave (.nil _)
  · have nonzero : high ≠ 0 := by
      intro zero
      rw [zero, UInt32.toNat_zero] at upper
      omega
    have enter : jump base (base + 2) ∈ (between body low high).edges base :=
      mem_edges_between.mpr (.inr (.inl ⟨nonzero, rfl⟩))
    have chained : body.layout.chain high.toNat (base + 2) ⊆
        (between body low high).edges base :=
      fun edge member => mem_edges_between.mpr (.inl member)
    rw [junction_of_pos positive] at leave
    exact .jump enter
      ((recognizes.walk_chain chained positive upper member).leave leave)

end Regex

end WordAutomata
