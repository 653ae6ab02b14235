import Mathlib.Data.List.Perm.Subperm
import Mathlib.Logic.Relation
import WordAutomata.Proofs.FirstOccurrences
import WordAutomata.Traversal

namespace WordAutomata.Traversal

/-! What a breadth-first search finds: every node that can be reached from the
seeds, once, as long as the bound leaves room for all of them. -/

variable {α : Type u}

abbrev Reaches (next : α → List α) : α → α → Prop :=
  Relation.ReflTransGen fun source target => target ∈ next source

def Bounds (next : α → List α) (seeds : List α) (bound : Nat) : Prop :=
  ∀ nodes : List α, nodes.Nodup →
    (∀ node ∈ nodes, ∃ seed ∈ seeds, Reaches next seed node) → nodes.length ≤ bound

theorem reaches_congr {next other : α → List α}
    (same : ∀ node target, target ∈ next node ↔ target ∈ other node) :
    Reaches next = Reaches other := by
  simp only [Reaches, same]

theorem bounds_of_lt {next : Nat → List Nat} {seeds : List Nat} {bound : Nat}
    (within : ∀ seed ∈ seeds, seed < bound)
    (closed : ∀ source < bound, ∀ target ∈ next source, target < bound) :
    Bounds next seeds bound := by
  intro nodes nodup reached
  have inside : nodes ⊆ List.range bound := by
    intro node member
    rcases reached node member with ⟨seed, seedMember, path⟩
    apply List.mem_range.mpr
    clear member
    induction path with
    | refl => exact within seed seedMember
    | tail _ step induction => exact closed _ induction _ step
  simpa using (List.subperm_of_subset nodup inside).length_le

variable [DecidableEq α]

theorem nodup_fresh (seen candidates : List α) : (fresh seen candidates).Nodup :=
  (List.nodup_eraseDups candidates).filter _

theorem fresh_cons (seen : List α) (candidate : α) (candidates : List α) :
    fresh seen (candidate :: candidates) =
      if candidate ∈ seen then fresh seen candidates
      else candidate :: fresh (candidate :: seen) candidates := by
  have later : (candidates.filter fun other => !other == candidate).eraseDups =
      candidates.eraseDups.filter fun other => !other == candidate :=
    List.eraseDups_filter _ _
  rw [fresh, fresh, fresh, List.eraseDups_cons, later, List.filter_cons,
    List.filter_filter]
  by_cases known : candidate ∈ seen
  · rw [if_pos known, if_neg (by simpa using known)]
    apply List.filter_congr
    intro other _
    by_cases equal : other = candidate
    · simp [equal, known]
    · simp [equal]
  · rw [if_neg known, if_pos (by simpa using known)]
    congr 1
    apply List.filter_congr
    intro other _
    by_cases equal : other = candidate
    · simp [equal]
    · simp [equal]

theorem fresh_congr {seen others : List α} (same : ∀ node, node ∈ seen ↔ node ∈ others)
    (candidates : List α) : fresh seen candidates = fresh others candidates := by
  simp only [fresh, same]

theorem fresh_nil (candidates : List α) : fresh [] candidates = candidates.eraseDups := by
  simp [fresh]

theorem fresh_append (seen front back : List α) :
    fresh seen (front ++ back) =
      fresh seen front ++ fresh (seen ++ fresh seen front) back := by
  rw [fresh, fresh, fresh, List.eraseDups_append, List.filter_append, List.removeAll,
    List.eraseDups_filter, List.filter_filter]
  congr 1
  apply List.filter_congr
  intro node _
  by_cases known : node ∈ seen <;> simp [known]

omit [DecidableEq α] in
theorem append_visit (visited : List α) (node : α) (pending new : List α) :
    visited ++ [node] ++ (pending ++ new) = (visited ++ node :: pending) ++ new := by
  simp

/-- What holds at the beginning and is kept by every visit holds at the end,
when no node is pending any more. -/
theorem explore_induction (Invariant : List α → List α → Prop)
    {next : α → List α} {bound : Nat}
    (room : ∀ visited pending, Invariant visited pending →
      (visited ++ pending).length ≤ bound)
    (visit : ∀ visited node pending, Invariant visited (node :: pending) →
      Invariant (visited ++ [node])
        (pending ++ fresh (visited ++ node :: pending) (next node))) :
    ∀ budget visited pending, bound ≤ visited.length + budget →
      Invariant visited pending → Invariant (explore next budget visited pending) []
  | 0, visited, pending, enough, holds => by
      have bounded := room visited pending holds
      rw [List.length_append] at bounded
      have done : pending = [] := List.eq_nil_of_length_eq_zero (by omega)
      rwa [done] at holds
  | _ + 1, _, [], _, holds => holds
  | budget + 1, visited, node :: pending, enough, holds => by
      rw [explore]
      refine explore_induction Invariant room visit budget _ _ ?_
        (visit visited node pending holds)
      rw [List.length_append, List.length_singleton]
      omega

/-- How far a search has come: no node is met twice, every seed is met, every
node met can be reached, and the successors of the visited nodes are met. -/
structure Progress (next : α → List α) (seeds visited pending : List α) : Prop where
  nodup : (visited ++ pending).Nodup
  seeded : ∀ seed ∈ seeds, seed ∈ visited ++ pending
  reached : ∀ node ∈ visited ++ pending, ∃ seed ∈ seeds, Reaches next seed node
  expanded : ∀ node ∈ visited, ∀ target ∈ next node, target ∈ visited ++ pending

namespace Progress

variable {next : α → List α} {seeds visited pending : List α} {node : α}

theorem start : Progress next seeds [] seeds.eraseDups where
  nodup := List.nodup_eraseDups seeds
  seeded := fun _ member => List.mem_eraseDups.mpr member
  reached := fun node member => ⟨node, List.mem_eraseDups.mp member, .refl⟩
  expanded := fun _ member => absurd member List.not_mem_nil

theorem visit (progress : Progress next seeds visited (node :: pending)) :
    Progress next seeds (visited ++ [node])
      (pending ++ fresh (visited ++ node :: pending) (next node)) := by
  refine ⟨?nodup, ?seeded, ?reached, ?expanded⟩
  all_goals rw [append_visit]
  case nodup =>
    refine List.nodup_append.mpr ⟨progress.nodup, nodup_fresh _ _, ?_⟩
    intro known member other otherFresh equal
    exact (mem_fresh.mp otherFresh).2 (equal ▸ member)
  case seeded =>
    exact fun seed member => List.mem_append_left _ (progress.seeded seed member)
  case reached =>
    intro met member
    rcases List.mem_append.mp member with known | added
    · exact progress.reached met known
    · rcases progress.reached node (by simp) with ⟨seed, seedMember, path⟩
      exact ⟨seed, seedMember, path.tail (mem_fresh.mp added).1⟩
  case expanded =>
    intro source member target step
    by_cases known : target ∈ visited ++ node :: pending
    · exact List.mem_append_left _ known
    · rcases List.mem_append.mp member with earlier | current
      · exact absurd (progress.expanded source earlier target step) known
      · rw [List.mem_singleton.mp current] at step
        exact List.mem_append_right _ (mem_fresh.mpr ⟨step, known⟩)

omit [DecidableEq α] in
theorem mem_iff (progress : Progress next seeds visited []) :
    node ∈ visited ↔ ∃ seed ∈ seeds, Reaches next seed node := by
  constructor
  · intro member
    exact progress.reached node (by simpa using member)
  · intro given
    rcases given with ⟨seed, seedMember, path⟩
    induction path with
    | refl => simpa using progress.seeded seed seedMember
    | tail _ step induction => simpa using progress.expanded _ induction _ step

theorem finish {bound : Nat} (bounded : Bounds next seeds bound) :
    Progress next seeds (breadthFirst next bound seeds) [] :=
  explore_induction (Progress next seeds)
    (fun _ _ progress => bounded _ progress.nodup progress.reached)
    (fun _ _ _ progress => progress.visit)
    bound [] seeds.eraseDups (by simp) start

end Progress

variable {next : α → List α} {seeds : List α} {bound : Nat}

theorem nodup_breadthFirst (bounded : Bounds next seeds bound) :
    (breadthFirst next bound seeds).Nodup := by
  simpa using (Progress.finish bounded).nodup

theorem mem_breadthFirst (bounded : Bounds next seeds bound) {node : α} :
    node ∈ breadthFirst next bound seeds ↔ ∃ seed ∈ seeds, Reaches next seed node :=
  (Progress.finish bounded).mem_iff

theorem prefix_explore (budget : Nat) (visited pending : List α) :
    visited <+: explore next budget visited pending := by
  induction budget generalizing visited pending with
  | zero => exact List.prefix_refl visited
  | succ budget induction =>
      cases pending with
      | nil => exact List.prefix_refl visited
      | cons node pending =>
          exact (List.prefix_append visited [node]).trans (induction _ _)

theorem idxOf_breadthFirst_seed {seed : α} (positive : 0 < bound) :
    (breadthFirst next bound [seed]).idxOf seed = 0 := by
  cases bound with
  | zero => omega
  | succ bound =>
      have starts : [seed] <+: breadthFirst next (bound + 1) [seed] :=
        prefix_explore bound [seed] _
      rcases starts with ⟨later, whole⟩
      rw [← whole]
      exact List.idxOf_cons_self

/-! ## First meetings -/

theorem eraseDups_append (met candidates : List α) :
    (met ++ candidates).eraseDups = met.eraseDups ++ fresh met.eraseDups candidates := by
  have whole := fresh_append [] met candidates
  rwa [fresh_nil, fresh_nil, List.nil_append] at whole

/-- A search lists every node where it is first met, as a seed or when the nodes of the
list are expanded in turn. -/
theorem breadthFirst_eq_eraseDups (bounded : Bounds next seeds bound) :
    breadthFirst next bound seeds =
      (seeds ++ (breadthFirst next bound seeds).flatMap next).eraseDups := by
  have whole := explore_induction
    (fun visited pending => Progress next seeds visited pending ∧
      visited ++ pending = (seeds ++ visited.flatMap next).eraseDups)
    (fun _ _ holds => bounded _ holds.1.nodup holds.1.reached)
    (fun visited node pending holds => by
      refine ⟨holds.1.visit, ?_⟩
      rw [append_visit, holds.2, List.flatMap_append, List.flatMap_singleton,
        ← List.append_assoc, eraseDups_append (seeds ++ visited.flatMap next)])
    bound [] seeds.eraseDups (by simp) ⟨.start, by simp⟩
  rw [List.append_nil] at whole
  exact whole.2

/-! ## Larger bounds -/

theorem explore_nil (budget : Nat) (visited : List α) :
    explore next budget visited [] = visited := by
  cases budget <;> rfl

theorem breadthFirst_eq_of_le {more : Nat} (bounded : Bounds next seeds bound)
    (enough : bound ≤ more) :
    breadthFirst next more seeds = breadthFirst next bound seeds := by
  have whole := explore_induction
    (fun visited pending => Progress next seeds visited pending ∧
      explore next (more - visited.length) visited pending = breadthFirst next more seeds)
    (fun _ _ holds => bounded _ holds.1.nodup holds.1.reached)
    (fun visited node pending holds => by
      refine ⟨holds.1.visit, ?_⟩
      have room := bounded _ holds.1.nodup holds.1.reached
      rw [List.length_append, List.length_cons] at room
      have left : more - visited.length = more - (visited.length + 1) + 1 := by omega
      rw [← holds.2, left, explore, List.length_append, List.length_singleton])
    bound [] seeds.eraseDups (by simp) ⟨.start, rfl⟩
  exact whole.2.symm.trans (explore_nil _ _)

/-! ## Images of nodes -/

section

variable {β : Type v} [DecidableEq β] {nextImage : β → List β} {image : α → β}
  {known : α → Prop}

/-- Whether different known nodes have different images, and the successors of a known
node's image are the images of its successors, all known. -/
structure Embeds (next : α → List α) (nextImage : β → List β) (image : α → β)
    (known : α → Prop) : Prop where
  injective : ∀ left, known left → ∀ right, known right → image left = image right →
    left = right
  closed : ∀ node, known node → ∀ target ∈ next node, known target
  commutes : ∀ node, known node → nextImage (image node) = (next node).map image

namespace Embeds

variable (embeds : Embeds next nextImage image known)
include embeds

theorem fresh_map {seen candidates : List α} (seenKnown : ∀ node ∈ seen, known node)
    (candidatesKnown : ∀ node ∈ candidates, known node) :
    fresh (seen.map image) (candidates.map image) = (fresh seen candidates).map image := by
  induction candidates generalizing seen with
  | nil => rfl
  | cons head tail induction =>
      rcases List.forall_mem_cons.mp candidatesKnown with ⟨headKnown, tailKnown⟩
      have same : image head ∈ seen.map image ↔ head ∈ seen := by
        constructor
        · intro member
          rcases List.mem_map.mp member with ⟨other, otherMember, equal⟩
          exact embeds.injective other (seenKnown other otherMember) head headKnown equal ▸
            otherMember
        · exact List.mem_map_of_mem
      rw [List.map_cons, fresh_cons, fresh_cons]
      simp only [same]
      split
      · exact induction seenKnown tailKnown
      · rw [List.map_cons, ← List.map_cons,
          induction (List.forall_mem_cons.mpr ⟨headKnown, seenKnown⟩) tailKnown]

theorem explore_map (budget : Nat) {visited pending : List α}
    (allKnown : ∀ node ∈ visited ++ pending, known node) :
    explore nextImage budget (visited.map image) (pending.map image) =
      (explore next budget visited pending).map image := by
  induction budget generalizing visited pending with
  | zero => rfl
  | succ budget induction =>
      cases pending with
      | nil => rw [List.map_nil, explore_nil, explore_nil]
      | cons node pending =>
          have nodeKnown := allKnown node (by simp)
          have targetsKnown := embeds.closed node nodeKnown
          have new := embeds.fresh_map allKnown targetsKnown
          rw [List.map_append, List.map_cons] at new
          rw [List.map_cons, explore, explore, embeds.commutes node nodeKnown, new,
            ← List.map_append, ← List.map_singleton, ← List.map_append]
          apply induction
          rw [append_visit]
          intro other member
          rcases List.mem_append.mp member with earlier | added
          · exact allKnown other earlier
          · exact targetsKnown other (mem_fresh.mp added).1

/-- A search among the images finds the images of what it finds among the nodes, in
the same order. -/
theorem breadthFirst_map (seedsKnown : ∀ seed ∈ seeds, known seed) :
    breadthFirst nextImage bound (seeds.map image) =
      (breadthFirst next bound seeds).map image := by
  have first := embeds.fresh_map (fun _ member => absurd member List.not_mem_nil) seedsKnown
  rw [List.map_nil, fresh_nil, fresh_nil] at first
  rw [breadthFirst, breadthFirst, first, ← @List.map_nil _ _ image]
  apply embeds.explore_map
  intro node member
  exact seedsKnown node (List.mem_eraseDups.mp member)

end Embeds

end

end WordAutomata.Traversal
