import Mathlib.Data.List.Basic
import Mathlib.Data.List.Induction

namespace WordAutomata

/-! Lists without their repetitions, where the first occurrence of every value
stays. -/

namespace List

variable {α : Type u} {β : Type v}

theorem nodup_eraseDups [DecidableEq α] : ∀ values : List α, values.eraseDups.Nodup
  | [] => .nil
  | head :: tail => by
      rw [List.eraseDups_cons, List.nodup_cons]
      refine ⟨fun member => ?_,
        nodup_eraseDups (tail.filter fun other => !other == head)⟩
      simp at member
termination_by values => values.length
decreasing_by
  have shorter := List.length_filter_le (fun other => !other == head) tail
  simp only [List.length_cons]
  omega

theorem eraseDups_filter [DecidableEq α] (keep : α → Bool) :
    ∀ values : List α, (values.filter keep).eraseDups = values.eraseDups.filter keep
  | [] => rfl
  | head :: tail => by
      have later := eraseDups_filter keep (tail.filter fun other => !other == head)
      rw [List.filter_filter] at later
      rw [List.eraseDups_cons, List.filter_cons, List.filter_cons, ← later]
      split
      · rw [List.eraseDups_cons, List.filter_filter]
        simp only [Bool.and_comm]
      · rename_i dropped
        congr 1
        apply List.filter_congr
        intro other _
        by_cases equal : other = head
        · simp [equal, dropped]
        · simp [equal]
termination_by values => values.length
decreasing_by
  have shorter := List.length_filter_le (fun other => !other == head) tail
  simp only [List.length_cons]
  omega

theorem eraseDups_concat [DecidableEq α] (front : List α) (last : α) :
    (front ++ [last]).eraseDups =
      if last ∈ front then front.eraseDups else front.eraseDups ++ [last] := by
  rw [List.eraseDups_append]
  by_cases known : last ∈ front
  · simp [List.removeAll, known]
  · simp [List.removeAll, known, List.eraseDups_cons]

theorem eraseDups_of_nodup [DecidableEq α] {values : List α} (nodup : values.Nodup) :
    values.eraseDups = values := by
  induction values using List.reverseRecOn with
  | nil => rfl
  | append_singleton front last induction =>
      rcases List.nodup_append.mp nodup with ⟨frontNodup, _, apart⟩
      have new : last ∉ front := fun known => apart last known last (by simp) rfl
      rw [eraseDups_concat, if_neg new, induction frontNodup]

theorem length_eraseDups_le [DecidableEq α] (values : List α) :
    values.eraseDups.length ≤ values.length := by
  induction values using List.reverseRecOn with
  | nil => exact Nat.le_refl 0
  | append_singleton front last induction =>
      rw [eraseDups_concat, List.length_append, List.length_singleton]
      split
      · omega
      · rw [List.length_append, List.length_singleton]
        omega

theorem eraseDups_map_eraseDups [DecidableEq α] [DecidableEq β] (image : α → β)
    (values : List α) :
    (values.eraseDups.map image).eraseDups = (values.map image).eraseDups := by
  induction values using List.reverseRecOn with
  | nil => rfl
  | append_singleton front last induction =>
      rw [eraseDups_concat, List.map_append, List.map_singleton, eraseDups_concat]
      by_cases known : last ∈ front
      · rw [if_pos known, if_pos (List.mem_map_of_mem known), induction]
      · have same : image last ∈ front.eraseDups.map image ↔
            image last ∈ front.map image := by
          simp
        rw [if_neg known, List.map_append, List.map_singleton,
          eraseDups_concat, induction]
        simp only [same]

/-- Where a property marks the first value of every image, the images without
repetitions are those of the marked values. -/
theorem eraseDups_map_of_first [DecidableEq β] {image : α → β} {first : α → Bool}
    {values : List α}
    (marks : ∀ before value after, values = before ++ value :: after →
      (first value ↔ image value ∉ before.map image)) :
    (values.map image).eraseDups = (values.filter first).map image := by
  induction values using List.reverseRecOn with
  | nil => rfl
  | append_singleton front last induction =>
      have earlier := induction fun before value after split =>
        marks before value (after ++ [last]) (by simp [split])
      have latest := marks front last [] rfl
      rw [List.map_append, List.map_singleton, eraseDups_concat, List.filter_append,
        List.map_append, earlier]
      by_cases known : image last ∈ front.map image
      · have unmarked : ¬ first last := fun marked => latest.mp marked known
        rw [if_pos known]
        simp [unmarked]
      · have marked : first last = true := latest.mpr known
        rw [if_neg known]
        simp [marked]

theorem map_idxOf_self [DecidableEq α] {values : List α} (nodup : values.Nodup) :
    values.map values.idxOf = List.range values.length := by
  apply List.ext_getElem
  · simp
  · intro position inside _
    rw [List.getElem_map, List.getElem_range, nodup.idxOf_getElem]

theorem exists_idxOf_iff [DecidableEq α] {values : List α} {position : Nat}
    (nodup : values.Nodup) :
    (∃ value ∈ values, values.idxOf value = position) ↔ position < values.length := by
  constructor
  · intro given
    rcases given with ⟨value, member, rfl⟩
    exact List.idxOf_lt_length_of_mem member
  · intro inside
    exact ⟨_, List.getElem_mem inside, nodup.idxOf_getElem position inside⟩

theorem idxOf_eraseDups_append_of_mem [DecidableEq α] {value : α} {front back : List α}
    (member : value ∈ front) :
    (front ++ back).eraseDups.idxOf value = front.eraseDups.idxOf value := by
  rw [List.eraseDups_append]
  exact List.idxOf_append_of_mem (List.mem_eraseDups.mpr member)

theorem idxOf_eraseDups [DecidableEq α] {value : α} {values : List α}
    (member : value ∈ values) :
    values.eraseDups.idxOf value = (values.takeWhile (· ≠ value)).eraseDups.length := by
  rcases List.eq_append_cons_of_mem member with ⟨front, back, rfl, first⟩
  have before : (front ++ value :: back).takeWhile (· ≠ value) = front := by
    rw [List.takeWhile_append_of_pos, List.takeWhile_cons_of_neg (by simp), List.append_nil]
    intro other found
    exact decide_eq_true fun equal => first (equal ▸ found)
  have new : value ∉ front.eraseDups := mt List.mem_eraseDups.mp first
  rw [before, List.append_cons, idxOf_eraseDups_append_of_mem (by simp), eraseDups_concat,
    if_neg first, List.idxOf_append_of_notMem new, List.idxOf_cons_self, Nat.add_zero]

theorem idxOf_map [DecidableEq α] [DecidableEq β] {image : α → β}
    (injective : Function.Injective image) (values : List α) (value : α) :
    (values.map image).idxOf (image value) = values.idxOf value := by
  induction values with
  | nil => rfl
  | cons head tail induction =>
      by_cases equal : head = value
      · rw [List.map_cons, equal, List.idxOf_cons_self, List.idxOf_cons_self]
      · rw [List.map_cons, List.idxOf_cons_ne _ (fun same => equal (injective same)),
          List.idxOf_cons_ne _ equal, induction]

end List

end WordAutomata
