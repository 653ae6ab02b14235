import WordAutomata.OrderedMap
import WordAutomata.Proofs.FirstOccurrences

namespace WordAutomata

/-! Tables that are filled as keys come up. A key that is new is entered with the value that
is offered for it, and a key that is known keeps its value. If the offer is always the number
of keys that have come up before, the keys are numbered in the order of their first
occurrences. -/

structure Register (κ : Type u) (β : Type v) where
  entries : List (κ × β)
deriving DecidableEq, Repr

namespace Register

variable {κ : Type u} {β : Type v}

def empty : Register κ β := ⟨[]⟩

def size (register : Register κ β) : Nat := register.entries.length

def getOrInsert [DecidableEq κ] (register : Register κ β) (key : κ) (offer : β) :
    β × Register κ β :=
  match register.entries.lookup key with
  | some value => (value, register)
  | none => (offer, ⟨register.entries ++ [(key, offer)]⟩)

example : (getOrInsert ⟨[("a", 0)]⟩ "b" 1).2.getOrInsert "a" 2 = (0, ⟨[("a", 0), ("b", 1)]⟩) := by
  decide

variable [DecidableEq κ] {key : κ} {keys : List κ}

def numbered (keys : List κ) : Register κ Nat := ⟨keys.eraseDups.zipIdx⟩

theorem size_numbered (keys : List κ) : (numbered keys).size = keys.eraseDups.length :=
  List.length_zipIdx

theorem lookup_zipIdx (keys : List κ) (start : Nat) :
    (keys.zipIdx start).lookup key =
      if key ∈ keys then some (start + keys.idxOf key) else none := by
  induction keys generalizing start with
  | nil => rfl
  | cons head tail induction =>
      rw [List.zipIdx_cons, OrderedMap.lookup_cons, induction]
      by_cases equal : key = head
      · simp [equal]
      · simp [equal, List.idxOf_cons_ne _ (Ne.symm equal), Nat.add_comm, Nat.add_left_comm]

/-- Numbers go on where they have come to, and those that are out stay as they are. -/
theorem getOrInsert_numbered (keys : List κ) (key : κ) :
    (numbered keys).getOrInsert key keys.eraseDups.length =
      ((keys ++ [key]).eraseDups.idxOf key, numbered (keys ++ [key])) := by
  rw [getOrInsert, numbered, lookup_zipIdx, numbered, List.eraseDups_concat]
  by_cases known : key ∈ keys
  · simp [known]
  · have new : key ∉ keys.eraseDups := mt List.mem_eraseDups.mp known
    simp [known, List.idxOf_append_of_notMem new, List.zipIdx_append]

theorem getOrInsert_numbered_of_mem (known : key ∈ keys) (offer : Nat) :
    (numbered keys).getOrInsert key offer = (keys.eraseDups.idxOf key, numbered keys) := by
  rw [getOrInsert, numbered, lookup_zipIdx, if_pos (List.mem_eraseDups.mpr known),
    Nat.zero_add]

end Register

end WordAutomata
