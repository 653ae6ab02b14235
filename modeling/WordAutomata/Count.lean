namespace WordAutomata

/-! Repetition counts: numbers below 2 ^ 32 and their decimal spellings. -/

abbrev Count := UInt32

namespace Count

/-! A count is spelled by its decimal digits, leading zeros included, with one plus sign
before them or none. -/

def ofDigits? (digits : List Char) : Option Count :=
  let value := Nat.ofDigitChars 10 digits 0
  if digits ≠ [] ∧ digits.all Char.isDigit then
    if small : value < UInt32.size then some (UInt32.ofNatLT value small) else none
  else none

def ofText? (text : String) : Option Count :=
  match text.toList with
  | '+' :: digits => ofDigits? digits
  | digits => ofDigits? digits

example : ofText? "+007" = some 7 := by decide +kernel

example : ofText? "4294967295" = some 4294967295 ∧ ofText? "4294967296" = none := by
  decide +kernel

example : ofText? "" = none ∧ ofText? "++1" = none ∧ ofText? "-0" = none := by
  decide +kernel

section

variable {digits : List Char} {text : String} {count : Count}

theorem ofDigits?_eq_some_iff :
    ofDigits? digits = some count ↔
      digits ≠ [] ∧ (∀ digit ∈ digits, digit.isDigit) ∧
        Nat.ofDigitChars 10 digits 0 = count.toNat := by
  simp only [ofDigits?, List.all_eq_true]
  split
  · rename_i spelled
    split
    · rename_i small
      rw [Option.some.injEq, ← UInt32.toNat_inj, UInt32.toNat_ofNatLT]
      exact ⟨fun equal => ⟨spelled.1, spelled.2, equal⟩, fun given => given.2.2⟩
    · rename_i large
      have other : Nat.ofDigitChars 10 digits 0 ≠ count.toNat :=
        fun equal => large (equal ▸ count.toNat_lt_size)
      simp [other]
  · rename_i misspelled
    simp only [reduceCtorEq, false_iff]
    exact fun given => misspelled ⟨given.1, given.2.1⟩

theorem ofText?_eq_some_iff :
    ofText? text = some count ↔
      ∃ sign digits : List Char, text.toList = sign ++ digits ∧
        (sign = [] ∨ sign = ['+']) ∧ ofDigits? digits = some count := by
  rw [ofText?.eq_def]
  split
  · rename_i digits signed
    constructor
    · exact fun spelled => ⟨['+'], digits, signed, .inr rfl, spelled⟩
    · intro given
      rcases given with ⟨_, others, split, rfl | rfl, spelled⟩
      · -- Digits alone do not begin with a sign.
        have digit : ('+').isDigit := by
          apply (ofDigits?_eq_some_iff.mp spelled).2.1
          rw [← List.nil_append others, ← split, signed]
          exact List.mem_cons_self
        exact absurd digit (by decide)
      · rw [signed, List.singleton_append, List.cons.injEq] at split
        rwa [split.2]
  · rename_i unsigned
    constructor
    · exact fun spelled => ⟨[], _, rfl, .inl rfl, spelled⟩
    · intro given
      rcases given with ⟨_, others, split, rfl | rfl, spelled⟩
      · rwa [split]
      · exact absurd split (unsigned others)

end

/-! ## Printing -/

def digits (count : Count) : String := toString count.toNat

example : digits 120 = "120" := by decide +kernel

theorem ofDigits?_digits (count : Count) :
    ofDigits? count.digits.toList = some count := by
  have shown : count.digits.toList = Nat.toDigits 10 count.toNat := by
    simp [digits, Nat.repr]
  rw [shown]
  exact ofDigits?_eq_some_iff.mpr ⟨Nat.toDigits_ne_nil,
    fun _ member => Nat.isDigit_of_mem_toDigits (by decide) (by decide) member,
    Nat.ofDigitChars_ten_toDigits⟩

theorem ofText?_digits (count : Count) : ofText? count.digits = some count :=
  ofText?_eq_some_iff.mpr ⟨[], _, rfl, .inl rfl, ofDigits?_digits count⟩

end Count

end WordAutomata
