import WordAutomata.Json.Reader

namespace WordAutomata.Json

/-! A value that is printed reads back as itself, with whatever text comes after it
left over. Numbers are set aside: they are kept as they are spelled, and a spelling
need not be one that can be read. -/

/-! ## Strings

A character is written plainly or after a backslash, and read as itself either way. -/

theorem hexDigit?_digitChar : ∀ digit < 16, hexDigit? (Nat.digitChar digit) = some digit := by
  decide

theorem escaped?_control {c : Char} (control : c.toNat < 0x20) (rest : List Char) :
    escaped? ('u' :: '0' :: '0' :: Nat.digitChar (c.toNat / 16) ::
      Nat.digitChar (c.toNat % 16) :: rest) = some (c, rest) := by
  have high := hexDigit?_digitChar (c.toNat / 16) (by omega)
  have low := hexDigit?_digitChar (c.toNat % 16) (by omega)
  have zero : hexDigit? '0' = some 0 := by decide
  have whole : c.toNat / 16 * 16 + c.toNat % 16 = c.toNat := by omega
  have notLow : isLowSurrogate c.toNat = false := by
    simp [isLowSurrogate]
    omega
  have notHigh : isHighSurrogate c.toNat = false := by
    simp [isHighSurrogate]
    omega
  simp [escaped?, unit?, high, low, zero, whole, ofUnit?, notLow, notHigh, Char.ofNat_toNat]

theorem characters?_backslash (budget : Nat) {text rest : List Char} {c : Char}
    (read : escaped? text = some (c, rest)) :
    characters? (budget + 1) ('\\' :: text) =
      (characters? budget rest).map fun read => (c :: read.1, read.2) := by
  cases later : characters? budget rest <;> simp [characters?, read, later]

theorem characters?_escape (budget : Nat) (c : Char) (rest : List Char) :
    characters? (budget + 1) (escape c ++ rest) =
      (characters? budget rest).map fun read => (c :: read.1, read.2) := by
  rw [escape.eq_def]
  split
  case h_8 notQuote notBackslash _ _ _ _ _ =>
    split
    case isTrue control => exact characters?_backslash budget (escaped?_control control rest)
    case isFalse visible =>
      rw [List.singleton_append, characters?, if_neg notQuote, if_neg visible,
        if_neg notBackslash]
      cases later : characters? budget rest <;> simp [later]
  all_goals exact characters?_backslash budget rfl

theorem characters?_flatMap {budget : Nat} {text : List Char} (rest : List Char)
    (enough : text.length < budget) :
    characters? budget (text.flatMap escape ++ '"' :: rest) = some (text, rest) := by
  induction text generalizing budget with
  | nil =>
      rcases Nat.exists_eq_succ_of_ne_zero (Nat.ne_of_gt enough) with ⟨budget, rfl⟩
      rfl
  | cons c text induction =>
      cases budget with
      | zero => cases enough
      | succ budget =>
          rw [List.flatMap_cons, List.append_assoc, characters?_escape,
            induction (Nat.lt_of_succ_lt_succ enough), Option.map_some]

theorem length_le_flatMap_escape (text : List Char) :
    text.length ≤ (text.flatMap escape).length := by
  have nonempty (c : Char) : 1 ≤ (escape c).length := by
    rw [escape.eq_def]
    split
    case h_8 => split <;> simp
    all_goals decide
  induction text with
  | nil => exact Nat.le_refl 0
  | cons c text induction =>
      rw [List.flatMap_cons, List.length_append, List.length_cons, Nat.add_comm]
      exact Nat.add_le_add (nonempty c) induction

theorem string?_quote (text : String) (rest : List Char) :
    string? (text.toList.flatMap escape ++ '"' :: rest) = some (text, rest) := by
  have enough : text.toList.length <
      (text.toList.flatMap escape ++ '"' :: rest).length + 1 := by
    have shorter := length_le_flatMap_escape text.toList
    rw [List.length_append]
    omega
  rw [string?, characters?_flatMap rest enough]
  simp

/-! ## Blanks -/

variable {indent budget : Nat} {blanks rest : List Char} {c : Char}

def Blank (blanks : List Char) : Prop := ∀ c ∈ blanks, isBlank c

theorem blank_nil : Blank [] := fun _ member => absurd member List.not_mem_nil

theorem blank_newline (indent : Nat) : Blank (newline indent) := by
  intro c member
  rcases List.mem_cons.mp member with rfl | member
  · rfl
  · rw [List.eq_of_mem_replicate member]
    rfl

theorem skipBlanks_append (blank : Blank blanks) (solid : isBlank c = false) :
    skipBlanks (blanks ++ c :: rest) = c :: rest := by
  rw [skipBlanks, List.dropWhile_append_of_pos blank,
    List.dropWhile_cons_of_neg (by simp [solid])]

/-! ## Lists -/

section

variable {α : Type u} {read? : Nat → List Char → Option (α × List Char)}
  {readAll? : Nat → List Char → Option (List α × List Char)} {closing : Char}

/-- Whether a reader takes a value from the text of it, whatever blanks are before it and
whatever is after it. Every third call at the latest takes a character. -/
def Reads (read? : Nat → List Char → Option (α × List Char)) (text : List Char)
    (value : α) : Prop :=
  ∀ budget blanks rest, Blank blanks → 3 * text.length ≤ budget →
    read? budget (blanks ++ (text ++ rest)) = some (value, rest)

/-- Whether a reader takes values with commas between them and a closing character at the
end, each one with another reader. -/
structure ReadsAll (read? : Nat → List Char → Option (α × List Char))
    (readAll? : Nat → List Char → Option (List α × List Char)) (closing : Char) : Prop where
  solid : isBlank closing = false
  last : ∀ {budget text value rest after}, read? budget text = some (value, rest) →
    skipBlanks rest = closing :: after → readAll? (budget + 1) text = some ([value], after)
  more : ∀ {budget text value rest after values final},
    read? budget text = some (value, rest) → skipBlanks rest = ',' :: after →
      readAll? budget after = some (values, final) →
        readAll? (budget + 1) text = some (value :: values, final)

def lines (indent : Nat) (text : α → List Char) (values : List α) : List Char :=
  values.flatMap fun value => ',' :: (newline indent ++ text value)

theorem lines_cons {text : α → List Char} {value : α} {values : List α} :
    lines indent text (value :: values) =
      ',' :: (newline indent ++ (text value ++ lines indent text values)) := by
  simp [lines]

theorem ReadsAll.read_lines (readsAll : ReadsAll read? readAll? closing) (outer : Nat)
    (rest : List Char) {text : α → List Char} {value : α} {values : List α}
    (reads : ∀ other ∈ value :: values, Reads read? (text other) other)
    (blank : Blank blanks)
    (enough : 3 * (text value ++ lines indent text values).length + 1 ≤ budget) :
    readAll? budget (blanks ++ (text value ++ (lines indent text values ++
      (newline outer ++ closing :: rest)))) = some (value :: values, rest) := by
  induction values generalizing value budget blanks with
  | nil =>
      cases budget with
      | zero => cases enough
      | succ budget =>
          have first := reads value List.mem_cons_self budget blanks
          rw [lines, List.flatMap_nil, List.append_nil] at enough
          exact readsAll.last (first _ blank (Nat.le_of_succ_le_succ enough))
            (skipBlanks_append (blank_newline outer) readsAll.solid)
  | cons next values induction =>
      cases budget with
      | zero => cases enough
      | succ budget =>
          have first := reads value List.mem_cons_self budget blanks
          simp only [lines_cons, List.length_append, List.length_cons] at enough
          have fewer : 3 * (text next ++ lines indent text values).length + 1 ≤ budget := by
            rw [List.length_append]
            omega
          have others := induction (fun other member =>
            reads other (List.mem_cons_of_mem value member)) (blank_newline indent) fewer
          simp only [lines_cons, List.cons_append, List.append_assoc]
          exact readsAll.more (first _ blank (by omega))
            (skipBlanks_append blank_nil rfl) others

end

theorem prettyItems_eq (items : List Json) :
    prettyItems indent items = lines indent (pretty indent) items := by
  induction items with
  | nil => rfl
  | cons item items induction =>
      rw [prettyItems, induction, lines_cons, List.append_assoc]

theorem prettyMembers_eq (members : List (String × Json)) :
    prettyMembers indent members = lines indent (prettyMember indent) members := by
  induction members with
  | nil => rfl
  | cons member members induction =>
      rw [prettyMembers, induction, lines_cons, List.append_assoc]

theorem readsAll_items : ReadsAll value? items? ']' where
  solid := rfl
  last read closing := by simp [items?, read, closing]
  more read comma others := by simp [items?, read, comma, others]

theorem readsAll_members : ReadsAll member? members? '}' where
  solid := rfl
  last read closing := by simp [members?, read, closing]
  more read comma others := by simp [members?, read, comma, others]

/-! ## Values

A value without numbers is readable if it is read as itself however far in it is printed.
Its first character is neither a blank nor a closing bracket, which is how a list with
items is told from an empty one. -/

inductive NumberFree : Json → Prop
  | null : NumberFree .null
  | bool (value : Bool) : NumberFree (.bool value)
  | string (value : String) : NumberFree (.string value)
  | array {items : List Json} : (∀ item ∈ items, NumberFree item) → NumberFree (.array items)
  | object {members : List (String × Json)} :
      (∀ member ∈ members, NumberFree member.2) → NumberFree (.object members)

def Readable (json : Json) : Prop := ∀ indent, Reads value? (json.pretty indent) json

theorem NumberFree.pretty_eq_cons {json : Json} (numberFree : NumberFree json)
    (indent : Nat) :
    ∃ c tail, json.pretty indent = c :: tail ∧ isBlank c = false ∧ c ≠ ']' := by
  cases numberFree with
  | null => exact ⟨'n', _, rfl, by decide⟩
  | bool value =>
      cases value with
      | false => exact ⟨'f', _, rfl, by decide⟩
      | true => exact ⟨'t', _, rfl, by decide⟩
  | string value => exact ⟨'"', _, rfl, by decide⟩
  | @array items _ => cases items <;> exact ⟨'[', _, rfl, by decide⟩
  | @object members _ => cases members <;> exact ⟨'{', _, rfl, by decide⟩

theorem prettyMember_eq_cons (indent : Nat) (member : String × Json) :
    ∃ tail, prettyMember indent member = '"' :: tail := by
  cases member
  exact ⟨_, rfl⟩

theorem Readable.member {key : String} {value : Json} (readable : Readable value)
    (indent : Nat) : Reads member? (prettyMember indent (key, value)) (key, value) := by
  intro budget blanks rest blank enough
  simp only [prettyMember, quote, List.length_append, List.length_cons] at enough
  cases budget with
  | zero => omega
  | succ budget =>
      have opening (rest : List Char) : skipBlanks (blanks ++ '"' :: rest) = '"' :: rest :=
        skipBlanks_append blank rfl
      have colon (rest : List Char) : skipBlanks (':' :: rest) = ':' :: rest :=
        skipBlanks_append blank_nil rfl
      have space : Blank [' '] := by simp [Blank, isBlank]
      have read := readable indent budget [' '] rest space (by omega)
      rw [List.singleton_append] at read
      simp [member?, prettyMember, quote, opening, string?_quote, colon, read]

theorem value?_append (blank : Blank blanks) (solid : isBlank c = false) :
    value? budget (blanks ++ c :: rest) = value? budget (c :: rest) := by
  cases budget with
  | zero => rfl
  | succ budget =>
      have bare : skipBlanks (c :: rest) = c :: rest := skipBlanks_append blank_nil solid
      rw [value?, value?, skipBlanks_append blank solid, bare]

theorem value?_bracket (blank : Blank blanks) (solid : isBlank c = false) (inside : c ≠ ']') :
    value? (budget + 1) ('[' :: (blanks ++ c :: rest)) =
      (items? budget (c :: rest)).map fun read => (array read.1, read.2) := by
  have bracket (rest : List Char) : skipBlanks ('[' :: rest) = '[' :: rest := rfl
  cases read : items? budget (c :: rest) <;>
    simp [value?, bracket, skipBlanks_append blank solid, inside, read]

theorem value?_brace (blank : Blank blanks) (solid : isBlank c = false) (inside : c ≠ '}') :
    value? (budget + 1) ('{' :: (blanks ++ c :: rest)) =
      (members? budget (c :: rest)).map fun read => (object read.1, read.2) := by
  have brace (rest : List Char) : skipBlanks ('{' :: rest) = '{' :: rest := rfl
  cases read : members? budget (c :: rest) <;>
    simp [value?, brace, skipBlanks_append blank solid, inside, read]

theorem NumberFree.readable_of_value? {json : Json} (numberFree : NumberFree json)
    (read : ∀ indent budget rest, 3 * (json.pretty indent).length ≤ budget + 1 →
      value? (budget + 1) (json.pretty indent ++ rest) = some (json, rest)) :
    Readable json := by
  intro indent budget blanks rest blank enough
  rcases numberFree.pretty_eq_cons indent with ⟨c, tail, first, solid, _⟩
  cases budget with
  | zero => simp [first] at enough
  | succ budget =>
      rw [← read indent budget rest enough, first, List.cons_append,
        value?_append blank solid]

theorem NumberFree.readable {json : Json} (numberFree : NumberFree json) :
    Readable json := by
  induction numberFree with
  | null => exact NumberFree.null.readable_of_value? fun _ _ _ _ => rfl
  | bool value =>
      apply (NumberFree.bool value).readable_of_value?
      intro indent budget rest _
      cases value <;> rfl
  | string value =>
      apply (NumberFree.string value).readable_of_value?
      intro indent budget rest _
      simp [value?, pretty, quote, skipBlanks, isBlank, string?_quote]
  | @array items numberFree readable =>
      apply (NumberFree.array numberFree).readable_of_value?
      intro indent budget rest enough
      cases items with
      | nil => rfl
      | cons item items =>
          rcases (numberFree item List.mem_cons_self).pretty_eq_cons (indent + 2)
            with ⟨c, tail, first, solid, inside⟩
          simp only [pretty, List.length_cons, List.length_append] at enough
          have fewer : 3 * (item.pretty (indent + 2) ++
              lines (indent + 2) (pretty (indent + 2)) items).length + 1 ≤ budget := by
            rw [← prettyItems_eq, List.length_append]
            omega
          have read := readsAll_items.read_lines indent rest
            (fun item member => readable item member (indent + 2)) blank_nil fewer
          rw [List.nil_append, first, List.cons_append] at read
          simp [pretty, prettyItems_eq, first, value?_bracket (blank_newline _) solid inside,
            read]
  | @object members numberFree readable =>
      apply (NumberFree.object numberFree).readable_of_value?
      intro indent budget rest enough
      cases members with
      | nil => rfl
      | cons member members =>
          simp only [pretty, List.length_cons, List.length_append] at enough
          have fewer : 3 * (prettyMember (indent + 2) member ++
              lines (indent + 2) (prettyMember (indent + 2)) members).length + 1 ≤
              budget := by
            rw [← prettyMembers_eq, List.length_append]
            omega
          have read := readsAll_members.read_lines indent rest
            (fun other found => (readable other found).member (indent + 2)) blank_nil fewer
          rcases prettyMember_eq_cons (indent + 2) member with ⟨tail, first⟩
          have solid : isBlank '"' = false := by decide
          have inside : '"' ≠ '}' := by decide
          rw [List.nil_append, first, List.cons_append] at read
          simp [pretty, prettyMembers_eq, first, value?_brace (blank_newline _) solid inside,
            read]

/-- The text of a value is read as the value. -/
theorem ofText?_toText {json : Json} (numberFree : NumberFree json) :
    ofText? json.toText = some json := by
  have read := numberFree.readable 0 (3 * json.toText.length + 3) [] [] blank_nil
    (by simp [toText])
  rw [List.nil_append, List.append_nil] at read
  rw [ofText?, toText, String.toList_ofList, ← toText, read]
  rfl

end WordAutomata.Json
