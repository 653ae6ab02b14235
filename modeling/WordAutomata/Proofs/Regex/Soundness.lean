import WordAutomata.Proofs.Regex.Steps

namespace WordAutomata

/-! The reader of tokens knows at any time how the tokens that it has read begin an
expression. So what it makes of all of them is a tree that the grammar gives them. -/

open Grammar

/-! ## What a state stands for

Each part of a state stands for some of the tokens that have led to it: the outer levels
for the groups that are open, the level for what comes before the current operand, and the
place for the operand as far as it has been read. -/

inductive Level.Reads : Level → List Token → Prop
  | start : Level.Reads ⟨[], none⟩ []
  | sequence {alternatives : List Regex} {before tokens : List Token} {tree : Regex} :
      Level.Reads ⟨alternatives, none⟩ before → Derives .alternative tokens tree →
      Level.Reads ⟨alternatives, some tree⟩ (before ++ tokens)
  | branch {alternatives : List Regex} {before tokens : List Token} {operator : Token}
      {tree : Regex} :
      Level.Reads ⟨alternatives, none⟩ before → Derives .alternative tokens tree →
      operator.kind = .or →
      Level.Reads ⟨tree :: alternatives, none⟩ (before ++ tokens ++ [operator])

inductive OuterReads : List Level → List Token → Prop
  | nil : OuterReads [] []
  | cons {level : Level} {outer : List Level} {before tokens : List Token}
      {opening : Token} :
      OuterReads outer before → level.Reads tokens → opening.kind = .openParen →
      OuterReads (level :: outer) (before ++ tokens ++ [opening])

inductive Place.Reads : Place → List Token → Prop
  | operand : Place.Reads .operand []
  | atom {tokens : List Token} {tree : Regex} :
      Derives .atom tokens tree → Place.Reads (.atom tree) tokens
  | repeated {tokens : List Token} {tree : Regex} :
      Derives .repeated tokens tree → Place.Reads (.repeated tree) tokens
  | starred {tokens : List Token} {tree : Regex} :
      Derives .operand tokens tree → Place.Reads (.starred tree) tokens
  | lowBound {tokens : List Token} {opening : Token} {body : Regex} :
      Derives .atom tokens body → opening.kind = .openBrace →
      Place.Reads (.lowBound body) (tokens ++ [opening])
  | afterLow {tokens : List Token} {opening bound : Token} {body : Regex} {low : Count} :
      Derives .atom tokens body → opening.kind = .openBrace → Bound bound low →
      Place.Reads (.afterLow body low) (tokens ++ [opening, bound])
  | highBound {tokens : List Token} {opening bound comma : Token} {body : Regex}
      {low : Count} :
      Derives .atom tokens body → opening.kind = .openBrace → Bound bound low →
      comma.kind = .comma →
      Place.Reads (.highBound body low) (tokens ++ [opening, bound, comma])
  | afterHigh {tokens : List Token} {opening first comma second : Token} {body : Regex}
      {low high : Count} :
      Derives .atom tokens body → opening.kind = .openBrace → Bound first low →
      comma.kind = .comma → Bound second high → low ≤ high →
      Place.Reads (.afterHigh body low high) (tokens ++ [opening, first, comma, second])

inductive Parser.Reads : Parser → List Token → Prop
  | mk {level : Level} {outer : List Level} {place : Place}
      {groups operands current tokens : List Token} :
      OuterReads outer groups → level.Reads operands → place.Reads current →
      tokens = groups ++ operands ++ current →
      Parser.Reads ⟨level, outer, place⟩ tokens

/-! ## Levels -/

namespace Level.Reads

variable {level : Level} {before tokens : List Token} {operand : Regex}
  {operator : Token}

theorem extend (reads : level.Reads before) (derives : Derives .operand tokens operand) :
    ∃ earlier last, before ++ tokens = earlier ++ last ∧
      Level.Reads ⟨level.alternatives, none⟩ earlier ∧
      Derives .alternative last (level.extend operand) := by
  cases reads with
  | start => exact ⟨[], tokens, rfl, .start, .single derives⟩
  | @sequence _ earlier middle tree reads alternative =>
      exact ⟨earlier, middle ++ tokens, List.append_assoc .., reads,
        .append alternative derives⟩
  | branch reads alternative or =>
      exact ⟨_, tokens, rfl, .branch reads alternative or, .single derives⟩

theorem push (reads : level.Reads before) (derives : Derives .operand tokens operand) :
    (level.push operand).Reads (before ++ tokens) := by
  rcases reads.extend derives with ⟨earlier, last, split, reads, alternative⟩
  rw [split]
  exact .sequence reads alternative

theorem branch_operand (reads : level.Reads before)
    (derives : Derives .operand tokens operand) (or : operator.kind = .or) :
    (level.branch operand).Reads (before ++ tokens ++ [operator]) := by
  rcases reads.extend derives with ⟨earlier, last, split, reads, alternative⟩
  rw [split]
  exact .branch reads alternative or

theorem derives_foldl {alternatives : List Regex} {tree : Regex}
    (reads : Level.Reads ⟨alternatives, none⟩ before)
    (derives : Derives .expression tokens tree) :
    Derives .expression (before ++ tokens)
      (alternatives.foldl (fun right left => .or left right) tree) := by
  -- The alternatives are kept latest first, so each takes in what comes after it.
  induction alternatives generalizing before tokens tree with
  | nil =>
      cases reads
      exact derives
  | cons head tail induction =>
      cases reads with
      | branch reads alternative or =>
          rw [List.foldl_cons, List.append_assoc, List.append_assoc]
          exact induction reads (.branch alternative or derives)

theorem close (reads : level.Reads before) (derives : Derives .operand tokens operand) :
    Derives .expression (before ++ tokens) (level.close operand) := by
  rcases reads.extend derives with ⟨earlier, last, split, reads, alternative⟩
  rw [split]
  exact reads.derives_foldl (.last alternative)

end Level.Reads

/-! ## Places -/

namespace Place.Reads

variable {place : Place} {tokens : List Token} {operand : Regex}

theorem repeated_of_unstarred (reads : place.Reads tokens)
    (unstarred : place.unstarred? = some operand) : Derives .repeated tokens operand := by
  cases reads with
  | atom derives =>
      cases unstarred
      exact .unrepeated derives
  | repeated derives =>
      cases unstarred
      exact derives
  | _ => cases unstarred

theorem operand_of_ended (reads : place.Reads tokens)
    (ended : place.ended? = some operand) : Derives .operand tokens operand := by
  cases reads with
  | atom derives =>
      cases ended
      exact .unstarred (.unrepeated derives)
  | repeated derives =>
      cases ended
      exact .unstarred derives
  | starred derives =>
      cases ended
      exact derives
  | _ => cases ended

end Place.Reads

/-! ## Steps and runs -/

namespace Parser

variable {level : Level} {outer : List Level} {token : Token} {parser next : Parser}
  {groups operands tokens : List Token}

theorem reads_start : start.Reads [] := .mk .nil .start .operand rfl

theorem reads_of_begins (outerReads : OuterReads outer groups)
    (levelReads : level.Reads operands) (begins : Begins level outer token next) :
    next.Reads (groups ++ operands ++ [token]) := by
  cases begins with
  | symbol kind => exact .mk outerReads levelReads (.atom (.symbol kind)) rfl
  | group kind => exact .mk (.cons outerReads levelReads kind) .start .operand (by simp)

/-- Where a token takes the reader, that token has been read, too. -/
theorem Reads.move (reads : parser.Reads tokens) (moves : Moves parser token next) :
    next.Reads (tokens ++ [token]) := by
  cases reads with
  | @mk level outer place groups operands current _ outerReads levelReads placeReads split =>
    subst split
    cases moves with
    | first begins =>
        cases placeReads
        rw [List.append_nil]
        exact reads_of_begins outerReads levelReads begins
    | next ended begins =>
        rw [List.append_assoc groups]
        exact reads_of_begins outerReads (levelReads.push (placeReads.operand_of_ended ended))
          begins
    | branch ended kind =>
        have derives := placeReads.operand_of_ended ended
        exact .mk outerReads (levelReads.branch_operand derives kind) .operand (by simp)
    | close ended kind =>
        have derives := levelReads.close (placeReads.operand_of_ended ended)
        cases outerReads with
        | cons outerReads enclosingReads opening =>
            exact .mk outerReads enclosingReads (.atom (.group opening derives kind))
              (by simp)
    | star unstarred kind =>
        have derives := placeReads.repeated_of_unstarred unstarred
        exact .mk outerReads levelReads (.starred (.starred derives kind)) (by simp)
    | brace kind =>
        cases placeReads with
        | atom derives => exact .mk outerReads levelReads (.lowBound derives kind) (by simp)
    | low bound =>
        cases placeReads with
        | lowBound derives opening =>
            exact .mk outerReads levelReads (.afterLow derives opening bound) (by simp)
    | exactly kind =>
        cases placeReads with
        | afterLow derives opening low =>
            exact .mk outerReads levelReads
              (.repeated (.repeated derives (.exactly opening low kind))) (by simp)
    | comma kind =>
        cases placeReads with
        | afterLow derives opening low =>
            exact .mk outerReads levelReads (.highBound derives opening low kind) (by simp)
    | atLeast kind =>
        cases placeReads with
        | highBound derives opening low comma =>
            exact .mk outerReads levelReads
              (.repeated (.repeated derives (.atLeast opening low comma kind))) (by simp)
    | high bound ordered =>
        cases placeReads with
        | highBound derives opening low comma =>
            exact .mk outerReads levelReads
              (.afterHigh derives opening low comma bound ordered) (by simp)
    | between kind =>
        cases placeReads with
        | afterHigh derives opening low comma high ordered =>
            exact .mk outerReads levelReads
              (.repeated (.repeated derives
                (.between opening low comma high ordered kind))) (by simp)

theorem Reads.passes {more : List Token} (reads : parser.Reads tokens)
    (passes : Passes parser more next) : next.Reads (tokens ++ more) := by
  induction passes generalizing tokens with
  | nil => rwa [List.append_nil]
  | @cons _ _ _ token rest moves _ induction =>
      rw [← List.singleton_append, ← List.append_assoc]
      exact induction (reads.move moves)

theorem Reads.finish {tree : Regex} (reads : parser.Reads tokens)
    (finished : parser.finish = .ok tree) : Derives .expression tokens tree := by
  rcases finish_eq_ok_iff.mp finished with ⟨closed, operand, ended, rfl⟩
  cases reads with
  | mk outerReads levelReads placeReads split =>
    subst split
    cases closed
    cases outerReads
    exact levelReads.close (placeReads.operand_of_ended ended)

end Parser

end WordAutomata
