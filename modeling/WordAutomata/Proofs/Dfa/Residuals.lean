import Mathlib.Data.List.Sort
import WordAutomata.Proofs.Dfa.Runs
import WordAutomata.Proofs.Traversal.Order

namespace WordAutomata

/-! What is left of the answers of an automaton after a word, which are the answers to
its continuations. The order in which the useful states are found is, up to states with
the same answers, a matter of the answers alone. -/

/-! A word is viable if one of its continuations is accepted, and earliest if no word
before it leaves the same answers. -/

def residual (answers : List String → Bool) (word : List String) : List String → Bool :=
  fun more => answers (word ++ more)

def Viable (answers : List String → Bool) (word : List String) : Prop :=
  ∃ more, residual answers word more

abbrev Precedes (left right : String) : Prop := compare left right = .lt

instance : IsTrans String Precedes := ⟨fun _ _ _ => Std.TransCmp.lt_trans⟩

instance : Std.Asymm Precedes where
  asymm left right before after := by
    have irreflexive := Std.TransCmp.lt_trans before after
    simp [Std.ReflOrd.compare_self] at irreflexive

def Earliest (answers : List String → Bool) (word : List String) : Prop :=
  ∀ other, residual answers other = residual answers word →
    ¬ List.Shortlex Precedes other word

/-- Whether some words, in their order, are viable, and none that is viable comes before
all of them that leave the same answers. -/
structure Accesses (answers : List String → Bool) (words : List (List String)) : Prop where
  sorted : words.Pairwise (List.Shortlex Precedes)
  viable : ∀ word ∈ words, Viable answers word
  met : ∀ word, Viable answers word → ∃ earlier ∈ words,
    residual answers earlier = residual answers word ∧
      (earlier = word ∨ List.Shortlex Precedes earlier word)

namespace Accesses

variable {answers : List String → Bool} {words : List (List String)}
  (accesses : Accesses answers words)
include accesses

theorem earliest_iff {before after : List (List String)} {word : List String}
    (split : words = before ++ word :: after) :
    Earliest answers word ↔ residual answers word ∉ before.map (residual answers) := by
  have sorted := accesses.sorted
  rw [split, List.pairwise_append] at sorted
  constructor
  · intro earliest repeated
    rcases List.mem_map.mp repeated with ⟨other, otherMember, same⟩
    exact earliest other same (sorted.2.2 other otherMember word List.mem_cons_self)
  · intro unmet other same otherBefore
    have wordViable : Viable answers word := accesses.viable word (by simp [split])
    have otherViable : Viable answers other := by
      rwa [Viable, same]
    rcases accesses.met other otherViable with ⟨earlier, member, earlierSame, notLater⟩
    have before_word : List.Shortlex Precedes earlier word := by
      rcases notLater with rfl | earlierBefore
      · exact otherBefore
      · exact List.shortlex_trans earlierBefore otherBefore
    -- It would have been met before the word, and it leaves the same answers.
    rw [split, List.mem_append, List.mem_cons] at member
    rcases member with met | rfl | later
    · exact unmet (List.mem_map.mpr ⟨earlier, met, earlierSame.trans same⟩)
    · exact Std.Asymm.asymm _ _ before_word before_word
    · have word_before := (List.pairwise_cons.mp sorted.2.1).1 earlier later
      exact Std.Asymm.asymm _ _ before_word word_before

open Classical in
theorem eraseDups_map_residual :
    (words.map (residual answers)).eraseDups =
      (words.filter (Earliest answers)).map (residual answers) := by
  apply List.eraseDups_map_of_first
  intro before word after split
  rw [decide_eq_true_eq, accesses.earliest_iff split]

open Classical in
theorem mem_filter_iff (word : List String) :
    word ∈ words.filter (Earliest answers) ↔ Viable answers word ∧ Earliest answers word := by
  rw [List.mem_filter, decide_eq_true_eq]
  constructor
  · intro given
    exact ⟨accesses.viable word given.1, given.2⟩
  · intro given
    rcases given with ⟨viable, earliest⟩
    rcases accesses.met word viable with ⟨earlier, member, same, rfl | before⟩
    · exact ⟨member, earliest⟩
    · exact absurd before (earliest earlier same)

end Accesses

namespace Dfa

variable {dfa : Dfa} {state target : Nat} {word : List String}

theorem decides_eq_residual (leads : dfa.follow? state word = some target) :
    dfa.decides target = residual (dfa.decides state) word := by
  funext more
  rw [residual, decides_append, leads, Option.any_some]

theorem viable_iff :
    Viable (dfa.decides state) word ↔
      ∃ target, dfa.follow? state word = some target ∧
        ∃ more, dfa.decides target more := by
  simp only [Viable, residual, decides_append, Option.any_eq_true]
  constructor
  · intro given
    rcases given with ⟨more, target, leads, accepted⟩
    exact ⟨target, leads, more, accepted⟩
  · intro given
    rcases given with ⟨target, leads, more, accepted⟩
    exact ⟨more, target, leads, accepted⟩

def outgoing (dfa : Dfa) (state : Nat) : List (String × Nat) := (dfa.row state).toList

theorem mem_outgoing {symbol : String} :
    (symbol, target) ∈ dfa.outgoing state ↔ dfa.next? state symbol = some target :=
  OrderedMap.mem_toList_iff

theorem leads_iff :
    Traversal.Leads dfa.outgoing state word target ↔
      dfa.follow? state word = some target := by
  constructor
  · intro leads
    induction leads with
    | nil => rfl
    | concat _ edge induction =>
        rw [follow?_concat, induction]
        exact mem_outgoing.mp edge
  · intro leads
    induction word using List.reverseRecOn generalizing target with
    | nil =>
        cases leads
        exact .nil
    | append_singleton front symbol induction =>
        rw [follow?_concat, Option.bind_eq_some_iff] at leads
        rcases leads with ⟨source, frontLeads, step⟩
        exact .concat (induction frontLeads) (mem_outgoing.mpr step)

/-- The states that can be reached are found in the order of the least words that lead to
them. -/
theorem exists_access
    (bounded : Traversal.Bounds (fun state => (dfa.row state).values) [dfa.start] dfa.size) :
    ∃ access : List (List String × Nat), access.map Prod.snd = dfa.reachable ∧
      (access.map Prod.fst).Pairwise (List.Shortlex Precedes) ∧
      (∀ step ∈ access, dfa.follow? dfa.start step.1 = some step.2) ∧
      ∀ word state, dfa.follow? dfa.start word = some state →
        ∃ step ∈ access, step.2 = state ∧
          (step.1 = word ∨ List.Shortlex Precedes step.1 word) := by
  have increasing (state : Nat) :
      ((dfa.outgoing state).map Prod.fst).Pairwise Precedes :=
    (dfa.row state).increasing
  rcases Traversal.exists_trail increasing bounded with ⟨trail, nodes, sorted, leads, least⟩
  refine ⟨trail, nodes, sorted, fun step member => leads_iff.mp (leads step member), ?_⟩
  exact fun word state found => least word state (leads_iff.mpr found)

namespace InRange

variable (inRange : dfa.InRange)
include inRange

theorem exists_access_useful :
    ∃ access : List (List String × Nat), access.map Prod.snd = dfa.useful ∧
      (access.map Prod.fst).Pairwise (List.Shortlex Precedes) ∧
      (∀ step ∈ access, dfa.follow? dfa.start step.1 = some step.2) ∧
      ∀ word state, dfa.follow? dfa.start word = some state → state ∈ dfa.useful →
        ∃ step ∈ access, step.2 = state ∧
          (step.1 = word ∨ List.Shortlex Precedes step.1 word) := by
  rcases exists_access inRange.bounds_reachable with ⟨access, nodes, sorted, leads, least⟩
  refine ⟨access.filter (·.2 ∈ dfa.productive), ?_, ?_, ?_, ?_⟩
  · have selected : dfa.useful = (access.map Prod.snd).filter (· ∈ dfa.productive) := by
      rw [nodes]
      rfl
    rw [selected, List.filter_map]
    rfl
  · exact sorted.sublist (List.filter_sublist.map Prod.fst)
  · exact fun step member => leads step (List.mem_filter.mp member).1
  · intro word state found useful
    rcases least word state found with ⟨step, member, rfl, notLater⟩
    refine ⟨step, List.mem_filter.mpr ⟨member, ?_⟩, rfl, notLater⟩
    exact (List.mem_filter.mp useful).2

theorem exists_accesses :
    ∃ words, Accesses (dfa.decides dfa.start) words ∧
      dfa.useful.map dfa.decides = words.map (residual (dfa.decides dfa.start)) := by
  rcases inRange.exists_access_useful with ⟨access, states, sorted, leads, least⟩
  refine ⟨access.map Prod.fst, ⟨sorted, ?viable, ?met⟩, ?residuals⟩
  case viable =>
    intro word member
    rcases List.mem_map.mp member with ⟨step, stepMember, rfl⟩
    have useful : step.2 ∈ dfa.useful := states ▸ List.mem_map_of_mem stepMember
    exact viable_iff.mpr
      ⟨step.2, leads step stepMember, (inRange.mem_useful.mp useful).2⟩
  case met =>
    intro word viable
    rcases viable_iff.mp viable with ⟨state, reached, productive⟩
    have useful : state ∈ dfa.useful :=
      inRange.mem_useful.mpr ⟨⟨word, reached⟩, productive⟩
    rcases least word state reached useful with ⟨step, member, rfl, notLater⟩
    refine ⟨step.1, List.mem_map_of_mem member, ?_, notLater⟩
    rw [← decides_eq_residual (leads step member), ← decides_eq_residual reached]
  case residuals =>
    rw [← states, List.map_map, List.map_map]
    exact List.map_congr_left fun step member => decides_eq_residual (leads step member)

open Classical in
/-- The residuals of the useful states, each once, in the order of the earliest
words that have them. -/
theorem exists_words_of_useful :
    ∃ words : List (List String),
      (dfa.useful.map dfa.decides).eraseDups =
        words.map (residual (dfa.decides dfa.start)) ∧
      words.Pairwise (List.Shortlex Precedes) ∧
      ∀ word, word ∈ words ↔
        Viable (dfa.decides dfa.start) word ∧
          Earliest (dfa.decides dfa.start) word := by
  rcases inRange.exists_accesses with ⟨words, accesses, residuals⟩
  refine ⟨words.filter (Earliest (dfa.decides dfa.start)), ?_, accesses.sorted.filter _,
    accesses.mem_filter_iff⟩
  rw [residuals, accesses.eraseDups_map_residual]

end InRange

end Dfa

end WordAutomata
