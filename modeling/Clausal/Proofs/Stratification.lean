import Clausal.Clause.Stratification
import Clausal.Proofs.Components

/-!
# Levels of predicates

Rules are stratified by levels of predicates if none depends on a predicate of a higher level, nor
on the negation of one that is not of a lower level. A rule is unstratified when it negates a
predicate that depends on that of its head in turn. The others are stratified by the size of what
their predicates depend on, and no rule is unstratified where levels exist from the start.

## Main results

`unstratifiedRules_exact`: the rules that are found are those that negate a predicate which is
mutually reachable with that of the head, in increasing order.
-/

namespace Clausal

namespace Sentence

theorem relation?_eq_some (s : Sentence) (p : Text) :
    s.relation? = some p ↔ isBuiltin p = false ∧ ∃ args, s = .term p args := by
  cases s with
  | term q args =>
    simp only [relation?]
    split
    next builtin =>
      constructor
      · simp
      · rintro ⟨plain, _, equal⟩
        cases equal
        simp [builtin] at plain
    next plain =>
      constructor
      · intro equal
        obtain rfl := Option.some.inj equal
        exact ⟨by simpa using plain, args, rfl⟩
      · rintro ⟨_, _, equal⟩
        cases equal
        rfl
  | _ => simp [relation?]

theorem negatedRelation?_eq_some (s : Sentence) (p : Text) :
    s.negatedRelation? = some p ↔ isBuiltin p = false ∧ ∃ args, s = .neg (.term p args) := by
  cases s with
  | neg s => simp [negatedRelation?, relation?_eq_some]
  | _ => simp [negatedRelation?]

theorem literalRelation?_eq_some (s : Sentence) (p : Text) :
    s.literalRelation? = some p ↔
      isBuiltin p = false ∧ ∃ args, s = .term p args ∨ s = .neg (.term p args) := by
  cases s with
  | neg s => simp [literalRelation?, relation?_eq_some]
  | _ => simp [literalRelation?, relation?_eq_some]

end Sentence

namespace Clause

theorem headRelation?_eq_some (c : Clause) (h : Text) :
    c.headRelation? = some h ↔ ∃ args, c.head = some (.term h args) := by
  unfold headRelation?
  split
  next p args found => simp [found]
  next other =>
    constructor
    · simp
    · rintro ⟨args, found⟩
      exact (other h args found).elim

/-- Whether a rule respects levels of predicates: its head is at least as high as what the body
affirms and higher than what the body negates, predicates of fixed meaning apart. -/
structure StratifiedBy (level : Text → Nat) (c : Clause) : Prop where
  affirmed : ∀ h args p others, c.head = some (.term h args) → .term p others ∈ c.body →
    isBuiltin p = false → level p ≤ level h
  negated : ∀ h args p others, c.head = some (.term h args) → .neg (.term p others) ∈ c.body →
    isBuiltin p = false → level p < level h

/-- A clause makes the predicate of its head depend on those of its literals. -/
theorem mem_dependencies (c : Clause) (h p : Text) :
    ⟨h, p⟩ ∈ c.dependencies ↔
      c.headRelation? = some h ∧ ∃ l ∈ c.body, l.literalRelation? = some p := by
  unfold dependencies
  split
  next head found =>
    simp only [List.mem_map, List.mem_filterMap, found, Option.some.injEq, Edge.mk.injEq]
    constructor
    · rintro ⟨q, ⟨l, inside, literal⟩, rfl, rfl⟩
      exact ⟨rfl, l, inside, literal⟩
    · rintro ⟨rfl, l, inside, literal⟩
      exact ⟨p, ⟨l, inside, literal⟩, rfl, rfl⟩
  next none => simp [none]

theorem mem_dependencies_of (c : Clause) {h p : Text} {args others : List Sentence} {l : Sentence}
    (head : c.head = some (.term h args)) (inside : l ∈ c.body) (plain : isBuiltin p = false)
    (literal : l = .term p others ∨ l = .neg (.term p others)) : ⟨h, p⟩ ∈ c.dependencies := by
  rw [mem_dependencies]
  exact ⟨(c.headRelation?_eq_some h).mpr ⟨args, head⟩, l, inside,
    (l.literalRelation?_eq_some p).mpr ⟨plain, others, literal⟩⟩

/-- Among levels that a rule respects, its dependencies never lead upwards. -/
theorem StratifiedBy.dependency_le {level : Text → Nat} {c : Clause} (given : c.StratifiedBy level)
    {h p : Text} (edge : ⟨h, p⟩ ∈ c.dependencies) : level p ≤ level h := by
  obtain ⟨head, l, inside, literal⟩ := (c.mem_dependencies h p).mp edge
  obtain ⟨args, head⟩ := (c.headRelation?_eq_some h).mp head
  obtain ⟨plain, others, rfl | rfl⟩ := (l.literalRelation?_eq_some p).mp literal
  · exact given.affirmed h args p others head inside plain
  · exact Nat.le_of_lt (given.negated h args p others head inside plain)

end Clause

/-- The level of a predicate: the number of dependencies of what it depends on. -/
def levelIn (edges : List (Edge Text)) (p : Text) : Nat :=
  edges.countP fun edge => (Graph.ofEdges edges).reaches p edge.source

/-- Along a dependency, levels do not rise. -/
theorem levelIn_le (edges : List (Edge Text)) (h p : Text) (edge : Leads edges h p) :
    levelIn edges p ≤ levelIn edges h := by
  apply List.countP_mono_left
  intro other _ reached
  rw [Graph.reaches_iff] at reached ⊢
  exact reached.head edge

/-- What a predicate depends on is lower unless it depends on the predicate in turn. -/
theorem levelIn_lt (edges : List (Edge Text)) (h p : Text) (edge : Leads edges h p)
    (oneWay : ¬ PathFrom edges p h) : levelIn edges p < levelIn edges h := by
  -- The edge itself counts for `h`, but not for `p`, which does not lead back.
  apply countP_lt_countP _ edge
  · rw [Graph.reaches_iff]
  · rw [← Bool.not_eq_true, Graph.reaches_iff]
    exact oneWay
  · intro other reached
    rw [Graph.reaches_iff] at reached ⊢
    exact reached.head edge

namespace Clause

/-- A rule is unstratified if a predicate that it negates is mutually reachable with that of its
head. -/
theorem isUnstratified_iff (edges : List (Edge Text)) (c : Clause) :
    c.isUnstratified (.ofEdges edges) = true ↔ ∃ h args p others,
      c.head = some (.term h args) ∧ .neg (.term p others) ∈ c.body ∧ isBuiltin p = false ∧
        PathFrom edges p h ∧ PathFrom edges h p := by
  unfold isUnstratified
  split
  next h found =>
    simp only [List.any_eq_true, List.mem_filterMap, Components.together_iff]
    constructor
    · rintro ⟨p, ⟨l, inside, literal⟩, back, forth⟩
      obtain ⟨args, head⟩ := (c.headRelation?_eq_some h).mp found
      obtain ⟨plain, others, rfl⟩ := (l.negatedRelation?_eq_some p).mp literal
      exact ⟨h, args, p, others, head, inside, plain, back, forth⟩
    · rintro ⟨h', args, p, others, head, inside, plain, back, forth⟩
      -- The head of a clause is unique.
      have same : h' = h := by
        have again := (c.headRelation?_eq_some h').mpr ⟨args, head⟩
        exact Option.some.inj (again.symm.trans found)
      subst same
      exact ⟨p, ⟨_, inside, (Sentence.negatedRelation?_eq_some _ p).mpr ⟨plain, others, rfl⟩⟩,
        back, forth⟩
  next none =>
    constructor
    · simp
    · rintro ⟨h, args, _, _, head, _⟩
      simp [(c.headRelation?_eq_some h).mpr ⟨args, head⟩] at none

/-- A rule that is not left out respects the levels of the dependencies. -/
theorem stratifiedBy_levelIn (edges : List (Edge Text)) (c : Clause)
    (included : c.dependencies ⊆ edges) (kept : c.isUnstratified (.ofEdges edges) = false) :
    c.StratifiedBy (levelIn edges) := by
  constructor
  · intro h args p others head inside plain
    exact levelIn_le edges h p (included (c.mem_dependencies_of head inside plain (.inl rfl)))
  · intro h args p others head inside plain
    have edge : Leads edges h p :=
      included (c.mem_dependencies_of head inside plain (.inr rfl))
    apply levelIn_lt edges h p edge
    -- A path back would make the negation part of a cycle, and the rule would have been left out.
    intro back
    have dropped := (c.isUnstratified_iff edges).mpr
      ⟨h, args, p, others, head, inside, plain, back, .single edge⟩
    simp [kept] at dropped

/-- Where levels exist that all rules respect, no rule is left out. -/
theorem isUnstratified_eq_false (clauses : List Clause) (level : Text → Nat)
    (all : ∀ c ∈ clauses, c.StratifiedBy level) (c : Clause) (member : c ∈ clauses) :
    c.isUnstratified (dependencyComponents clauses) = false := by
  -- Along a path levels never rise, but a negative edge on a cycle would have to go down.
  have descends {x y : Text} (path : PathFrom (clauses.flatMap dependencies) x y) :
      level y ≤ level x := by
    induction path with
    | refl => exact Nat.le_refl _
    | tail _ edge ih =>
      obtain ⟨rule, inside, edge⟩ := List.mem_flatMap.mp edge
      exact Nat.le_trans ((all rule inside).dependency_le edge) ih
  by_contra unstratified
  rw [Bool.not_eq_false, dependencyComponents, isUnstratified_iff] at unstratified
  obtain ⟨h, args, p, others, head, inside, plain, back, _⟩ := unstratified
  have lower := (all c member).negated h args p others head inside plain
  have higher := descends back
  omega

end Clause

/-! ### The rules that are found -/

/-- Whether a predicate depends on another one: a rule for the first has the other one in its body,
as it is or negated. What has a fixed meaning does not count. -/
inductive DependsOn (clauses : List Clause) (h p : Text) : Prop where
  | affirmed (c : Clause) (member : c ∈ clauses) (args others : List Sentence)
      (head : c.head = some (.term h args)) (literal : .term p others ∈ c.body)
      (plain : isBuiltin p = false)
  | negated (c : Clause) (member : c ∈ clauses) (args others : List Sentence)
      (head : c.head = some (.term h args)) (literal : .neg (.term p others) ∈ c.body)
      (plain : isBuiltin p = false)

/-- The edges of the graph are the dependencies. -/
theorem leads_dependencies (clauses : List Clause) (h p : Text) :
    Leads (clauses.flatMap Clause.dependencies) h p ↔ DependsOn clauses h p := by
  unfold Leads
  rw [List.mem_flatMap]
  constructor
  · rintro ⟨c, member, edge⟩
    obtain ⟨head, l, inside, literal⟩ := (c.mem_dependencies h p).mp edge
    obtain ⟨args, head⟩ := (c.headRelation?_eq_some h).mp head
    obtain ⟨plain, others, rfl | rfl⟩ := (l.literalRelation?_eq_some p).mp literal
    · exact .affirmed c member args others head inside plain
    · exact .negated c member args others head inside plain
  · intro depends
    cases depends with
    | affirmed c member args others head inside plain =>
      exact ⟨c, member, c.mem_dependencies_of head inside plain (.inl rfl)⟩
    | negated c member args others head inside plain =>
      exact ⟨c, member, c.mem_dependencies_of head inside plain (.inr rfl)⟩

/-- A rule is unstratified if it negates a predicate on which its head depends and which in turn
depends on that of the head. -/
theorem Clause.isUnstratified_iff_dependsOn (clauses : List Clause) (c : Clause) :
    c.isUnstratified (dependencyComponents clauses) = true ↔ ∃ h args p others,
      c.head = some (.term h args) ∧ .neg (.term p others) ∈ c.body ∧ isBuiltin p = false ∧
        Relation.ReflTransGen (DependsOn clauses) p h ∧
        Relation.ReflTransGen (DependsOn clauses) h p := by
  have edges : Leads (clauses.flatMap Clause.dependencies) = DependsOn clauses := by
    funext h p
    exact propext (leads_dependencies clauses h p)
  rw [dependencyComponents, isUnstratified_iff]
  simp only [PathFrom, edges]

theorem mem_unstratifiedRules (clauses : List Clause) (i : Nat) :
    i ∈ unstratifiedRules clauses ↔
      ∃ c, clauses[i]? = some c ∧ c.isUnstratified (dependencyComponents clauses) = true := by
  simp only [unstratifiedRules, List.mem_filterMap, Option.ite_none_right_eq_some,
    Option.some.injEq]
  constructor
  · rintro ⟨⟨c, j⟩, listed, bad, rfl⟩
    exact ⟨c, List.mem_zipIdx_iff_getElem?.mp listed, bad⟩
  · rintro ⟨c, found, bad⟩
    exact ⟨(c, i), List.mem_zipIdx_iff_getElem?.mpr found, bad, rfl⟩

theorem unstratifiedRules_sorted (clauses : List Clause) :
    (unstratifiedRules clauses).Pairwise (· < ·) := by
  have numbered : clauses.zipIdx.Pairwise fun a b => a.2 < b.2 := by
    have increasing := List.pairwise_lt_range' (s := 0) (n := clauses.length)
    rw [← List.zipIdx_map_snd, List.pairwise_map] at increasing
    exact increasing
  refine numbered.filterMap _ ?_
  -- What is kept of a numbered clause is its number.
  intro a b less i first j second
  simp only [Option.ite_none_right_eq_some, Option.some.injEq] at first second
  omega

/-- Exactly the rules are found that negate a predicate on which their head depends and which in
turn depends on that of the head, each once and in order. -/
theorem unstratifiedRules_exact (clauses : List Clause) :
    (unstratifiedRules clauses).Pairwise (· < ·) ∧ ∀ i, i ∈ unstratifiedRules clauses ↔
      ∃ c h args p others, clauses[i]? = some c ∧ c.head = some (.term h args) ∧
        .neg (.term p others) ∈ c.body ∧ isBuiltin p = false ∧
        Relation.ReflTransGen (DependsOn clauses) p h ∧
        Relation.ReflTransGen (DependsOn clauses) h p := by
  refine ⟨unstratifiedRules_sorted clauses, fun i => ?_⟩
  simp only [mem_unstratifiedRules, Clause.isUnstratified_iff_dependsOn]
  constructor
  · rintro ⟨c, found, h, args, p, others, rule⟩
    exact ⟨c, h, args, p, others, found, rule⟩
  · rintro ⟨c, h, args, p, others, found, rule⟩
    exact ⟨c, found, h, args, p, others, rule⟩

end Clausal
