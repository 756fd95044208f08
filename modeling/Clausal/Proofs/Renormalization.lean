import Clausal.Proofs.ClauseShapes
import Clausal.Proofs.SentenceReading

/-!
# Normalizing a clause again

A clause is turned back into a sentence and normalized once more. Literals without a double negation
stay as they are, so that a rule comes back as it was. Where no quantifier asserts existence there
are no double negations in literals.
-/

namespace Clausal

open Sentence (NegatesOnly Everywhere InRange children everywhere_iff)

/-- Whether no part of a sentence is an existential quantifier. -/
def Sentence.Existless : Sentence → Prop := Everywhere fun t => t.kind ≠ .forSome

namespace Clause

/-- The sentence of a clause under its quantifiers, without its weight. -/
def closed (c : Clause) : Sentence := if c.vars.isEmpty then c.matrix else .forAll c.vars c.matrix

theorem toSentence_eq (c : Clause) :
    c.toSentence = c.weight.elim (.ok c.closed) fun w => Sentence.Build.weighted w c.closed := by
  unfold toSentence
  cases c.weight with
  | none => rfl
  | some w => rfl

theorem toSentence_weighted (c : Clause) {w : Binary64} (weighted : c.weight = some w)
    (weight : w.isWeight = true) (present : c.closed.isMissing = false) :
    c.toSentence = .ok (.weighted w c.closed) := by
  simp [toSentence_eq, weighted, Sentence.Build.weighted, weight, Sentence.Build.operand, present,
    bind, Except.bind, pure, Except.pure]

end Clause

namespace Dialect

variable {d : Dialect}

/-! ### Literals that stay -/

/-- Whether a literal stays as it is when it is normalized: it is one of the dialect, without double
negations. -/
structure Stays (d : Dialect) (l : Sentence) : Prop extends d.IsLiteral l where
  once : l.NegatesOnly fun t => t.isNeg = false

theorem inlinedAll_self {ss : List Sentence} (each : ∀ s ∈ ss, d.inlined s true = .ok ⟨[], s⟩) :
    d.inlinedAll ss = .ok ([], ss) := by
  induction ss with
  | nil => rfl
  | cons s ss ih =>
    rw [List.forall_mem_cons] at each
    rw [inlinedAll, each.1, ih each.2]
    rfl

/-- A formula without double negations is kept as it is. -/
theorem inlined_self {s : Sentence}
    (plain : s.NegatesOnly fun t => d.MayNegate t ∧ t.isNeg = false) :
    d.inlined s true = .ok ⟨[], s⟩ := by
  induction plain with
  | term => rfl
  | neg _ negatable ih =>
    rw [inlined, Bool.not_true, inlined_false d _ negatable.2, ih,
      (d.checkNegation_ok_iff _).mpr negatable.1]
    rfl
  | conj _ ih | disj _ ih =>
    rw [inlined, withPolarity, if_pos rfl, inlinedAll_self ih]
    rfl

/-- A negation that is kept as it is makes a literal of its own. -/
theorem negatedLiteral_self {s : Sentence}
    (plain : s.NegatesOnly fun t => d.MayNegate t ∧ t.isNeg = false) (may : d.MayNegate s) :
    d.negatedLiteral s = .ok ⟨[], .neg s⟩ := by
  have kept := inlined_self plain
  cases plain with
  | term => rfl
  | neg | conj | disj =>
    rw [negatedLiteral, (d.checkNegation_ok_iff _).mpr may, kept]
    · rfl
    all_goals simp

theorem Stays.formula_once {l : Sentence} (stays : d.Stays l) :
    l.NegatesOnly fun t => d.MayNegate t ∧ t.isNeg = false :=
  stays.formula.and stays.once

/-- A literal that stays is one body by itself. -/
theorem bodies_self {l : Sentence} (stays : d.Stays l) :
    d.bodies l true = .ok (.literal ⟨[], l⟩) := by
  have plain := stays.formula_once
  cases plain with
  | term => rfl
  | neg operand negatable =>
    rw [bodies, Bool.not_true, bodies_false d _ negatable.2,
      negatedLiteral_self operand negatable.1]
    rfl
  | conj => exact absurd rfl stays.notConj
  | disj =>
    rw [bodies, if_neg (by simp [stays.whole rfl]), inlined_self stays.formula_once]
    rfl

/-- The literals of a conjunction that stay join those before. -/
theorem conjunction_self {vars : List TypedName} (before : List Sentence) {ls : List Sentence}
    (stay : ∀ l ∈ ls, d.Stays l) :
    d.conjunction ⟨vars, [before]⟩ ls = .ok ⟨vars, [before ++ ls]⟩ := by
  induction ls generalizing before with
  | nil => simp [conjunction]
  | cons l ls ih =>
    rw [List.forall_mem_cons] at stay
    rw [conjunction, bodies_self stay.1]
    have next := ih (before ++ [l]) stay.2
    simpa [bind, Except.bind, Bodies.cross, Bodies.literal] using next

/-- The body of a clause is found again as one body. -/
theorem bodies_bodySentence (c : Clause) (stay : ∀ l ∈ c.body, d.Stays l) :
    d.bodies c.bodySentence true = .ok ⟨[], [c.body]⟩ := by
  unfold Clause.bodySentence
  split
  next l single =>
    rw [single] at stay ⊢
    exact bodies_self (stay l List.mem_cons_self)
  next => exact conjunction_self [] stay

/-! ### Clauses that come back -/

/-- A negation of what is no negation is a constraint. -/
theorem flatten_neg (s : Sentence) (c : Setting) (proper : s.isNeg = false) :
    d.flatten (.neg s) c = d.constraint c .unsupportedNegation s := by
  cases s with
  | neg => simp [Sentence.isNeg] at proper
  | _ => rfl

/-- What a clause says is flattened to that clause, unless it denies a lone negation. -/
theorem flatten_matrix {c : Clause} (permitted : c.PermittedBy d) (stay : ∀ l ∈ c.body, d.Stays l)
    (proper : c.head = none → c.bodySentence.isNeg = false) (inner : Setting) :
    d.flatten c.matrix inner = .ok ⟨[], 0, [inner.clause c.head c.body]⟩ := by
  have expanded := bodies_bodySentence c stay
  unfold Clause.matrix
  split
  next headless =>
    obtain ⟨allowed, nonempty⟩ := permitted.constraint headless
    rw [flatten_neg _ inner (proper headless), constraint, if_pos allowed, expanded, headless]
    simp [bind, Except.bind, pure, Except.pure, Setting.clause, nonempty]
  next head found =>
    have isTerm := permitted.head head found
    cases head with
    | term p args =>
      rw [found]
      split
      next empty =>
        rw [List.isEmpty_iff.mp empty]
        rfl
      next =>
        rw [flatten, expanded]
        simp [bind, Except.bind, pure, Except.pure, Setting.forEach, Rules.collect, flatten,
          Rules.append, Rules.none, Rules.recording, Setting.clause, Setting.under]
    | _ => simp [Sentence.isTerm] at isTerm

/-- The quantifiers of a clause only record its variables. -/
theorem flatten_closed {c : Clause} (permitted : c.PermittedBy d) (stay : ∀ l ∈ c.body, d.Stays l)
    (proper : c.head = none → c.bodySentence.isNeg = false) (inner : Setting) :
    d.flatten c.closed inner = .ok ⟨c.vars, 0, [inner.clause c.head c.body]⟩ := by
  have matrix := flatten_matrix permitted stay proper inner
  unfold Clause.closed
  split
  next none => rw [matrix, List.isEmpty_iff.mp none]
  next =>
    rw [flatten, matrix]
    simp [bind, Except.bind, pure, Except.pure, Rules.recording]

/-- The sentence of a clause is flattened to this clause, if the body stays as it is. -/
theorem flatten_toSentence {c : Clause} (permitted : c.PermittedBy d)
    (stay : ∀ l ∈ c.body, d.Stays l) (proper : c.head = none → c.bodySentence.isNeg = false)
    (weights : ∀ w, c.weight = some w → w.isWeight = true) :
    ∃ t, c.toSentence = .ok t ∧ d.flatten t .outermost =
      .ok ⟨c.vars, 0, [⟨c.head, c.body, [], c.weight, none, 0⟩]⟩ := by
  cases weight : c.weight with
  | none =>
    exact ⟨c.closed, by simp [c.toSentence_eq, weight], flatten_closed permitted stay proper _⟩
  | some w =>
    have allowed := permitted.weight (by simp [weight])
    have flattened :=
      flatten_closed permitted stay proper { Setting.outermost with weight := some w }
    -- What can be flattened is not missing.
    have present : c.closed.isMissing = false := by
      cases closed : c.closed with
      | missing => simp [closed, flatten] at flattened
      | _ => rfl
    refine ⟨.weighted w c.closed, c.toSentence_weighted weight (weights w weight) present, ?_⟩
    rw [flatten, if_neg (by simp [allowed]), if_neg (by simp [Setting.outermost])]
    exact flattened

/-- Whether a clause comes back, alone and without a report, if its sentence is normalized. -/
def Restores (d : Dialect) (r : Option Registry) (c : Clause) : Prop :=
  ∃ t again, c.toSentence = .ok t ∧ d.tryNormalize r t = .ok ⟨[again], []⟩ ∧ again.same c = true

theorem tryNormalize_single (r : Option Registry) {t : Sentence} {vars : List TypedName}
    {g : Clause} (flattened : d.flatten t .outermost = .ok ⟨vars, 0, [g]⟩)
    (passed : Clause.check r { g with vars := vars } = .ok ()) :
    d.tryNormalize r t = .ok ⟨[{ g with vars := vars }], []⟩ := by
  simp [tryNormalize, fault?, normalize, flattened, checkClauses, passed, Normalized.keep,
    Normalized.empty]

/-- A clause whose literals stay comes back from its sentence, alone and without a report. -/
theorem restores_of_stays (r : Option Registry) {c : Clause} (permitted : c.PermittedBy d)
    (stay : ∀ l ∈ c.body, d.Stays l) (proper : c.head = none → c.bodySentence.isNeg = false)
    (weights : ∀ w, c.weight = some w → w.isWeight = true) (passed : c.check r = .ok ())
    (equal : c.same c = true) : d.Restores r c := by
  obtain ⟨t, sentence, flattened⟩ := flatten_toSentence permitted stay proper weights
  -- The checks look at the head and the body only.
  exact ⟨t, _, sentence, tryNormalize_single r flattened passed, equal⟩

/-! ### Clauses of sentences in range -/

theorem made_inRange {l : Sentence}
    (made : l.Made fun p args => Everywhere InRange (.term p args)) : Everywhere InRange l := by
  induction made with
  | term numbers => exact numbers
  | neg _ ih => exact (everywhere_iff _ _).mpr ⟨trivial, List.forall_mem_singleton.mpr ih⟩
  | conj _ ih | disj _ ih => exact (everywhere_iff _ _).mpr ⟨trivial, ih⟩

/-- The numbers of a clause are those of its sentence. -/
theorem Gives.inRange {names : List Text} {s : Sentence} {clause : Clause}
    (given : d.Gives names s .outermost clause) (numbers : Everywhere InRange s) :
    clause.same clause = true ∧ ∀ w, clause.weight = some w → w.isWeight = true := by
  have terms : s.Terms fun p args => Everywhere InRange (.term p args) := by
    rintro t inside p args rfl u below
    exact numbers u (Relation.ReflTransGen.trans below inside)
  have body (l : Sentence) (member : l ∈ clause.body) : l.same l = true :=
    have made := given.body_made terms (by simp [Setting.outermost]) l member
    l.same_self_of_inRange (made_inRange made)
  have weights (w : Binary64) (found : clause.weight = some w) : w.isWeight = true :=
    given.weight (Sentence.everywhere_hereditary (fun _ => trivial) fun _ => trivial) numbers
      (fun w t weighted _ => ((everywhere_iff _ _).mp weighted).1)
      (fun w outside => by simp [Setting.outermost] at outside) w found
  have head : Clause.sameHead clause.head clause.head = true := by
    cases found : clause.head with
    | none => rfl
    | some h =>
      obtain ⟨p, args, rfl, inside⟩ := given.head_term terms h found
      exact Sentence.same_self_of_inRange _ inside
  have bodies : Sentence.sameAll clause.body clause.body = true := by
    rw [Sentence.sameAll_iff, List.forall₂_same]
    exact body
  have weight : Clause.sameWeight clause.weight clause.weight = true := by
    cases found : clause.weight with
    | none => rfl
    | some w => exact w.numEq_self (w.isFinite_of_isWeight (weights w found))
  exact ⟨by simp [Clause.same, head, bodies, weight], weights⟩

/-! ### Sentences without existential quantifiers -/

/-- Without existential quantifiers, nothing that is negated is a negation. -/
theorem negates_existless (d : Dialect) :
    d.Negates Sentence.Existless fun t => t.isNeg = false := by
  refine d.negates_once (Sentence.everywhere_hereditary (by simp [Sentence.kind])
    (by simp [Sentence.kind])) (fun a b given => ?_) fun vars s given => ?_
  · -- Both implications have the operands of the biconditional.
    obtain ⟨-, below⟩ := (everywhere_iff _ _).mp given
    have left := below a (by simp [children])
    have right := below b (by simp [children])
    have kind (x y : Sentence) : (Sentence.implies x y).kind ≠ .forSome := by simp [Sentence.kind]
    exact ⟨(everywhere_iff _ _).mpr ⟨kind a b, by simpa [children] using ⟨left, right⟩⟩,
      (everywhere_iff _ _).mpr ⟨kind b a, by simpa [children] using ⟨right, left⟩⟩⟩
  · exact ((everywhere_iff _ _).mp given).1 rfl

/-- Without existential quantifiers no literal has a double negation. -/
theorem normalize_once (r : Option Registry) {s : Sentence} {c : Clause} (existless : s.Existless)
    (member : c ∈ (d.normalize r s).clauses) :
    ∀ l ∈ c.body, l.NegatesOnly fun t => t.isNeg = false := by
  obtain ⟨given, vars, _, gives, rfl, -⟩ := d.gives_of_mem_normalize r s c member
  exact gives.each_literal d.negates_existless.inherits.passesOn
    (fun _ _ holds contributed => contributed.negatesOnly d.negates_existless holds) existless
    (by simp [Setting.outermost])

/-- A clause with literals that stay and numbers in range comes back. -/
theorem restores_of_once (r : Option Registry) {s : Sentence} {c : Clause}
    (numbers : Everywhere InRange s) (member : c ∈ (d.normalize r s).clauses)
    (once : ∀ l ∈ c.body, l.NegatesOnly fun t => t.isNeg = false)
    (proper : c.head = none → c.bodySentence.isNeg = false) : d.Restores r c := by
  have permitted := d.normalize_permittedBy r member
  obtain ⟨given, vars, _, gives, rfl, passed⟩ := d.gives_of_mem_normalize r s c member
  obtain ⟨equal, weights⟩ := gives.inRange numbers
  exact restores_of_stays r permitted (fun l inBody => ⟨permitted.body l inBody, once l inBody⟩)
    proper weights passed equal

/-- A rule of a sentence without existential quantifiers comes back, alone and without a report, if
its sentence is normalized. -/
theorem normalize_restores_rules (d : Dialect) (r : Option Registry) (s : Sentence)
    (existless : s.Existless) (numbers : Everywhere InRange s)
    (c : Clause) (member : c ∈ (d.normalize r s).clauses) (headed : c.head ≠ none) :
    d.Restores r c := by
  have once := normalize_once r existless member
  exact restores_of_once r numbers member once fun headless => absurd headless headed

/-- A weighted rule with a kept disjunction and a negated conjunction in its body. -/
private def dispatch : Sentence :=
  let x : Sentence := .var "x" []
  .weighted ⟨0x3FE0000000000000⟩ (.forAll [⟨"x", []⟩] (.implies
    (.conj [.term "ordered" [x], .disj [.term "paid" [x], .neg (.term "priced" [x])],
      .neg (.conj [.term "held" [x], .neg (.term "urgent" [x])])])
    (.term "shipped" [x])))

private theorem dispatch_existless : dispatch.Existless := by
  have node (s : Sentence) (here : (s.kind == .forSome) = false)
      (below : ∀ c ∈ s.children, c.Existless) : s.Existless :=
    (everywhere_iff _ s).mpr ⟨by simpa using here, below⟩
  have atom (p : Text) : (Sentence.term p [.var "x" []]).Existless := by
    refine node _ rfl (List.forall_mem_singleton.mpr ?_)
    exact node _ rfl (by simp [children])
  have negated (s : Sentence) (operand : s.Existless) : (Sentence.neg s).Existless :=
    node _ rfl (List.forall_mem_singleton.mpr operand)
  have either : (Sentence.disj [.term "paid" [.var "x" []],
      .neg (.term "priced" [.var "x" []])]).Existless :=
    node _ rfl (by simpa [children] using ⟨atom _, negated _ (atom _)⟩)
  have both : (Sentence.conj [.term "held" [.var "x" []],
      .neg (.term "urgent" [.var "x" []])]).Existless :=
    node _ rfl (by simpa [children] using ⟨atom _, negated _ (atom _)⟩)
  refine node _ rfl (List.forall_mem_singleton.mpr ?_)
  refine node _ rfl (List.forall_mem_singleton.mpr ?_)
  refine node _ rfl ?_
  simp only [children, List.forall_mem_cons]
  refine ⟨node _ rfl ?_, atom _, by simp⟩
  simp only [children, List.forall_mem_cons]
  exact ⟨atom _, either, negated _ both, by simp⟩

theorem normalize_restores_rules_dispatch :
    dispatch.Existless ∧ Everywhere InRange dispatch ∧
      ∃ c ∈ (Dialect.normalize ⟨false, true, true, true⟩ none dispatch).clauses,
        c.head ≠ none ∧ c.weight ≠ none ∧ c.body.length = 3 ∧
        Dialect.Restores ⟨false, true, true, true⟩ none c := by
  have numbers := dispatch.inRange_of_isExpressible false (by decide)
  refine ⟨dispatch_existless, numbers, _, List.mem_cons_self, by decide, by decide, by decide, ?_⟩
  exact normalize_restores_rules ⟨false, true, true, true⟩ none dispatch dispatch_existless
    numbers _ List.mem_cons_self (by decide)

end Dialect

end Clausal
