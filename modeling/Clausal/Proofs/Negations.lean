import Clausal.Proofs.Contribution

/-!
# What literals negate

A literal is made by negation, conjunction and disjunction from terms. What it negates stands in the
place of a formula of the sentence whose negation the dialect allows, so whatever is known of these
is known of all negations in all literals. Two negations cancel, unless a quantifier stood between
them.
-/

namespace Clausal

namespace Sentence

/-- Formulas made by negation, conjunction and disjunction from terms, where every negated formula
has a property. -/
inductive NegatesOnly (N : Sentence → Prop) : Sentence → Prop where
  | term (p : Text) (args : List Sentence) : NegatesOnly N (.term p args)
  | neg {s : Sentence} (operand : NegatesOnly N s) (negatable : N s) : NegatesOnly N (.neg s)
  | conj {ss : List Sentence} (each : ∀ s ∈ ss, NegatesOnly N s) : NegatesOnly N (.conj ss)
  | disj {ss : List Sentence} (each : ∀ s ∈ ss, NegatesOnly N s) : NegatesOnly N (.disj ss)

namespace NegatesOnly

variable {N M : Sentence → Prop} {s : Sentence}

theorem operand (given : NegatesOnly N (.neg s)) : NegatesOnly N s ∧ N s := by
  cases given with
  | neg operand negatable => exact ⟨operand, negatable⟩

theorem conjunct {ss : List Sentence} (given : NegatesOnly N (.conj ss)) :
    ∀ s ∈ ss, NegatesOnly N s := by
  cases given with
  | conj each => exact each

theorem disjunct {ss : List Sentence} (given : NegatesOnly N (.disj ss)) :
    ∀ s ∈ ss, NegatesOnly N s := by
  cases given with
  | disj each => exact each

theorem mono (given : NegatesOnly N s) (weaker : ∀ t, N t → M t) : NegatesOnly M s := by
  induction given with
  | term p args => exact .term p args
  | neg _ negatable ih => exact .neg ih (weaker _ negatable)
  | conj _ ih => exact .conj ih
  | disj _ ih => exact .disj ih

/-- Two properties of the negated formulas hold together. -/
theorem and (first : NegatesOnly N s) (second : NegatesOnly M s) :
    NegatesOnly (fun t => N t ∧ M t) s := by
  induction first with
  | term p args => exact .term p args
  | neg _ negatable ih =>
    obtain ⟨operand, also⟩ := second.operand
    exact .neg (ih operand) ⟨negatable, also⟩
  | conj _ ih => exact .conj fun s member => ih s member (second.conjunct s member)
  | disj _ ih => exact .disj fun s member => ih s member (second.disjunct s member)

/-- Without conditions on what is negated, the property passes to operands. -/
theorem hereditary : Hereditary (NegatesOnly fun _ => True) where
  child := by
    intro s c given compound child
    cases given with
    | term => exact absurd compound (by simp [isTerm])
    | neg operand =>
      obtain rfl := List.mem_singleton.mp child
      exact operand
    | conj each | disj each => exact each c child
  negation given := .neg given trivial
  conj := .conj

end NegatesOnly

end Sentence

open Sentence (NegatesOnly Hereditary children)

namespace Dialect

variable {d : Dialect}

/-! ### What is negated -/

/-- Whether a formula may be negated in a body. -/
def MayNegate (d : Dialect) (s : Sentence) : Prop :=
  s.isTerm = true ∨ d.allowCompoundNegation = true

/-- The check of a negation lets through exactly what may be negated. -/
theorem checkNegation_ok_iff (d : Dialect) (s : Sentence) :
    d.checkNegation s = .ok () ↔ d.MayNegate s := by
  unfold checkNegation MayNegate
  split
  next allowed => simpa using allowed
  next forbidden => simpa using forbidden

/-- The negation of a formula that is no negation itself is kept if it is allowed. -/
theorem inlined_false (d : Dialect) (s : Sentence) (proper : s.isNeg = false) :
    d.inlined s false = (do
      d.checkNegation s
      let i ← d.inlined s true
      return ⟨i.vars, .neg i.formula⟩) := by
  cases s with
  | neg => simp [Sentence.isNeg] at proper
  | _ => simp [inlined, withPolarity]

/-- For sentences with the property `Q`, the formulas that are negated in their place have the
property `N`. A negation is negated in turn only right below a quantifier. -/
structure Negates (d : Dialect) (Q N : Sentence → Prop) : Prop where
  inherits : Hereditary Q
  halves {a b : Sentence} : Q (.iff a b) → Q (.implies a b) ∧ Q (.implies b a)
  negated {s : Sentence} {i : Inlined} : Q s → (s.isNeg = true → ∃ vars, Q (.forSome vars s)) →
    d.MayNegate s → d.inlined s true = .ok i → N i.formula

/-- Whatever the sentence, what a dialect negates is what it may negate. -/
theorem negates_mayNegate (d : Dialect) : d.Negates (fun _ => True) d.MayNegate where
  inherits := .trivial
  halves _ := ⟨trivial, trivial⟩
  negated {s i} _ _ may kept := by
    refine may.imp_left fun isTerm => ?_
    cases s with
    | term p args =>
      obtain rfl := Except.ok.inj kept
      rfl
    | _ => simp [Sentence.isTerm] at isTerm

/-- Without quantifiers no negation is negated, since two negations cancel. -/
theorem negates_once {Q : Sentence → Prop} (d : Dialect) (inherits : Hereditary Q)
    (halves : ∀ a b, Q (.iff a b) → Q (.implies a b) ∧ Q (.implies b a))
    (unquantified : ∀ vars s, ¬ Q (.forSome vars s)) :
    d.Negates Q (fun s => s.isNeg = false) where
  inherits := inherits
  halves given := halves _ _ given
  negated {s i} holds below _ kept := by
    have proper : s.isNeg = false := by
      rw [Bool.eq_false_iff]
      intro isNeg
      obtain ⟨vars, quantified⟩ := below isNeg
      exact unquantified vars s quantified
    cases s with
    | neg => simp [Sentence.isNeg] at proper
    | forSome vars s => exact absurd holds (unquantified vars s)
    | term | conj | disj | implies =>
      simp only [inlined, withPolarity, if_true, bind_ok_iff, pure_ok_iff, Except.ok.injEq] at kept
      grind [Sentence.isNeg]
    | _ => simp [inlined, withPolarity] at kept

variable {Q N : Sentence → Prop}

/-- A formula that is no negation need only be known with positive polarity. -/
theorem Negates.of_positive (negates : d.Negates Q N) {s : Sentence} {positive : Bool} {i : Inlined}
    (proper : s.isNeg = false) (holds : Q s) (returned : d.inlined s positive = .ok i)
    (affirmed : ∀ j, d.inlined s true = .ok j → j.formula.NegatesOnly N) :
    i.formula.NegatesOnly N := by
  cases positive with
  | true => exact affirmed i returned
  | false =>
    simp only [d.inlined_false s proper, bind_ok_iff, pure_ok_iff] at returned
    obtain ⟨_, checked, j, kept, rfl⟩ := returned
    have may := (d.checkNegation_ok_iff s).mp checked
    exact .neg (affirmed j kept) (negates.negated holds (by simp [proper]) may kept)

/-- Inlining negates only what the dialect lets it negate. -/
theorem Negates.inlined (negates : d.Negates Q N) (s : Sentence) (positive : Bool) (i : Inlined)
    (holds : Q s) (returned : d.inlined s positive = .ok i) : i.formula.NegatesOnly N := by
  induction s generalizing positive i with
  | neg s ih =>
    rw [Dialect.inlined] at returned
    exact ih (!positive) i (negates.inherits.child holds rfl List.mem_cons_self) returned
  | term p args =>
    refine negates.of_positive rfl holds returned fun j kept => ?_
    obtain rfl := Except.ok.inj kept
    exact .term p args
  | conj ss ih =>
    refine negates.of_positive rfl holds returned fun j kept => ?_
    simp only [Dialect.inlined, withPolarity, if_true, bind_ok_iff, pure_ok_iff] at kept
    obtain ⟨⟨vars, parts⟩, all, rfl⟩ := kept
    exact .conj (inlinedAll_each (fun s member i =>
      ih s member true i (negates.inherits.child holds rfl member)) all)
  | disj ss ih =>
    refine negates.of_positive rfl holds returned fun j kept => ?_
    simp only [Dialect.inlined, withPolarity, if_true, bind_ok_iff, pure_ok_iff] at kept
    obtain ⟨⟨vars, parts⟩, all, rfl⟩ := kept
    exact .disj (inlinedAll_each (fun s member i =>
      ih s member true i (negates.inherits.child holds rfl member)) all)
  | implies a b left right =>
    refine negates.of_positive rfl holds returned fun j kept => ?_
    simp only [Dialect.inlined, withPolarity, if_true, bind_ok_iff, pure_ok_iff] at kept
    obtain ⟨_, _, x, fails, y, yields, rfl⟩ := kept
    have first := left false x (negates.inherits.child holds rfl (by simp [children])) fails
    have second := right true y (negates.inherits.child holds rfl (by simp [children])) yields
    exact .disj (by simpa using ⟨first, second⟩)
  | forSome vars s ih =>
    refine negates.of_positive rfl holds returned fun j kept => ?_
    simp only [Dialect.inlined, withPolarity, if_true, bind_ok_iff, pure_ok_iff] at kept
    obtain ⟨k, inner, rfl⟩ := kept
    exact ih true k (negates.inherits.child holds rfl List.mem_cons_self) inner
  | var | const | iff | forAll | weighted | evidence | missing =>
    refine negates.of_positive rfl holds returned fun j kept => ?_
    simp [Dialect.inlined, withPolarity] at kept

theorem Negates.negatedLiteral (negates : d.Negates Q N) (s : Sentence) (i : Inlined) (holds : Q s)
    (below : s.isNeg = true → ∃ vars, Q (.forSome vars s))
    (returned : d.negatedLiteral s = .ok i) : i.formula.NegatesOnly N := by
  induction s generalizing i with
  | term p args =>
    obtain rfl := Except.ok.inj returned
    exact .neg (.term p args) (negates.negated (i := ⟨[], .term p args⟩) holds below (.inl rfl) rfl)
  | forSome vars s ih =>
    simp only [Dialect.negatedLiteral, bind_ok_iff, pure_ok_iff] at returned
    obtain ⟨j, inner, rfl⟩ := returned
    exact ih j (negates.inherits.child holds rfl List.mem_cons_self) (fun _ => ⟨vars, holds⟩) inner
  | var | const | neg | conj | disj | implies | iff | forAll | weighted | evidence | missing =>
    simp only [Dialect.negatedLiteral, bind_ok_iff, pure_ok_iff] at returned
    obtain ⟨_, checked, j, kept, rfl⟩ := returned
    have may := (d.checkNegation_ok_iff _).mp checked
    exact .neg (negates.inlined _ true j holds kept) (negates.negated holds below may kept)

/-- The literal for a negated formula is a negation. -/
theorem negatedLiteral_kind (d : Dialect) (s : Sentence) (i : Inlined)
    (returned : d.negatedLiteral s = .ok i) : i.formula.kind = .neg := by
  induction s generalizing i with
  | term p args =>
    obtain rfl := Except.ok.inj returned
    rfl
  | forSome vars s ih =>
    simp only [Dialect.negatedLiteral, bind_ok_iff, pure_ok_iff] at returned
    obtain ⟨j, inner, rfl⟩ := returned
    exact ih j inner
  | var | const | neg | conj | disj | implies | iff | forAll | weighted | evidence | missing =>
    simp only [Dialect.negatedLiteral, bind_ok_iff, pure_ok_iff] at returned
    obtain ⟨_, _, j, _, rfl⟩ := returned
    rfl

theorem inlined_kind (d : Dialect) (s : Sentence) (i : Inlined)
    (either : s.kind = .disj ∨ s.kind = .implies) (returned : d.inlined s true = .ok i) :
    i.formula.kind = .disj := by
  cases s with
  | disj ss | implies a b =>
    simp only [Dialect.inlined, withPolarity, if_true, bind_ok_iff, pure_ok_iff] at returned
    grind [Sentence.kind]
  | _ => simp [Sentence.kind] at either

/-! ### What is contributed -/

/-- What a literal negates comes from the formula that contributes it. -/
theorem Contributes.negatesOnly {s l : Sentence} {positive : Bool}
    (given : d.Contributes positive s l) (negates : d.Negates Q N) (holds : Q s) :
    l.NegatesOnly N := by
  induction given with
  | term p args => exact .term p args
  | neg _ ih | forSome _ ih => exact ih (negates.inherits.child holds rfl List.mem_cons_self)
  | conj member _ ih | disj _ member _ ih => exact ih (negates.inherits.child holds rfl member)
  | fails _ _ ih | holds _ _ ih => exact ih (negates.inherits.child holds rfl (by simp [children]))
  | forward _ ih => exact ih (negates.halves holds).1
  | backward _ ih => exact ih (negates.halves holds).2
  | kept _ _ literal => exact negates.inlined _ true _ holds literal
  | negated proper literal =>
    exact negates.negatedLiteral _ _ holds (by simp [proper]) literal

/-- A literal is a term or a negation, or a disjunction that is not split. -/
theorem Contributes.kind {s l : Sentence} {positive : Bool} (given : d.Contributes positive s l) :
    l.kind = .term ∨ l.kind = .neg ∨ (l.kind = .disj ∧ d.splitDisjunctions = false) := by
  induction given with
  | term => exact .inl rfl
  | neg _ ih | conj _ _ ih | disj _ _ _ ih | fails _ _ ih | holds _ _ ih | forward _ ih
  | backward _ ih | forSome _ ih => exact ih
  | kept whole either literal => exact .inr (.inr ⟨d.inlined_kind _ _ either literal, whole⟩)
  | negated _ literal => exact .inr (.inl (d.negatedLiteral_kind _ _ literal))

/-- What a dialect takes for a literal: it is no conjunction, it is a disjunction only where these
are not split, and it negates what may be negated. -/
structure IsLiteral (d : Dialect) (l : Sentence) : Prop where
  formula : l.NegatesOnly d.MayNegate
  notConj : l.kind ≠ .conj
  whole : l.kind = .disj → d.splitDisjunctions = false

/-- Whatever contributes a literal, the dialect takes it for one. -/
theorem Contributes.isLiteral {s l : Sentence} {positive : Bool}
    (given : d.Contributes positive s l) : d.IsLiteral l := by
  refine ⟨given.negatesOnly d.negates_mayNegate trivial, ?_, ?_⟩
  all_goals rcases given.kind with kind | kind | ⟨kind, whole⟩
  all_goals simp_all

end Dialect

end Clausal
