import Clausal.Proofs.Negations
import Clausal.Proofs.SouffleAccounting

/-!
# Clauses keep to the permissions of their dialect

A dialect forbids constraints, weights, inline disjunctions or the negation of compound formulas,
and no clause of a sentence has what is forbidden. For Datalog this leaves rules of terms and
negated terms, so that a clause is never refused for its shape once it has been found.
-/

namespace Clausal

open Sentence (Hereditary)

/-- Whether a clause keeps to what a dialect permits. -/
structure Clause.PermittedBy (c : Clause) (d : Dialect) : Prop where
  head : ∀ h, c.head = some h → h.isTerm = true
  constraint : c.head = none → d.allowConstraints = true ∧ c.body ≠ []
  weight : c.weight ≠ none → d.allowWeights = true
  body : ∀ l ∈ c.body, d.IsLiteral l

namespace Dialect

variable {d : Dialect} {names : List Text} {s : Sentence} {c : Setting} {clause : Clause}

/-- Constraints come up only where the dialect has them, and never with an empty body. -/
theorem Gives.constraint (given : d.Gives names s c clause) (headless : clause.head = none) :
    d.allowConstraints = true ∧ clause.body ≠ [] := by
  induction given with
  | fact => simp [Setting.clause] at headless
  | denied _ _ _ nonempty allowed => exact ⟨allowed, nonempty⟩
  | part _ _ _ _ _ _ _ ih => exact ih headless

/-- A weight is that of the setting or of a sentence on the way to the clause. -/
theorem Gives.weight {Q : Sentence → Prop} {P : Binary64 → Prop} (given : d.Gives names s c clause)
    (inherits : Hereditary Q) (holds : Q s)
    (weights : ∀ w t, Q (.weighted w t) → d.allowWeights = true → P w)
    (before : ∀ w, c.weight = some w → P w) (w : Binary64) (found : clause.weight = some w) :
    P w := by
  induction given with
  | fact | denied => exact before w found
  | @part s c part b body inner clause _ member _ _ _ weight allowed _ ih =>
    refine ih (inherits.parts holds _ member).2 (fun v equal => ?_) found
    rw [weight] at equal
    cases s with
    | weighted u t =>
      obtain rfl := Option.some.inj equal
      exact weights u t holds (allowed rfl)
    | _ => exact before v equal

/-- What a derivation gives keeps to the dialect, by induction on the derivation. -/
theorem Gives.permittedBy (given : d.Gives names s .outermost clause) : clause.PermittedBy d where
  head h found := by
    obtain ⟨p, args, rfl, -⟩ :=
      given.head_term (Sentence.terms_of_forall (fun _ _ => trivial) s) h found
    rfl
  constraint := given.constraint
  weight weighted := by
    obtain ⟨w, found⟩ := Option.ne_none_iff_exists'.mp weighted
    exact given.weight .trivial trivial (fun _ _ _ allowed => allowed)
      (fun _ outside => by simp [Setting.outermost] at outside) w found
  body := given.each_literal Hereditary.trivial.passesOn
    (fun _ _ _ contributed => contributed.isLiteral) trivial (by simp [Setting.outermost])

theorem normalize_permittedBy (d : Dialect) (r : Option Registry)
    (member : clause ∈ (d.normalize r s).clauses) :
    clause.PermittedBy d := by
  obtain ⟨given, vars, _, gives, rfl, -⟩ := d.gives_of_mem_normalize r s clause member
  have permitted := gives.permittedBy
  -- The variables of the clause are no concern of the permissions.
  exact ⟨permitted.head, permitted.constraint, permitted.weight, permitted.body⟩

end Dialect

namespace Souffle

/-- What Datalog takes for a literal is a term or a negated term. -/
theorem exists_of_isLiteral {l : Sentence} (literal : dialect.IsLiteral l) :
    ∃ p args, l = .term p args ∨ l = .neg (.term p args) := by
  cases literal.formula with
  | term p args => exact ⟨p, args, .inl rfl⟩
  | @neg s _ may =>
    cases s with
    | term p args => exact ⟨p, args, .inr rfl⟩
    | _ => simp [Dialect.MayNegate, dialect, Sentence.isTerm] at may
  | conj => exact absurd rfl literal.notConj
  | disj => exact absurd (literal.whole rfl) (by simp [dialect])

/-- Whether a formula is made of terms with arguments that can be written. -/
def Presentable : Sentence → Prop := Sentence.Made fun p args => (Sentence.term p args).Regular

theorem literal_returns {l : Sentence} (literal : dialect.IsLiteral l)
    (presentable : Presentable l) : Refuses (fun _ => False) (Souffle.literal l) := by
  obtain ⟨p, args, rfl | rfl⟩ := exists_of_isLiteral literal
  · cases presentable with
    | term regular => exact atom_returns regular
  · cases Sentence.made_neg.mp presentable with
    | term regular => exact negatedAtom_returns regular

/-- A clause that keeps to the permissions is not refused. -/
theorem clause_returns {c : Clause} (permitted : c.PermittedBy dialect)
    (head : ∀ h, c.head = some h → Presentable h) (body : ∀ l ∈ c.body, Presentable l) :
    Refuses (fun _ => False) (clause c) := by
  unfold clause
  split
  next w _ weighted => exact absurd (permitted.weight (by simp [weighted])) (by simp [dialect])
  next headless => exact absurd (permitted.constraint headless).1 (by simp [dialect])
  next h _ found =>
    have isTerm := permitted.head h found
    have literal : dialect.IsLiteral h := by
      cases h with
      | term p args => exact ⟨.term p args, by simp [Sentence.kind], by simp [Sentence.kind]⟩
      | _ => simp [Sentence.isTerm] at isTerm
    exact (literal_returns literal (head h found)).bind fun _ =>
      (Refuses.mapM _ fun l member => literal_returns (permitted.body l member) (body l member)).map

/-- Normalization makes heads and literals from the terms of the sentence only. -/
theorem normalize_presentable {d : Dialect} {s : Sentence} {c : Clause} (r : Option Registry)
    (regular : s.Regular) (member : c ∈ (d.normalize r s).clauses) :
    (∀ h, c.head = some h → Presentable h) ∧ ∀ l ∈ c.body, Presentable l := by
  obtain ⟨given, vars, _, gives, rfl, -⟩ := d.gives_of_mem_normalize r s c member
  refine ⟨fun h found => ?_, gives.body_made regular.terms (by simp [Setting.outermost])⟩
  obtain ⟨p, args, rfl, arguments⟩ := gives.head_term regular.terms h found
  exact .term arguments

end Souffle

/-- Every clause of a sentence keeps to the permissions of its dialect. Under those of Datalog its
body has terms and negated terms only, and the clause is written unless an argument of a term is a
formula. -/
theorem normalize_permitted :
    (∀ (d : Dialect) (r : Option Registry) (s : Sentence),
      ∀ c ∈ (d.normalize r s).clauses, c.PermittedBy d) ∧
    ∀ (r : Option Registry) (s : Sentence), ∀ c ∈ (Souffle.dialect.normalize r s).clauses,
      (∀ l ∈ c.body, ∃ p args, l = .term p args ∨ l = .neg (.term p args)) ∧
        (s.Regular → ∃ text, Souffle.clause c = .ok text) := by
  refine ⟨fun d r s c member => d.normalize_permittedBy r member, fun r s c member => ?_⟩
  have permitted := Souffle.dialect.normalize_permittedBy r member
  refine ⟨fun l inBody => Souffle.exists_of_isLiteral (permitted.body l inBody), fun regular => ?_⟩
  obtain ⟨head, body⟩ := Souffle.normalize_presentable r regular member
  exact (Souffle.clause_returns permitted head body).returns

/-- What is in stock is offered if it is new or not sold out. -/
private def offer : Sentence :=
  let x : Sentence := .var "x" []
  .forAll [⟨"x", []⟩] (.implies
    (.conj [.term "stock" [x], .disj [.term "new" [x], .neg (.term "eq" [x, .const (.int 0)])]])
    (.term "offer" [x]))

private theorem offer_regular : offer.Regular := .of_isExpressible false (by decide)

/-- Under a weight: nothing is in stock without being both new and unsold. -/
private def guarantee : Sentence :=
  .weighted ⟨0x3FE0000000000000⟩
    (.neg (.conj [.term "stock" [], .neg (.conj [.term "new" [], .neg (.term "sold" [])])]))

theorem normalize_permitted_offer :
    (Souffle.dialect.normalize none offer).clauses.length = 2 ∧ offer.Regular ∧
      (∀ c ∈ (Souffle.dialect.normalize none offer).clauses, ∃ text, Souffle.clause c = .ok text) ∧
      (Dialect.normalize ⟨false, true, true, true⟩ none guarantee).clauses.length = 1 ∧
      ∀ c ∈ (Dialect.normalize ⟨false, true, true, true⟩ none guarantee).clauses,
        c.PermittedBy ⟨false, true, true, true⟩ :=
  ⟨by decide, offer_regular,
    fun c member => (normalize_permitted.2 none offer c member).2 offer_regular,
    by decide, normalize_permitted.1 _ none guarantee⟩

end Clausal
