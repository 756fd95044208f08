import Clausal.Proofs.Contribution

/-!
# What clauses are made of

The literals of a body are made by negation, conjunction and disjunction from terms of the sentence,
and the head of a clause is such a term. So whatever holds of all terms in a sentence holds of all
terms that its clauses are made of.
-/

namespace Clausal

namespace Sentence

/-- Formulas made by negation, conjunction and disjunction from terms with a property. -/
inductive Made (P : Text → List Sentence → Prop) : Sentence → Prop where
  | term {p : Text} {args : List Sentence} (holds : P p args) : Made P (.term p args)
  | neg {s : Sentence} (operand : Made P s) : Made P (.neg s)
  | conj {ss : List Sentence} (each : ∀ s ∈ ss, Made P s) : Made P (.conj ss)
  | disj {ss : List Sentence} (each : ∀ s ∈ ss, Made P s) : Made P (.disj ss)

/-- Whether all terms in a sentence have a property. -/
def Terms (P : Text → List Sentence → Prop) : Sentence → Prop :=
  Everywhere fun t => ∀ p args, t = .term p args → P p args

variable {P : Text → List Sentence → Prop} {s : Sentence}

theorem made_neg : Made P (.neg s) ↔ Made P s := by
  refine ⟨fun made => ?_, .neg⟩
  cases made with
  | neg operand => exact operand

theorem made_conj {ss : List Sentence} : Made P (.conj ss) ↔ ∀ s ∈ ss, Made P s := by
  refine ⟨fun made => ?_, .conj⟩
  cases made with
  | conj each => exact each

theorem made_disj {ss : List Sentence} : Made P (.disj ss) ↔ ∀ s ∈ ss, Made P s := by
  refine ⟨fun made => ?_, .disj⟩
  cases made with
  | disj each => exact each

theorem Terms.child (terms : Terms P s) {c : Sentence} (child : c ∈ s.children) : Terms P c :=
  ((everywhere_iff _ s).mp terms).2 c child

theorem Terms.term {p : Text} {args : List Sentence} (terms : Terms P (.term p args)) : P p args :=
  ((everywhere_iff _ _).mp terms).1 p args rfl

/-- Of a compound sentence, the terms are those of its operands. -/
theorem terms_compound (compound : s.isTerm = false) (each : ∀ c ∈ s.children, Terms P c) :
    Terms P s := by
  refine (everywhere_iff _ s).mpr ⟨fun p args equal => ?_, each⟩
  simp [equal, isTerm] at compound

theorem Terms.implies {a b : Sentence} (first : Terms P a) (second : Terms P b) :
    Terms P (.implies a b) :=
  terms_compound rfl (by simpa [children] using ⟨first, second⟩)

theorem terms_hereditary : Hereditary (Terms P) where
  child terms _ child := terms.child child
  negation terms := terms_compound rfl (List.forall_mem_singleton.mpr terms)
  conj each := terms_compound rfl each

theorem terms_of_forall (holds : ∀ p args, P p args) (s : Sentence) : Terms P s :=
  fun _ _ p args _ => holds p args

end Sentence

open Sentence (Made Terms terms_hereditary children)

/-- Whether all literals of some alternative bodies are made of terms with a property. -/
def Bodies.Made (P : Text → List Sentence → Prop) (b : Bodies) : Prop :=
  ∀ body ∈ b.alternatives, ∀ l ∈ body, l.Made P

namespace Dialect

variable {d : Dialect} {P : Text → List Sentence → Prop}

/-! ### Literals -/

/-- A polarity is given to a formula either by leaving it or by negating it. -/
theorem withPolarity_ok (d : Dialect) (s : Sentence) (positive : Bool)
    (inner : Except Error Inlined) (i : Inlined)
    (returned : d.withPolarity s positive inner = .ok i) :
    (positive = true ∧ inner = .ok i) ∨
      (positive = false ∧ ∃ j, inner = .ok j ∧ i = ⟨j.vars, .neg j.formula⟩) := by
  cases positive with
  | true => exact .inl ⟨rfl, by simpa [withPolarity] using returned⟩
  | false =>
    simp only [withPolarity, Bool.false_eq_true, if_false, bind_ok_iff, pure_ok_iff] at returned
    obtain ⟨_, _, j, kept, equal⟩ := returned
    exact .inr ⟨rfl, j, kept, equal.symm⟩

theorem made_withPolarity {s : Sentence} {positive : Bool} {inner : Except Error Inlined}
    {i : Inlined} (returned : d.withPolarity s positive inner = .ok i)
    (made : ∀ j, inner = .ok j → j.formula.Made P) : i.formula.Made P := by
  rcases withPolarity_ok d s positive inner i returned with ⟨_, kept⟩ | ⟨_, j, kept, rfl⟩
  · exact made i kept
  · exact .neg (made j kept)

/-- Inlining brings in no new terms. -/
theorem inlined_made {s : Sentence} {positive : Bool} {i : Inlined} (terms : s.Terms P)
    (returned : d.inlined s positive = .ok i) : i.formula.Made P := by
  induction s generalizing positive i with
  | neg s ih =>
    rw [inlined] at returned
    exact ih (terms.child List.mem_cons_self) returned
  | term p args =>
    rw [inlined] at returned
    refine made_withPolarity returned fun j kept => ?_
    obtain rfl := Except.ok.inj kept
    exact .term terms.term
  | conj ss ih =>
    rw [inlined] at returned
    refine made_withPolarity returned fun j kept => ?_
    simp only [bind_ok_iff, pure_ok_iff] at kept
    obtain ⟨⟨vars, parts⟩, all, rfl⟩ := kept
    exact .conj (inlinedAll_each (fun s member i => ih s member (terms.child member)) all)
  | disj ss ih =>
    rw [inlined] at returned
    refine made_withPolarity returned fun j kept => ?_
    simp only [bind_ok_iff, pure_ok_iff] at kept
    obtain ⟨⟨vars, parts⟩, all, rfl⟩ := kept
    exact .disj (inlinedAll_each (fun s member i => ih s member (terms.child member)) all)
  | implies a b left right =>
    rw [inlined] at returned
    refine made_withPolarity returned fun j kept => ?_
    simp only [bind_ok_iff, pure_ok_iff] at kept
    obtain ⟨_, _, x, fails, y, holds, rfl⟩ := kept
    have first := left (terms.child (by simp [children])) fails
    have second := right (terms.child (by simp [children])) holds
    exact .disj (by simpa using ⟨first, second⟩)
  | forSome vars s ih =>
    rw [inlined] at returned
    refine made_withPolarity returned fun j kept => ?_
    simp only [bind_ok_iff, pure_ok_iff] at kept
    obtain ⟨k, inner, rfl⟩ := kept
    -- The quantifier is dropped and its variables are recorded, the formula stays.
    have body : k.formula.Made P := ih (terms.child List.mem_cons_self) inner
    exact body
  | var | const | iff | forAll | weighted | evidence | missing =>
    rw [inlined] at returned
    · exact made_withPolarity returned fun j kept => by simp at kept
    all_goals simp

theorem negatedLiteral_made {s : Sentence} {i : Inlined} (terms : s.Terms P)
    (returned : d.negatedLiteral s = .ok i) : i.formula.Made P := by
  induction s generalizing i with
  | term p args =>
    obtain rfl := Except.ok.inj returned
    exact .neg (.term terms.term)
  | forSome vars s ih =>
    simp only [negatedLiteral, bind_ok_iff, pure_ok_iff] at returned
    obtain ⟨j, inner, rfl⟩ := returned
    -- A quantifier is dropped before the negation is applied.
    have body : j.formula.Made P := ih (terms.child List.mem_cons_self) inner
    exact body
  | var | const | neg | conj | disj | implies | iff | forAll | weighted | evidence | missing =>
    simp only [negatedLiteral, bind_ok_iff, pure_ok_iff] at returned
    obtain ⟨_, _, j, kept, rfl⟩ := returned
    exact .neg (inlined_made terms kept)

/-! ### Bodies -/

/-- The terms of a literal come from the formula that contributes it. -/
theorem Contributes.made {s l : Sentence} {positive : Bool} (given : d.Contributes positive s l)
    (terms : s.Terms P) : l.Made P := by
  induction given with
  | term p args => exact .term terms.term
  | neg _ ih | forSome _ ih => exact ih (terms.child List.mem_cons_self)
  | conj member _ ih | disj _ member _ ih => exact ih (terms.child member)
  | fails _ _ ih => exact ih (terms.child (by simp [children]))
  | holds _ _ ih => exact ih (terms.child (by simp [children]))
  -- The implications are not children of the biconditional, but have the same terms.
  | forward _ ih =>
    exact ih ((terms.child (by simp [children])).implies (terms.child (by simp [children])))
  | backward _ ih =>
    exact ih ((terms.child (by simp [children])).implies (terms.child (by simp [children])))
  | kept _ _ literal => exact inlined_made terms literal
  | negated _ literal => exact negatedLiteral_made terms literal

theorem bodies_made {s : Sentence} {positive : Bool} {b : Bodies} (terms : s.Terms P)
    (returned : d.bodies s positive = .ok b) : b.Made P :=
  (bodies_contributes returned).mono fun _ given => given.made terms

theorem conjunction_made {ss : List Sentence} {b : Bodies} (terms : ∀ s ∈ ss, s.Terms P)
    (returned : d.conjunction .unit ss = .ok b) : b.Made P :=
  (conjunction_contributes returned).mono fun _ ⟨s, member, given⟩ => given.made (terms s member)

/-! ### Clauses -/

variable {names : List Text} {s : Sentence} {c : Setting} {clause : Clause}

/-- The head of a clause is a term of the sentence. -/
theorem Gives.head_term (given : d.Gives names s c clause) (terms : s.Terms P) (h : Sentence)
    (found : clause.head = some h) : ∃ p args, h = .term p args ∧ P p args := by
  induction given with
  | fact p args c =>
    obtain rfl := Option.some.inj found
    exact ⟨p, args, rfl, terms.term⟩
  | denied => simp [Setting.clause] at found
  | part member _ _ _ _ _ _ ih => exact ih (terms_hereditary.parts terms _ member).2 found

/-- The body of a clause is made of terms of the sentence and of its conditions. -/
theorem Gives.body_made (given : d.Gives names s c clause) (terms : s.Terms P)
    (conditions : ∀ l ∈ c.conditions, l.Made P) : ∀ l ∈ clause.body, l.Made P :=
  given.each_literal terms_hereditary.passesOn (fun _ _ terms given => given.made terms) terms conditions

end Dialect

end Clausal
