import Clausal.Proofs.ClauseShapes
import Clausal.Target.LogicProgram

/-!
# Double negations

Two negations cancel when they meet, and so a literal has no double negation as a rule. An existential
quantifier between them keeps them apart, and is itself left out only later: the denial that
something exists of which something is denied is kept as a double negation. Nothing else is.

## Main results

`normalize_cancels_negations`: a double negation in a clause stands within a term of the sentence, or
the sentence poses such a denial. A rule under such a denial always has one.
-/

namespace Clausal

open Sentence (NegatesOnly Within Made)

namespace Sentence

/-- Whether a formula, or with `false` its negation, is kept as a negation: two negations cancel, and
an existential quantifier is left out. -/
def isDenial : Sentence → Bool → Bool
  | .neg s, positive => isDenial s (!positive)
  | .forSome _ s, true => isDenial s true
  | _, positive => !positive

/-- Whether in a formula, or with `false` in its negation, the existence of something is denied of
which something is denied. -/
inductive Redoubles : Bool → Sentence → Prop where
  | quantifier {vars : List TypedName} {s : Sentence} (denial : s.isDenial true = true) :
      Redoubles false (.forSome vars s)
  | neg {positive : Bool} {s : Sentence} (inner : Redoubles (!positive) s) :
      Redoubles positive (.neg s)
  | conj {positive : Bool} {ss : List Sentence} {s : Sentence} (member : s ∈ ss)
      (inner : Redoubles true s) : Redoubles positive (.conj ss)
  | disj {positive : Bool} {ss : List Sentence} {s : Sentence} (member : s ∈ ss)
      (inner : Redoubles true s) : Redoubles positive (.disj ss)
  | antecedent {positive : Bool} {a b : Sentence} (inner : Redoubles false a) :
      Redoubles positive (.implies a b)
  | consequent {positive : Bool} {a b : Sentence} (inner : Redoubles true b) :
      Redoubles positive (.implies a b)
  /-- A biconditional stands for two implications, so that each side counts with both polarities. -/
  | left {positive polarity : Bool} {a b : Sentence} (inner : Redoubles polarity a) :
      Redoubles positive (.iff a b)
  | right {positive polarity : Bool} {a b : Sentence} (inner : Redoubles polarity b) :
      Redoubles positive (.iff a b)
  | forSome {positive : Bool} {vars : List TypedName} {s : Sentence} (inner : Redoubles true s) :
      Redoubles positive (.forSome vars s)

/-- The negation of a formula that is no negation itself redoubles wherever the formula does, and if
it is kept as a negation. -/
theorem Redoubles.of_false {s : Sentence} (proper : s.isNeg = false)
    (doubled : Redoubles true s ∨ s.isDenial true = true) : Redoubles false s := by
  rcases doubled with inside | denial
  · cases inside with
    | neg => simp [isNeg] at proper
    | conj member inner => exact .conj member inner
    | disj member inner => exact .disj member inner
    | antecedent inner => exact .antecedent inner
    | consequent inner => exact .consequent inner
    | left inner => exact .left inner
    | right inner => exact .right inner
    | forSome inner => exact .forSome inner
  · cases s with
    | neg => simp [isNeg] at proper
    | forSome vars s => exact .quantifier denial
    | _ => simp [isDenial] at denial

/-- A double negation in a literal without any stands within a term. -/
theorem within_term_of_once {P : Text → List Sentence → Prop} {l t : Sentence}
    (once : l.NegatesOnly fun u => u.isNeg = false) (made : l.Made P)
    (double : Within (.neg (.neg t)) l) :
    ∃ p args, P p args ∧ ∃ a ∈ args, Within (.neg (.neg t)) a := by
  induction made with
  | term holds =>
    rcases (within_iff _ _).mp double with same | ⟨a, argument, inside⟩
    · cases same
    · exact ⟨_, _, holds, a, argument, inside⟩
  | neg _ ih =>
    obtain ⟨operand, proper⟩ := once.operand
    rcases (within_iff _ _).mp double with same | ⟨s, child, inside⟩
    · obtain rfl := neg.inj same
      simp [isNeg] at proper
    · obtain rfl := List.mem_singleton.mp child
      exact ih operand inside
  | conj _ ih =>
    rcases (within_iff _ _).mp double with same | ⟨s, child, inside⟩
    · cases same
    · exact ih s child (once.conjunct s child) inside
  | disj _ ih =>
    rcases (within_iff _ _).mp double with same | ⟨s, child, inside⟩
    · cases same
    · exact ih s child (once.disjunct s child) inside

end Sentence

namespace Dialect

variable {d : Dialect}

/-- What a kept formula starts with is known from the formula. -/
theorem inlined_isNeg {s : Sentence} {positive : Bool} {i : Inlined}
    (returned : d.inlined s positive = .ok i) : i.formula.isNeg = s.isDenial positive := by
  induction s generalizing positive i with
  | neg s ih =>
    rw [inlined] at returned
    exact ih returned
  | forSome vars s ih =>
    rw [inlined] at returned
    rcases withPolarity_ok _ _ _ _ _ returned with ⟨rfl, kept⟩ | ⟨rfl, j, _, rfl⟩
    · simp only [bind_ok_iff, pure_ok_iff] at kept
      obtain ⟨k, inner, rfl⟩ := kept
      have below := ih inner
      exact below
    · rfl
  | term | conj | disj | implies =>
    rw [inlined] at returned
    rcases withPolarity_ok _ _ _ _ _ returned with ⟨rfl, kept⟩ | ⟨rfl, j, _, rfl⟩
    · simp only [bind_ok_iff, pure_ok_iff, Except.ok.injEq] at kept
      grind [Sentence.isNeg, Sentence.isDenial]
    · rfl
  | var | const | iff | forAll | weighted | evidence | missing =>
    rw [inlined] at returned
    · rcases withPolarity_ok _ _ _ _ _ returned with ⟨_, kept⟩ | ⟨_, j, kept, _⟩ <;> simp at kept
    all_goals simp

/-- The literal for a negation is the negation of the formula as it is kept. -/
theorem negatedLiteral_inlined {s : Sentence} {i : Inlined} (returned : d.negatedLiteral s = .ok i) :
    ∃ j, d.inlined s true = .ok j ∧ i.formula = .neg j.formula := by
  induction s generalizing i with
  | term p args =>
    obtain rfl := Except.ok.inj returned
    exact ⟨_, rfl, rfl⟩
  | forSome vars s ih =>
    simp only [negatedLiteral, bind_ok_iff, pure_ok_iff] at returned
    obtain ⟨k, inner, rfl⟩ := returned
    obtain ⟨j, kept, formula⟩ := ih inner
    refine ⟨⟨vars ++ j.vars, j.formula⟩, ?_, formula⟩
    rw [inlined, withPolarity, if_pos rfl, kept]
    rfl
  | var | const | neg | conj | disj | implies | iff | forAll | weighted | evidence | missing =>
    simp only [negatedLiteral, bind_ok_iff, pure_ok_iff] at returned
    obtain ⟨_, _, j, kept, rfl⟩ := returned
    exact ⟨j, kept, rfl⟩

/-- A formula that is no negation itself is negated without a double negation, unless it redoubles. -/
theorem once_of_false {s : Sentence} {j : Inlined} (proper : s.isNeg = false)
    (kept : d.inlined s true = .ok j) (single : ¬ s.Redoubles false)
    (affirmed : ¬ s.Redoubles true → j.formula.NegatesOnly fun t => t.isNeg = false) :
    (Sentence.neg j.formula).NegatesOnly fun t => t.isNeg = false := by
  refine .neg (affirmed fun inside => single (.of_false proper (.inl inside))) ?_
  rw [inlined_isNeg kept, Bool.eq_false_iff]
  exact fun denial => single (.of_false proper (.inr denial))

/-- A formula that is no negation is inlined without a double one in either polarity, if it is in
the positive one. -/
theorem once_of_positive {s : Sentence} {positive : Bool} {i : Inlined} (proper : s.isNeg = false)
    (single : ¬ s.Redoubles positive) (returned : d.inlined s positive = .ok i)
    (affirmed : ∀ j, d.inlined s true = .ok j → ¬ s.Redoubles true →
      j.formula.NegatesOnly fun t => t.isNeg = false) :
    i.formula.NegatesOnly fun t => t.isNeg = false := by
  cases positive with
  | true => exact affirmed i returned single
  | false =>
    simp only [d.inlined_false s proper, bind_ok_iff, pure_ok_iff] at returned
    obtain ⟨_, _, j, kept, rfl⟩ := returned
    exact once_of_false proper kept single (affirmed j kept)

/-- A formula that does not redouble a negation is inlined without a double one. -/
theorem inlined_once {s : Sentence} {positive : Bool} {i : Inlined} (single : ¬ s.Redoubles positive)
    (returned : d.inlined s positive = .ok i) :
    i.formula.NegatesOnly fun t => t.isNeg = false := by
  induction s generalizing positive i with
  | neg s ih =>
    rw [inlined] at returned
    exact ih (fun inside => single (.neg inside)) returned
  | term p args =>
    refine once_of_positive rfl single returned fun j kept _ => ?_
    obtain rfl := Except.ok.inj kept
    exact .term p args
  | conj ss ih =>
    refine once_of_positive rfl single returned fun j kept single => ?_
    simp only [inlined, withPolarity, if_true, bind_ok_iff, pure_ok_iff] at kept
    obtain ⟨⟨vars, parts⟩, all, rfl⟩ := kept
    exact .conj (inlinedAll_each (fun s member i =>
      ih s member fun inside => single (.conj member inside)) all)
  | disj ss ih =>
    refine once_of_positive rfl single returned fun j kept single => ?_
    simp only [inlined, withPolarity, if_true, bind_ok_iff, pure_ok_iff] at kept
    obtain ⟨⟨vars, parts⟩, all, rfl⟩ := kept
    exact .disj (inlinedAll_each (fun s member i =>
      ih s member fun inside => single (.disj member inside)) all)
  | implies a b left right =>
    refine once_of_positive rfl single returned fun j kept single => ?_
    simp only [inlined, withPolarity, if_true, bind_ok_iff, pure_ok_iff] at kept
    obtain ⟨_, _, x, fails, y, yields, rfl⟩ := kept
    have first := left (fun inside => single (.antecedent inside)) fails
    have second := right (fun inside => single (.consequent inside)) yields
    exact .disj (by simpa using ⟨first, second⟩)
  | forSome vars s ih =>
    refine once_of_positive rfl single returned fun j kept single => ?_
    simp only [inlined, withPolarity, if_true, bind_ok_iff, pure_ok_iff] at kept
    obtain ⟨k, inner, rfl⟩ := kept
    have body := ih (fun inside => single (.forSome inside)) inner
    exact body
  | var | const | iff | forAll | weighted | evidence | missing =>
    refine once_of_positive rfl single returned fun j kept _ => ?_
    simp [inlined, withPolarity] at kept

/-- A formula contributes no double negation unless it redoubles. -/
theorem Contributes.once {s l : Sentence} {positive : Bool} (given : d.Contributes positive s l)
    (single : ¬ s.Redoubles positive) : l.NegatesOnly fun t => t.isNeg = false := by
  induction given with
  | term p args => exact .term p args
  | neg _ ih => exact ih fun inside => single (.neg inside)
  | conj member _ ih => exact ih fun inside => single (.conj member inside)
  | disj _ member _ ih => exact ih fun inside => single (.disj member inside)
  | fails _ _ ih => exact ih fun inside => single (.antecedent inside)
  | holds _ _ ih => exact ih fun inside => single (.consequent inside)
  | forward _ ih =>
    refine ih fun inside => single ?_
    cases inside with
    | antecedent inner => exact .left inner
    | consequent inner => exact .right inner
  | backward _ ih =>
    refine ih fun inside => single ?_
    cases inside with
    | antecedent inner => exact .right inner
    | consequent inner => exact .left inner
  | forSome _ ih => exact ih fun inside => single (.forSome inside)
  | kept _ _ literal => exact inlined_once single literal
  | negated proper literal =>
    obtain ⟨j, kept, formula⟩ := negatedLiteral_inlined literal
    rw [formula]
    exact once_of_false proper kept single fun inside => inlined_once inside kept

/-- A dialect that negates only terms has no double negation in any literal. -/
theorem IsLiteral.once {l : Sentence} (literal : d.IsLiteral l)
    (simple : d.allowCompoundNegation = false) : l.NegatesOnly fun t => t.isNeg = false := by
  refine literal.formula.mono fun t may => ?_
  cases t with
  | neg => simp [MayNegate, Sentence.isTerm, simple] at may
  | _ => rfl

/-- The denied existence of a denial is one literal with a double negation. -/
theorem bodies_redoubled {vars : List TypedName} {s : Sentence} {b : Bodies}
    (denial : s.isDenial true = true) (returned : d.bodies (.neg (.forSome vars s)) true = .ok b) :
    ∃ t, b.alternatives = [[.neg (.neg t)]] := by
  simp only [bodies, Bool.not_true, bind_ok_iff, pure_ok_iff] at returned
  obtain ⟨i, literal, rfl⟩ := returned
  obtain ⟨j, kept, formula⟩ := negatedLiteral_inlined literal
  have isNeg : j.formula.isNeg = true := (inlined_isNeg kept).trans denial
  cases inner : j.formula with
  | neg t => exact ⟨t, by simp [Bodies.literal, formula, inner]⟩
  | _ => simp [inner, Sentence.isNeg] at isNeg

/-- A rule under the denied existence of a denial has a double negation in its body. -/
theorem Gives.redoubled {vars : List TypedName} {names : List Text} {s h : Sentence} {c : Setting}
    {clause : Clause} (given : d.Gives names (.implies (.neg (.forSome vars s)) h) c clause)
    (denial : s.isDenial true = true) : ∃ t, .neg (.neg t) ∈ clause.body := by
  cases given with
  | denied found => simp [Sentence.denied?] at found
  | part member expanded inside same _ _ inner =>
    obtain rfl := List.mem_singleton.mp member
    rw [conjunction_singleton] at expanded
    obtain ⟨t, alternatives⟩ := bodies_redoubled denial expanded
    rw [alternatives, List.mem_singleton] at inside
    exact ⟨t, inner.conditions_subset (by simp [same, inside])⟩

/-- A double negation in a body stands within a term of the sentence, or else the dialect negates
compound formulas and the sentence poses a formula in which the existence of something is denied of
which something is denied. Wherever a rule has such a denial as its condition, its body has a double
negation. -/
theorem normalize_cancels_negations (d : Dialect) (r : Option Registry) :
    (∀ s, ∀ c ∈ (d.normalize r s).clauses, ∀ l ∈ c.body, ∀ t, Within (.neg (.neg t)) l →
      (∃ p args, Within (.term p args) s ∧ ∃ a ∈ args, Within (.neg (.neg t)) a) ∨
        (d.allowCompoundNegation = true ∧ ∃ a : Sentence, a.PosedBy s ∧ a.Redoubles true)) ∧
    ∀ vars s h, s.isDenial true = true →
      ∀ c ∈ (d.normalize r (.implies (.neg (.forSome vars s)) h)).clauses,
        ∃ t, .neg (.neg t) ∈ c.body := by
  constructor
  · intro s c member l inBody t double
    have permitted := d.normalize_permittedBy r member
    obtain ⟨given, vars, _, gives, rfl, -⟩ := d.gives_of_mem_normalize r s c member
    have made := gives.body_made (P := fun p args => Within (.term p args) s)
      (by rintro t inside p args rfl; exact inside) (by simp [Setting.outermost]) l inBody
    by_cases compound : d.allowCompoundNegation = true
    · by_cases posed : ∃ a : Sentence, a.PosedBy s ∧ a.Redoubles true
      · exact .inr ⟨compound, posed⟩
      · rcases gives.posed l inBody with condition | ⟨a, isPosed, contributed⟩
        · simp [Setting.outermost] at condition
        · have once := contributed.once fun redoubles => posed ⟨a, isPosed, redoubles⟩
          exact .inl (Sentence.within_term_of_once once made double)
    · have once := (permitted.body l inBody).once (by simpa using compound)
      exact .inl (Sentence.within_term_of_once once made double)
  · intro vars s h denial c member
    obtain ⟨given, _, _, gives, rfl, -⟩ := d.gives_of_mem_normalize r _ c member
    exact gives.redoubled denial

/-- The shop opens if there is nothing that is not in stock. -/
private def opening : Sentence :=
  .implies (.neg (.forSome [⟨"y", []⟩] (.neg (.term "stocked" [.var "y" []])))) (.term "open" [])

private theorem normalize_opening :
    ∃ c, (LogicProgram.prolog.dialect.normalize none opening).clauses = [c] ∧
      c.body = [.neg (.neg (.term "stocked" [.var "y" []]))] :=
  ⟨_, rfl, rfl⟩

theorem normalize_cancels_negations_opening :
    (∃ c ∈ (LogicProgram.prolog.dialect.normalize none opening).clauses, ∃ l ∈ c.body, ∃ t,
      Within (.neg (.neg t)) l ∧
        ((∃ p args, Within (.term p args) opening ∧ ∃ a ∈ args, Within (.neg (.neg t)) a) ∨
          (LogicProgram.prolog.dialect.allowCompoundNegation = true ∧
            ∃ a : Sentence, a.PosedBy opening ∧ a.Redoubles true))) ∧
    (Sentence.neg (.term "stocked" [.var "y" []])).isDenial true = true ∧
      ∃ c ∈ (LogicProgram.prolog.dialect.normalize none opening).clauses,
        ∃ t, .neg (.neg t) ∈ c.body := by
  obtain ⟨origin, kept⟩ := normalize_cancels_negations LogicProgram.prolog.dialect none
  obtain ⟨c, clauses, body⟩ := normalize_opening
  have member : c ∈ (LogicProgram.prolog.dialect.normalize none opening).clauses := by
    simp [clauses]
  have inBody : .neg (.neg (.term "stocked" [.var "y" []])) ∈ c.body := by simp [body]
  exact ⟨⟨c, member, _, inBody, _, .refl, origin opening c member _ inBody _ .refl⟩,
    rfl, c, member, kept _ _ _ rfl c member⟩

/-- The denial of a denial is left over where a quantifier stood between the two. -/
theorem normalize_keeps_double_negation :
    ∃ c ∈ (LogicProgram.prolog.dialect.normalize none opening).clauses,
      .neg (.neg (.term "stocked" [.var "y" []])) ∈ c.body := by
  obtain ⟨c, clauses, body⟩ := normalize_opening
  exact ⟨c, by simp [clauses], by simp [body]⟩

end Dialect

end Clausal
