import Clausal.Proofs.Formulas
import Clausal.Proofs.Interpretation

/-!
# The meaning of literals

A formula that is kept as one literal loses its quantifiers: their variables become variables of the
clause. Without quantifiers the literal means the same as the formula. With them it still implies
the formula, or follows from it, as long as its terms do not depend on a variable that was bound by
a quantifier of the wrong polarity.
-/

namespace Clausal

universe u

namespace Sentence

/-- Sentences built from terms by connectives only. -/
inductive Propositional : Sentence → Prop
  | term (p : Text) (args : List Sentence) : Propositional (.term p args)
  | neg {s : Sentence} : Propositional s → Propositional (.neg s)
  | conj {ss : List Sentence} : (∀ s ∈ ss, Propositional s) → Propositional (.conj ss)
  | disj {ss : List Sentence} : (∀ s ∈ ss, Propositional s) → Propositional (.disj ss)
  | implies {a b : Sentence} : Propositional a → Propositional b → Propositional (.implies a b)
  | iff {a b : Sentence} : Propositional a → Propositional b → Propositional (.iff a b)

/-- Connectives assert no existence. -/
theorem Propositional.asserted_eq_nil {s : Sentence} (plain : Propositional s) (positive : Bool) :
    asserted positive s = [] := by
  induction plain generalizing positive with
  | term => simp [asserted]
  | neg _ ih => simp [asserted, ih]
  | conj _ ih | disj _ ih =>
    rw [asserted, List.eq_nil_iff_forall_not_mem]
    intro x found
    obtain ⟨s, member, found⟩ := (mem_assertedAll positive x _).mp found
    simp [ih s member] at found
  | implies _ _ left right | iff _ _ left right => simp [asserted, left, right]

theorem assertedAll_subset_nil {ss : List Sentence} (plain : ∀ s ∈ ss, Propositional s)
    {positive : Bool} : assertedAll positive ss ⊆ [] := by
  intro x found
  obtain ⟨s, member, found⟩ := (mem_assertedAll positive x ss).mp found
  simp [(plain s member).asserted_eq_nil] at found

/-- Whether a sentence has none of some variables free. -/
def Avoids (names : List Text) (s : Sentence) : Prop := ∀ x ∈ s.freeVars, x ∉ names

theorem avoids_nil (s : Sentence) : s.Avoids [] := fun _ _ => List.not_mem_nil

theorem avoids_neg (names : List Text) (s : Sentence) :
    (Sentence.neg s).Avoids names ↔ s.Avoids names := by
  simp only [Avoids, mem_freeVars, freeIn]

theorem avoids_conj (names : List Text) (ss : List Sentence) :
    (Sentence.conj ss).Avoids names ↔ ∀ s ∈ ss, s.Avoids names := by
  simp only [Avoids, mem_freeVars, freeIn, mem_freeInAll]
  constructor
  · intro all s member x found
    exact all x ⟨s, member, found⟩
  · rintro all x ⟨s, member, found⟩
    exact all s member x found

theorem avoids_disj (names : List Text) (ss : List Sentence) :
    (Sentence.disj ss).Avoids names ↔ ∀ s ∈ ss, s.Avoids names := avoids_conj names ss

end Sentence

namespace Interpretation

variable (I : Interpretation.{u})

/-- Truth of a sentence, or falsehood if the polarity is `false`. -/
def HoldsAs (p : I.Point) (positive : Bool) (s : Sentence) : Prop :=
  if positive then I.Holds p s else ¬ I.Holds p s

@[simp] theorem holdsAs_true (p : I.Point) (s : Sentence) : I.HoldsAs p true s ↔ I.Holds p s := by
  simp [HoldsAs]

@[simp] theorem holdsAs_false (p : I.Point) (s : Sentence) :
    I.HoldsAs p false s ↔ ¬ I.Holds p s := by
  simp [HoldsAs]

@[simp] theorem holdsAs_neg (p : I.Point) (positive : Bool) (s : Sentence) :
    I.HoldsAs p positive (.neg s) ↔ I.HoldsAs p (!positive) s := by
  cases positive <;> simp [Holds]

/-- Whether a term has the same truth value at all points that agree but for some variables. -/
def Steady (names : List Text) (predicate : Text) (args : List Sentence) : Prop :=
  ∀ p q, I.agree names p q → (I.atom p predicate args ↔ I.atom q predicate args)

theorem steady_nil (predicate : Text) (args : List Sentence) : I.Steady [] predicate args :=
  fun p q agree => I.atom_agree [] p q predicate args agree fun _ _ => List.not_mem_nil

/-- A literal that avoids some variables does not depend on them. -/
theorem steady_of_avoids {names : List Text} {P : Text → List Sentence → Prop} {literal : Sentence}
    (made : literal.Made P) (clear : literal.Avoids names) : literal.Made (I.Steady names) := by
  induction made with
  | term =>
    refine .term fun p q agree => I.atom_agree names p q _ _ agree fun x found => ?_
    exact clear x ((Sentence.mem_freeVars x _).mpr found)
  | neg _ ih => exact .neg (ih ((Sentence.avoids_neg names _).mp clear))
  | conj _ ih =>
    exact .conj fun s member => ih s member ((Sentence.avoids_conj names _).mp clear s member)
  | disj _ ih =>
    exact .disj fun s member => ih s member ((Sentence.avoids_disj names _).mp clear s member)

/-- A literal made of steady terms is steady. -/
theorem holds_steady {names : List Text} {p q : I.Point} {s : Sentence}
    (steady : s.Made (I.Steady names)) (agree : I.agree names p q) :
    I.Holds p s ↔ I.Holds q s := by
  induction steady with
  | term steady => exact steady p q agree
  | neg _ ih => simp only [Holds, ih]
  | conj _ ih =>
    simp only [holds_conj]
    exact forall₂_congr ih
  | disj _ ih =>
    simp only [holds_disj]
    exact exists_congr fun s => and_congr_right (ih s)

/-- What a literal has to do with the formula, or the negated formula, in whose place it stands. The
literal implies the formula if it does not depend on the variables asserted by the negated formula,
and follows from it if it does not depend on those asserted by the formula itself. -/
structure Renders (names : List Text) (positive : Bool) (s literal : Sentence) : Prop where
  sound : s.asserted (!positive) ⊆ names → literal.Made (I.Steady names) →
    ∀ p, I.Holds p literal → I.HoldsAs p positive s
  complete : s.asserted positive ⊆ names → literal.Made (I.Steady names) →
    ∀ p, I.HoldsAs p positive s → I.Holds p literal

variable {I} {names : List Text}

namespace Renders

/-- A negation is rendered by whatever renders its operand in the other polarity. -/
theorem neg {positive : Bool} {s literal : Sentence} (given : I.Renders names (!positive) s literal) :
    I.Renders names positive (.neg s) literal where
  sound included steady p holds := by
    rw [holdsAs_neg]
    exact given.sound included steady p holds
  complete included steady p holds := by
    rw [holdsAs_neg] at holds
    exact given.complete included steady p holds

/-- A negated literal renders the negated formula. -/
theorem negation {s literal : Sentence} (given : I.Renders names true s literal) :
    I.Renders names false s (.neg literal) where
  sound included steady p fails := by
    rw [Sentence.made_neg] at steady
    rw [holdsAs_false]
    intro holds
    exact fails (given.complete included steady p ((I.holdsAs_true p s).mpr holds))
  complete included steady p fails := by
    rw [Sentence.made_neg] at steady
    rw [holdsAs_false] at fails
    intro holds
    exact fails ((I.holdsAs_true p s).mp (given.sound included steady p holds))

theorem term (predicate : Text) (args : List Sentence) :
    I.Renders names true (.term predicate args) (.term predicate args) where
  sound _ _ p holds := (I.holdsAs_true p _).mpr holds
  complete _ _ p holds := (I.holdsAs_true p _).mp holds

/-- An existential quantifier is dropped, which costs the variables that it asserts. -/
theorem forSome {positive : Bool} {s literal : Sentence} (vars : List TypedName)
    (given : I.Renders names positive s literal) :
    I.Renders names positive (.forSome vars s) literal where
  sound included steady p holds := by
    cases positive with
    | true =>
      rw [holdsAs_true]
      exact ⟨p, I.agree_refl _ p, (I.holdsAs_true p s).mp (given.sound included steady p holds)⟩
    | false =>
      simp only [Bool.not_false, Sentence.asserted, List.append_subset] at included
      rw [holdsAs_false]
      -- The literal is steady, so it is as true at the example as here.
      rintro ⟨q, agree, found⟩
      have wider := I.agree_mono _ names p q included.1 agree
      have moved := (I.holds_steady steady wider).mp holds
      exact (I.holdsAs_false q s).mp (given.sound included.2 steady q moved) found
  complete included steady p holds := by
    cases positive with
    | true =>
      simp only [Sentence.asserted, List.append_subset] at included
      obtain ⟨q, agree, found⟩ := (I.holdsAs_true p _).mp holds
      have wider := I.agree_mono _ names p q included.1 agree
      -- The formula is true at the example, and the literal does not tell the points apart.
      rw [I.holds_steady steady wider]
      exact given.complete included.2 steady q ((I.holdsAs_true q s).mpr found)
    | false =>
      apply given.complete included steady p
      rw [holdsAs_false] at holds ⊢
      exact fun found => holds ⟨p, I.agree_refl _ p, found⟩

theorem conj_nil : I.Renders names true (.conj []) (.conj []) where
  sound _ _ p _ := by simp [holds_conj]
  complete _ _ p _ := by simp [holds_conj]

theorem conj_cons {s literal : Sentence} {ss literals : List Sentence}
    (first : I.Renders names true s literal)
    (rest : I.Renders names true (.conj ss) (.conj literals)) :
    I.Renders names true (.conj (s :: ss)) (.conj (literal :: literals)) where
  sound included steady p holds := by
    have left := first.sound
    have right := rest.sound
    simp only [Sentence.asserted, Sentence.assertedAll, List.append_subset] at included right
    simp only [Sentence.made_conj, List.forall_mem_cons] at steady right
    simp only [holdsAs_true, holds_conj, List.forall_mem_cons] at holds left right ⊢
    exact ⟨left included.1 steady.1 p holds.1, right included.2 steady.2 p holds.2⟩
  complete included steady p holds := by
    have left := first.complete
    have right := rest.complete
    simp only [Sentence.asserted, Sentence.assertedAll, List.append_subset] at included right
    simp only [Sentence.made_conj, List.forall_mem_cons] at steady right
    simp only [holdsAs_true, holds_conj, List.forall_mem_cons] at holds left right ⊢
    exact ⟨left included.1 steady.1 p holds.1, right included.2 steady.2 p holds.2⟩

theorem disj_nil : I.Renders names true (.disj []) (.disj []) where
  sound _ _ p := by simp [holds_disj]
  complete _ _ p := by simp [holds_disj]

theorem disj_cons {s literal : Sentence} {ss literals : List Sentence}
    (first : I.Renders names true s literal)
    (rest : I.Renders names true (.disj ss) (.disj literals)) :
    I.Renders names true (.disj (s :: ss)) (.disj (literal :: literals)) where
  sound included steady p holds := by
    have left := first.sound
    have right := rest.sound
    simp only [Sentence.asserted, Sentence.assertedAll, List.append_subset] at included right
    simp only [Sentence.made_disj, List.forall_mem_cons] at steady right
    simp only [holdsAs_true, holds_disj, List.mem_cons, exists_eq_or_imp] at holds left right ⊢
    exact holds.imp (left included.1 steady.1 p) (right included.2 steady.2 p)
  complete included steady p holds := by
    have left := first.complete
    have right := rest.complete
    simp only [Sentence.asserted, Sentence.assertedAll, List.append_subset] at included right
    simp only [Sentence.made_disj, List.forall_mem_cons] at steady right
    simp only [holdsAs_true, holds_disj, List.mem_cons, exists_eq_or_imp] at holds left right ⊢
    exact holds.imp (left included.1 steady.1 p) (right included.2 steady.2 p)

/-- An implication is rendered by a disjunction of its negated antecedent and its consequent. -/
theorem implies {a b x y : Sentence} (left : I.Renders names false a x)
    (right : I.Renders names true b y) : I.Renders names true (.implies a b) (.disj [x, y]) := by
  -- An implication is kept as the disjunction of its negated premise and its conclusion.
  have either : I.Renders names true (.disj [.neg a, b]) (.disj [x, y]) :=
    disj_cons (neg left) (disj_cons right disj_nil)
  have same (p : I.Point) : I.Holds p (.disj [.neg a, b]) ↔ I.Holds p (.implies a b) := by
    simp only [Holds, HoldsSome, or_false]
    exact imp_iff_not_or.symm
  have asserts (positive : Bool) : (Sentence.disj [.neg a, b]).asserted positive =
      (Sentence.implies a b).asserted positive := by
    simp [Sentence.asserted, Sentence.assertedAll]
  constructor
  · simpa only [holdsAs_true, same, asserts] using either.sound
  · simpa only [holdsAs_true, same, asserts] using either.complete

end Renders

end Interpretation

namespace Dialect

variable {I : Interpretation.{u}} {names : List Text}

/-- A formula that is no negation need only be understood with positive polarity. -/
theorem renders_withPolarity (d : Dialect) (s : Sentence) (positive : Bool)
    (inner : Except Error Inlined) (i : Inlined)
    (returned : d.withPolarity s positive inner = .ok i)
    (meaning : ∀ j, inner = .ok j → I.Renders names true s j.formula) :
    I.Renders names positive s i.formula := by
  rcases withPolarity_ok d s positive inner i returned with
    ⟨rfl, kept⟩ | ⟨rfl, j, kept, rfl⟩
  · exact meaning i kept
  · exact (meaning j kept).negation

/-- The literals of a list render its conjunction as well as its disjunction. -/
theorem inlinedAll_renders (d : Dialect) (ss : List Sentence) (vars : List TypedName)
    (literals : List Sentence)
    (meaning : ∀ s ∈ ss, ∀ i, d.inlined s true = .ok i → I.Renders names true s i.formula)
    (returned : d.inlinedAll ss = .ok (vars, literals)) :
    I.Renders names true (.conj ss) (.conj literals) ∧
      I.Renders names true (.disj ss) (.disj literals) := by
  induction ss generalizing vars literals with
  | nil =>
    simp only [inlinedAll, Except.ok.injEq, Prod.mk.injEq] at returned
    obtain ⟨_, rfl⟩ := returned
    exact ⟨.conj_nil, .disj_nil⟩
  | cons s ss ih =>
    simp only [inlinedAll, bind_ok_iff, pure_ok_iff, Prod.mk.injEq] at returned
    obtain ⟨i, first, ⟨restVars, rest⟩, others, _, rfl⟩ := returned
    have head := meaning s List.mem_cons_self i first
    have tail := ih restVars rest (fun t member => meaning t (List.mem_cons_of_mem s member)) others
    exact ⟨.conj_cons head tail.1, .disj_cons head tail.2⟩

/-- A formula kept as one literal is rendered by it. -/
theorem inlined_renders (d : Dialect) (s : Sentence) (positive : Bool) (i : Inlined)
    (returned : d.inlined s positive = .ok i) : I.Renders names positive s i.formula := by
  induction s generalizing positive i with
  | neg s ih =>
    rw [inlined] at returned
    exact (ih (!positive) i returned).neg
  | term predicate args =>
    rw [inlined] at returned
    refine renders_withPolarity d _ positive _ i returned fun j kept => ?_
    obtain rfl := Except.ok.inj kept
    exact .term predicate args
  | conj ss ih =>
    rw [inlined] at returned
    refine renders_withPolarity d _ positive _ i returned fun j kept => ?_
    simp only [bind_ok_iff, pure_ok_iff] at kept
    obtain ⟨⟨vars, parts⟩, all, rfl⟩ := kept
    exact (inlinedAll_renders d ss vars parts (fun s member j => ih s member true j) all).1
  | disj ss ih =>
    rw [inlined] at returned
    refine renders_withPolarity d _ positive _ i returned fun j kept => ?_
    simp only [bind_ok_iff, pure_ok_iff] at kept
    obtain ⟨⟨vars, parts⟩, all, rfl⟩ := kept
    exact (inlinedAll_renders d ss vars parts (fun s member j => ih s member true j) all).2
  | implies a b left right =>
    rw [inlined] at returned
    refine renders_withPolarity d _ positive _ i returned fun j kept => ?_
    simp only [bind_ok_iff, pure_ok_iff] at kept
    obtain ⟨_, _, x, fails, y, holds, rfl⟩ := kept
    exact .implies (left false x fails) (right true y holds)
  | forSome vars s ih =>
    rw [inlined] at returned
    refine renders_withPolarity d _ positive _ i returned fun j kept => ?_
    simp only [bind_ok_iff, pure_ok_iff] at kept
    obtain ⟨k, inner, rfl⟩ := kept
    exact .forSome vars (ih true k inner)
  | var | const | iff | forAll | weighted | evidence | missing =>
    rw [inlined] at returned
    · exact renders_withPolarity d _ positive _ i returned (fun j kept => by simp at kept)
    all_goals simp

/-- The literal for the negation of a formula renders that negation. -/
theorem negatedLiteral_renders (d : Dialect) (s : Sentence) (i : Inlined)
    (returned : d.negatedLiteral s = .ok i) : I.Renders names false s i.formula := by
  induction s generalizing i with
  | term predicate args =>
    obtain rfl := Except.ok.inj returned
    exact (Interpretation.Renders.term predicate args).negation
  | forSome vars s ih =>
    simp only [negatedLiteral, bind_ok_iff, pure_ok_iff] at returned
    obtain ⟨j, inner, rfl⟩ := returned
    exact .forSome vars (ih j inner)
  | var | const | neg | conj | disj | implies | iff | forAll | weighted | evidence | missing =>
    simp only [negatedLiteral, bind_ok_iff, pure_ok_iff] at returned
    obtain ⟨_, _, j, kept, rfl⟩ := returned
    exact (inlined_renders d _ true j kept).negation

end Dialect

end Clausal
