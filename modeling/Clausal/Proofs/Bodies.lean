import Clausal.Proofs.Literals

/-!
# The meaning of bodies

The alternative bodies of a formula together mean the formula: each of them implies it, and one of
them is true wherever the formula is, unless their terms depend on a variable of a quantifier that
was dropped.
-/

namespace Clausal

universe u

namespace Interpretation

variable (I : Interpretation.{u})

/-- Each of some alternative bodies implies a condition, at least if it does not depend on the
variables `names`. -/
def Splits (names : List Text) (condition : I.Point → Prop) (b : Bodies) : Prop :=
  ∀ body ∈ b.alternatives, (∀ l ∈ body, l.Made (I.Steady names)) →
    ∀ p, (∀ l ∈ body, I.Holds p l) → condition p

/-- One of some alternative bodies is true wherever a condition is. -/
def Exhausts (condition : I.Point → Prop) (b : Bodies) : Prop :=
  ∀ p, condition p → ∃ body ∈ b.alternatives, ∀ l ∈ body, I.Holds p l

variable {I} {names : List Text}

namespace Splits

theorem unit : I.Splits names (fun _ => True) .unit := fun _ _ _ _ _ => trivial

theorem literal {positive : Bool} {s : Sentence} {i : Inlined}
    (given : I.Renders names positive s i.formula) (included : s.asserted (!positive) ⊆ names) :
    I.Splits names (fun p => I.HoldsAs p positive s) (.literal i) := by
  simp only [Splits, Bodies.literal, List.mem_singleton, forall_eq]
  exact given.sound included

/-- Alternatives side by side stand for a disjunction. -/
theorem append {left right : I.Point → Prop} {x y : Bodies} (first : I.Splits names left x)
    (second : I.Splits names right y) :
    I.Splits names (fun p => left p ∨ right p) (x.append y) := by
  refine List.forall_mem_append.mpr ⟨?_, ?_⟩
  · exact fun body member steady p holds => .inl (first body member steady p holds)
  · exact fun body member steady p holds => .inr (second body member steady p holds)

/-- Alternatives joined pairwise stand for a conjunction. -/
theorem cross {left right : I.Point → Prop} {x y : Bodies} (first : I.Splits names left x)
    (second : I.Splits names right y) :
    I.Splits names (fun p => left p ∧ right p) (x.cross y) := by
  intro body member steady p holds
  obtain ⟨a, inLeft, b, inRight, rfl⟩ := (Bodies.mem_cross x y body).mp member
  rw [List.forall_mem_append] at steady holds
  exact ⟨first a inLeft steady.1 p holds.1, second b inRight steady.2 p holds.2⟩

theorem weaken {strong weak : I.Point → Prop} {b : Bodies} (given : I.Splits names strong b)
    (implied : ∀ p, strong p → weak p) : I.Splits names weak b :=
  fun body member steady p holds => implied p (given body member steady p holds)

end Splits

namespace Exhausts

theorem unit : I.Exhausts (fun _ => True) .unit :=
  fun _ _ => ⟨[], by simp [Bodies.unit]⟩

/-- A literal covers its formula if the formula depends on nothing that the literal leaves out. -/
theorem literal {positive : Bool} {s : Sentence} {i : Inlined}
    (given : I.Renders names positive s i.formula) (included : s.asserted positive ⊆ names)
    (steady : i.formula.Made (I.Steady names)) :
    I.Exhausts (fun p => I.HoldsAs p positive s) (.literal i) := by
  intro p holds
  refine ⟨[i.formula], by simp [Bodies.literal], ?_⟩
  simp only [List.mem_singleton, forall_eq]
  exact given.complete included steady p holds

theorem append {left right : I.Point → Prop} {x y : Bodies} (first : I.Exhausts left x)
    (second : I.Exhausts right y) : I.Exhausts (fun p => left p ∨ right p) (x.append y) := by
  rintro p (holds | holds)
  · obtain ⟨body, member, all⟩ := first p holds
    exact ⟨body, List.mem_append_left _ member, all⟩
  · obtain ⟨body, member, all⟩ := second p holds
    exact ⟨body, List.mem_append_right _ member, all⟩

theorem cross {left right : I.Point → Prop} {x y : Bodies} (first : I.Exhausts left x)
    (second : I.Exhausts right y) : I.Exhausts (fun p => left p ∧ right p) (x.cross y) := by
  rintro p ⟨holdsLeft, holdsRight⟩
  obtain ⟨a, inLeft, allLeft⟩ := first p holdsLeft
  obtain ⟨b, inRight, allRight⟩ := second p holdsRight
  exact ⟨a ++ b, (Bodies.mem_cross x y _).mpr ⟨a, inLeft, b, inRight, rfl⟩,
    List.forall_mem_append.mpr ⟨allLeft, allRight⟩⟩

theorem strengthen {strong weak : I.Point → Prop} {b : Bodies} (given : I.Exhausts weak b)
    (implied : ∀ p, strong p → weak p) : I.Exhausts strong b :=
  fun p holds => given p (implied p holds)

end Exhausts

/-- What the alternative bodies of a formula, or of its negation, mean. -/
structure Expands (I : Interpretation.{u}) (names : List Text) (positive : Bool) (s : Sentence)
    (b : Bodies) : Prop where
  splits : s.asserted (!positive) ⊆ names → I.Splits names (fun p => I.HoldsAs p positive s) b
  exhausts : s.asserted positive ⊆ names → s.Terms (I.Steady names) →
    I.Exhausts (fun p => I.HoldsAs p positive s) b

theorem Expands.literal {positive : Bool} {s : Sentence} {i : Inlined}
    (given : I.Renders names positive s i.formula)
    (made : s.Terms (I.Steady names) → i.formula.Made (I.Steady names)) :
    I.Expands names positive s (.literal i) where
  splits included := .literal given included
  exhausts included steady := .literal given included (made steady)

end Interpretation

namespace Dialect

open Sentence (children)

variable {I : Interpretation.{u}} {names : List Text}

/-- The conjuncts of a list are true together with what the bodies so far mean. -/
theorem conjunction_expands (d : Dialect) (ss : List Sentence) (sofar b : Bodies)
    (each : ∀ s ∈ ss, ∀ x, d.bodies s true = .ok x → I.Expands names true s x)
    (returned : d.conjunction sofar ss = .ok b) (condition : I.Point → Prop) :
    (Sentence.assertedAll false ss ⊆ names → I.Splits names condition sofar →
      I.Splits names (fun p => condition p ∧ ∀ s ∈ ss, I.Holds p s) b) ∧
    (Sentence.assertedAll true ss ⊆ names → (∀ s ∈ ss, s.Terms (I.Steady names)) →
      I.Exhausts condition sofar →
      I.Exhausts (fun p => condition p ∧ ∀ s ∈ ss, I.Holds p s) b) := by
  induction ss generalizing sofar condition with
  | nil =>
    obtain rfl := Except.ok.inj returned
    simp
  | cons s ss ih =>
    simp only [conjunction, bind_ok_iff] at returned
    obtain ⟨x, first, rest⟩ := returned
    have head := each s List.mem_cons_self x first
    -- What the head means joins the condition, and the induction goes on from there.
    have tail := ih (sofar.cross x) (fun t member => each t (List.mem_cons_of_mem s member)) rest
      (fun p => condition p ∧ I.HoldsAs p true s)
    simp only [Interpretation.holdsAs_true, and_assoc, ← List.forall_mem_cons] at tail
    constructor
    · intro included given
      simp only [Sentence.assertedAll, List.append_subset] at included
      simpa only [List.forall_mem_cons, and_assoc] using
        tail.1 included.2 (given.cross (head.splits included.1))
    · intro included steady given
      simp only [Sentence.assertedAll, List.append_subset] at included
      rw [List.forall_mem_cons] at steady
      exact tail.2 included.2 steady.2 (given.cross (head.exhausts included.1 steady.1))

theorem disjunction_expands (d : Dialect) (ss : List Sentence) (b : Bodies)
    (each : ∀ s ∈ ss, ∀ x, d.bodies s true = .ok x → I.Expands names true s x)
    (returned : d.disjunction ss = .ok b) : I.Expands names true (.disj ss) b := by
  induction ss generalizing b with
  | nil =>
    obtain rfl := Except.ok.inj returned
    constructor
    · exact fun _ body member => absurd member List.not_mem_nil
    · intro _ _ p holds
      simp [Interpretation.holds_disj] at holds
  | cons s ss ih =>
    simp only [disjunction, bind_ok_iff, pure_ok_iff] at returned
    obtain ⟨x, first, y, rest, rfl⟩ := returned
    have head := each s List.mem_cons_self x first
    have tail := ih y (fun t member => each t (List.mem_cons_of_mem s member)) rest
    have same (p : I.Point) : I.HoldsAs p true (.disj (s :: ss)) ↔
        I.HoldsAs p true s ∨ I.HoldsAs p true (.disj ss) := by
      simp [Interpretation.holds_disj]
    constructor
    · intro included
      simp only [Sentence.asserted, Sentence.assertedAll, List.append_subset] at included
      exact ((head.splits included.1).append (tail.splits included.2)).weaken
        fun p => (same p).mpr
    · intro included steady
      simp only [Sentence.asserted, Sentence.assertedAll, List.append_subset] at included
      have rest : (Sentence.disj ss).Terms (I.Steady names) :=
        Sentence.terms_compound rfl fun t member => steady.child (List.mem_cons_of_mem s member)
      exact ((head.exhausts included.1 (steady.child List.mem_cons_self)).append
        (tail.exhausts included.2 rest)).strengthen fun p => (same p).mp

/-- An implication in a body holds where its antecedent fails or its consequent holds. -/
theorem either_expands (d : Dialect) (a b : Sentence) (x : Bodies)
    (left : ∀ y, d.bodies a false = .ok y → I.Expands names false a y)
    (right : ∀ y, d.bodies b true = .ok y → I.Expands names true b y)
    (returned : d.either (.implies a b) (d.bodies a false) (d.bodies b true) = .ok x) :
    I.Expands names true (.implies a b) x := by
  unfold either at returned
  split at returned
  -- Where the dialect allows it, the implication is split into the failure of `a` and the truth of
  -- `b`; otherwise it stays a single literal.
  · simp only [bind_ok_iff, pure_ok_iff] at returned
    obtain ⟨y, fails, z, holds, rfl⟩ := returned
    have first := left y fails
    have second := right z holds
    have same (p : I.Point) : I.HoldsAs p true (.implies a b) ↔
        I.HoldsAs p false a ∨ I.HoldsAs p true b := by
      simp only [Interpretation.holdsAs_true, Interpretation.holdsAs_false, Interpretation.Holds]
      exact imp_iff_not_or
    constructor
    · intro included
      simp only [Sentence.asserted, List.append_subset] at included
      exact ((first.splits included.1).append (second.splits included.2)).weaken
        fun p => (same p).mpr
    · intro included steady
      simp only [Sentence.asserted, List.append_subset] at included
      have fails := first.exhausts included.1 (steady.child (by simp [children]))
      have holds := second.exhausts included.2 (steady.child (by simp [children]))
      exact (fails.append holds).strengthen fun p => (same p).mp
  · simp only [bind_ok_iff, pure_ok_iff] at returned
    obtain ⟨i, kept, rfl⟩ := returned
    exact .literal (inlined_renders d _ true i kept) fun steady => inlined_made steady kept

/-- A formula that is no negation need only be understood with positive polarity. -/
theorem expands_of_positive (d : Dialect) (s : Sentence) (positive : Bool) (b : Bodies)
    (proper : s.isNeg = false) (returned : d.bodies s positive = .ok b)
    (meaning : d.bodies s true = .ok b → I.Expands names true s b) :
    I.Expands names positive s b := by
  cases positive with
  | true => exact meaning returned
  | false =>
    simp only [bodies_false d s proper, bind_ok_iff, pure_ok_iff] at returned
    obtain ⟨i, kept, rfl⟩ := returned
    exact .literal (negatedLiteral_renders d s i kept) fun steady => negatedLiteral_made steady kept

/-- The alternative bodies of a formula mean the formula. -/
theorem bodies_expands (d : Dialect) (s : Sentence) (positive : Bool) (b : Bodies)
    (returned : d.bodies s positive = .ok b) : I.Expands names positive s b := by
  induction s generalizing positive b with
  | neg s ih =>
    rw [bodies] at returned
    -- A negation has the bodies of its operand with the other polarity.
    obtain ⟨splits, exhausts⟩ := ih (!positive) b returned
    constructor
    · intro included
      simpa only [Interpretation.holdsAs_neg] using splits included
    · intro included steady
      simpa only [Interpretation.holdsAs_neg] using
        exhausts included (steady.child List.mem_cons_self)
  | term predicate args =>
    refine expands_of_positive d _ positive b rfl returned fun returned => ?_
    obtain rfl := Except.ok.inj returned
    exact .literal (.term predicate args) fun steady => .term steady.term
  | conj ss ih =>
    refine expands_of_positive d _ positive b rfl returned fun returned => ?_
    have together := conjunction_expands d ss .unit b (fun s member x => ih s member true x) returned
      (fun _ => True)
    simp only [true_and, ← Interpretation.holds_conj] at together
    constructor
    · intro included
      simpa only [Interpretation.holdsAs_true] using together.1 included .unit
    · intro included steady
      simpa only [Interpretation.holdsAs_true] using
        together.2 included (fun s member => steady.child member) .unit
  | disj ss ih =>
    refine expands_of_positive d _ positive b rfl returned fun returned => ?_
    rw [bodies] at returned
    split at returned
    · exact disjunction_expands d ss b (fun s member x => ih s member true x) returned
    · simp only [bind_ok_iff, pure_ok_iff] at returned
      obtain ⟨i, kept, rfl⟩ := returned
      exact .literal (inlined_renders d _ true i kept) fun steady => inlined_made steady kept
  | implies a c left right =>
    refine expands_of_positive d _ positive b rfl returned fun returned => ?_
    simp only [bodies, bind_ok_iff] at returned
    obtain ⟨_, _, returned⟩ := returned
    exact either_expands d a c b (left false) (right true) returned
  | iff a c left right =>
    refine expands_of_positive d _ positive b rfl returned fun returned => ?_
    simp only [bodies, bind_ok_iff, pure_ok_iff] at returned
    obtain ⟨_, _, _, _, x, forward, y, backward, rfl⟩ := returned
    -- Both directions hold together, so each body of one is joined with each body of the other.
    have first := either_expands d a c x (left false) (right true) forward
    have second := either_expands d c a y (right false) (left true) backward
    have same (p : I.Point) : I.HoldsAs p true (.iff a c) ↔
        I.HoldsAs p true (.implies a c) ∧ I.HoldsAs p true (.implies c a) := by
      simp only [Interpretation.holdsAs_true, Interpretation.Holds]
      exact iff_iff_implies_and_implies
    constructor
    · intro included
      simp only [Sentence.asserted, List.append_subset] at included
      obtain ⟨⟨aTrue, aFalse⟩, cTrue, cFalse⟩ := included
      refine ((first.splits ?_).cross (second.splits ?_)).weaken fun p => (same p).mpr
      · simpa [Sentence.asserted] using ⟨aTrue, cFalse⟩
      · simpa [Sentence.asserted] using ⟨cTrue, aFalse⟩
    · intro included steady
      simp only [Sentence.asserted, List.append_subset] at included
      obtain ⟨⟨aTrue, aFalse⟩, cTrue, cFalse⟩ := included
      have inLeft : a.Terms (I.Steady names) := steady.child (by simp [children])
      have inRight : c.Terms (I.Steady names) := steady.child (by simp [children])
      refine ((first.exhausts ?_ (inLeft.implies inRight)).cross
        (second.exhausts ?_ (inRight.implies inLeft))).strengthen fun p => (same p).mp
      · simpa [Sentence.asserted] using ⟨aFalse, cTrue⟩
      · simpa [Sentence.asserted] using ⟨cFalse, aTrue⟩
  | forSome vars s ih =>
    refine expands_of_positive d _ positive b rfl returned fun returned => ?_
    simp only [bodies, bind_ok_iff, pure_ok_iff] at returned
    obtain ⟨x, inner, rfl⟩ := returned
    constructor
    · intro included body member steady p holds
      -- The point itself is the example, since the bodies are true at it.
      have here := (ih true x inner).splits included body member steady p holds
      exact ⟨p, I.agree_refl _ p, (I.holdsAs_true p s).mp here⟩
    · intro included steady p holds
      simp only [Sentence.asserted, List.append_subset] at included
      obtain ⟨q, agree, found⟩ := (I.holdsAs_true p _).mp holds
      have inside : s.Terms (I.Steady names) := steady.child List.mem_cons_self
      -- A body is true at the example, and being steady it is true here as well.
      obtain ⟨body, member, all⟩ :=
        (ih true x inner).exhausts included.2 inside q ((I.holdsAs_true q s).mpr found)
      have wider := I.agree_mono _ names p q included.1 agree
      exact ⟨body, member, fun l inBody =>
        (I.holds_steady (bodies_made inside inner body member l inBody) wider).mpr (all l inBody)⟩
  | var | const | forAll | weighted | evidence | missing =>
    refine expands_of_positive d _ positive b rfl returned fun returned => ?_
    simp [bodies] at returned

/-- The bodies of some premises mean that all the premises are true. -/
theorem premises_expand (I : Interpretation.{u}) (names : List Text) (d : Dialect)
    (premises : List Sentence) (b : Bodies) (returned : d.conjunction .unit premises = .ok b) :
    (Sentence.assertedAll false premises ⊆ names →
      I.Splits names (fun p => ∀ a ∈ premises, I.Holds p a) b) ∧
    (Sentence.assertedAll true premises ⊆ names → (∀ a ∈ premises, a.Terms (I.Steady names)) →
      I.Exhausts (fun p => ∀ a ∈ premises, I.Holds p a) b) := by
  have each (a : Sentence) (_ : a ∈ premises) (x : Bodies) (expanded : d.bodies a true = .ok x) :
      I.Expands names true a x := bodies_expands d a true x expanded
  -- The conjunction starts from one empty body, which is always true.
  have together := conjunction_expands d premises .unit b each returned (fun _ => True)
  simp only [true_and] at together
  exact ⟨fun included => together.1 included .unit,
    fun included steady => together.2 included steady .unit⟩

end Dialect

end Clausal
