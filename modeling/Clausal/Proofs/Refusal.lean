import Clausal.Proofs.Normalization

/-!
# Why sentences are refused

A formula that cannot be flattened is refused for its shape: a negation, a constraint or an
annotation that the dialect does not allow. Nothing else stops the attempt, and an attempt to build
something from a missing operand is only made if an operand is missing.
-/

namespace Clausal

/-- Whether errors of a kind are about the shape of a sentence, and not about one of its clauses. -/
def ErrorKind.IsShape (kind : ErrorKind) : Prop :=
  kind = .unsupportedNegation ∨ kind = .unsupportedConstraint ∨ kind = .unsupportedAnnotations

instance (kind : ErrorKind) : Decidable kind.IsShape := inferInstanceAs (Decidable (_ ∨ _))

theorem ErrorKind.IsShape.ne {kind : ErrorKind} (shape : kind.IsShape) :
    kind ≠ .unstratifiedNegation := by
  rcases shape with rfl | rfl | rfl <;> decide

/-- Whether an error says that an operand is missing. -/
def Error.isMissing : Error → Bool
  | .missingOperand _ => true
  | _ => false

/-- Whether an error is about the shape of a sentence, and not about a missing operand where the
sentence is known to be complete. -/
structure Error.IsShapeOf (complete : Prop) (e : Error) : Prop where
  shape : e.kind.IsShape
  present : complete → e.isMissing = false

namespace Error

theorem isShape_negation {e : Error} (kind : e.kind = .unsupportedNegation) : e.kind.IsShape := .inl kind

theorem isShape_constraint {e : Error} (kind : e.kind = .unsupportedConstraint) : e.kind.IsShape :=
  .inr (.inl kind)

theorem isShape_annotations {e : Error} (kind : e.kind = .unsupportedAnnotations) : e.kind.IsShape :=
  .inr (.inr kind)

variable {complete : Prop}

theorem isMissing_eq_false {e : Error} (kind : e.kind ≠ .unsupportedConstraint) :
    e.isMissing = false := by
  cases e with
  | missingOperand => exact absurd rfl kind
  | _ => rfl

theorem isShapeOf_negation {e : Error} (kind : e.kind = .unsupportedNegation) :
    e.IsShapeOf complete :=
  ⟨isShape_negation kind, fun _ => isMissing_eq_false (by simp [kind])⟩

theorem isShapeOf_constraint {e : Error} (kind : e.kind = .unsupportedConstraint)
    (other : e.isMissing = false) : e.IsShapeOf complete :=
  ⟨isShape_constraint kind, fun _ => other⟩

theorem isShapeOf_annotations {e : Error} (kind : e.kind = .unsupportedAnnotations) :
    e.IsShapeOf complete :=
  ⟨isShape_annotations kind, fun _ => isMissing_eq_false (by simp [kind])⟩

/-- A missing operand is a fault of shape where the sentence is not known to be complete. -/
theorem isShapeOf_missing (kind : SentenceKind) (incomplete : ¬ complete) :
    (Error.missingOperand kind).IsShapeOf complete :=
  ⟨isShape_constraint rfl, fun given => absurd given incomplete⟩

end Error

open Error (IsShapeOf isShapeOf_negation isShapeOf_constraint isShapeOf_annotations isShapeOf_missing)

namespace Sentence

/-- Whether a sentence is complete, if it is known that `complete` holds. -/
def Present (complete : Prop) (s : Sentence) : Prop := complete → s.Complete

variable {complete : Prop} {s : Sentence}

theorem Present.child (present : Present complete s) {c : Sentence} (child : c ∈ s.children) :
    Present complete c :=
  fun given => ((everywhere_iff _ s).mp (present given)).2 c child

theorem Present.not_missing (present : Present complete s) (given : complete) :
    s.isMissing = false :=
  ((everywhere_iff _ s).mp (present given)).1

theorem present_hereditary : Hereditary (Present complete) where
  child present _ child := present.child child
  negation present given := complete_hereditary.negation (present given)
  conj each given := complete_hereditary.conj fun s member => each s member given

end Sentence

open Sentence (Present present_hereditary children)

namespace Dialect

variable (d : Dialect) {complete : Prop}

/-! ### Bodies -/

/-- What may not be negated is refused for its shape. -/
theorem checkNegation_refuses (s : Sentence) :
    Refuses (IsShapeOf complete) (d.checkNegation s) := by
  unfold checkNegation
  split
  · exact .ok ()
  · exact .error (isShapeOf_negation rfl)

/-- An implication is refused only if an operand is missing. -/
theorem checkEither_refuses {a b : Sentence} (left : Present complete a)
    (right : Present complete b) : Refuses (IsShapeOf complete) (checkEither a b) := by
  unfold checkEither
  split
  next missing =>
    refine .error (isShapeOf_missing .disj fun given => ?_)
    -- Neither the negated guard nor the other operand is missing in a complete sentence.
    have first := (present_hereditary.negate left).not_missing given
    have second := right.not_missing given
    simp [first, second] at missing
  next => exact .ok ()

theorem withPolarity_refuses (s : Sentence) (positive : Bool) (x : Except Error Inlined)
    (inner : Refuses (IsShapeOf complete) x) :
    Refuses (IsShapeOf complete) (d.withPolarity s positive x) := by
  unfold withPolarity
  split
  · exact inner
  · exact (d.checkNegation_refuses s).bind fun _ => inner.map

theorem inlinedAll_refuses (ss : List Sentence)
    (each : ∀ s ∈ ss, ∀ positive, Refuses (IsShapeOf complete) (d.inlined s positive)) :
    Refuses (IsShapeOf complete) (d.inlinedAll ss) := by
  induction ss with
  | nil => exact .ok _
  | cons s ss ih =>
    rw [List.forall_mem_cons] at each
    rw [inlinedAll]
    exact (each.1 true).bind fun i => (ih each.2).bind fun rest => .ok _

/-- Inlining refuses formulas for their shape only. -/
theorem inlined_refuses (s : Sentence) (positive : Bool) (present : Present complete s) :
    Refuses (IsShapeOf complete) (d.inlined s positive) := by
  induction s generalizing positive with
  | neg s ih =>
    rw [inlined]
    exact ih (!positive) (present.child List.mem_cons_self)
  | term p args =>
    rw [inlined]
    exact d.withPolarity_refuses _ positive _ (.ok _)
  | conj ss ih | disj ss ih =>
    rw [inlined]
    have each := fun s member positive => ih s member positive (present.child member)
    exact d.withPolarity_refuses _ positive _ ((d.inlinedAll_refuses ss each).bind fun _ => .ok _)
  | implies a b left right =>
    rw [inlined]
    apply d.withPolarity_refuses _ positive
    have inLeft : Present complete a := present.child (by simp [children])
    have inRight : Present complete b := present.child (by simp [children])
    exact (checkEither_refuses inLeft inRight).bind fun _ =>
      (left false inLeft).bind fun _ => (right true inRight).map
  | forSome vars s ih =>
    rw [inlined]
    have inner := ih true (present.child List.mem_cons_self)
    exact d.withPolarity_refuses _ positive _ inner.map
  | var | const | iff | forAll | weighted | evidence | missing =>
    simp only [inlined]
    exact d.withPolarity_refuses _ positive _ (.error (isShapeOf_constraint rfl rfl))

theorem negatedLiteral_refuses (s : Sentence) (present : Present complete s) :
    Refuses (IsShapeOf complete) (d.negatedLiteral s) := by
  induction s with
  | term p args =>
    rw [negatedLiteral]
    exact .ok _
  | forSome vars s ih =>
    rw [negatedLiteral]
    exact (ih (present.child List.mem_cons_self)).map
  | _ =>
    simp only [negatedLiteral]
    exact (d.checkNegation_refuses _).bind fun _ => (d.inlined_refuses _ true present).map

theorem either_refuses {s : Sentence} (present : Present complete s)
    {fails holds : Except Error Bodies} (left : Refuses (IsShapeOf complete) fails)
    (right : Refuses (IsShapeOf complete) holds) :
    Refuses (IsShapeOf complete) (d.either s fails holds) := by
  unfold either
  split
  · exact left.bind fun _ => right.map
  · exact (d.inlined_refuses s true present).map

theorem conjunction_refuses_of (ss : List Sentence)
    (each : ∀ s ∈ ss, ∀ positive, Refuses (IsShapeOf complete) (d.bodies s positive))
    (sofar : Bodies) : Refuses (IsShapeOf complete) (d.conjunction sofar ss) := by
  induction ss generalizing sofar with
  | nil => exact .ok _
  | cons s ss ih =>
    rw [List.forall_mem_cons] at each
    rw [conjunction]
    exact (each.1 true).bind fun b => ih each.2 (sofar.cross b)

theorem disjunction_refuses_of (ss : List Sentence)
    (each : ∀ s ∈ ss, ∀ positive, Refuses (IsShapeOf complete) (d.bodies s positive)) :
    Refuses (IsShapeOf complete) (d.disjunction ss) := by
  induction ss with
  | nil => exact .ok _
  | cons s ss ih =>
    rw [List.forall_mem_cons] at each
    rw [disjunction]
    exact (each.1 true).bind fun b => (ih each.2).map

/-- The negation of a formula is refused like the formula, for its shape. -/
theorem refuses_of_positive {s : Sentence} (compound : s.isNeg = false)
    (present : Present complete s) (affirmed : Refuses (IsShapeOf complete) (d.bodies s true))
    (positive : Bool) : Refuses (IsShapeOf complete) (d.bodies s positive) := by
  cases positive with
  | true => exact affirmed
  | false =>
    rw [d.bodies_false s compound]
    exact (d.negatedLiteral_refuses s present).map

/-- The search for bodies refuses formulas for their shape only, by induction on the formula. -/
theorem bodies_refuses (s : Sentence) (positive : Bool) (present : Present complete s) :
    Refuses (IsShapeOf complete) (d.bodies s positive) := by
  induction s generalizing positive with
  | neg s ih =>
    rw [bodies]
    exact ih (!positive) (present.child List.mem_cons_self)
  | term p args =>
    apply d.refuses_of_positive rfl present
    rw [bodies]
    exact .ok _
  | conj ss ih =>
    apply d.refuses_of_positive rfl present
    rw [bodies]
    have each := fun s member positive => ih s member positive (present.child member)
    exact d.conjunction_refuses_of ss each .unit
  | disj ss ih =>
    apply d.refuses_of_positive rfl present
    rw [bodies]
    split
    · exact d.disjunction_refuses_of ss fun s member positive =>
        ih s member positive (present.child member)
    · exact (d.inlined_refuses _ true present).map
  | implies a b left right =>
    apply d.refuses_of_positive rfl present
    rw [bodies]
    have inLeft : Present complete a := present.child (by simp [children])
    have inRight : Present complete b := present.child (by simp [children])
    exact (checkEither_refuses inLeft inRight).bind fun _ =>
      d.either_refuses present (left false inLeft) (right true inRight)
  | iff a b left right =>
    apply d.refuses_of_positive rfl present
    rw [bodies]
    have inLeft : Present complete a := present.child (by simp [children])
    have inRight : Present complete b := present.child (by simp [children])
    -- The two implications are not parts of the sentence, but complete if it is.
    have implication {x y : Sentence} (first : Present complete x) (second : Present complete y) :
        Present complete (.implies x y) := fun given =>
      (Sentence.everywhere_iff _ _).mpr ⟨rfl, by simpa [children] using ⟨first given, second given⟩⟩
    have forward := d.either_refuses (implication inLeft inRight) (left false inLeft)
      (right true inRight)
    have backward := d.either_refuses (implication inRight inLeft) (right false inRight)
      (left true inLeft)
    exact (checkEither_refuses inLeft inRight).bind fun _ =>
      (checkEither_refuses inRight inLeft).bind fun _ => forward.bind fun _ => backward.map
  | forSome vars s ih =>
    apply d.refuses_of_positive rfl present
    rw [bodies]
    exact (ih true (present.child List.mem_cons_self)).map
  | var | const | forAll | missing =>
    apply d.refuses_of_positive rfl present
    rw [bodies]
    exact .error (isShapeOf_constraint rfl rfl)
  | weighted | evidence =>
    apply d.refuses_of_positive rfl present
    rw [bodies]
    exact .error (isShapeOf_annotations rfl)

theorem conjunction_refuses (ss : List Sentence) (present : ∀ s ∈ ss, Present complete s)
    (sofar : Bodies) : Refuses (IsShapeOf complete) (d.conjunction sofar ss) :=
  d.conjunction_refuses_of ss (fun s member positive => d.bodies_refuses s positive (present s member))
    sofar

/-! ### Clauses -/

theorem forEach_refuses (c : Setting) (b : Bodies) (rules : Setting → Except Error Rules)
    (each : ∀ inner, Refuses (IsShapeOf complete) (rules inner)) :
    Refuses (IsShapeOf complete) (c.forEach b rules) := by
  -- Which bodies there are does not matter: one refusal is enough to stop.
  have collected (next : Nat) (bodies : List (List Sentence)) : Refuses (IsShapeOf complete)
      (Rules.collect next (fun n literals => rules (c.under n literals)) bodies) := by
    induction bodies generalizing next with
    | nil => exact .ok _
    | cons body bodies ih =>
      rw [Rules.collect]
      exact (each _).bind fun first => (ih _).map
  exact (collected c.next b.alternatives).map

/-- A constraint is refused where there are none, or for the shape of its body. -/
theorem constraint_refuses (c : Setting) (kind : ErrorKind) (body : Sentence)
    (present : Present complete body) (shape : IsShapeOf complete (.noConstraints kind body)) :
    Refuses (IsShapeOf complete) (d.constraint c kind body) := by
  unfold constraint
  split
  · refine (d.bodies_refuses body true present).bind fun b => ?_
    simp only
    split
    · exact .error (isShapeOf_constraint rfl rfl)
    · exact .ok _
  · exact .error shape

theorem flattenAll_refuses (ss : List Sentence)
    (each : ∀ s ∈ ss, ∀ c, Refuses (IsShapeOf complete) (d.flatten s c)) (c : Setting) :
    Refuses (IsShapeOf complete) (d.flattenAll ss c) := by
  induction ss generalizing c with
  | nil => exact .ok _
  | cons s ss ih =>
    rw [List.forall_mem_cons] at each
    rw [flattenAll]
    exact (each.1 c).bind fun first => (ih each.2 _).map

theorem flattenLast_refuses (ss : List Sentence)
    (each : ∀ s ∈ ss, ∀ c, Refuses (IsShapeOf complete) (d.flatten s c)) (c : Setting) :
    Refuses (IsShapeOf complete) (d.flattenLast ss c) := by
  induction ss with
  | nil => exact .ok _
  | cons s ss ih =>
    rw [List.forall_mem_cons] at each
    rw [flattenLast]
    split
    · exact each.1 c
    · exact ih each.2

theorem flattenRungs_refuses (ladder : Nat) (parts : List Sentence.Part)
    (each : ∀ part ∈ parts, (∀ a ∈ part.premises, Present complete a) ∧
      ∀ c, Refuses (IsShapeOf complete) (d.flatten part.consequent c)) (branch : Nat)
    (c : Setting) : Refuses (IsShapeOf complete) (d.flattenRungs ladder parts branch c) := by
  induction parts generalizing branch c with
  | nil => exact .ok _
  | cons part parts ih =>
    rw [List.forall_mem_cons] at each
    rw [flattenRungs]
    exact (d.conjunction_refuses _ each.1.1 _).bind fun b =>
      (forEach_refuses _ _ _ each.1.2).bind fun first => (ih each.2 _ _).map

/-- A sentence is refused for its shape, wherever it stands. -/
theorem flatten_refuses_of (s : Sentence) (c : Setting) (present : Present complete s) :
    Refuses (IsShapeOf complete) (d.flatten s c) := by
  induction size : sizeOf s using Nat.strongRecOn generalizing s c with
  | ind n ih =>
    -- A branch of a ladder or the operand of a double negation is smaller without being a child.
    have smaller (t : Sentence) (less : sizeOf t < sizeOf s) (inside : Present complete t)
        (c : Setting) : Refuses (IsShapeOf complete) (d.flatten t c) :=
      ih _ (size ▸ less) t c inside rfl
    have child (t : Sentence) (member : t ∈ s.children) (c : Setting) :
        Refuses (IsShapeOf complete) (d.flatten t c) :=
      smaller t (s.children_smaller t member) (present.child member) c
    cases s with
    | term p args =>
      rw [flatten]
      exact .ok _
    | forAll vars s | forSome vars s =>
      rw [flatten]
      exact (child s (List.mem_singleton_self s) c).map
    | implies a b =>
      rw [flatten]
      exact (d.bodies_refuses a true (present.child (by simp [children]))).bind fun _ =>
        forEach_refuses _ _ _ (child b (by simp [children]))
    | iff a b =>
      rw [flatten]
      have forward := child b (by simp [children])
      have backward := child a (by simp [children])
      have inLeft : Present complete a := present.child (by simp [children])
      have inRight : Present complete b := present.child (by simp [children])
      split
      next missing =>
        refine .error (isShapeOf_missing .implies fun given => ?_)
        simp [inLeft.not_missing given, inRight.not_missing given] at missing
      next =>
        exact (d.bodies_refuses a true inLeft).bind fun _ =>
          (forEach_refuses _ _ _ forward).bind fun _ =>
            (d.bodies_refuses b true inRight).bind fun _ => (forEach_refuses _ _ _ backward).map
    | conj ss =>
      rw [flatten]
      split
      next isLadder =>
        rw [d.flattenLadder_eq ss _ _ _ _ isLadder]
        refine (d.flattenRungs_refuses _ _ (fun part member => ?_) _ _).map
        have rung := Sentence.isRung_of_mem member isLadder
        obtain ⟨premises, consequent⟩ := present_hereditary.rung rung (by simp) present
        exact ⟨premises, smaller part.consequent rung.smaller consequent⟩
      next => exact d.flattenAll_refuses ss child c
    | neg s =>
      have inner : Present complete s := present.child List.mem_cons_self
      cases s with
      | neg s =>
        rw [flatten]
        simp only [Sentence.neg.sizeOf_spec] at smaller
        exact smaller s (by omega) (inner.child List.mem_cons_self) c
      | _ => exact d.constraint_refuses c _ _ inner (isShapeOf_negation rfl)
    | disj ss =>
      -- The operands of the negated disjuncts lie two levels below the disjunction.
      have negatives : ∀ s ∈ Sentence.negatives ss, Present complete s := fun s member =>
        (present.child ((Sentence.mem_negatives ss s).mp member)).child List.mem_cons_self
      rw [flatten]
      split
      next missing =>
        refine .error (isShapeOf_missing .conj fun given => ?_)
        obtain ⟨s, member, isMissing⟩ := List.any_eq_true.mp missing
        simp [(negatives s member).not_missing given] at isMissing
      next =>
        split
        · exact d.constraint_refuses c _ _ (present_hereditary.conj negatives)
            (isShapeOf_constraint rfl rfl)
        · have others : ∀ s ∈ (Sentence.positives ss).dropLast.map Sentence.negate,
              Present complete s := List.forall_mem_map.mpr fun s member =>
            present_hereditary.negate
              (present.child (Sentence.positives_subset ss (List.dropLast_subset _ member)))
          exact (d.conjunction_refuses _ (List.forall_mem_append.mpr ⟨negatives, others⟩) _).bind
            fun _ => forEach_refuses _ _ _ fun inner => d.flattenLast_refuses ss child inner
    | weighted w s =>
      rw [flatten]
      split
      · exact .error (isShapeOf_annotations rfl)
      · split
        · exact .error (isShapeOf_annotations rfl)
        · exact child s (List.mem_singleton_self s) _
    | evidence =>
      rw [flatten]
      exact .error (isShapeOf_annotations rfl)
    | var | const | missing =>
      rw [flatten]
      exact .error (isShapeOf_constraint rfl rfl)

/-- A sentence that cannot be flattened is refused for its shape. If it is complete, the attempt
builds nothing from a missing operand. -/
theorem flatten_refuses (s : Sentence) (c : Setting) :
    Refuses (IsShapeOf s.Complete) (d.flatten s c) :=
  d.flatten_refuses_of s c id

end Dialect

/-- A term is refused only for the number of its arguments. -/
theorem Registry.checkArity_refuses (r : Registry) (s : Sentence) :
    Refuses (fun e => e.kind = .arityMismatch) (r.checkArity s) := by
  -- The two functions call each other, so the lists are done first, from what is known of members.
  have all (ss : List Sentence)
      (each : ∀ s ∈ ss, Refuses (fun e => e.kind = .arityMismatch) (r.checkArity s)) :
      Refuses (fun e => e.kind = .arityMismatch) (r.checkArities ss) := by
    induction ss with
    | nil => exact .ok ()
    | cons s ss ih =>
      rw [List.forall_mem_cons] at each
      rw [checkArities]
      exact each.1.bind fun _ => ih each.2
  induction s with
  | term p args ih =>
    rw [checkArity]
    refine Refuses.bind ?_ fun _ => all args ih
    unfold checkTerm
    split
    · split
      · exact .ok ()
      · exact .error rfl
    · exact .ok ()
  | conj ss ih | disj ss ih =>
    rw [checkArity]
    exact all ss ih
  | implies a b left right | iff a b left right =>
    rw [checkArity]
    exact left.bind fun _ => right
  | neg s ih | forAll vars s ih | forSome vars s ih | weighted w s ih | evidence holds s ih =>
    rw [checkArity]
    exact ih
  | var | const | missing =>
    rw [checkArity]
    exact .ok ()

/-- A clause is left out for an arity or for an unsafe variable in its head. -/
theorem Clause.check_refuses (r : Option Registry) (c : Clause) :
    Refuses (fun e => e.kind = .arityMismatch ∨ e.kind = .unsafeHeadVariable) (c.check r) := by
  unfold check
  refine Refuses.bind (.forM (fun s => ?_) _) fun _ => ?_
  · cases r with
    | none => exact .ok ()
    | some r => exact (r.checkArity_refuses s).mono fun _ => .inl
  · split
    · exact .ok ()
    · split
      · exact .error (.inr rfl)
      · exact .ok ()

/-- What is reported on a sentence is never what other sentences say. -/
theorem Dialect.normalize_reports (d : Dialect) (r : Option Registry) (s : Sentence)
    (report : Diagnostic) (member : report ∈ (d.normalize r s).diagnostics) :
    report.kind ≠ .unstratifiedNegation := by
  obtain ⟨e, rfl, failed | ⟨c, failed⟩⟩ := d.mem_normalize_reports r s report member
  · exact (d.flatten_refuses s .outermost e failed).shape.ne
  · rcases c.check_refuses r e failed with kind | kind <;> simp [Diagnostic.ofError, kind]

/-- Reports on sentences never speak of other sentences. -/
theorem Dialect.normalizeFrom_reports (d : Dialect) (r : Option Registry) (group : Text)
    (index : Nat) (ss : List Sentence) (report : Diagnostic)
    (member : report ∈ (d.normalizeFrom r group index ss).diagnostics) :
    report.kind ≠ .unstratifiedNegation := by
  obtain ⟨s, -, i, located⟩ := (d.normalizeFrom_origin r group index ss).2 report member
  obtain ⟨inner, found, rfl⟩ := List.mem_map.mp located
  exact d.normalize_reports r s inner found

end Clausal
