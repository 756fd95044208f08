import Clausal.Proofs.Renormalization

/-!
# Constraints that come back

The sentence of a constraint denies its body. A body with a single negation is thereby negated
twice, so that the negations cancel and something else is found. Otherwise a constraint comes back,
unless one of its literals has a double negation, which an existential quantifier may leave behind.
-/

namespace Clausal

open Sentence (NegatesOnly Everywhere InRange PassesOn children)

namespace Sentence

mutual

/-- The number of connectives above each other in a literal. -/
def height : Sentence → Nat
  | .neg s => height s + 1
  | .conj ss => heightAll ss + 1
  | .disj ss => heightAll ss + 1
  | _ => 0

def heightAll : List Sentence → Nat
  | [] => 0
  | s :: ss => max (height s) (heightAll ss)

end

theorem heightAll_le_iff (ss : List Sentence) (n : Nat) :
    heightAll ss ≤ n ↔ ∀ s ∈ ss, s.height ≤ n := by
  induction ss with
  | nil => simp [heightAll]
  | cons s ss ih => simp [heightAll, ih]

theorem height_le_heightAll {s : Sentence} {ss : List Sentence} (member : s ∈ ss) :
    s.height ≤ heightAll ss :=
  (heightAll_le_iff ss _).mp (Nat.le_refl _) s member

theorem heightAll_same {ss ts : List Sentence}
    (each : ∀ t ∈ ts, ∀ s : Sentence, s.same t = true → s.height = t.height)
    (equal : sameAll ss ts = true) : heightAll ss = heightAll ts := by
  have members := (sameAll_iff ss ts).mp equal
  induction members with
  | nil => rfl
  | cons first rest ih =>
    rw [List.forall_mem_cons] at each
    rw [heightAll, heightAll, each.1 _ first, ih each.2 ((sameAll_iff _ _).mpr rest)]

theorem height_same {s t : Sentence} (plain : t.NegatesOnly fun _ => True)
    (equal : s.same t = true) : s.height = t.height := by
  induction plain generalizing s with
  | term =>
    cases s with
    | term => rfl
    | _ => simp [same] at equal
  | neg _ _ ih =>
    cases s with
    | neg s => exact congrArg (· + 1) (ih equal)
    | _ => simp [same] at equal
  | conj _ ih =>
    cases s with
    | conj ss => exact congrArg (· + 1) (heightAll_same (fun t member _ => ih t member) equal)
    | _ => simp [same] at equal
  | disj _ ih =>
    cases s with
    | disj ss => exact congrArg (· + 1) (heightAll_same (fun t member _ => ih t member) equal)
    | _ => simp [same] at equal

theorem exists_of_sameAll {ss ts : List Sentence} (equal : sameAll ss ts = true) {t : Sentence}
    (member : t ∈ ts) : ∃ s ∈ ss, s.same t = true :=
  partner_of_mem ((sameAll_iff ss ts).mp equal).flip member

namespace NegatesOnly

/-- Equality keeps what is asked of the negated formulas, if it keeps it of each. -/
theorem of_same {N : Sentence → Prop} (respects : ∀ s t, N s → s.same t = true → N t)
    {s t : Sentence} (given : NegatesOnly N s) (equal : s.same t = true) : NegatesOnly N t := by
  induction given generalizing t with
  | term =>
    cases t with
    | term p args => exact .term p args
    | _ => simp [same] at equal
  | neg _ negatable ih =>
    cases t with
    | neg t => exact .neg (ih equal) (respects _ t negatable equal)
    | _ => simp [same] at equal
  | conj _ ih =>
    cases t with
    | conj ts =>
      refine .conj fun t member => ?_
      obtain ⟨s, inside, found⟩ := exists_of_sameAll equal member
      exact ih s inside found
    | _ => simp [same] at equal
  | disj _ ih =>
    cases t with
    | disj ts =>
      refine .disj fun t member => ?_
      obtain ⟨s, inside, found⟩ := exists_of_sameAll equal member
      exact ih s inside found
    | _ => simp [same] at equal

end NegatesOnly

theorem isNeg_same (s t : Sentence) (proper : s.isNeg = false) (equal : s.same t = true) :
    t.isNeg = false := by
  cases t with
  | neg t =>
    cases s with
    | neg => simp [isNeg] at proper
    | _ => simp [same] at equal
  | _ => rfl

/-- Parts of a formula are no higher than the formula, and neither is what it denies. -/
theorem passesOn_height (n : Nat) :
    PassesOn fun s => s.NegatesOnly (fun _ => True) ∧ s.height ≤ n where
  parts {s part} given member := by
    obtain ⟨plain, bound⟩ := given
    obtain ⟨premises, consequent⟩ := NegatesOnly.hereditary.parts plain part member
    suffices bounds : (∀ a ∈ part.premises, a.height ≤ n) ∧ part.consequent.height ≤ n from
      ⟨fun a inside => ⟨premises a inside, bounds.1 a inside⟩, consequent, bounds.2⟩
    cases plain with
    | term => simp [Sentence.parts] at member
    | neg operand =>
      cases operand with
      | neg =>
        obtain rfl := List.mem_singleton.mp member
        simp only [height] at bound
        exact ⟨by simp, by dsimp only; omega⟩
      | _ => simp [Sentence.parts] at member
    | @conj ss each =>
      -- The members of a ladder are implications, of which a literal has none.
      have plainly : isLadder ss = false := by
        unfold isLadder
        split
        next guard rest otherwise more => cases each _ List.mem_cons_self
        next => rfl
      rw [Sentence.parts, if_neg (by simp [plainly])] at member
      obtain ⟨t, inside, rfl⟩ := List.mem_map.mp member
      have below := height_le_heightAll inside
      simp only [height] at bound
      exact ⟨by simp, by dsimp only; omega⟩
    | @disj ss each =>
      have below (t : Sentence) (inside : t ∈ ss) : t.height + 1 ≤ n :=
        (Nat.succ_le_succ (height_le_heightAll inside)).trans bound
      obtain ⟨last, found, rfl⟩ := List.mem_map.mp member
      have member_iff := mem_positives_iff ss last (Option.mem_toList.mp found)
      refine ⟨List.forall_mem_append.mpr
        ⟨fun a inside => ?_, List.forall_mem_map.mpr fun t inside => ?_⟩, ?_⟩
      · have negation := below _ ((mem_negatives ss a).mp inside)
        simp only [height] at negation
        omega
      · -- The negation of a disjunct is no higher than the disjunction.
        have disjunct := below t (positives_subset ss ((member_iff t).mpr (.inl inside)))
        have higher : t.negate.height ≤ t.height + 1 := by
          cases t with
          | neg t => simp only [negate, height]; omega
          | _ => exact Nat.le_refl _
        omega
      · have disjunct := below last (positives_subset ss ((member_iff last).mpr (.inr rfl)))
        dsimp only
        omega
  denied {s denial} given found := by
    obtain ⟨plain, bound⟩ := given
    refine ⟨NegatesOnly.hereditary.denied plain found, ?_⟩
    cases plain with
    | term | conj => simp [denied?] at found
    | neg =>
      simp only [denied?, Option.ite_none_left_eq_some, Option.some.injEq] at found
      simp only [height] at bound
      rw [← found.2]
      omega
    | @disj ss =>
      simp only [denied?, Option.ite_none_right_eq_some, Option.some.injEq] at found
      rw [← found.2]
      refine (Nat.succ_le_succ ?_).trans bound
      refine (heightAll_le_iff _ _).mpr fun t member => ?_
      have below := height_le_heightAll ((mem_negatives ss t).mp member)
      simp only [height] at below
      omega

end Sentence

namespace Clause

/-- Without a head, a clause denies its body. -/
theorem matrix_headless (c : Clause) (headless : c.head = none) :
    c.matrix = .neg c.bodySentence := by
  simp [matrix, headless]

theorem sameAll_body {c other : Clause} (equal : c.same other = true) :
    Sentence.sameAll c.body other.body = true := by
  simp only [same, Bool.and_eq_true] at equal
  exact equal.1.2

end Clause

namespace Dialect

variable {d : Dialect} {s : Sentence}

/-! ### Literals are no higher than their formulas -/

/-- A negation adds one to the height of what it is applied to. -/
theorem withPolarity_height {positive : Bool} {inner : Except Error Inlined} {n : Nat} {i : Inlined}
    (returned : d.withPolarity s positive inner = .ok i)
    (bound : ∀ j, inner = .ok j → j.formula.height ≤ n) :
    i.formula.height ≤ n + (!positive).toNat := by
  rcases withPolarity_ok d s positive inner i returned with ⟨rfl, kept⟩ | ⟨rfl, j, kept, rfl⟩
  · exact bound i kept
  · exact Nat.succ_le_succ (bound j kept)

/-- A literal is at most as high as its formula, and one higher if that is negated. -/
theorem inlined_height (plain : s.NegatesOnly fun _ => True) (positive : Bool) (i : Inlined)
    (returned : d.inlined s positive = .ok i) :
    i.formula.height ≤ s.height + (!positive).toNat := by
  induction plain generalizing positive i with
  | term p args =>
    rw [inlined] at returned
    refine withPolarity_height returned fun j kept => ?_
    obtain rfl := Except.ok.inj kept
    exact Nat.le_refl _
  | neg _ _ ih =>
    rw [inlined] at returned
    have inner := ih (!positive) i returned
    cases positive <;> simp [Sentence.height] at inner ⊢ <;> omega
  | conj _ ih | disj _ ih =>
    rw [inlined] at returned
    refine withPolarity_height returned fun j kept => ?_
    simp only [bind_ok_iff, pure_ok_iff] at kept
    obtain ⟨⟨vars, literals⟩, all, rfl⟩ := kept
    refine Nat.succ_le_succ ((Sentence.heightAll_le_iff _ _).mpr ?_)
    exact inlinedAll_each (fun s member i kept =>
      (ih s member true i kept).trans (Sentence.height_le_heightAll member)) all

theorem negatedLiteral_height (plain : s.NegatesOnly fun _ => True) (i : Inlined)
    (returned : d.negatedLiteral s = .ok i) : i.formula.height ≤ s.height + 1 := by
  have whole := inlined_height (d := d) plain true
  cases plain with
  | term p args =>
    obtain rfl := Except.ok.inj returned
    exact Nat.le_refl _
  | neg | conj | disj =>
    simp only [negatedLiteral, bind_ok_iff, pure_ok_iff] at returned
    obtain ⟨_, _, j, kept, rfl⟩ := returned
    exact Nat.succ_le_succ (whole j kept)

theorem Contributes.height {l : Sentence} {positive : Bool} (given : d.Contributes positive s l)
    (plain : s.NegatesOnly fun _ => True) : l.height ≤ s.height + (!positive).toNat := by
  induction given with
  | term => exact Nat.le_refl _
  | @neg positive s l _ ih =>
    have inner := ih plain.operand.1
    cases positive <;> simp [Sentence.height] at inner ⊢ <;> omega
  | conj member _ ih =>
    have inner := ih (plain.conjunct _ member)
    have below := Sentence.height_le_heightAll member
    simp [Sentence.height] at inner ⊢
    omega
  | disj _ member _ ih =>
    have inner := ih (plain.disjunct _ member)
    have below := Sentence.height_le_heightAll member
    simp [Sentence.height] at inner ⊢
    omega
  | kept _ _ literal => exact inlined_height plain true _ literal
  | negated _ literal => exact negatedLiteral_height plain _ literal
  -- Literals have no other connectives.
  | fails | holds | forward | backward | forSome => cases plain

/-! ### What comes back -/

/-- A clause is normalized by way of its matrix, once its quantifiers and its weight are passed. -/
theorem flatten_of_toSentence {c : Clause} {t : Sentence} {rules : Rules}
    (sentence : c.toSentence = .ok t) (returned : d.flatten t .outermost = .ok rules) :
    ∃ inner found, inner.conditions = [] ∧ d.flatten c.matrix inner = .ok found ∧
      found.clauses = rules.clauses := by
  have closed {inner : Setting} {rules : Rules} (outer : inner.conditions = [])
      (returned : d.flatten c.closed inner = .ok rules) : ∃ inner found, inner.conditions = [] ∧
        d.flatten c.matrix inner = .ok found ∧ found.clauses = rules.clauses := by
    unfold Clause.closed at returned
    split at returned
    · exact ⟨inner, rules, outer, returned, rfl⟩
    · simp only [flatten, bind_ok_iff, pure_ok_iff] at returned
      obtain ⟨found, flattened, rfl⟩ := returned
      exact ⟨inner, found, outer, flattened, rfl⟩
  rw [Clause.toSentence_eq] at sentence
  cases weight : c.weight with
  | none =>
    obtain rfl := Except.ok.inj (weight ▸ sentence)
    exact closed rfl returned
  | some w =>
    rw [weight] at sentence
    obtain ⟨rfl, -⟩ := SExpr.of_build_weighted w c.closed t sentence
    rw [flatten] at returned
    split at returned
    · simp at returned
    · split at returned
      · simp at returned
      · exact closed rfl returned

/-- A clause that comes back is given by what it says. -/
theorem Restores.gives {r : Option Registry} {c : Clause} (restored : d.Restores r c) :
    ∃ inner again names, inner.conditions = [] ∧ d.Gives names c.matrix inner again ∧
      again.same c = true := by
  obtain ⟨t, again, sentence, normalized, equal⟩ := restored
  have member : again ∈ (d.normalize r t).clauses := by
    unfold tryNormalize at normalized
    split at normalized
    · cases normalized
    · rw [Except.ok.inj normalized]
      exact List.mem_cons_self
  obtain ⟨rules, returned, given, inside, rfl, -⟩ := (d.mem_normalize r t again).mp member
  obtain ⟨inner, found, outer, flattened, clauses⟩ := flatten_of_toSentence sentence returned
  obtain ⟨names, gives⟩ := d.flatten_gives _ inner found flattened given (clauses ▸ inside)
  exact ⟨inner, given, names, outer, gives, equal⟩

/-- What is negated in a body is no negation itself, if the sentence has no double negation. -/
theorem negates_plain (d : Dialect) :
    d.Negates (NegatesOnly fun _ => True) fun t => t.isNeg = false :=
  d.negates_once NegatesOnly.hereditary (fun _ _ given => by cases given)
    fun _ _ given => by cases given

variable {r : Option Registry} {c : Clause}

/-- Literals that come back have no double negation. -/
theorem Restores.once (restored : d.Restores r c) (headless : c.head = none)
    (plain : c.bodySentence.NegatesOnly fun _ => True) :
    ∀ l ∈ c.body, l.NegatesOnly fun t => t.isNeg = false := by
  obtain ⟨inner, again, _, outer, given, equal⟩ := restored.gives
  rw [c.matrix_headless headless] at given
  have literals := given.each_literal NegatesOnly.hereditary.passesOn
    (fun _ _ holds contributed => contributed.negatesOnly d.negates_plain holds)
    (.neg plain trivial) (by simp [outer])
  intro l member
  obtain ⟨again, inside, same⟩ := Sentence.exists_of_sameAll (Clause.sameAll_body equal) member
  exact (literals again inside).of_same Sentence.isNeg_same same

/-- A lone negation does not come back: together with the denial it cancels, and what is found is no
higher than what was negated. -/
theorem Restores.proper (restored : d.Restores r c) (headless : c.head = none)
    (plain : c.bodySentence.NegatesOnly fun _ => True) : ¬ ∃ t, c.body = [.neg t] := by
  rintro ⟨t, lone⟩
  obtain ⟨inner, again, _, outer, given, equal⟩ := restored.gives
  have sentence : c.bodySentence = .neg t := by simp [Clause.bodySentence, lone]
  rw [sentence] at plain
  rw [c.matrix_headless headless, sentence] at given
  have literals : ∀ l ∈ again.body, l.height ≤ t.height := by
    cases given with
    | denied found => simp [Sentence.denied?, Sentence.isNeg] at found
    | part member expanded inside same _ _ given =>
      obtain rfl := List.mem_singleton.mp member
      obtain rfl := Except.ok.inj expanded
      obtain rfl := List.mem_singleton.mp inside
      exact given.each_literal (Sentence.passesOn_height t.height)
        (fun _ _ holds contributed => (contributed.height holds.1).trans holds.2)
        ⟨plain.operand.1, Nat.le_refl _⟩ (by simp [same, outer])
  obtain ⟨l, inside, same⟩ := Sentence.exists_of_sameAll (Clause.sameAll_body equal)
    (show .neg t ∈ c.body by simp [lone])
  have bound := literals l inside
  rw [Sentence.height_same plain same, Sentence.height] at bound
  omega

/-- A body counts as a negation only where it is a single negated literal. -/
theorem bodySentence_isNeg (c : Clause) : c.bodySentence.isNeg = true ↔ ∃ t, c.body = [.neg t] := by
  unfold Clause.bodySentence
  split
  next l single =>
    rw [single]
    cases l with
    | neg t => simp [Sentence.isNeg]
    | _ => simp [Sentence.isNeg]
  next more =>
    simp only [Sentence.isNeg, Bool.false_eq_true, false_iff]
    rintro ⟨t, lone⟩
    exact more _ lone

theorem bodySentence_plain (permitted : c.PermittedBy d) :
    c.bodySentence.NegatesOnly fun _ => True := by
  have literals (l : Sentence) (member : l ∈ c.body) : l.NegatesOnly fun _ => True :=
    (permitted.body l member).formula.mono fun _ _ => trivial
  unfold Clause.bodySentence
  split
  next l single => exact literals l (by simp [single])
  next => exact .conj literals

/-- A constraint comes back, alone and without a report, if its sentence is normalized, provided
that its literals have no double negation and that its body is not a lone negation; otherwise it
does not. Only an existential quantifier can leave a double negation in a literal. -/
theorem normalize_restores_constraint_iff (d : Dialect) (r : Option Registry) (s : Sentence)
    (numbers : Everywhere InRange s) (c : Clause) (member : c ∈ (d.normalize r s).clauses)
    (headless : c.head = none) :
    (d.Restores r c ↔ (∀ l ∈ c.body, l.NegatesOnly fun t => t.isNeg = false) ∧
      ¬ ∃ t, c.body = [.neg t]) ∧
    (s.Existless → ∀ l ∈ c.body, l.NegatesOnly fun t => t.isNeg = false) := by
  have plain := bodySentence_plain (d.normalize_permittedBy r member)
  refine ⟨⟨fun restored => ⟨restored.once headless plain, restored.proper headless plain⟩, ?_⟩, ?_⟩
  · rintro ⟨once, proper⟩
    refine restores_of_once r numbers member once fun _ => ?_
    rwa [← bodySentence_isNeg, Bool.not_eq_true] at proper
  · exact fun existless => normalize_once r existless member

private def strict : Dialect := ⟨false, true, false, false⟩

/-- Nothing is open without a lock. -/
private def locked : Sentence :=
  .forAll [⟨"x", []⟩] (.neg (.conj [.term "open" [.var "x" []], .neg (.term "lock" [.var "x" []])]))

theorem normalize_restores_constraint_iff_locked :
    Everywhere InRange locked ∧ ∃ c ∈ (strict.normalize none locked).clauses,
      c.head = none ∧ c.body.length = 2 ∧ strict.Restores none c := by
  have numbers := locked.inRange_of_isExpressible false (by decide)
  refine ⟨numbers, _, List.mem_cons_self, rfl, rfl, ?_⟩
  refine
    (normalize_restores_constraint_iff strict none locked numbers _ List.mem_cons_self rfl).1.mpr
      ⟨?_, by simp [Setting.clause, Setting.outermost]⟩
  simp only [Setting.clause, Setting.outermost, List.nil_append, List.cons_append,
    List.forall_mem_cons]
  exact ⟨.term _ _, .neg (.term _ _) rfl, by simp⟩

/-- It is not the case that `p` fails. -/
private def upheld : Sentence := .neg (.conj [.neg (.term "p" [])])

/-- The constraint that `p` does not fail comes back as the fact `p`. -/
theorem normalize_loses_constraint :
    ∃ c t, (strict.normalize none upheld).clauses = [c] ∧ c.head = none ∧ c.toSentence = .ok t ∧
      (∃ fact, (strict.normalize none t).clauses = [fact] ∧ fact.head = some (.term "p" []) ∧
        fact.body = []) ∧ ¬ strict.Restores none c := by
  refine ⟨⟨none, [.neg (.term "p" [])], [], none, none, 0⟩, .neg (.neg (.term "p" [])),
    rfl, rfl, rfl, ⟨_, rfl, rfl, rfl⟩, fun restored => ?_⟩
  exact restored.proper rfl (.neg (.term _ _) trivial) ⟨_, rfl⟩

end Dialect

end Clausal
