import Clausal.Proofs.Flattening

/-!
# Where the literals of a clause come from

Every literal of a body is contributed by one place in the formula: a term, a disjunction that is
kept as it is, or the negation of something. A clause has its literals from the premises of the
parts it was found under, and a constraint also from what is denied. What is known of the literals
that single places contribute is so known of all literals of all clauses.
-/

namespace Clausal

/-- How a formula is posed by a sentence, to be turned into literals: as a premise of a part, as what is
denied, or by the consequent of a part. -/
inductive Sentence.PosedBy (a : Sentence) : Sentence → Prop where
  | premise {s : Sentence} {part : Part} (member : part ∈ s.parts) (inside : a ∈ part.premises) :
      PosedBy a s
  | denied {s : Sentence} (found : s.denied? = some a) : PosedBy a s
  | consequent {s : Sentence} {part : Part} (member : part ∈ s.parts)
      (inner : PosedBy a part.consequent) : PosedBy a s

/-- A property that passes on from sentences to parts holds of what they pose. -/
theorem Sentence.PosedBy.passed {Q : Sentence → Prop} {a s : Sentence} (posed : a.PosedBy s)
    (passes : PassesOn Q) (holds : Q s) : Q a := by
  induction posed with
  | premise member inside => exact (passes.parts holds member).1 a inside
  | denied found => exact passes.denied holds found
  | consequent member _ ih => exact ih (passes.parts holds member).2

/-- Whether all literals of some alternative bodies have a property. -/
def Bodies.Each (P : Sentence → Prop) (b : Bodies) : Prop :=
  ∀ body ∈ b.alternatives, ∀ l ∈ body, P l

namespace Bodies

variable {P : Sentence → Prop} {x y : Bodies}

/-- The bodies of a product are made of a body of each factor. -/
theorem mem_cross (x y : Bodies) (body : List Sentence) :
    body ∈ (x.cross y).alternatives ↔
      ∃ left ∈ x.alternatives, ∃ right ∈ y.alternatives, body = left ++ right := by
  -- The right factor is the outer loop.
  simp only [cross, List.mem_flatMap, List.mem_map]
  constructor
  · rintro ⟨right, second, left, first, rfl⟩
    exact ⟨left, first, right, second, rfl⟩
  · rintro ⟨left, first, right, second, rfl⟩
    exact ⟨right, second, left, first, rfl⟩

theorem each_unit : unit.Each P := by simp [Each, unit]

theorem each_literal {i : Inlined} (holds : P i.formula) : (literal i).Each P := by
  simpa [Each, literal] using holds

theorem Each.append (first : x.Each P) (second : y.Each P) : (x.append y).Each P :=
  List.forall_mem_append.mpr ⟨first, second⟩

theorem Each.cross (first : x.Each P) (second : y.Each P) : (x.cross y).Each P := by
  intro body member
  obtain ⟨left, inLeft, right, inRight, rfl⟩ := (mem_cross x y body).mp member
  exact List.forall_mem_append.mpr ⟨first left inLeft, second right inRight⟩

theorem Each.mono {Q : Sentence → Prop} (given : x.Each P) (weaker : ∀ l, P l → Q l) : x.Each Q :=
  fun body member l inside => weaker l (given body member l inside)

end Bodies

namespace Dialect

theorem inlinedAll_each {d : Dialect} {P : Sentence → Prop} {ss literals : List Sentence}
    {vars : List TypedName} (each : ∀ s ∈ ss, ∀ i, d.inlined s true = .ok i → P i.formula)
    (returned : d.inlinedAll ss = .ok (vars, literals)) : ∀ l ∈ literals, P l := by
  induction ss generalizing vars literals with
  | nil =>
    simp only [inlinedAll, Except.ok.injEq, Prod.mk.injEq] at returned
    simp [← returned.2]
  | cons s ss ih =>
    rw [List.forall_mem_cons] at each
    simp only [inlinedAll, bind_ok_iff, pure_ok_iff, Prod.mk.injEq] at returned
    obtain ⟨i, first, ⟨restVars, rest⟩, others, _, rfl⟩ := returned
    exact List.forall_mem_cons.mpr ⟨each.1 i first, ih each.2 others⟩

/-- How a formula, or with `false` its negation, contributes a literal to a body. -/
inductive Contributes (d : Dialect) : Bool → Sentence → Sentence → Prop where
  | term (p : Text) (args : List Sentence) : Contributes d true (.term p args) (.term p args)
  | neg {positive : Bool} {s l : Sentence} (inner : Contributes d (!positive) s l) :
      Contributes d positive (.neg s) l
  | conj {ss : List Sentence} {s l : Sentence} (member : s ∈ ss) (inner : Contributes d true s l) :
      Contributes d true (.conj ss) l
  | disj {ss : List Sentence} {s l : Sentence} (splits : d.splitDisjunctions = true)
      (member : s ∈ ss) (inner : Contributes d true s l) : Contributes d true (.disj ss) l
  | fails {a b l : Sentence} (splits : d.splitDisjunctions = true)
      (inner : Contributes d false a l) : Contributes d true (.implies a b) l
  | holds {a b l : Sentence} (splits : d.splitDisjunctions = true)
      (inner : Contributes d true b l) : Contributes d true (.implies a b) l
  | forward {a b l : Sentence} (inner : Contributes d true (.implies a b) l) :
      Contributes d true (.iff a b) l
  | backward {a b l : Sentence} (inner : Contributes d true (.implies b a) l) :
      Contributes d true (.iff a b) l
  | forSome {vars : List TypedName} {s l : Sentence} (inner : Contributes d true s l) :
      Contributes d true (.forSome vars s) l
  /-- A disjunction, or an implication in place of one, is kept where it is not split. -/
  | kept {s : Sentence} {i : Inlined} (whole : d.splitDisjunctions = false)
      (either : s.kind = .disj ∨ s.kind = .implies) (literal : d.inlined s true = .ok i) :
      Contributes d true s i.formula
  | negated {s : Sentence} {i : Inlined} (proper : s.isNeg = false)
      (literal : d.negatedLiteral s = .ok i) : Contributes d false s i.formula

variable {d : Dialect}

/-- The negation of a formula that is no negation itself has one body with one literal. -/
theorem bodies_false (d : Dialect) (s : Sentence) (proper : s.isNeg = false) :
    d.bodies s false = (do return .literal (← d.negatedLiteral s)) := by
  cases s with
  | neg => simp [Sentence.isNeg] at proper
  | _ => rfl

/-- A formula that is no negation has one literal for its negation. -/
theorem contributes_of_positive {s : Sentence} {positive : Bool} {b : Bodies}
    (proper : s.isNeg = false) (returned : d.bodies s positive = .ok b)
    (affirmed : d.bodies s true = .ok b → b.Each (d.Contributes true s)) :
    b.Each (d.Contributes positive s) := by
  cases positive with
  | true => exact affirmed returned
  | false =>
    simp only [bodies_false d s proper, bind_ok_iff, pure_ok_iff] at returned
    obtain ⟨i, literal, rfl⟩ := returned
    exact Bodies.each_literal (.negated proper literal)

theorem conjunction_each {P : Sentence → Prop} {ss : List Sentence} {sofar b : Bodies}
    (each : ∀ s ∈ ss, ∀ x, d.bodies s true = .ok x → x.Each P) (before : sofar.Each P)
    (returned : d.conjunction sofar ss = .ok b) : b.Each P := by
  induction ss generalizing sofar with
  | nil =>
    obtain rfl := Except.ok.inj returned
    exact before
  | cons s ss ih =>
    rw [List.forall_mem_cons] at each
    simp only [conjunction, bind_ok_iff] at returned
    obtain ⟨x, first, rest⟩ := returned
    exact ih each.2 (before.cross (each.1 x first)) rest

theorem disjunction_each {P : Sentence → Prop} {ss : List Sentence} {b : Bodies}
    (each : ∀ s ∈ ss, ∀ x, d.bodies s true = .ok x → x.Each P)
    (returned : d.disjunction ss = .ok b) : b.Each P := by
  induction ss generalizing b with
  | nil =>
    obtain rfl := Except.ok.inj returned
    simp [Bodies.Each]
  | cons s ss ih =>
    rw [List.forall_mem_cons] at each
    simp only [disjunction, bind_ok_iff, pure_ok_iff] at returned
    obtain ⟨x, first, y, rest, rfl⟩ := returned
    exact (each.1 x first).append (ih each.2 rest)

/-- The literals of an implication come from the negated antecedent or from the consequent. -/
theorem either_contributes {a b : Sentence} {x : Bodies}
    (left : ∀ y, d.bodies a false = .ok y → y.Each (d.Contributes false a))
    (right : ∀ y, d.bodies b true = .ok y → y.Each (d.Contributes true b))
    (returned : d.either (.implies a b) (d.bodies a false) (d.bodies b true) = .ok x) :
    x.Each (d.Contributes true (.implies a b)) := by
  unfold either at returned
  split at returned
  next splits =>
    simp only [bind_ok_iff, pure_ok_iff] at returned
    obtain ⟨y, fails, z, holds, rfl⟩ := returned
    exact ((left y fails).mono fun _ => .fails splits).append
      ((right z holds).mono fun _ => .holds splits)
  next whole =>
    simp only [bind_ok_iff, pure_ok_iff] at returned
    obtain ⟨i, kept, rfl⟩ := returned
    exact Bodies.each_literal (.kept (by simpa using whole) (.inr rfl) kept)

/-- Every literal of every body of a formula is contributed by it. -/
theorem bodies_contributes {s : Sentence} {positive : Bool} {b : Bodies}
    (returned : d.bodies s positive = .ok b) : b.Each (d.Contributes positive s) := by
  induction s generalizing positive b with
  | neg s ih =>
    rw [bodies] at returned
    exact (ih returned).mono fun _ => .neg
  | term p args =>
    refine contributes_of_positive rfl returned fun returned => ?_
    obtain rfl := Except.ok.inj returned
    exact Bodies.each_literal (.term p args)
  | conj ss ih =>
    refine contributes_of_positive rfl returned fun returned => ?_
    exact conjunction_each (fun s member x found => (ih s member found).mono fun _ => .conj member)
      Bodies.each_unit returned
  | disj ss ih =>
    refine contributes_of_positive rfl returned fun returned => ?_
    rw [bodies] at returned
    split at returned
    next splits =>
      exact disjunction_each
        (fun s member x found => (ih s member found).mono fun _ => .disj splits member) returned
    next whole =>
      simp only [bind_ok_iff, pure_ok_iff] at returned
      obtain ⟨i, kept, rfl⟩ := returned
      exact Bodies.each_literal (.kept (by simpa using whole) (.inl rfl) kept)
  | implies a c left right =>
    refine contributes_of_positive rfl returned fun returned => ?_
    simp only [bodies, bind_ok_iff] at returned
    obtain ⟨_, _, returned⟩ := returned
    exact either_contributes (fun _ => left) (fun _ => right) returned
  | iff a c left right =>
    refine contributes_of_positive rfl returned fun returned => ?_
    simp only [bodies, bind_ok_iff, pure_ok_iff] at returned
    obtain ⟨_, _, _, _, x, forward, y, backward, rfl⟩ := returned
    have first := either_contributes (fun _ => left) (fun _ => right) forward
    have second := either_contributes (fun _ => right) (fun _ => left) backward
    exact (first.mono fun _ => .forward).cross (second.mono fun _ => .backward)
  | forSome vars s ih =>
    refine contributes_of_positive rfl returned fun returned => ?_
    simp only [bodies, bind_ok_iff, pure_ok_iff] at returned
    obtain ⟨x, inner, rfl⟩ := returned
    -- The quantifier only records its variables.
    have literals : x.Each (d.Contributes true (.forSome vars s)) :=
      (ih inner).mono fun _ => .forSome
    exact literals
  | var | const | forAll | weighted | evidence | missing =>
    refine contributes_of_positive rfl returned fun returned => ?_
    simp [bodies] at returned

/-- Every literal of every body of a conjunction is contributed by a conjunct. -/
theorem conjunction_contributes {ss : List Sentence} {b : Bodies}
    (returned : d.conjunction .unit ss = .ok b) :
    b.Each fun l => ∃ s ∈ ss, d.Contributes true s l :=
  conjunction_each
    (fun s member _ found => (bodies_contributes found).mono fun _ given => ⟨s, member, given⟩)
    Bodies.each_unit returned

/-- Every literal of a clause is a condition that the clause was found under, or contributed by a
formula that the sentence poses. -/
theorem Gives.posed {names : List Text} {s : Sentence} {c : Setting} {clause : Clause}
    (given : d.Gives names s c clause) :
    ∀ l ∈ clause.body, l ∈ c.conditions ∨ ∃ a, a.PosedBy s ∧ d.Contributes true a l := by
  induction given with
  | fact p args c =>
    intro l member
    exact .inl (by simpa [Setting.clause] using member)
  | denied found expanded inside _ _ =>
    refine List.forall_mem_append.mpr ⟨fun l condition => .inl condition, fun l literal => ?_⟩
    exact .inr ⟨_, .denied found, bodies_contributes expanded _ inside l literal⟩
  | part member expanded inside same _ _ _ ih =>
    intro l literal
    rcases ih l literal with condition | ⟨a, posed, contributed⟩
    · -- The conditions for the consequent are those from outside and the literals of the premises.
      rw [same] at condition
      rcases List.mem_append.mp condition with outside | within
      · exact .inl outside
      · obtain ⟨a, premise, contributed⟩ := conjunction_contributes expanded _ inside l within
        exact .inr ⟨a, .premise member premise, contributed⟩
    · exact .inr ⟨a, .consequent member posed, contributed⟩

/-- What is contributed by formulas with a property that is passed on holds of all literals of a
clause, if it holds of the conditions that the clause was found under. -/
theorem Gives.each_literal {P Q : Sentence → Prop} {names : List Text} {s : Sentence} {c : Setting}
    {clause : Clause} (given : d.Gives names s c clause) (passes : Sentence.PassesOn Q)
    (contributed : ∀ a l, Q a → d.Contributes true a l → P l) (holds : Q s)
    (conditions : ∀ l ∈ c.conditions, P l) : ∀ l ∈ clause.body, P l := by
  intro l member
  rcases given.posed l member with condition | ⟨a, posed, literal⟩
  · exact conditions l condition
  · exact contributed a l (posed.passed passes holds) literal

end Dialect

end Clausal
