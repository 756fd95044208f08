import Clausal.Clause.Normalize
import Clausal.Proofs.Declarations
import Clausal.Proofs.Sentence
import Clausal.Theory.Parents

/-!
# Parents give usable rules

Every declared predicate with each of its parents gives a sentence, or else a report that their
signatures do not fit. The sentences pass the checks made on clauses elsewhere: they have the declared
arities, and all variables of the head are bound, because the parent is applied to arguments of the
child in each of the ways to match the two signatures.

## Main results

`Predicate.Fits.normalize`: a sentence for a parent becomes one rule in every dialect.

`Theory.parentGroup_usable`: what the predicates of a registry and their parents give.
-/

namespace Clausal

namespace Predicate

def argumentNames (p : Predicate) : List Text := p.arguments.map TypedName.name

theorem vars_eq (p : Predicate) : p.vars = p.argumentNames.map fun name => .var name [] := by
  rw [vars, argumentNames, List.map_map]
  rfl

theorem length_argumentNames (p : Predicate) : p.argumentNames.length = p.arity :=
  List.length_map _

variable {r : Registry} {child : Predicate} {parent : Text} {names : List Text}

/-! ### Signatures -/

/-- How a parent is applied to arguments of a child: to all of them if it is not declared, to those
that it names, or to all of them in order where the child lacks a name but the arities agree. -/
inductive Fits (r : Registry) (child : Predicate) (parent : Text) : List Text → Prop where
  | undeclared (absent : r.predicate? parent = none) : Fits r child parent child.argumentNames
  | named {p : Predicate} (declared : r.predicate? parent = some p)
      (known : p.argumentNames ⊆ child.argumentNames) : Fits r child parent p.argumentNames
  | positional {p : Predicate} (declared : r.predicate? parent = some p)
      (lacks : ¬ p.argumentNames ⊆ child.argumentNames) (arity : p.arity = child.arity) :
      Fits r child parent child.argumentNames

/-- Whether a parent is declared with an argument that the child lacks and with another arity. -/
def Mismatched (r : Registry) (child : Predicate) (parent : Text) : Prop :=
  ∃ p, r.predicate? parent = some p ∧ (∃ name ∈ p.argumentNames, name ∉ child.argumentNames) ∧
    p.arity ≠ child.arity

/-- A parent is applied to arguments of the child only. -/
theorem Fits.subset (fits : Fits r child parent names) : names ⊆ child.argumentNames := by
  cases fits with
  | undeclared => exact List.Subset.refl _
  | named _ known => exact known
  | positional => exact List.Subset.refl _

/-- A parent is given as many arguments as it is declared with. -/
theorem Fits.length (fits : Fits r child parent names) {p : Predicate}
    (found : r.predicate? parent = some p) : p.arity = names.length := by
  cases fits with
  | undeclared absent => simp [found] at absent
  | named declared =>
    obtain rfl := Option.some.inj (found.symm.trans declared)
    rw [length_argumentNames]
  | positional declared _ arity =>
    obtain rfl := Option.some.inj (found.symm.trans declared)
    rw [arity, length_argumentNames]

/-- The search for arguments succeeds unless the signatures do not match. -/
theorem parentArguments?_cases (r : Registry) (child : Predicate) (parent : Text) :
    (¬ Mismatched r child parent ∧ ∃ names, Fits r child parent names ∧
      child.parentArguments? (r.predicate? parent) = some (names.map fun name => .var name [])) ∨
    (Mismatched r child parent ∧ child.parentArguments? (r.predicate? parent) = none) := by
  cases found : r.predicate? parent with
  | none =>
    refine .inl ⟨?_, _, .undeclared found, by rw [parentArguments?, vars_eq]⟩
    rintro ⟨p, declared, -⟩
    simp [found] at declared
  | some p =>
    have known : (p.arguments.all fun a => (child.arguments.map TypedName.name).contains a.name) =
        true ↔ p.argumentNames ⊆ child.argumentNames := by
      simp [argumentNames, List.subset_def]
    have mismatched : Mismatched r child parent ↔
        ¬ p.argumentNames ⊆ child.argumentNames ∧ p.arity ≠ child.arity := by
      simp [Mismatched, found, List.subset_def]
    rw [parentArguments?, mismatched]
    -- Names are tried first, and positions only where a name is missing.
    by_cases all : p.argumentNames ⊆ child.argumentNames
    · rw [if_pos (known.mpr all), vars_eq]
      exact .inl ⟨fun both => both.1 all, _, .named found all, rfl⟩
    · rw [if_neg (mt known.mp all)]
      by_cases arity : p.arity = child.arity
      · rw [if_pos arity, vars_eq]
        exact .inl ⟨fun both => both.2 arity, _, .positional found all arity, rfl⟩
      · rw [if_neg arity]
        exact .inr ⟨⟨all, arity⟩, rfl⟩

/-! ### Clauses -/

/-- The rule that a sentence for a parent stands for. -/
def parentRule (child : Predicate) (parent : Text) (names : List Text) : Clause :=
  ⟨some (.term parent (names.map fun name => .var name [])), [.term child.name child.vars],
    child.arguments, none, none, 0⟩

/-- In every dialect, the sentence for a parent is a rule with one premise. -/
theorem flatten_parentSentence (d : Dialect) (child : Predicate) (parent : Text)
    (names : List Text) :
    d.flatten (child.parentSentence parent (names.map fun name => .var name [])) .outermost =
      .ok ⟨child.arguments, 0, [{ child.parentRule parent names with vars := [] }]⟩ := by
  rw [← List.append_nil child.arguments]
  rfl

/-- Variables have no arity to check. -/
theorem checkArity_vars (r : Registry) (predicate : Text) (names : List Text)
    (arity : ∀ p, r.predicate? predicate = some p → p.arity = names.length) :
    r.checkArity (.term predicate (names.map fun name => .var name [])) = .ok () := by
  have term : r.checkTerm predicate (names.map fun name => .var name []) = .ok () := by
    unfold Registry.checkTerm
    split
    next p found => rw [if_pos ((arity p found).trans (List.length_map _).symm)]
    next => rfl
  have arguments : r.checkArities (names.map fun name => .var name []) = .ok () := by
    clear arity term
    induction names with
    | nil => rfl
    | cons name names ih =>
      rw [List.map_cons, Registry.checkArities, ih]
      rfl
  rw [Registry.checkArity, term, arguments]
  rfl

theorem mem_freeVars_vars (predicate : Text) (names : List Text) (x : Text) :
    x ∈ (Sentence.term predicate (names.map fun name => .var name [])).freeVars ↔ x ∈ names := by
  simp [Sentence.mem_freeVars, Sentence.freeIn, Sentence.mem_freeInAll]

/-- The rule for a parent passes the checks. -/
theorem Fits.check (declared : r.predicate? child.name = some child)
    (ordinary : isBuiltin child.name = false) (fits : Fits r child parent names) :
    (child.parentRule parent names).check (some r) = .ok () := by
  have head := checkArity_vars r parent names fun _ found => fits.length found
  have body := checkArity_vars r child.name child.argumentNames fun p found => by
    rw [← Option.some.inj (declared.symm.trans found), length_argumentNames]
  rw [← vars_eq] at body
  -- The only literal of the body binds all arguments of the child, and the head has no others.
  have bound {x : Text} (member : x ∈ names) : x ∈ (child.parentRule parent names).boundVars := by
    rw [Clause.boundVars, Names.mem_ofList, parentRule, vars_eq]
    simp [Sentence.positiveVarsOf, Sentence.positiveVars, ordinary, mem_freeVars_vars,
      fits.subset member]
  have safe : (Sentence.term parent (names.map fun name => .var name [])).freeVars.find? (fun name =>
      !(child.parentRule parent names).boundVars.contains name) = none := by
    rw [List.find?_eq_none]
    intro x free
    simpa using bound ((mem_freeVars_vars parent names x).mp free)
  unfold Clause.check
  simp only [parentRule, Option.toList, List.singleton_append, List.forM_eq_forM, List.forM_cons,
    List.forM_nil, Registry.checkArity?, head, body]
  rw [parentRule] at safe
  simp only [safe]
  rfl

/-- In every dialect a sentence for a parent becomes one rule. -/
theorem Fits.normalize (declared : r.predicate? child.name = some child)
    (ordinary : isBuiltin child.name = false) (fits : Fits r child parent names) (d : Dialect) :
    d.normalize (some r) (child.parentSentence parent (names.map fun name => .var name [])) =
      ⟨[child.parentRule parent names], []⟩ := by
  have passes := fits.check declared ordinary
  rw [Dialect.normalize, flatten_parentSentence]
  simp only [List.map_cons, List.map_nil, Dialect.checkClauses]
  rw [show { child.parentRule parent names with vars := child.arguments } =
    child.parentRule parent names from rfl, passes]
  rfl

end Predicate

/-! ### All parents -/

namespace Theory

/-- Whether a report says that a parent of a predicate does not match. -/
structure ReportsMismatch (report : Diagnostic) (child parent : Text) : Prop where
  kind : report.kind = .arityMismatch
  message : report.message =
    "parent " ++ parent ++ " of " ++ child ++ " shares no argument names and differs in arity"
  group : report.group = "Inferred"
  sentence : report.sentence = []

/-- What a predicate and one of its parents give: a sentence for a parent that fits, which becomes one
rule in every dialect unless the predicate has a fixed meaning, or a report on one that does not. -/
inductive Infers (r : Registry) (child : Predicate) (parent : Text) : Sentence ⊕ Diagnostic → Prop where
  | sentence {names : List Text} (matched : ¬ child.Mismatched r parent)
      (fits : child.Fits r parent names) (known : names ⊆ child.argumentNames)
      (usable : isBuiltin child.name = false → ∀ d : Dialect, d.normalize (some r)
        (child.parentSentence parent (names.map fun name => .var name [])) =
          ⟨[child.parentRule parent names], []⟩) :
      Infers r child parent (.inl (child.parentSentence parent (names.map fun name => .var name [])))
  | report {report : Diagnostic} (mismatched : child.Mismatched r parent)
      (reports : ReportsMismatch report child.name parent) : Infers r child parent (.inr report)

def inferred (outcomes : List (Sentence ⊕ Diagnostic)) : List Sentence :=
  outcomes.filterMap Sum.getLeft?

/-- Whether every report among some outcomes counts the sentences before it, `earlier` of which were
found before all of them. -/
def Counted (earlier : Nat) (outcomes : List (Sentence ⊕ Diagnostic)) : Prop :=
  ∀ before report after, outcomes = before ++ .inr report :: after →
    report.index = earlier + (inferred before).length

variable {r : Registry} {child : Predicate} {parent : Text} {earlier : Nat}
  {outcomes : List (Sentence ⊕ Diagnostic)}

theorem Infers.exists_sentence {outcome : Sentence ⊕ Diagnostic}
    (infers : Infers r child parent outcome) (matched : ¬ child.Mismatched r parent) :
    ∃ s, outcome = .inl s := by
  cases infers with
  | sentence => exact ⟨_, rfl⟩
  | report mismatched => exact absurd mismatched matched

theorem Infers.exists_report {outcome : Sentence ⊕ Diagnostic}
    (infers : Infers r child parent outcome) (mismatched : child.Mismatched r parent) :
    ∃ report, outcome = .inr report ∧ ReportsMismatch report child.name parent := by
  cases infers with
  | sentence matched => exact absurd mismatched matched
  | report _ reports => exact ⟨_, rfl, reports⟩

theorem counted_nil : Counted earlier [] := by
  intro before report after split
  simp at split

theorem Counted.sentence (counted : Counted (earlier + 1) outcomes) (s : Sentence) :
    Counted earlier (.inl s :: outcomes) := by
  intro before report after split
  cases before with
  | nil => simp at split
  | cons first before =>
    obtain ⟨rfl, rfl⟩ := List.cons.inj split
    have later := counted before report after rfl
    simp only [inferred, List.filterMap_cons, Sum.getLeft?_inl, List.length_cons] at later ⊢
    omega

theorem Counted.report (counted : Counted earlier outcomes) {report : Diagnostic}
    (index : report.index = earlier) : Counted earlier (.inr report :: outcomes) := by
  intro before other after split
  cases before with
  | nil =>
    obtain ⟨same, -⟩ := List.cons.inj split
    obtain rfl := Sum.inr.inj same
    exact index
  | cons first before =>
    obtain ⟨rfl, rfl⟩ := List.cons.inj split
    exact counted before other after rfl

/-- For a predicate of a consistent registry, each parent gives a sentence or a report. -/
theorem infers_of_consistent (consistent : r.Consistent) (declared : child ∈ r.predicates)
    (parent : Text) :
    (∃ args, child.parentArguments? (r.predicate? parent) = some args ∧
      Infers r child parent (.inl (child.parentSentence parent args))) ∨
    (child.parentArguments? (r.predicate? parent) = none ∧
      ∀ index, Infers r child parent (.inr (parentMismatch child.name parent index))) := by
  have own : r.predicate? child.name = some child :=
    (find?_name_iff consistent.predicateNames child.name child).mpr ⟨declared, rfl⟩
  rcases child.parentArguments?_cases r parent with ⟨matched, names, fits, found⟩ | ⟨mismatched, none⟩
  · refine .inl ⟨_, found, .sentence matched fits fits.subset ?_⟩
    exact fun ordinary => fits.normalize own ordinary
  · exact .inr ⟨none, fun index => .report mismatched ⟨rfl, rfl, rfl, rfl⟩⟩

/-- The pairs are dealt with one after another, and each gives one sentence or one report. -/
theorem parentSentences_infers (consistent : r.Consistent) (pairs : List (Predicate × Text))
    (declared : ∀ pair ∈ pairs, pair.1 ∈ r.predicates) (sofar : List Sentence) :
    ∃ outcomes : List (Sentence ⊕ Diagnostic),
      List.Forall₂ (fun pair outcome => Infers r pair.1 pair.2 outcome) pairs outcomes ∧
      Counted sofar.length outcomes ∧
      parentSentences r pairs sofar =
        (sofar ++ inferred outcomes, outcomes.filterMap Sum.getRight?) := by
  induction pairs generalizing sofar with
  | nil => exact ⟨[], .nil, counted_nil, by simp [parentSentences, inferred]⟩
  | cons pair pairs ih =>
    obtain ⟨child, parent⟩ := pair
    rw [List.forall_mem_cons] at declared
    rcases infers_of_consistent consistent declared.1 parent with ⟨args, found, infers⟩ | ⟨none, infers⟩
    · obtain ⟨outcomes, each, counted, equal⟩ :=
        ih declared.2 (sofar ++ [child.parentSentence parent args])
      rw [List.length_append, List.length_singleton] at counted
      exact ⟨_ :: outcomes, .cons infers each, counted.sentence _, by
        simp [parentSentences, found, equal, inferred, List.filterMap_cons]⟩
    · obtain ⟨outcomes, each, counted, equal⟩ := ih declared.2 sofar
      exact ⟨_ :: outcomes, .cons (infers sofar.length) each, counted.report rfl, by
        simp [parentSentences, none, equal, inferred, List.filterMap_cons]⟩

/-- After any declarations every predicate with each of its parents gives, in order, one sentence or
one report of an arity mismatch. A report is given exactly if the parent is declared with an argument
that the predicate lacks and with another arity, and its place in the group of the sentences is after
those found before it. A sentence becomes one rule, without a report, in every dialect. -/
theorem parentGroup_usable (t : Theory) (ds : List Declaration)
    (reached : t.registry = Registry.empty.attemptAll ds) :
    ∃ outcomes : List (Sentence ⊕ Diagnostic),
      List.Forall₂ (fun pair outcome => Infers t.registry pair.1 pair.2 outcome)
        (parentPairs t.registry) outcomes ∧
      Counted 0 outcomes ∧
      t.parentGroup.1.name = "Inferred" ∧
      t.parentGroup.1.sentences = inferred outcomes ∧
      t.parentGroup.2 = outcomes.filterMap Sum.getRight? := by
  have consistent : t.registry.Consistent := reached ▸ Registry.consistent_empty.attemptAll ds
  have declared : ∀ pair ∈ parentPairs t.registry, pair.1 ∈ t.registry.predicates := by
    simp only [parentPairs, List.mem_flatMap, List.mem_map]
    rintro _ ⟨child, member, parent, -, rfl⟩
    exact member
  obtain ⟨outcomes, each, counted, equal⟩ := parentSentences_infers consistent _ declared []
  rw [List.nil_append] at equal
  exact ⟨outcomes, each, counted, rfl, by rw [parentGroup, equal], by rw [parentGroup, equal]⟩

private def animal : Predicate := ⟨"animal", [⟨"name", "str"⟩], [], []⟩

private def kennel : Predicate :=
  ⟨"kennel", [⟨"street", "str"⟩, ⟨"city", "str"⟩, ⟨"phone", "str"⟩], [], []⟩

private def dog : Predicate :=
  ⟨"dog", [⟨"name", "str"⟩, ⟨"breed", "str"⟩], [], ["animal", "kennel", "pet"]⟩

/-- A theory where one parent names an argument, one does not match and one is not declared. -/
private def dogs : Theory := { empty "dogs" with registry := ⟨[], [animal, kennel, dog]⟩ }

theorem parentGroup_usable_dogs :
    dogs.registry = Registry.empty.attemptAll [.predicate animal, .predicate kennel, .predicate dog] ∧
      ∃ isAnimal isPet report, Infers dogs.registry dog "animal" (.inl isAnimal) ∧
        Infers dogs.registry dog "kennel" (.inr report) ∧
        Infers dogs.registry dog "pet" (.inl isPet) ∧
        dogs.parentGroup.1.sentences = [isAnimal, isPet] ∧ dogs.parentGroup.2 = [report] ∧
        report.kind = .arityMismatch ∧ report.group = "Inferred" ∧ report.index = 1 := by
  have reached : dogs.registry =
      Registry.empty.attemptAll [.predicate animal, .predicate kennel, .predicate dog] := by
    decide +kernel
  obtain ⟨outcomes, each, counted, -, sentences, reports⟩ := parentGroup_usable dogs _ reached
  have pairs : parentPairs dogs.registry =
      ["animal", "kennel", "pet"].map fun parent => (dog, Text.ofString parent) := rfl
  rw [pairs] at each
  obtain _ | ⟨first, _ | ⟨second, _ | ⟨third, _ | _⟩⟩⟩ := each
  -- The kennel has three arguments and none of them is an argument of a dog.
  have noKennel : dog.Mismatched dogs.registry "kennel" :=
    ⟨kennel, rfl, ⟨"street", by decide, by decide⟩, by decide⟩
  have animals : ¬ dog.Mismatched dogs.registry "animal" := by
    rintro ⟨p, found, ⟨name, inside, lacking⟩, -⟩
    obtain rfl := Option.some.inj found
    obtain rfl := List.mem_singleton.mp inside
    exact lacking (by decide)
  have pets : ¬ dog.Mismatched dogs.registry "pet" := by
    rintro ⟨p, found, -⟩
    cases found
  obtain ⟨isAnimal, rfl⟩ := first.exists_sentence animals
  obtain ⟨report, rfl, mismatch⟩ := second.exists_report noKennel
  obtain ⟨isPet, rfl⟩ := third.exists_sentence pets
  have index := counted [.inl isAnimal] report [.inl isPet] rfl
  exact ⟨reached, isAnimal, isPet, report, first, second, third, sentences, reports, mismatch.kind,
    mismatch.group, index⟩

end Theory

end Clausal
