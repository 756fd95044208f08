import Clausal.Proofs.Normalization

/-!
# Clauses in first-order structures

A first-order structure interprets constants, functions and predicates over a carrier, and its
assignments are the points of an interpretation. Wherever the closure of a sentence is true, so is
the closure of each of its clauses, unless the body of the clause mentions a variable that the
sentence asserts to exist. Such a variable becomes a variable of the clause like any other, and a
clause speaks of all its values.
-/

namespace Clausal

universe u

/-- A first-order structure. Constants that are the same denote the same element. -/
structure Structure where
  Carrier : Type u
  constant : Value → Carrier
  constant_same : ∀ v w, Value.same v w = true → constant v = constant w
  function : Text → List Carrier → Carrier
  relation : Text → List Carrier → Prop
  /-- What is denoted by an argument that is neither a variable, a constant nor a term. -/
  other : Carrier

namespace Structure

variable (M : Structure.{u})

mutual

/-- What an argument denotes under an assignment. -/
def denote (ρ : Text → M.Carrier) : Sentence → M.Carrier
  | .term f args => M.function f (denoteAll ρ args)
  | .var name _ => ρ name
  | .const v => M.constant v
  | _ => M.other

def denoteAll (ρ : Text → M.Carrier) : List Sentence → List M.Carrier
  | [] => []
  | s :: ss => denote ρ s :: denoteAll ρ ss

end

theorem denoteAll_same (ρ : Text → M.Carrier) (args others : List Sentence)
    (each : ∀ s ∈ args, ∀ t, s.same t = true → M.denote ρ s = M.denote ρ t)
    (equal : Sentence.sameAll args others = true) :
    M.denoteAll ρ args = M.denoteAll ρ others := by
  rw [Sentence.sameAll_iff] at equal
  induction equal with
  | nil => rfl
  | cons first _ ih =>
    rw [List.forall_mem_cons] at each
    rw [denoteAll, denoteAll, each.1 _ first, ih each.2]

/-- Arguments that are the same denote the same element. -/
theorem denote_same (ρ : Text → M.Carrier) (s t : Sentence) (equal : s.same t = true) :
    M.denote ρ s = M.denote ρ t := by
  induction s generalizing t with
  | term f args ih =>
    cases t <;> simp [Sentence.same] at equal
    obtain ⟨rfl, equal⟩ := equal
    rw [denote, denote, M.denoteAll_same ρ args _ ih equal]
  | var name type =>
    cases t <;> simp [Sentence.same] at equal
    simp [denote, equal.1]
  | const v =>
    cases t <;> simp [Sentence.same] at equal
    exact M.constant_same _ _ equal
  | _ => cases t <;> simp [Sentence.same, denote] at equal ⊢

theorem denoteAll_congr (ρ σ : Text → M.Carrier) (args : List Sentence)
    (each : ∀ s ∈ args, (∀ x ∈ s.freeIn [], ρ x = σ x) → M.denote ρ s = M.denote σ s)
    (agree : ∀ x ∈ Sentence.freeInAll [] args, ρ x = σ x) :
    M.denoteAll ρ args = M.denoteAll σ args := by
  induction args with
  | nil => rfl
  | cons s ss ih =>
    rw [List.forall_mem_cons] at each
    rw [Sentence.freeInAll, List.forall_mem_append] at agree
    rw [denoteAll, denoteAll, each.1 agree.1, ih each.2 agree.2]

theorem denote_congr (ρ σ : Text → M.Carrier) (s : Sentence)
    (agree : ∀ x ∈ s.freeIn [], ρ x = σ x) : M.denote ρ s = M.denote σ s := by
  induction s with
  | term f args ih => rw [denote, denote, M.denoteAll_congr ρ σ args ih agree]
  | var name type => exact agree name (by simp [Sentence.freeIn])
  | _ => rfl

/-- The assignments of a structure as the points of an interpretation. -/
def toInterpretation : Interpretation.{u} where
  Point := Text → M.Carrier
  atom ρ predicate args := M.relation predicate (M.denoteAll ρ args)
  agree names ρ σ := ∀ x, x ∉ names → ρ x = σ x
  agree_refl _ _ _ _ := rfl
  agree_symm _ _ _ agree x outside := (agree x outside).symm
  agree_trans _ _ _ _ first second x outside := (first x outside).trans (second x outside)
  agree_mono _ _ _ _ included agree x outside := agree x fun inside => outside (included inside)
  atom_same ρ _ args others equal := by
    rw [M.denoteAll_same ρ args others (fun s _ t => M.denote_same ρ s t) equal]
  atom_agree _ ρ σ _ args agree clear := by
    have equal := M.denoteAll_congr ρ σ args (fun s _ => M.denote_congr ρ σ s)
      fun x found => agree x (clear x found)
    rw [equal]

/-- Whether a sentence is true under every assignment. -/
def Models (s : Sentence) : Prop := ∀ ρ, M.toInterpretation.Holds ρ s

/-- A quantifier over everything adds nothing to truth under every assignment. -/
theorem models_forAll (vars : List TypedName) (s : Sentence) :
    M.Models (.forAll vars s) ↔ M.Models s := by
  constructor
  · intro all ρ
    exact all ρ ρ (M.toInterpretation.agree_refl _ ρ)
  · intro all ρ σ _
    exact all σ

theorem models_closure (s : Sentence) : M.Models s.closure ↔ M.Models s := by
  unfold Sentence.closure
  split
  · rfl
  · exact M.models_forAll _ s

end Structure

namespace Sentence

/-- Sentences without weights and observations. -/
inductive Unannotated : Sentence → Prop
  | term (p : Text) (args : List Sentence) : Unannotated (.term p args)
  | var (name type : Text) : Unannotated (.var name type)
  | const (v : Value) : Unannotated (.const v)
  | neg {s : Sentence} : Unannotated s → Unannotated (.neg s)
  | conj {ss : List Sentence} : (∀ s ∈ ss, Unannotated s) → Unannotated (.conj ss)
  | disj {ss : List Sentence} : (∀ s ∈ ss, Unannotated s) → Unannotated (.disj ss)
  | implies {a b : Sentence} : Unannotated a → Unannotated b → Unannotated (.implies a b)
  | iff {a b : Sentence} : Unannotated a → Unannotated b → Unannotated (.iff a b)
  | forAll (vars : List TypedName) {s : Sentence} : Unannotated s → Unannotated (.forAll vars s)
  | forSome (vars : List TypedName) {s : Sentence} : Unannotated s → Unannotated (.forSome vars s)
  | missing : Unannotated .missing

theorem unannotated_hereditary : Hereditary Unannotated where
  child := by
    intro s c plain compound child
    cases plain with
    | term => exact absurd compound (by simp [isTerm])
    | var | const | missing => simp [children] at child
    | conj plain | disj plain => exact plain c child
    | implies left right | iff left right =>
      simp only [children, List.mem_cons, List.not_mem_nil, or_false] at child
      rcases child with rfl | rfl
      · exact left
      · exact right
    | neg plain | forAll _ plain | forSome _ plain =>
      obtain rfl := List.mem_singleton.mp child
      exact plain
  negation := .neg
  conj := .conj

end Sentence

namespace Dialect

variable {d : Dialect} {names : List Text} {s : Sentence} {c : Setting} {clause : Clause}

/-- Without annotations, no clause gets a weight of its own. -/
theorem Gives.weight_eq (given : d.Gives names s c clause) (plain : s.Unannotated) :
    clause.weight = c.weight := by
  induction given with
  | fact => rfl
  | denied => rfl
  | @part s c part b body inner clause _ member expanded inside same weight _ given ih =>
    -- Only a weight changes the weight of the setting, and there is none.
    have setting : c.within s = c := by cases plain <;> rfl
    rw [ih (Sentence.unannotated_hereditary.parts plain part member).2, weight, setting]

end Dialect

namespace Clause

variable (I : Interpretation.{u})

theorem holds_bodySentence (c : Clause) (p : I.Point) :
    I.Holds p c.bodySentence ↔ ∀ l ∈ c.body, I.Holds p l := by
  unfold bodySentence
  split
  next literal single => simp [single]
  next => exact I.holds_conj p c.body

/-- The matrix of a clause is true where the clause is. -/
theorem holds_matrix (c : Clause) (p : I.Point) : I.Holds p c.matrix ↔ I.HoldsClause p c := by
  unfold matrix Interpretation.HoldsClause
  -- Without a head the matrix is the negated body, without a body it is the head alone.
  cases c.head with
  | none =>
    simp only [Interpretation.Holds, Option.elim_none]
    rw [c.holds_bodySentence I p]
  | some head =>
    simp only [Option.elim_some]
    split
    next empty =>
      rw [List.isEmpty_iff] at empty
      simp [empty]
    next =>
      rw [Interpretation.Holds, c.holds_bodySentence I p]

/-- A clause without a weight stands for a sentence that is true where the clause is. -/
theorem toSentence_models (c : Clause) (unweighted : c.weight = none) (M : Structure.{u})
    (all : ∀ ρ, M.toInterpretation.HoldsClause ρ c) :
    ∃ t, c.toSentence = .ok t ∧ M.Models t := by
  have matrix : M.Models c.matrix := fun ρ => (c.holds_matrix _ ρ).mpr (all ρ)
  unfold toSentence
  simp only [unweighted]
  split
  · exact ⟨_, rfl, matrix⟩
  · exact ⟨_, rfl, (M.models_forAll c.vars c.matrix).mpr matrix⟩

end Clause

namespace Dialect

/-- Normalization does not strengthen a sentence: in every structure that satisfies its closure, the
closure of a clause is true, unless the body of the clause mentions a variable that is asserted to
exist on the way from the sentence to the clause. -/
theorem normalize_entails (d : Dialect) (r : Option Registry) (s : Sentence)
    (unannotated : s.Unannotated) (M : Structure.{u}) (holds : M.Models s.closure) (c : Clause)
    (member : c ∈ (d.normalize r s).clauses) (clear : d.GivesClear s c) :
    ∃ t, c.toSentence = .ok t ∧ M.Models t.closure := by
  -- Each assignment is a point at which the sentence is true.
  have entailed (ρ : Text → M.Carrier) : M.toInterpretation.HoldsClause ρ c :=
    d.normalize_sound M.toInterpretation r s c member clear ρ ((M.models_closure s).mp holds ρ)
  have unweighted : c.weight = none := by
    obtain ⟨clause, vars, _, gives, rfl, -⟩ := d.gives_of_mem_normalize r s c member
    exact gives.weight_eq unannotated
  obtain ⟨t, built, models⟩ := c.toSentence_models unweighted M entailed
  exact ⟨t, built, (M.models_closure t).mpr models⟩

/-- A predicate defined by the existence of something. One half of the definition asserts that it
exists, the other half is a rule. -/
private def definition : Sentence :=
  let x : Sentence := .var "x" []
  let y : Sentence := .var "y" []
  .forAll [⟨"x", []⟩] (.iff (.term "p" [x]) (.forSome [⟨"y", []⟩] (.term "q" [x, y])))

private theorem definition_unannotated : definition.Unannotated :=
  .forAll _ (.iff (.term _ _) (.forSome _ (.term _ _)))

private def ruleOfDefinition : Clause where
  head := some (.term "p" [.var "x" []])
  body := [.term "q" [.var "x" [], .var "y" []]]
  vars := [⟨"x", []⟩, ⟨"y", []⟩, ⟨"y", []⟩]
  weight := none
  rung := none
  source := 0

/-- The condition of the rule asserts nothing, although its variable is asserted to exist by the other
half of the definition. -/
private theorem ruleOfDefinition_clear : (default : Dialect).GivesClear definition ruleOfDefinition := by
  have head := Gives.fact (d := default) "p" [.var "x" []] ⟨none, none, ruleOfDefinition.body, 0⟩
  have rule := Gives.part (s := .iff (.term "p" [.var "x" []])
      (.forSome [⟨"y", []⟩] (.term "q" [.var "x" [], .var "y" []]))) (c := .outermost)
    (List.mem_cons_of_mem _ (List.mem_singleton_self _)) rfl (List.mem_singleton_self _) (by rfl)
    (by rfl) (by decide) head
  exact ⟨_, _, .part (List.mem_singleton_self _) rfl (List.mem_singleton_self _) rfl rfl
    (by decide) rule, rfl, fun l _ => l.avoids_nil⟩

/-- Everything is true of the only element. -/
private def oneElement : Structure.{0} where
  Carrier := Unit
  constant _ := ()
  constant_same _ _ _ := rfl
  function _ _ := ()
  relation _ _ := True
  other := ()

private theorem oneElement_models : oneElement.Models definition.closure := by
  rw [Structure.models_closure]
  intro ρ q _
  exact ⟨fun _ => ⟨q, fun _ _ => rfl, trivial⟩, fun _ => trivial⟩

theorem normalize_entails_definition :
    definition.Unannotated ∧ oneElement.Models definition.closure ∧
      ruleOfDefinition ∈ ((default : Dialect).normalize none definition).clauses ∧
      (default : Dialect).GivesClear definition ruleOfDefinition ∧
      ∃ t, ruleOfDefinition.toSentence = .ok t ∧ oneElement.Models t.closure := by
  have member : ruleOfDefinition ∈ ((default : Dialect).normalize none definition).clauses :=
    List.mem_singleton_self ruleOfDefinition
  exact ⟨definition_unannotated, oneElement_models, member, ruleOfDefinition_clear,
    normalize_entails _ none definition definition_unannotated oneElement oneElement_models _ member
      ruleOfDefinition_clear⟩

/-- A rule with a variable that is only asserted to exist. -/
private def someRule : Sentence :=
  .forSome [⟨"x", []⟩] (.implies (.term "q" [.var "x" []]) (.term "p" [.var "x" []]))

private def clauseOfSomeRule : Clause where
  head := some (.term "p" [.var "x" []])
  body := [.term "q" [.var "x" []]]
  vars := [⟨"x", []⟩]
  weight := none
  rung := none
  source := 0

/-- One of two elements is a `q`, and none is a `p`. -/
private def twoElements : Structure.{0} where
  Carrier := Bool
  constant _ := false
  constant_same _ _ _ := rfl
  function _ _ := false
  relation predicate args := predicate = "q" ∧ args = [true]
  other := false

/-- The clause of a rule that holds for some element says that it holds for all. -/
theorem normalize_strengthens_existence :
    someRule.Unannotated ∧ twoElements.Models someRule.closure ∧
      ∃ c ∈ ((default : Dialect).normalize none someRule).clauses,
        ∃ t, c.toSentence = .ok t ∧ ¬ twoElements.Models t.closure := by
  refine ⟨.forSome _ (.implies (.term _ _) (.term _ _)), ?_, ?_⟩
  · rw [Structure.models_closure]
    intro ρ
    -- The element that is no `q` satisfies the rule.
    refine ⟨fun name => if name = "x" then false else ρ name, fun name other => ?_, ?_⟩
    · have distinct : name ≠ "x" := by simpa using other
      exact (if_neg distinct).symm
    · rintro ⟨_, isTrue⟩
      have equal : false = true := (List.cons.inj isTrue).1
      contradiction
  · refine ⟨clauseOfSomeRule, List.mem_singleton_self _, .forAll clauseOfSomeRule.vars
      clauseOfSomeRule.matrix, rfl, ?_⟩
    rw [Structure.models_closure, Structure.models_forAll]
    intro all
    have impossible : ("p" : Text) = "q" := (all (fun _ => true) ⟨rfl, rfl⟩).1
    exact absurd impossible (by decide)

end Dialect

end Clausal
