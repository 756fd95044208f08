import Clausal.Proofs.Occurrence
import Clausal.Proofs.TheoryBuilding

/-!
# Facts and later declarations

A fact is checked against the declarations at the time it is added. It stays a ground term forever,
but a predicate that is declared afterwards, by itself or with a merged theory, is not checked
against the facts that are already there. Which facts disagree with the declarations in the end
depends therefore on the order of the operations, and is determined here exactly.
-/

namespace Clausal

open Sentence (Within isGround_iff)

/-! ### Registries only grow -/

namespace Registry

theorem declareAlias_predicates {r result : Registry} {a : TypeAlias}
    (returned : r.declareAlias a = .ok result) : result.predicates = r.predicates := by
  unfold declareAlias at returned
  split at returned
  · cases returned
  · split at returned
    · split at returned <;> cases returned
      rfl
    · split at returned <;> cases returned
      rfl

theorem declareUnion_predicates {r result : Registry} {name : Text} {alternatives : List Text}
    (returned : r.declareUnion name alternatives = .ok result) :
    result.predicates = r.predicates := by
  unfold declareUnion at returned
  split at returned
  · cases returned
  · exact declareAlias_predicates returned

theorem declarePredicate_predicates {r result : Registry} {p : Predicate}
    (returned : r.declarePredicate p = .ok result) : r.predicates <+: result.predicates := by
  unfold declarePredicate at returned
  split at returned
  · split at returned <;> cases returned
    exact List.prefix_rfl
  · split at returned <;> cases returned
    exact List.prefix_append _ _

theorem attempt_predicates (r : Registry) (d : Declaration) :
    r.predicates <+: (r.attempt d).predicates := by
  unfold attempt
  split
  next result returned =>
    cases d with
    | type => exact declareAlias_predicates returned ▸ List.prefix_rfl
    | union => exact declareUnion_predicates returned ▸ List.prefix_rfl
    | predicate => exact declarePredicate_predicates returned
  next => exact List.prefix_rfl

theorem attemptAll_predicates (r : Registry) (ds : List Declaration) :
    r.predicates <+: (r.attemptAll ds).predicates :=
  List.foldlRecOn (motive := fun after => r.predicates <+: after.predicates) ds attempt
    List.prefix_rfl fun after before d _ => before.trans (after.attempt_predicates d)

/-- What is declared stays declared the same way. -/
theorem predicate?_grown {r r' : Registry} (grown : r.predicates <+: r'.predicates)
    {name : Text} {p : Predicate} (found : r.predicate? name = some p) :
    r'.predicate? name = some p := by
  obtain ⟨added, grown⟩ := grown
  unfold predicate? at found ⊢
  rw [← grown, List.find?_append, found, Option.some_or]

/-- A registry with more declarations asks for more. -/
theorem Agrees.of_grown {r r' : Registry} {s : Sentence} (agrees : r'.Agrees s)
    (grown : r.predicates <+: r'.predicates) : r.Agrees s :=
  fun predicate args inside declared found =>
    agrees predicate args inside declared (predicate?_grown grown found)

end Registry

namespace Theory

/-- A fact is accepted exactly if it is a term without variables that agrees with the
declarations. -/
theorem checkFact_iff (r : Registry) (fact : Sentence) : checkFact r fact = .ok () ↔
    fact.isTerm = true ∧ (∀ name type, ¬ Within (.var name type) fact) ∧ r.Agrees fact := by
  rw [checkFact_ok_iff, isGround_iff, Registry.checkArity_ok_iff]

/-! ### What an operation can do -/

/-- Declarations were added, but no facts. -/
structure Declares (before after : Theory) : Prop where
  predicates : before.registry.predicates <+: after.registry.predicates
  facts : after.facts = before.facts

/-- Facts were added that pass the check, but no declarations. -/
structure Collects (before after : Theory) : Prop where
  registry : after.registry = before.registry
  facts : ∃ added, after.facts = before.facts ++ added ∧
    ∀ fact ∈ added, checkFact after.registry fact = .ok ()

theorem Declares.of_eq {t u : Theory} (registry : u.registry = t.registry)
    (facts : u.facts = t.facts) : Declares t u :=
  ⟨registry ▸ List.prefix_rfl, facts⟩

theorem Collects.of_eq {t u : Theory} (registry : u.registry = t.registry)
    (facts : u.facts = t.facts) : Collects t u :=
  ⟨registry, [], by rw [facts, List.append_nil], by simp⟩

theorem declare_declares (t : Theory) (d : Declaration) :
    Declares t (t.declare (t.registry.declare d)).2 := by
  rw [declare_eq]
  exact ⟨t.registry.attempt_predicates d, rfl⟩

/-- Of some facts, those are added that pass the check. -/
theorem collects_filter {t u : Theory} (facts : List Sentence) (registry : u.registry = t.registry)
    (added : u.facts = t.facts ++ facts.filter fun fact => (checkFact t.registry fact).isOk) :
    Collects t u := by
  refine ⟨registry, _, added, fun fact member => ?_⟩
  rw [registry]
  exact (checkFact_isOk_iff _ _).mp (List.mem_filter.mp member).2

theorem addFact_collects (t : Theory) (fact : Sentence) : Collects t (t.addFact fact).2 := by
  rw [addFact_eq]
  exact collects_filter [fact] rfl rfl

theorem addSentence_collects (t : Theory) (s : Sentence) (kind : GroupKind) :
    Collects t (t.addSentence s kind) := by
  unfold addSentence
  dsimp only
  split
  · split <;> exact .of_eq rfl rfl
  · exact .of_eq rfl rfl

/-- Every operation declares first and adds facts afterwards, and nothing else matters here. -/
def Advances (before after : Theory) : Prop :=
  ∃ middle, Declares before middle ∧ Collects middle after

theorem Declares.advances {t u : Theory} (declares : Declares t u) : Advances t u :=
  ⟨u, declares, .of_eq rfl rfl⟩

theorem Collects.advances {t u : Theory} (collects : Collects t u) : Advances t u :=
  ⟨t, .of_eq rfl rfl, collects⟩

/-- Merging declares first and adds facts afterwards, like every operation. -/
theorem merge_advances (t other : Theory) : Advances t (t.merge other) := by
  rw [merge_eq]
  exact ⟨{ t with registry := t.registry.attemptAll other.registry.declarations },
    ⟨t.registry.attemptAll_predicates _, rfl⟩, collects_filter other.facts rfl rfl⟩

theorem apply_advances (t : Theory) (operation : Operation) : Advances t (t.apply operation) := by
  cases operation with
  | rename name => exact Collects.advances (.of_eq rfl rfl)
  | declareType name target => exact (declare_declares t (.type name target)).advances
  | declareUnion name alternatives => exact (declare_declares t (.union name alternatives)).advances
  | declarePredicate p => exact (declare_declares t (.predicate p)).advances
  | register d => exact Declares.advances ⟨t.registry.attempt_predicates d, rfl⟩
  | addSentence s kind => exact (addSentence_collects t s kind).advances
  | addGroup g => exact Collects.advances (.of_eq rfl rfl)
  | addFact fact => exact (addFact_collects t fact).advances
  | annotate key value => exact Collects.advances (.of_eq rfl rfl)
  | note key values => exact Collects.advances (.of_eq rfl rfl)
  | merge other => exact merge_advances t other

namespace Advances

variable {t u : Theory}

theorem predicates (advances : Advances t u) : t.registry.predicates <+: u.registry.predicates := by
  obtain ⟨middle, declares, collects⟩ := advances
  rw [collects.registry]
  exact declares.predicates

/-- A fact after an operation was there before, or it has passed the check against what is declared
now. -/
theorem mem_facts (advances : Advances t u) {fact : Sentence} (member : fact ∈ u.facts) :
    fact ∈ t.facts ∨ checkFact u.registry fact = .ok () := by
  obtain ⟨middle, declares, collects⟩ := advances
  obtain ⟨added, grown, checked⟩ := collects.facts
  rw [grown, declares.facts, List.mem_append] at member
  exact member.imp_right (checked fact)

theorem facts_subset (advances : Advances t u) : t.facts ⊆ u.facts := by
  obtain ⟨middle, declares, collects⟩ := advances
  obtain ⟨added, grown, -⟩ := collects.facts
  rw [grown, declares.facts]
  exact List.subset_append_left _ _

end Advances

/-! ### What a run of operations leaves behind -/

theorem run_predicates (t : Theory) (operations : List Operation) :
    t.registry.predicates <+: (t.run operations).registry.predicates := by
  induction operations generalizing t with
  | nil => exact List.prefix_rfl
  | cons operation rest ih => exact (apply_advances t operation).predicates.trans (ih _)

theorem run_facts_subset (t : Theory) (operations : List Operation) :
    t.facts ⊆ (t.run operations).facts := by
  induction operations generalizing t with
  | nil => exact List.Subset.refl _
  | cons operation rest ih => exact List.Subset.trans (apply_advances t operation).facts_subset (ih _)

/-- A run of operations never adds anything but ground terms to the facts. -/
theorem run_facts_ground (t : Theory) (operations : List Operation)
    (ground : ∀ fact ∈ t.facts,
      fact.isTerm = true ∧ ∀ name type, ¬ Within (.var name type) fact) :
    ∀ fact ∈ (t.run operations).facts,
      fact.isTerm = true ∧ ∀ name type, ¬ Within (.var name type) fact := by
  induction operations generalizing t with
  | nil => exact ground
  | cons operation rest ih =>
    refine ih (t.apply operation) fun fact member => ?_
    -- A fact is old, or it has just passed the check.
    rcases (apply_advances t operation).mem_facts member with old | checked
    · exact ground fact old
    · obtain ⟨isTerm, closed, -⟩ := (checkFact_iff _ fact).mp checked
      exact ⟨isTerm, closed⟩

/-- The facts of a theory agree with its own declarations. -/
def FactsAgree (t : Theory) : Prop := ∀ fact ∈ t.facts, t.registry.Agrees fact

/-- No operation declares a predicate otherwise than the facts before it use it. -/
def Respects (t : Theory) : List Operation → Prop
  | [] => True
  | operation :: rest =>
    (∀ fact ∈ t.facts, (t.apply operation).registry.Agrees fact) ∧ (t.apply operation).Respects rest

/-- The facts agree in the end exactly if no operation contradicted those before it. -/
theorem run_agree_iff (t : Theory) (operations : List Operation) (agree : t.FactsAgree) :
    (t.run operations).FactsAgree ↔ t.Respects operations := by
  induction operations generalizing t with
  | nil => exact iff_of_true agree trivial
  | cons operation rest ih =>
    have advances := apply_advances t operation
    -- New facts were checked against what is declared now, so only the old ones are at stake.
    have agreeAfter (kept : ∀ fact ∈ t.facts, (t.apply operation).registry.Agrees fact) :
        (t.apply operation).FactsAgree := by
      intro fact member
      rcases advances.mem_facts member with old | checked
      · exact kept fact old
      · exact ((checkFact_iff _ fact).mp checked).2.2
    constructor
    · intro final
      -- A disagreement would last: the fact stays, and so does the declaration.
      have kept : ∀ fact ∈ t.facts, (t.apply operation).registry.Agrees fact := fun fact member =>
        (final fact (run_facts_subset _ rest (advances.facts_subset member))).of_grown
          (run_predicates _ rest)
      exact ⟨kept, (ih _ (agreeAfter kept)).mp final⟩
    · rintro ⟨kept, later⟩
      exact (ih _ (agreeAfter kept)).mpr later

/-- However a theory is built, its facts are terms without variables. They all agree with its
declarations if and only if no operation declared a predicate otherwise than an earlier fact
uses it. -/
theorem run_facts (name : Text) (operations : List Operation) :
    (∀ fact ∈ ((empty name).run operations).facts,
      fact.isTerm = true ∧ ∀ x type, ¬ Within (.var x type) fact) ∧
    (((empty name).run operations).FactsAgree ↔ (empty name).Respects operations) := by
  constructor
  · apply run_facts_ground
    exact fun fact member => absurd member List.not_mem_nil
  · apply run_agree_iff
    exact fun fact member => absurd member List.not_mem_nil

/-- A fact with one argument, and then a declaration of its predicate with two. -/
def declaredLate : List Operation :=
  [.addFact (.term "p" [.const (.string "a")]),
    .declarePredicate ⟨"p", [⟨"x", "str"⟩, ⟨"y", "str"⟩], [], []⟩]

/-- The late declaration is accepted and the fact stays. -/
theorem declaredLate_disagrees :
    ((empty []).run declaredLate).skipped = [] ∧ ¬ ((empty []).run declaredLate).FactsAgree := by
  refine ⟨rfl, fun agree => ?_⟩
  have length := agree (.term "p" [.const (.string "a")]) List.mem_cons_self "p" _
    (Sentence.within_self _) ⟨"p", [⟨"x", "str"⟩, ⟨"y", "str"⟩], [], []⟩ rfl
  exact absurd length (by decide)

end Theory

end Clausal
