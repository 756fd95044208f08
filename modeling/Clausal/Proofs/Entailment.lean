import Clausal.Clause.Normalize
import Clausal.Proofs.Parts

/-!
# Clauses follow from their sentence

A clause is true where its body is false or its head is true. The clauses of a sentence are true
where the sentence is, and without quantifiers the sentence is true where all its clauses are.
-/

namespace Clausal

universe u

namespace Interpretation

/-- Whether a clause is true: its head is, or part of its body is not. A constraint has no head that
could be true. -/
def HoldsClause (I : Interpretation.{u}) (p : I.Point) (c : Clause) : Prop :=
  (∀ l ∈ c.body, I.Holds p l) → c.head.elim False (I.Holds p)

end Interpretation

namespace Dialect

variable {d : Dialect} {passed : List Text} {s : Sentence} {c : Setting} {clause : Clause}

/-- Conditions that were met on the way are part of the body. -/
theorem Gives.conditions_subset (given : d.Gives passed s c clause) : c.conditions ⊆ clause.body := by
  induction given with
  | fact => simp [Setting.clause]
  | denied => simp [Setting.clause]
  | part _ _ _ same _ _ _ ih =>
    rw [same, List.append_subset] at ih
    exact ih.1

/-- What is asserted on the way to a clause is asserted by the sentence. -/
theorem Gives.passed_subset (given : d.Gives passed s c clause) : passed ⊆ s.asserted true := by
  induction given with
  | fact => exact List.nil_subset _
  | denied found => exact Sentence.denied_asserted _ _ _ found (List.Subset.refl _)
  | @part s c part b literals inner clause passed member _ _ _ _ _ _ ih =>
    obtain ⟨premises, consequent⟩ :=
      Sentence.parts_asserted _ s part member (List.Subset.refl _)
    refine List.append_subset.mpr ⟨s.introduced_subset, List.append_subset.mpr ⟨?_, ?_⟩⟩
    · intro x found
      obtain ⟨a, inside, found⟩ := (Sentence.mem_assertedAll false x _).mp found
      exact premises a inside found
    · exact List.Subset.trans ih consequent

variable (I : Interpretation.{u}) (names : List Text)

/-- Where a sentence is true and a clause of it has a true body, the head is true at a point that
differs only in variables that are asserted on the way to the clause, provided that the body does not
depend on these. -/
theorem Gives.sound (given : d.Gives passed s c clause)
    (steady : ∀ l ∈ clause.body, l.Made (I.Steady names)) (included : passed ⊆ names)
    (p : I.Point) (holds : I.Holds p s) (body : ∀ l ∈ clause.body, I.Holds p l) :
    ∃ q, I.agree names p q ∧ clause.head.elim False (I.Holds q) := by
  induction given generalizing p with
  | fact => exact ⟨p, I.agree_refl names p, holds⟩
  | @denied s c denial b literals found expanded inside _ _ =>
    have expands : I.Expands names true denial b := bodies_expands d denial true b expanded
    have splits := expands.splits included
    simp only [Setting.clause, List.forall_mem_append] at steady body
    have denied := splits literals inside steady.2 p body.2
    exact ((I.holds_denied p s denial found).mp holds ((I.holdsAs_true p denial).mp denied)).elim
  | @part s c part b literals inner clause passed member expanded inside same _ _ given ih =>
    have within := given.conditions_subset
    rw [same, List.append_subset] at within
    simp only [List.append_subset] at included
    obtain ⟨introduced, asserted, later⟩ := included
    obtain ⟨q, agree, implied⟩ := I.parts_sound names p s part member introduced holds
    -- The body does not depend on what the points differ in, so it is true at `q` as well.
    have moved (l : Sentence) (inBody : l ∈ clause.body) : I.Holds q l :=
      (I.holds_steady (steady l inBody) agree).mp (body l inBody)
    have splits := (premises_expand I names d part.premises b expanded).1 asserted
    have true_premises := splits literals inside (fun l inLiterals => steady l (within.2 inLiterals))
      q fun l inLiterals => moved l (within.2 inLiterals)
    obtain ⟨r, further, head⟩ := ih steady later q (implied true_premises) moved
    exact ⟨r, I.agree_trans names p q r agree further, head⟩

/-- Without quantifiers, a sentence is true where all its clauses are. -/
theorem flatten_complete (d : Dialect) (s : Sentence) (c : Setting) (rules : Rules)
    (returned : d.flatten s c = .ok rules) (plain : s.Propositional) (p : I.Point)
    (conditions : ∀ l ∈ c.conditions, I.Holds p l)
    (all : ∀ clause ∈ rules.clauses, I.HoldsClause p clause) : I.Holds p s := by
  induction size : sizeOf s using Nat.strongRecOn generalizing s c rules with
  | ind n ih =>
    rcases d.flatten_cases s c rules returned with
      ⟨predicate, args, rfl, clauses⟩ | ⟨denial, kind, found, constraints⟩ |
      ⟨compound, proper, covered⟩
    · have fact := all _ (clauses ▸ List.mem_singleton_self _)
      exact fact (by simpa [Setting.clause] using conditions)
    · obtain ⟨b, expanded, clauses, _⟩ := d.constraint_clauses c kind denial rules constraints
      have expands : I.Expands [] true denial b := bodies_expands d denial true b expanded
      rw [I.holds_denied p s denial found]
      intro holds
      have plainDenial := Sentence.propositional_hereditary.denied plain found
      obtain ⟨body, inside, literals⟩ := expands.exhausts (by simp [plainDenial.asserted_eq_nil])
        (Sentence.terms_of_forall I.steady_nil denial) p ((I.holdsAs_true p denial).mpr holds)
      have violated := all (c.clause none body) (clauses ▸ List.mem_map_of_mem inside)
      exact violated (List.forall_mem_append.mpr ⟨conditions, literals⟩)
    · refine I.parts_complete p s plain compound proper fun part member premises => ?_
      obtain ⟨b, expanded, each⟩ := covered.complete part member
      obtain ⟨plainPremises, plainConsequent⟩ :=
        Sentence.propositional_hereditary.parts plain part member
      have exhausts := (premises_expand I [] d part.premises b expanded).2
        (Sentence.assertedAll_subset_nil plainPremises)
        fun a _ => Sentence.terms_of_forall I.steady_nil a
      obtain ⟨body, inside, literals⟩ := exhausts p premises
      obtain ⟨inner, ⟨setting, same, _, flattened⟩, included⟩ := each body inside
      have smaller := Sentence.parts_smaller s part member
      refine ih _ (size ▸ smaller) part.consequent setting inner flattened plainConsequent ?_
        (fun clause inRules => all clause (included inRules)) rfl
      rw [same, Setting.within_conditions]
      exact List.forall_mem_append.mpr ⟨conditions, literals⟩

end Dialect

end Clausal
