import Clausal.Clause.Flatten
import Clausal.Proofs.Sentence

/-!
# Truth of sentences

An interpretation gives terms a truth value at each of its points. A point fixes whatever the
variables stand for: in a first-order structure it is an assignment, and where terms are true or
false outright there is only one point. Quantifiers move between points that agree but for the bound
variables.
-/

namespace Clausal

universe u

/-- Points with a truth value for every term. Terms that are the same have the same value, and a
term has the same value at two points that agree on its variables. -/
structure Interpretation where
  Point : Type u
  atom : Point → Text → List Sentence → Prop
  /-- Whether two points agree but for the variables of a list. -/
  agree : List Text → Point → Point → Prop
  agree_refl : ∀ names p, agree names p p
  agree_symm : ∀ names p q, agree names p q → agree names q p
  agree_trans : ∀ names p q r, agree names p q → agree names q r → agree names p r
  agree_mono : ∀ names wider p q, names ⊆ wider → agree names p q → agree wider p q
  atom_same : ∀ p predicate args others, Sentence.sameAll args others = true →
    (atom p predicate args ↔ atom p predicate others)
  atom_agree : ∀ names p q predicate args, agree names p q →
    (∀ x ∈ Sentence.freeInAll [] args, x ∉ names) →
    (atom p predicate args ↔ atom q predicate args)

namespace Interpretation

variable (I : Interpretation.{u})

mutual

/-- Whether a sentence is true at a point. An annotated sentence, or something that is no sentence,
is not true anywhere. -/
def Holds : I.Point → Sentence → Prop
  | p, .term predicate args => I.atom p predicate args
  | p, .neg s => ¬ Holds p s
  | p, .conj ss => HoldsAll p ss
  | p, .disj ss => HoldsSome p ss
  | p, .implies a b => Holds p a → Holds p b
  | p, .iff a b => Holds p a ↔ Holds p b
  | p, .forAll vars s => ∀ q, I.agree (vars.map TypedName.name) p q → Holds q s
  | p, .forSome vars s => ∃ q, I.agree (vars.map TypedName.name) p q ∧ Holds q s
  | _, .var .. => False
  | _, .const _ => False
  | _, .weighted .. => False
  | _, .evidence .. => False
  | _, .missing => False

def HoldsAll : I.Point → List Sentence → Prop
  | _, [] => True
  | p, s :: ss => Holds p s ∧ HoldsAll p ss

def HoldsSome : I.Point → List Sentence → Prop
  | _, [] => False
  | p, s :: ss => Holds p s ∨ HoldsSome p ss

end

theorem holdsAll_iff (p : I.Point) (ss : List Sentence) :
    I.HoldsAll p ss ↔ ∀ s ∈ ss, I.Holds p s := by
  induction ss with
  | nil => simp [HoldsAll]
  | cons s ss ih => simp [HoldsAll, ih]

theorem holdsSome_iff (p : I.Point) (ss : List Sentence) :
    I.HoldsSome p ss ↔ ∃ s ∈ ss, I.Holds p s := by
  induction ss with
  | nil => simp [HoldsSome]
  | cons s ss ih => simp [HoldsSome, ih]

theorem holds_conj (p : I.Point) (ss : List Sentence) :
    I.Holds p (.conj ss) ↔ ∀ s ∈ ss, I.Holds p s := by
  simp only [Holds, holdsAll_iff]

theorem holds_disj (p : I.Point) (ss : List Sentence) :
    I.Holds p (.disj ss) ↔ ∃ s ∈ ss, I.Holds p s := by
  simp only [Holds, holdsSome_iff]

theorem holds_negate (p : I.Point) (s : Sentence) : I.Holds p s.negate ↔ ¬ I.Holds p s := by
  cases s <;> simp [Sentence.negate, Holds]

/-- Sentences that are the same are true at the same points. -/
theorem holds_same (p : I.Point) (s t : Sentence) (same : s.same t = true) :
    I.Holds p s ↔ I.Holds p t := by
  induction s generalizing p t with
  | term predicate args =>
    cases t <;> simp [Sentence.same] at same
    obtain ⟨rfl, same⟩ := same
    exact I.atom_same p predicate args _ same
  | neg s ih =>
    cases t <;> simp [Sentence.same] at same
    simp only [Holds, ih p _ same]
  | conj ss ih =>
    cases t <;> simp [Sentence.same] at same
    simp only [holds_conj]
    rw [Sentence.sameAll_iff] at same
    -- The operands correspond one to one, and each pair has the same truth value.
    induction same with
    | nil => simp
    | cons first _ rest =>
      simp only [List.mem_cons, forall_eq_or_imp] at ih ⊢
      rw [ih.1 p _ first, rest ih.2]
  | disj ss ih =>
    cases t <;> simp [Sentence.same] at same
    simp only [holds_disj]
    rw [Sentence.sameAll_iff] at same
    induction same with
    | nil => simp
    | cons first _ rest =>
      simp only [List.mem_cons, forall_eq_or_imp, exists_eq_or_imp] at ih ⊢
      rw [ih.1 p _ first, rest ih.2]
  | implies a b left right =>
    cases t <;> simp [Sentence.same] at same
    simp only [Holds, left p _ same.1, right p _ same.2]
  | iff a b left right =>
    cases t <;> simp [Sentence.same] at same
    simp only [Holds, left p _ same.1, right p _ same.2]
  | forAll vars s ih =>
    cases t <;> simp [Sentence.same] at same
    obtain ⟨rfl, same⟩ := same
    simp only [Holds, fun q => ih q _ same]
  | forSome vars s ih =>
    cases t <;> simp [Sentence.same] at same
    obtain ⟨rfl, same⟩ := same
    simp only [Holds, fun q => ih q _ same]
  | var | const | weighted | evidence | missing =>
    cases t <;> simp [Sentence.same, Holds] at same ⊢

/-- The second guard of a ladder is true where the first is not. -/
theorem holds_otherwise (p : I.Point) (guard otherwise : Sentence)
    (opposite : Sentence.isNegationOf otherwise guard = true) :
    I.Holds p otherwise ↔ ¬ I.Holds p guard := by
  simp only [Sentence.isNegationOf, Bool.or_eq_true] at opposite
  -- Either guard may be written as the negation of the other.
  rcases opposite with negated | negated
  · split at negated
    next inner => simp only [Holds, I.holds_same p inner guard negated]
    · simp at negated
  · split at negated
    next inner => simp only [Holds, I.holds_same p inner otherwise negated, not_not]
    · simp at negated

end Interpretation

end Clausal
