import Clausal.Proofs.Outcome
import Clausal.Proofs.Sentence
import Clausal.Registry
import Mathlib.Logic.Relation

/-!
# Parts of sentences

A sentence occurs within another one if it is that sentence or occurs within one of its immediate
parts, which for a term are its arguments. Functions that walk through a whole sentence look for
something at each of its parts, and are characterized here by what they find.
-/

namespace Clausal

namespace Sentence

/-- Induction over the immediate parts of a sentence, whatever its form. -/
@[elab_as_elim]
theorem induction_children {P : Sentence → Prop} (step : ∀ s, (∀ c ∈ s.children, P c) → P s)
    (s : Sentence) : P s := by
  induction size : sizeOf s using Nat.strongRecOn generalizing s with
  | ind n ih => exact step s fun c child => ih _ (size ▸ s.children_smaller c child) c rfl

/-- Whether a sentence is another one or a part of it, at any depth. -/
def Within : Sentence → Sentence → Prop :=
  Relation.ReflTransGen fun part whole => part ∈ whole.children

theorem within_self (s : Sentence) : Within s s := .refl

theorem within_iff (t s : Sentence) : Within t s ↔ t = s ∨ ∃ c ∈ s.children, Within t c := by
  unfold Within
  rw [Relation.ReflTransGen.cases_tail_iff]
  constructor
  · rintro (rfl | ⟨c, below, child⟩)
    · exact .inl rfl
    · exact .inr ⟨c, child, below⟩
  · rintro (rfl | ⟨c, child, below⟩)
    · exact .inl rfl
    · exact .inr ⟨c, below, child⟩

theorem Within.of_child {t c s : Sentence} (below : Within t c) (child : c ∈ s.children) :
    Within t s :=
  (within_iff t s).mpr (.inr ⟨c, child, below⟩)

/-- Whether something holds of a sentence and of every part of it. -/
def Everywhere (P : Sentence → Prop) (s : Sentence) : Prop := ∀ t, Within t s → P t

theorem everywhere_iff (P : Sentence → Prop) (s : Sentence) :
    Everywhere P s ↔ P s ∧ ∀ c ∈ s.children, Everywhere P c := by
  constructor
  · intro all
    exact ⟨all s (within_self s), fun c child t below => all t (below.of_child child)⟩
  · rintro ⟨here, below⟩ t inside
    rcases (within_iff t s).mp inside with rfl | ⟨c, child, inside⟩
    · exact here
    · exact below c child t inside

/-- Whether no part of a sentence is missing. -/
def Complete : Sentence → Prop := Everywhere fun t => t.isMissing = false

theorem allGround_iff (ss : List Sentence) :
    allGround ss = true ↔ ∀ s ∈ ss, s.isGround = true := by
  induction ss with
  | nil => simp [allGround]
  | cons s ss ih => simp [allGround, ih]

/-- A ground sentence is one without variables. -/
theorem isGround_iff (s : Sentence) :
    s.isGround = true ↔ ∀ name type, ¬ Within (.var name type) s := by
  -- The function looks for variables at every part.
  have walk : s.isGround = true ↔ Everywhere (fun t => t.kind ≠ .var) s := by
    induction s with
    | term p ss ih | conj ss ih | disj ss ih =>
      rw [everywhere_iff, isGround, allGround_iff]
      simp only [kind, children, ne_eq, reduceCtorEq, not_false_eq_true, true_and]
      exact forall₂_congr ih
    | implies a b left right | iff a b left right =>
      rw [everywhere_iff, isGround, Bool.and_eq_true, left, right]
      simp [kind, children]
    | neg s ih | forAll vars s ih | forSome vars s ih | weighted w s ih | evidence holds s ih =>
      rw [everywhere_iff, isGround, ih]
      simp [kind, children]
    | var | const | missing =>
      rw [everywhere_iff, isGround]
      simp [kind, children]
  rw [walk]
  constructor
  · exact fun all name type inside => all _ inside rfl
  · intro none t inside
    cases t with
    | var name type => exact absurd inside (none name type)
    | _ => simp [kind]

/-- A ground sentence has no free variables, whatever is bound around it. -/
theorem freeIn_of_isGround {s : Sentence} (ground : s.isGround = true) (bound : List Text) :
    s.freeIn bound = [] := by
  induction s generalizing bound with
  | term p ss ih | conj ss ih | disj ss ih =>
    rw [isGround, allGround_iff] at ground
    rw [freeIn, List.eq_nil_iff_forall_not_mem]
    intro x free
    obtain ⟨s, member, free⟩ := (mem_freeInAll bound x ss).mp free
    rw [ih s member (ground s member) bound] at free
    exact absurd free List.not_mem_nil
  | implies a b left right | iff a b left right =>
    rw [isGround, Bool.and_eq_true] at ground
    rw [freeIn, left ground.1, right ground.2, List.append_nil]
  | neg s ih | forAll vars s ih | forSome vars s ih | weighted w s ih | evidence holds s ih =>
    rw [isGround] at ground
    rw [freeIn, ih ground]
  | var => simp [isGround] at ground
  | const | missing => rfl

/-- A ground sentence is its own closure. -/
theorem closure_of_isGround {s : Sentence} (ground : s.isGround = true) : s.closure = s := by
  unfold closure
  rw [freeVars, freeIn_of_isGround ground]
  rfl

end Sentence

namespace Registry

open Sentence (Within Everywhere everywhere_iff)

/-- Whether every term in a sentence has as many arguments as its predicate is declared with, if it
is declared. -/
def Agrees (r : Registry) (s : Sentence) : Prop :=
  ∀ predicate args, Within (.term predicate args) s →
    ∀ declared, r.predicate? predicate = some declared → args.length = declared.arity

/-- A term agrees with the declaration of its predicate by the number of its arguments. -/
theorem checkTerm_ok_iff (r : Registry) (predicate : Text) (args : List Sentence) :
    r.checkTerm predicate args = .ok () ↔
      ∀ declared, r.predicate? predicate = some declared → args.length = declared.arity := by
  unfold checkTerm
  split
  next found => simp [found, eq_comm]
  next found => simp [found]

/-- Agreement is checked term by term, down to the arguments of arguments. -/
theorem agrees_iff (r : Registry) (s : Sentence) :
    r.Agrees s ↔ (∀ predicate args, s = .term predicate args →
      r.checkTerm predicate args = .ok ()) ∧ ∀ c ∈ s.children, r.Agrees c := by
  have walk (s : Sentence) : r.Agrees s ↔ Everywhere (fun t => ∀ predicate args,
      t = .term predicate args → r.checkTerm predicate args = .ok ()) s := by
    simp only [checkTerm_ok_iff]
    constructor
    · rintro agrees t inside predicate args rfl
      exact agrees predicate args inside
    · exact fun all predicate args inside => all _ inside predicate args rfl
  simp only [walk]
  exact everywhere_iff _ s

theorem checkArities_ok_iff (r : Registry) (ss : List Sentence) :
    r.checkArities ss = .ok () ↔ ∀ s ∈ ss, r.checkArity s = .ok () := by
  induction ss with
  | nil => simp [checkArities]
  | cons s ss ih => simp [checkArities, then_ok_iff, ih]

/-- The check passes exactly the sentences that agree with the declarations everywhere. -/
theorem checkArity_ok_iff (r : Registry) (s : Sentence) :
    r.checkArity s = .ok () ↔ r.Agrees s := by
  induction s with
  | term p args ih =>
    rw [agrees_iff, checkArity, then_ok_iff, checkArities_ok_iff]
    -- A term is checked itself, and then its arguments.
    refine and_congr ?_ (forall₂_congr ih)
    constructor
    · rintro checked _ _ ⟨⟩
      exact checked
    · exact fun checked => checked p args rfl
  | conj ss ih | disj ss ih =>
    rw [agrees_iff, checkArity, checkArities_ok_iff]
    simp only [reduceCtorEq, false_implies, implies_true, true_and, Sentence.children]
    exact forall₂_congr ih
  | implies a b left right | iff a b left right =>
    rw [agrees_iff, checkArity, then_ok_iff]
    simp [left, right, Sentence.children]
  | neg s ih | forAll vars s ih | forSome vars s ih | weighted w s ih | evidence holds s ih =>
    rw [agrees_iff, checkArity, ih]
    simp [Sentence.children]
  | var | const | missing =>
    rw [agrees_iff, checkArity]
    simp [Sentence.children]

end Registry

end Clausal
