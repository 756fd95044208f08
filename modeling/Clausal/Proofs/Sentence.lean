import Clausal.Clause
import Mathlib.Data.List.Forall2

/-!
# Induction over sentences

The principle of structural induction where the operands of a connective are members of a list, and
facts about equality and variables that later modules need.
-/

namespace Clausal

namespace Sentence

/-- Structural induction. The hypothesis for a list of operands is about each of its members. -/
@[elab_as_elim, induction_eliminator]
theorem induction {P : Sentence → Prop}
    (term : ∀ p args, (∀ s ∈ args, P s) → P (.term p args))
    (var : ∀ name type, P (.var name type))
    (const : ∀ value, P (.const value))
    (neg : ∀ s, P s → P (.neg s))
    (conj : ∀ ss, (∀ s ∈ ss, P s) → P (.conj ss))
    (disj : ∀ ss, (∀ s ∈ ss, P s) → P (.disj ss))
    (implies : ∀ a b, P a → P b → P (.implies a b))
    (iff : ∀ a b, P a → P b → P (.iff a b))
    (forAll : ∀ vars s, P s → P (.forAll vars s))
    (forSome : ∀ vars s, P s → P (.forSome vars s))
    (weighted : ∀ w s, P s → P (.weighted w s))
    (evidence : ∀ holds s, P s → P (.evidence holds s))
    (missing : P .missing) (s : Sentence) : P s :=
  @Sentence.rec P (fun ss => ∀ s ∈ ss, P s)
    term var const neg conj disj implies iff forAll forSome weighted evidence missing
    (fun _ member => absurd member List.not_mem_nil)
    (fun _ _ first rest => List.forall_mem_cons.mpr ⟨first, rest⟩) s

/-- The immediate parts of a sentence are smaller than the sentence. -/
theorem children_smaller (s t : Sentence) (member : t ∈ s.children) : sizeOf t < sizeOf s := by
  cases s with
  | term p ss | conj ss | disj ss =>
    have smaller := List.sizeOf_lt_of_mem (show t ∈ ss from member)
    simp only [term.sizeOf_spec, conj.sizeOf_spec, disj.sizeOf_spec]
    omega
  | implies a b | iff a b =>
    simp only [children, List.mem_cons, List.not_mem_nil, or_false] at member
    simp only [implies.sizeOf_spec, iff.sizeOf_spec]
    rcases member with rfl | rfl <;> omega
  | neg s | forAll vars s | forSome vars s | weighted w s | evidence holds s =>
    obtain rfl := List.mem_singleton.mp member
    simp only [neg.sizeOf_spec, forAll.sizeOf_spec, forSome.sizeOf_spec, weighted.sizeOf_spec,
      evidence.sizeOf_spec]
    omega
  | var | const | missing => simp [children] at member

/-- Lists are the same if they are so member by member. -/
theorem sameAll_iff (ss ts : List Sentence) :
    sameAll ss ts = true ↔ List.Forall₂ (fun s t => same s t = true) ss ts := by
  induction ss generalizing ts with
  | nil => cases ts <;> simp [sameAll]
  | cons s ss ih => cases ts <;> simp [sameAll, ih]

theorem mem_freeInAll (bound : List Text) (x : Text) (ss : List Sentence) :
    x ∈ freeInAll bound ss ↔ ∃ s ∈ ss, x ∈ freeIn bound s := by
  induction ss with
  | nil => simp [freeInAll]
  | cons s ss ih => simp [freeInAll, ih]

/-- What is free among bound variables is free without them, and not one of them. -/
theorem mem_freeIn (bound : List Text) (x : Text) (s : Sentence) :
    x ∈ s.freeIn bound ↔ x ∈ s.freeIn [] ∧ x ∉ bound := by
  induction s generalizing bound with
  | var name type =>
    by_cases inside : name ∈ bound
    · simp only [freeIn, List.contains_eq_mem, inside]
      simp +contextual [inside]
    · simp only [freeIn, List.contains_eq_mem, inside]
      simp +contextual [inside]
  | term p ss ih | conj ss ih | disj ss ih =>
    rw [freeIn, freeIn, mem_freeInAll, mem_freeInAll]
    constructor
    · rintro ⟨s, member, free⟩
      have inner := (ih s member bound).mp free
      exact ⟨⟨s, member, inner.1⟩, inner.2⟩
    · rintro ⟨⟨s, member, free⟩, outside⟩
      exact ⟨s, member, (ih s member bound).mpr ⟨free, outside⟩⟩
  | implies a b left right | iff a b left right =>
    rw [freeIn, freeIn, List.mem_append, List.mem_append, left bound, right bound, or_and_right]
  | forAll vars s ih | forSome vars s ih =>
    rw [freeIn, freeIn, ih (vars.map TypedName.name ++ bound), ih (vars.map TypedName.name ++ []),
      List.append_nil, List.mem_append, not_or, and_assoc]
  | neg s ih | weighted w s ih | evidence holds s ih =>
    rw [freeIn, freeIn]
    exact ih bound
  | const | missing => simp [freeIn]

theorem substituteAll_eq (m : Substitution) (ss : List Sentence) :
    substituteAll m ss = ss.map (substitute m) := by
  induction ss with
  | nil => rfl
  | cons s ss ih => rw [substituteAll, ih, List.map_cons]

end Sentence

namespace Names

theorem mem_insert (x name : Text) (names : List Text) :
    x ∈ insert name names ↔ x = name ∨ x ∈ names := by
  induction names with
  | nil => simp [insert]
  | cons other rest ih =>
    simp only [insert]
    split
    next equal => simp [equal]
    next =>
      split
      · simp
      · simp only [List.mem_cons, ih]
        tauto

theorem mem_ofList (x : Text) (names : List Text) : x ∈ ofList names ↔ x ∈ names := by
  induction names with
  | nil => simp [ofList]
  | cons name names ih =>
    rw [List.mem_cons, ← ih]
    exact mem_insert x name (ofList names)

end Names

namespace Sentence

/-- The free variables are sorted without any being lost. -/
theorem mem_freeVars (x : Text) (s : Sentence) : x ∈ s.freeVars ↔ x ∈ s.freeIn [] :=
  Names.mem_ofList x (s.freeIn [])

/-- The closure of a sentence has no free variables. -/
theorem freeVars_closure (s : Sentence) : s.closure.freeVars = [] := by
  unfold closure
  split
  next none => exact none
  next names _ =>
    -- Every name that is free below the quantifier is one that it binds.
    rw [List.eq_nil_iff_forall_not_mem]
    intro x free
    rw [mem_freeVars, freeIn, mem_freeIn, ← mem_freeVars, List.map_map] at free
    apply free.2
    simpa using free.1

end Sentence

end Clausal
