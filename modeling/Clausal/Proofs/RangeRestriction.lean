import Clausal.Proofs.ClauseShapes
import Clausal.Proofs.Substitution

/-!
# Rules take their values from facts

A rule is used by finding values for its variables under which its body is true among the facts. What
its head then says must be about things that the facts mention. The check of a clause is only about
its form: it unites what conjuncts bind, intersects what disjuncts bind, and passes over negations and
over predicates of fixed meaning. It suffices for every way to nest these, because whatever makes a
formula true makes true some term that binds the variable.
-/

namespace Clausal

namespace Sentence

/-! ### Occurrences after a substitution -/

/-- Where a variable is free in a sentence, its value occurs after a substitution. -/
theorem within_substitute {bound : List Text} {x : Text} {s : Sentence} (σ : Substitution)
    (free : x ∈ s.freeIn bound) :
    ∃ type, Within ((σ.lookup x).getD (.var x type)) (s.substitute σ) := by
  -- It suffices that the value occurs in a part.
  have lift {c t : Sentence} (child : c ∈ t.children)
      (below : ∃ type, Within ((σ.lookup x).getD (.var x type)) c) :
      ∃ type, Within ((σ.lookup x).getD (.var x type)) t := by
    obtain ⟨type, below⟩ := below
    exact ⟨type, below.of_child child⟩
  induction s generalizing bound σ with
  | var name type =>
    rw [freeIn] at free
    split at free
    · simp at free
    · obtain rfl := List.mem_singleton.mp free
      exact ⟨type, within_self _⟩
  | term p ss ih | conj ss ih | disj ss ih =>
    rw [freeIn, mem_freeInAll] at free
    obtain ⟨s, member, free⟩ := free
    rw [substitute, substituteAll_eq]
    exact lift (List.mem_map_of_mem member) (ih s member σ free lift)
  | implies a b left right | iff a b left right =>
    rw [freeIn, List.mem_append] at free
    rw [substitute]
    rcases free with inLeft | inRight
    · exact lift (by simp [children]) (left σ inLeft lift)
    · exact lift (by simp [children]) (right σ inRight lift)
  | forAll vars s ih | forSome vars s ih =>
    rw [freeIn] at free
    rw [substitute]
    have outside : x ∉ vars.map TypedName.name := fun inside =>
      ((mem_freeIn _ x s).mp free).2 (List.mem_append_left _ inside)
    -- The quantifier takes entries out of the substitution, but not that of the variable.
    have below := ih (withoutBound vars σ) free
    rw [withoutBound, lookup_without, if_neg outside] at below
    exact lift (List.mem_singleton_self _) (below lift)
  | neg s ih | weighted w s ih | evidence holds s ih =>
    rw [freeIn] at free
    rw [substitute]
    exact lift (List.mem_singleton_self _) (ih σ free lift)
  | const | missing => simp [freeIn] at free

/-- In terms of terms, variables and constants, every variable is free. -/
theorem Regular.free {s : Sentence} (regular : s.Regular) (isArgument : s.isArgument = true)
    {x type : Text} (occurs : Within (.var x type) s) : x ∈ s.freeIn [] := by
  induction s with
  | term p args ih =>
    rcases (within_iff _ _).mp occurs with equal | ⟨a, member, below⟩
    · cases equal
    · rw [freeIn, mem_freeInAll]
      exact ⟨a, member, ih a member (regular.child member) (regular.term a member) below⟩
  | var name type =>
    rcases (within_iff _ _).mp occurs with equal | ⟨a, member, below⟩
    · cases equal
      simp [freeIn]
    · simp [children] at member
  | const v =>
    rcases (within_iff _ _).mp occurs with equal | ⟨a, member, below⟩
    · cases equal
    · simp [children] at member
  | _ => simp [Sentence.isArgument, kind] at isArgument

/-! ### Truth among facts -/

mutual

/-- Whether a formula is true among facts under a substitution. A term is true if its instance is a
fact, except where its predicate has a fixed meaning, which is given. -/
def HoldsAmong (facts : Set Sentence) (builtin : Text → List Sentence → Prop) (σ : Substitution) :
    Sentence → Prop
  | .term p args =>
    if isBuiltin p then builtin p args else (Sentence.term p args).substitute σ ∈ facts
  | .neg s => ¬ HoldsAmong facts builtin σ s
  | .conj ss => AllHoldAmong facts builtin σ ss
  | .disj ss => SomeHoldsAmong facts builtin σ ss
  | _ => False

def AllHoldAmong (facts : Set Sentence) (builtin : Text → List Sentence → Prop) (σ : Substitution) :
    List Sentence → Prop
  | [] => True
  | s :: ss => HoldsAmong facts builtin σ s ∧ AllHoldAmong facts builtin σ ss

def SomeHoldsAmong (facts : Set Sentence) (builtin : Text → List Sentence → Prop)
    (σ : Substitution) : List Sentence → Prop
  | [] => False
  | s :: ss => HoldsAmong facts builtin σ s ∨ SomeHoldsAmong facts builtin σ ss

end

variable {facts : Set Sentence} {builtin : Text → List Sentence → Prop} {σ : Substitution}

theorem allHoldAmong_iff (ss : List Sentence) :
    AllHoldAmong facts builtin σ ss ↔ ∀ s ∈ ss, HoldsAmong facts builtin σ s := by
  induction ss with
  | nil => simp [AllHoldAmong]
  | cons s ss ih => simp [AllHoldAmong, ih]

theorem someHoldsAmong_iff (ss : List Sentence) :
    SomeHoldsAmong facts builtin σ ss ↔ ∃ s ∈ ss, HoldsAmong facts builtin σ s := by
  induction ss with
  | nil => simp [SomeHoldsAmong]
  | cons s ss ih => simp [SomeHoldsAmong, ih]

/-! ### What a formula binds -/

theorem positiveVarsOf_eq (ss : List Sentence) : positiveVarsOf ss = ss.map positiveVars := by
  induction ss with
  | nil => rfl
  | cons s ss ih => rw [positiveVarsOf, ih, List.map_cons]

/-- A conjunction binds what one of its members binds. -/
theorem mem_positiveVars_conj (x : Text) (ss : List Sentence) :
    x ∈ (Sentence.conj ss).positiveVars ↔ ∃ s ∈ ss, x ∈ s.positiveVars := by
  rw [positiveVars, positiveVarsOf_eq, ← List.flatMap_def, List.mem_flatMap]

/-- What a disjunction binds is bound by each disjunct. -/
theorem mem_positiveVars_disj (x : Text) (ss : List Sentence)
    (bound : x ∈ (Sentence.disj ss).positiveVars) : ∀ s ∈ ss, x ∈ s.positiveVars := by
  cases ss with
  | nil => simp
  | cons s ss =>
    rw [positiveVars, List.mem_filter, positiveVarsOf_eq] at bound
    simpa using bound

/-- Whether the value of a variable under a substitution occurs in an argument of a fact. -/
def TakenFrom (facts : Set Sentence) (σ : Substitution) (x : Text) : Prop :=
  ∃ value, σ.lookup x = some value ∧ ∃ p args, .term p args ∈ facts ∧ ∃ a ∈ args, Within value a

/-- A formula that is true among ground facts takes the values of what it binds from there. -/
theorem takenFrom_of_holdsAmong (ground : ∀ fact ∈ facts, fact.isGround = true) {s : Sentence}
    (holds : s.HoldsAmong facts builtin σ) {x : Text} (bound : x ∈ s.positiveVars) :
    TakenFrom facts σ x := by
  induction s with
  | term p args ih =>
    rw [positiveVars] at bound
    rw [HoldsAmong] at holds
    by_cases meaning : isBuiltin p = true
    · simp [meaning] at bound
    · rw [if_neg meaning] at bound holds
      rw [mem_freeVars, freeIn, mem_freeInAll] at bound
      obtain ⟨a, member, free⟩ := bound
      rw [substitute, substituteAll_eq] at holds
      obtain ⟨type, occurs⟩ := within_substitute σ free
      have inside := List.mem_map_of_mem (f := substitute σ) member
      -- Facts have no variables, so the variable has a value.
      cases value : σ.lookup x with
      | none =>
        rw [value] at occurs
        have unbound : Within (.var x type) (.term p (args.map (substitute σ))) :=
          occurs.of_child inside
        exact absurd unbound ((isGround_iff _).mp (ground _ holds) x type)
      | some t =>
        rw [value] at occurs
        exact ⟨t, value, p, _, holds, _, inside, occurs⟩
  | conj ss ih =>
    rw [HoldsAmong, allHoldAmong_iff] at holds
    obtain ⟨s, member, bound⟩ := (mem_positiveVars_conj x ss).mp bound
    exact ih s member (holds s member) bound
  | disj ss ih =>
    rw [HoldsAmong, someHoldsAmong_iff] at holds
    -- One disjunct is true, whichever it is, and they all bind the variable.
    obtain ⟨s, member, holds⟩ := holds
    exact ih s member holds (mem_positiveVars_disj x ss bound s member)
  | _ => simp [positiveVars] at bound

end Sentence

open Sentence (Within TakenFrom)

/-- The variables that a body binds are those that its conjunction binds. -/
theorem Clause.mem_boundVars_iff (c : Clause) (x : Text) :
    x ∈ c.boundVars ↔ ∃ l ∈ c.body, x ∈ l.positiveVars := by
  rw [← Sentence.mem_positiveVars_conj, Sentence.positiveVars]
  exact Names.mem_ofList x _

namespace Dialect

/-- Rules are range restricted. Wherever the body of a rule is true among ground facts, each variable
of its head has a value, and the value occurs in an argument of a fact. -/
theorem normalize_range_restricted (d : Dialect) (r : Option Registry) (s : Sentence)
    (regular : s.Regular) (c : Clause) (member : c ∈ (d.normalize r s).clauses) (head : Sentence)
    (found : c.head = some head) (facts : Set Sentence)
    (ground : ∀ fact ∈ facts, fact.isGround = true) (builtin : Text → List Sentence → Prop)
    (σ : Substitution) (holds : ∀ l ∈ c.body, l.HoldsAmong facts builtin σ) (x type : Text)
    (occurs : Within (.var x type) head) : TakenFrom facts σ x := by
  obtain ⟨given, vars, _, gives, rfl, passed⟩ := d.gives_of_mem_normalize r s c member
  -- The head is a term of the sentence, so that all its variables are free.
  obtain ⟨p, args, rfl, arguments⟩ := gives.head_term regular.terms head found
  have free := (Sentence.mem_freeVars x _).mpr (arguments.free rfl occurs)
  have bound := Clause.bound_of_check r _ passed _ found x free
  obtain ⟨l, inBody, binds⟩ := (Clause.mem_boundVars_iff _ x).mp bound
  exact Sentence.takenFrom_of_holdsAmong ground (holds l inBody) binds

/-- Two different places are connected if a road joins them or if both are towns, unless the first is
blocked. -/
private def connection : Clause :=
  let x : Sentence := .var "x" []
  let y : Sentence := .var "y" []
  let joined : Sentence := .term "road" [.term "ends" [x, y]]
  let towns : Sentence := .conj [.term "town" [x], .term "town" [y]]
  ⟨some (.term "connected" [x, y]),
    [.disj [joined, towns], .neg (.term "blocked" [x]), .term "ne" [x, y]], [], none, none, 0⟩

private theorem connection_regular : connection.matrix.Regular :=
  .of_isExpressible false (by decide)

private def twoTowns : Set Sentence :=
  {.term "town" [.const (.string "a")], .term "town" [.const (.string "b")]}

private def fromTo : Substitution := [("x", .const (.string "a")), ("y", .const (.string "b"))]

private theorem connection_holds :
    ∀ l ∈ connection.body, l.HoldsAmong twoTowns (fun _ _ => True) fromTo := by
  have plain : isBuiltin "town" = false ∧ isBuiltin "blocked" = false ∧ isBuiltin "ne" = true := by
    decide
  have other : ("blocked" : Text) ≠ "town" := by decide
  simp only [connection, List.forall_mem_cons, Sentence.HoldsAmong, plain]
  refine ⟨.inr (.inl ⟨.inl rfl, .inr rfl, trivial⟩), ?_, trivial, by simp⟩
  rintro (equal | equal)
  · exact other (Sentence.term.inj equal).1
  · exact other (Sentence.term.inj equal).1

theorem normalize_range_restricted_connection :
    connection.matrix.Regular ∧
      connection ∈ (normalize ⟨false, true, true, false⟩ none connection.matrix).clauses ∧
      (∀ l ∈ connection.body, l.HoldsAmong twoTowns (fun _ _ => True) fromTo) ∧
      TakenFrom twoTowns fromTo "x" ∧ TakenFrom twoTowns fromTo "y" := by
  have given : (normalize ⟨false, true, true, false⟩ none connection.matrix).clauses = [connection] :=
    rfl
  have member := given ▸ List.mem_singleton_self connection
  have ground : ∀ fact ∈ twoTowns, fact.isGround = true := by
    rintro fact (rfl | rfl) <;> rfl
  have taken := normalize_range_restricted _ none _ connection_regular connection member _ rfl
    twoTowns ground _ fromTo connection_holds
  refine ⟨connection_regular, member, connection_holds, taken "x" [] ?_, taken "y" [] ?_⟩
  · exact (Sentence.within_self _).of_child List.mem_cons_self
  · exact (Sentence.within_self _).of_child (List.mem_cons_of_mem _ List.mem_cons_self)

end Dialect

end Clausal
