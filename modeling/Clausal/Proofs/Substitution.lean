import Clausal.Proofs.Occurrence
import Clausal.Sentence.Builder

/-!
# Substitution and free variables

A substitution replaces the free variables of a sentence and leaves it otherwise as it is. Where no
quantifier captures a variable of what is put in, the variables that are free afterwards are those
that were not replaced and those of the replacements. The proofs go down from a sentence to its
immediate parts, where a quantifier takes the variables that it binds out of the substitution.

Main result: `substitute_freeVars`.
-/

namespace Clausal

namespace Sentence

/-! ### One step down -/

/-- The variables that a quantifier at the root of a sentence binds. -/
def boundHere : Sentence → List Text
  | .forAll vars _ => vars.map TypedName.name
  | .forSome vars _ => vars.map TypedName.name
  | _ => []

/-- What is left of a substitution inside a sentence, below its root. -/
def inside (s : Sentence) (m : Substitution) : Substitution :=
  m.filter fun entry => !s.boundHere.contains entry.1

/-- Taking names out of a substitution leaves the others as they are. -/
theorem lookup_without (names : List Text) (m : Substitution) (x : Text) :
    (m.filter fun entry => !names.contains entry.1).lookup x =
      if x ∈ names then none else m.lookup x := by
  induction m with
  | nil => simp
  | cons entry m ih =>
    obtain ⟨y, t⟩ := entry
    rw [List.filter_cons, List.lookup_cons]
    by_cases same : x = y
    · subst same
      by_cases named : x ∈ names
      · simpa [named] using ih
      · simp [named]
    · have different : (x == y) = false := beq_eq_false_iff_ne.mpr same
      split
      · rw [List.lookup_cons, different, ih]
      · rw [different, ih]

/-- Below a quantifier, a substitution has no entry for the bound variables. -/
theorem lookup_inside (s : Sentence) (m : Substitution) (x : Text) :
    (s.inside m).lookup x = if x ∈ s.boundHere then none else m.lookup x :=
  lookup_without s.boundHere m x

/-- Induction in which only variables are a case of their own. -/
@[elab_as_elim]
theorem induction_compound {P : Sentence → Prop} (var : ∀ name type, P (.var name type))
    (compound : ∀ s, s.kind ≠ .var → (∀ c ∈ s.children, P c) → P s) (s : Sentence) : P s := by
  induction s using induction_children with
  | step s ih =>
    cases s with
    | var name type => exact var name type
    | _ => exact compound _ (by simp [kind]) ih

section Compound

variable {s : Sentence} (compound : s.kind ≠ .var)

include compound

/-- A variable is free in a sentence if it is free in a part and not bound at the root. -/
theorem mem_freeIn_children (x : Text) :
    x ∈ s.freeIn [] ↔ (∃ c ∈ s.children, x ∈ c.freeIn []) ∧ x ∉ s.boundHere := by
  cases s with
  | var => exact absurd rfl compound
  | forAll vars s | forSome vars s =>
    rw [freeIn, mem_freeIn, List.append_nil]
    simp [children, boundHere]
  | _ => simp [freeIn, mem_freeInAll, children, boundHere]

/-- A substitution goes on in the parts of a sentence. -/
theorem children_substitute (m : Substitution) :
    (s.substitute m).children = s.children.map (substitute (s.inside m)) := by
  cases s with
  | var => exact absurd rfl compound
  | forAll vars s | forSome vars s => rfl
  | _ => simp [substitute, substituteAll_eq, children, inside, boundHere]

theorem kind_substitute (m : Substitution) : (s.substitute m).kind = s.kind := by
  cases s with
  | var => exact absurd rfl compound
  | _ => rfl

theorem boundHere_substitute (m : Substitution) : (s.substitute m).boundHere = s.boundHere := by
  cases s with
  | var => exact absurd rfl compound
  | _ => rfl

theorem isMissing_substitute (m : Substitution) : (s.substitute m).isMissing = s.isMissing := by
  cases s with
  | var => exact absurd rfl compound
  | _ => rfl

/-- Two substitutions that agree on the parts of a sentence agree on the sentence. -/
theorem substitute_congr_children (m₁ m₂ : Substitution)
    (agree : ∀ c ∈ s.children, c.substitute (s.inside m₁) = c.substitute (s.inside m₂)) :
    s.substitute m₁ = s.substitute m₂ := by
  have lists := List.map_congr_left agree
  cases s with
  | var => exact absurd rfl compound
  | _ => simp_all [substitute, substituteAll_eq, children, inside, boundHere, withoutBound]

end Compound

/-! ### Free variables -/

/-- Whether no quantifier of a sentence binds a variable that is free in what a substitution puts in. -/
def CaptureFree (m : Substitution) : Sentence → Prop :=
  Everywhere fun q => ∀ x ∈ q.boundHere, ∀ y t, m.lookup y = some t → x ∉ t.freeVars

/-- Freedom from capture is inherited by parts, for what is left of the substitution. -/
theorem CaptureFree.inside {m : Substitution} {s c : Sentence} (free : s.CaptureFree m)
    (child : c ∈ s.children) : c.CaptureFree (s.inside m) := by
  intro q within x bound y t found
  rw [lookup_inside] at found
  split at found
  · cases found
  · exact free q (within.of_child child) x bound y t found

/-- Whether a variable is free where another one was, after a substitution. -/
def Becomes (m : Substitution) (x y : Text) : Prop :=
  (m.lookup x = none ∧ y = x) ∨ ∃ t, m.lookup x = some t ∧ y ∈ t.freeIn []

theorem becomes_inside {s : Sentence} {m : Substitution} {x y : Text} (unbound : x ∉ s.boundHere) :
    Becomes (s.inside m) x y ↔ Becomes m x y := by
  rw [Becomes, Becomes, lookup_inside, if_neg unbound]

/-- After a substitution without capture, the free variables are those of what was put in, and those
that were left. -/
theorem mem_freeIn_substitute (s : Sentence) (m : Substitution) (free : s.CaptureFree m) (y : Text) :
    y ∈ (s.substitute m).freeIn [] ↔ ∃ x ∈ s.freeIn [], Becomes m x y := by
  induction s using induction_compound generalizing m with
  | var name type =>
    have only : (∃ x ∈ (Sentence.var name type).freeIn [], Becomes m x y) ↔ Becomes m name y := by
      simp [freeIn]
    rw [only, substitute, Becomes]
    cases m.lookup name <;> simp [freeIn]
  | compound s compound ih =>
    have parts : y ∈ (s.substitute m).freeIn [] ↔
        (∃ c ∈ s.children, ∃ x ∈ c.freeIn [], Becomes (s.inside m) x y) ∧ y ∉ s.boundHere := by
      rw [mem_freeIn_children (by rwa [kind_substitute compound]), children_substitute compound,
        boundHere_substitute compound]
      simp only [List.mem_map, exists_exists_and_eq_and]
      refine and_congr_left' (exists_congr fun c => and_congr_right fun child => ?_)
      exact ih c child (s.inside m) (free.inside child)
    simp only [parts, mem_freeIn_children compound]
    constructor
    · rintro ⟨⟨c, child, x, inPart, becomes⟩, outside⟩
      -- A variable that is bound here stays as it is inside, and is not free any more.
      have unbound : x ∉ s.boundHere := by
        intro bound
        rcases becomes with ⟨-, rfl⟩ | ⟨t, found, -⟩
        · exact outside bound
        · simp [lookup_inside, bound] at found
      rw [becomes_inside unbound] at becomes
      exact ⟨x, ⟨⟨c, child, inPart⟩, unbound⟩, becomes⟩
    · rintro ⟨x, ⟨⟨c, child, inPart⟩, unbound⟩, becomes⟩
      refine ⟨⟨c, child, x, inPart, (becomes_inside unbound).mpr becomes⟩, ?_⟩
      rcases becomes with ⟨-, rfl⟩ | ⟨t, found, inReplacement⟩
      · exact unbound
      -- What is put in is not captured here.
      · intro bound
        exact free s (within_self s) y bound x t found ((mem_freeVars y t).mpr inReplacement)

/-! ### Substitutions that agree -/

/-- Only what a substitution does with the free variables matters. -/
theorem substitute_congr (s : Sentence) (m₁ m₂ : Substitution)
    (agree : ∀ x ∈ s.freeIn [], m₁.lookup x = m₂.lookup x) : s.substitute m₁ = s.substitute m₂ := by
  induction s using induction_compound generalizing m₁ m₂ with
  | var name type => rw [substitute, substitute, agree name (by simp [freeIn])]
  | compound s compound ih =>
    apply substitute_congr_children compound
    intro c child
    apply ih c child
    intro x inPart
    rw [lookup_inside, lookup_inside]
    split
    · rfl
    next unbound =>
      exact agree x ((mem_freeIn_children compound x).mpr ⟨⟨c, child, inPart⟩, unbound⟩)

theorem substitute_nil (s : Sentence) : s.substitute [] = s := by
  induction s with
  | term p ss ih | conj ss ih | disj ss ih =>
    rw [substitute, substituteAll_eq, List.map_congr_left ih, List.map_id']
  | implies a b left right | iff a b left right => rw [substitute, left, right]
  | neg s ih | weighted w s ih | evidence holds s ih => rw [substitute, ih]
  | forAll vars s ih | forSome vars s ih => rw [substitute, withoutBound, List.filter_nil, ih]
  | var | const | missing => rfl

/-- A substitution for other variables changes nothing. -/
theorem substitute_eq_self (s : Sentence) (m : Substitution)
    (untouched : ∀ x ∈ s.freeIn [], m.lookup x = none) : s.substitute m = s := by
  rw [substitute_congr s m [] untouched, substitute_nil]

/-- After a substitution of sentences without free variables, another one replaces what is left. -/
theorem substitute_substitute (s : Sentence) (m₁ m₂ : Substitution)
    (closed : ∀ x t, m₁.lookup x = some t → t.freeIn [] = []) :
    (s.substitute m₁).substitute m₂ = s.substitute (m₁ ++ m₂) := by
  induction s generalizing m₁ m₂ with
  | var name type =>
    rw [substitute, substitute, List.lookup_append]
    cases found : m₁.lookup name with
    | none => rfl
    -- What has been put in has nothing left to replace.
    | some t => exact substitute_eq_self t m₂ (by simp [closed name t found])
  | term p ss ih | conj ss ih | disj ss ih =>
    simp only [substitute, substituteAll_eq, List.map_map]
    congr 1
    exact List.map_congr_left fun s member => ih s member m₁ m₂ closed
  | implies a b left right | iff a b left right =>
    simp only [substitute, left m₁ m₂ closed, right m₁ m₂ closed]
  | neg s ih | weighted w s ih | evidence holds s ih =>
    simp only [substitute, ih m₁ m₂ closed]
  | forAll vars s ih | forSome vars s ih =>
    -- The quantifier takes the same variables out of both substitutions.
    have both : withoutBound vars (m₁ ++ m₂) = withoutBound vars m₁ ++ withoutBound vars m₂ :=
      List.filter_append m₁ m₂
    have inner : ∀ x t, (withoutBound vars m₁).lookup x = some t → t.freeIn [] = [] := by
      intro x t found
      rw [withoutBound, lookup_without] at found
      split at found
      · cases found
      · exact closed x t found
    simp only [substitute, both, ih _ _ inner]
  | const | missing => rfl

/-! ### Checked substitution -/

theorem firstEmptyQuantifier?_eq_none (ss : List Sentence) :
    firstEmptyQuantifier? ss = none ↔ ∀ s ∈ ss, s.emptyQuantifier? = none := by
  induction ss with
  | nil => simp [firstEmptyQuantifier?]
  | cons s ss ih => simp [firstEmptyQuantifier?, ih]

theorem Complete.child {s c : Sentence} (complete : s.Complete) (child : c ∈ s.children) :
    c.Complete :=
  ((everywhere_iff _ s).mp complete).2 c child

/-- Where nothing is missing, no quantifier stands over a missing sentence. -/
theorem Complete.emptyQuantifier? {s : Sentence} (complete : s.Complete) :
    s.emptyQuantifier? = none := by
  induction s with
  | term p ss ih | conj ss ih | disj ss ih =>
    rw [Sentence.emptyQuantifier?, firstEmptyQuantifier?_eq_none]
    exact fun s member => ih s member (complete.child member)
  | implies a b left right | iff a b left right =>
    rw [Sentence.emptyQuantifier?, left (complete.child (by simp [children])),
      right (complete.child (by simp [children]))]
    rfl
  | neg s ih | weighted w s ih | evidence holds s ih =>
    rw [Sentence.emptyQuantifier?]
    exact ih (complete.child List.mem_cons_self)
  | forAll vars s ih | forSome vars s ih =>
    have inner : s.Complete := complete.child List.mem_cons_self
    rw [Sentence.emptyQuantifier?, inner s (within_self s), if_neg (by decide), ih inner]
  | var | const | missing => rfl

/-- Substituting complete sentences for variables leaves a sentence complete. -/
theorem Complete.substitute {s : Sentence} (complete : s.Complete) (m : Substitution)
    (present : ∀ x ∈ s.freeIn [], ∀ t, m.lookup x = some t → t.Complete) :
    (s.substitute m).Complete := by
  induction s using induction_compound generalizing m with
  | var name type =>
    rw [Sentence.substitute]
    cases found : m.lookup name with
    | none => exact complete
    | some t => exact present name (by simp [freeIn]) t found
  | compound s compound ih =>
    refine (everywhere_iff _ _).mpr ⟨?_, ?_⟩
    · rw [isMissing_substitute compound]
      exact complete s (within_self s)
    · rw [children_substitute compound, List.forall_mem_map]
      intro c child
      refine ih c child (complete.child child) _ fun x inPart t found => ?_
      rw [lookup_inside] at found
      split at found
      · cases found
      next unbound =>
        exact present x ((mem_freeIn_children compound x).mpr ⟨⟨c, child, inPart⟩, unbound⟩) t found

/-- Where nothing is missing, a substitution is accepted. -/
theorem Build.substitute_ok {s : Sentence} (complete : s.Complete) (m : Substitution)
    (present : ∀ x ∈ s.freeIn [], ∀ t, m.lookup x = some t → t.Complete) :
    Build.substitute m s = .ok (s.substitute m) := by
  rw [Build.substitute, (complete.substitute m present).emptyQuantifier?]

/-! ### The whole -/

/-- After a substitution that captures nothing, the free variables are those that it does not replace
and those of the replacements. A substitution for other variables gives the sentence itself, and one
that puts in ground sentences can be joined with the next. All this is about sentences that may have
missing parts; where none is missing, a checked substitution gives the same result. -/
theorem substitute_freeVars (s : Sentence) :
    (∀ m, s.CaptureFree m → ∀ y, y ∈ (s.substitute m).freeVars ↔
      (y ∈ s.freeVars ∧ m.lookup y = none) ∨
        ∃ x ∈ s.freeVars, ∃ t, m.lookup x = some t ∧ y ∈ t.freeVars) ∧
    (∀ m : Substitution, (∀ x ∈ s.freeVars, m.lookup x = none) → s.substitute m = s) ∧
    (∀ m₁ m₂ m : Substitution, (∀ x t, m₁.lookup x = some t → t.isGround = true) →
      (∀ x, m.lookup x = (m₁.lookup x).or (m₂.lookup x)) →
      (s.substitute m₁).substitute m₂ = s.substitute m) ∧
    (s.Complete → ∀ m : Substitution, (∀ x ∈ s.freeVars, ∀ t, m.lookup x = some t → t.Complete) →
      Build.substitute m s = .ok (s.substitute m)) := by
  simp only [mem_freeVars]
  refine ⟨fun m free y => ?_, substitute_eq_self s, fun m₁ m₂ m ground joined => ?_,
    Build.substitute_ok⟩
  · rw [mem_freeIn_substitute s m free y]
    constructor
    · rintro ⟨x, free, ⟨kept, rfl⟩ | ⟨t, found, inside⟩⟩
      · exact .inl ⟨free, kept⟩
      · exact .inr ⟨x, free, t, found, inside⟩
    · rintro (⟨free, kept⟩ | ⟨x, free, t, found, inside⟩)
      · exact ⟨y, free, .inl ⟨kept, rfl⟩⟩
      · exact ⟨x, free, .inr ⟨t, found, inside⟩⟩
  · rw [substitute_substitute s m₁ m₂ fun x t found => freeIn_of_isGround (ground x t found) []]
    apply substitute_congr
    intro x _
    rw [joined, List.lookup_append]

private def someSeller : Sentence :=
  .forSome [⟨"x", []⟩] (.term "sells" [.var "x" [], .var "y" [], .var "z" []])

private theorem everywhere_someSeller {P : Sentence → Prop} (root : P someSeller)
    (other : ∀ t, t.boundHere = [] → t.isMissing = false → P t) : Everywhere P someSeller := by
  have leaf (name : Text) : Everywhere P (.var name []) :=
    (everywhere_iff _ _).mpr ⟨other _ rfl rfl, by simp [children]⟩
  refine (everywhere_iff _ _).mpr ⟨root, List.forall_mem_singleton.mpr ?_⟩
  refine (everywhere_iff _ _).mpr ⟨other _ rfl rfl, ?_⟩
  simp only [children, List.forall_mem_cons]
  exact ⟨leaf _, leaf _, leaf _, by simp⟩

private def resale : Substitution := [("x", .const .null), ("y", .term "f" [.var "z" []])]

private def values : Substitution := [("z", .const (.int 1))]

theorem substitute_freeVars_someSeller :
    someSeller.CaptureFree resale ∧
      Text.ofString "z" ∈ (someSeller.substitute resale).freeVars ∧
      someSeller.substitute [("x", .const .null)] = someSeller ∧
      (someSeller.substitute values).substitute resale = someSeller.substitute (values ++ resale) ∧
      Build.substitute values someSeller = .ok (someSeller.substitute values) := by
  obtain ⟨free, untouched, joined, checked⟩ := substitute_freeVars someSeller
  have sold (y : Text) (t : Sentence) (found : resale.lookup y = some t) :
      Text.ofString "x" ∉ t.freeVars := by
    simp only [resale, List.lookup_cons] at found
    split at found
    · cases found
      decide
    · split at found <;> cases found
      decide
  have valued (y : Text) (t : Sentence) (found : values.lookup y = some t) :
      t = .const (.int 1) := by
    simp only [values, List.lookup_cons] at found
    split at found <;> cases found
    rfl
  have captured : someSeller.CaptureFree resale :=
    everywhere_someSeller (List.forall_mem_singleton.mpr sold) (by simp +contextual)
  refine ⟨captured, ?_, untouched _ (by decide), joined values resale _ ?_ ?_, checked ?_ values ?_⟩
  · exact (free resale captured "z").mpr (.inr ⟨"y", by decide, _, rfl, by decide⟩)
  · exact fun x t found => by rw [valued x t found]; rfl
  · exact fun x => List.lookup_append
  · exact everywhere_someSeller rfl fun t _ present => present
  · intro x _ t found
    rw [valued x t found]
    exact (everywhere_iff _ _).mpr ⟨rfl, by simp [children]⟩

end Sentence

end Clausal
