import Clausal.Proofs.Stratification
import Clausal.Theory
import Mathlib.Data.List.Nodup

/-!
# What holds of every registry

However declarations are made, refused ones included, the registry stays consistent: names are unique,
no primitive is redeclared, and the types can be ranked so that each lies above the types it stands
for. Consistency also decides what is accepted. A declaration that is not there yet is taken over if
and only if the registry is consistent with it, and a new type is refused as cyclic if and only if it
would close a cycle.
-/

namespace Clausal

/-! ### Graphs without cycles -/

/-- No path leads from a node back to itself. -/
def Acyclic {α : Type} (edges : List (Edge α)) : Prop :=
  ∀ x, ¬ Relation.TransGen (Leads edges) x x

/-- A finite graph has no cycle if and only if its nodes can be ranked along its edges. -/
theorem acyclic_iff_ranked (edges : List (Edge Text)) :
    Acyclic edges ↔ ∃ rank : Text → Nat, ∀ x y, Leads edges x y → rank y < rank x := by
  constructor
  · intro acyclic
    refine ⟨levelIn edges, fun x y edge => levelIn_lt edges x y edge fun back => ?_⟩
    exact acyclic x (.head' edge back)
  · rintro ⟨rank, descends⟩ x cycle
    have below {y : Text} (path : Relation.TransGen (Leads edges) x y) : rank y < rank x := by
      induction path with
      | single edge => exact descends _ _ edge
      | tail _ edge ih => exact Nat.lt_trans (descends _ _ edge) ih
    exact Nat.lt_irrefl _ (below cycle)

section Fan

variable {α : Type} {edges : List (Edge α)} {source : α} {targets : List α}

/-- The edges from one node to each of some others. -/
def fan (source : α) (targets : List α) : List (Edge α) :=
  targets.map fun target => ⟨source, target⟩

theorem leads_append_fan (x y : α) : Leads (edges ++ fan source targets) x y ↔
    Leads edges x y ∨ (x = source ∧ y ∈ targets) := by
  simp only [Leads, fan, List.mem_append, List.mem_map, Edge.mk.injEq]
  constructor
  · rintro (old | ⟨target, member, rfl, rfl⟩)
    · exact .inl old
    · exact .inr ⟨rfl, member⟩
  · rintro (old | ⟨rfl, member⟩)
    · exact .inl old
    · exact .inr ⟨y, member, rfl, rfl⟩

theorem PathFrom.append_fan {x y : α} (path : PathFrom edges x y) :
    PathFrom (edges ++ fan source targets) x y :=
  path.lift id fun x y edge => (leads_append_fan x y).mpr (.inl edge)

/-- A path that uses a new edge comes by the common source, and leaves it for good by some target. -/
theorem path_append_fan {x y : α} (path : PathFrom (edges ++ fan source targets) x y) :
    PathFrom edges x y ∨ (PathFrom edges x source ∧ ∃ t ∈ targets, PathFrom edges t y) := by
  induction path with
  | refl => exact .inl .refl
  | @tail z y _ edge ih =>
    rcases (leads_append_fan z y).mp edge with old | ⟨rfl, member⟩
    · rcases ih with before | ⟨before, t, inside, after⟩
      · exact .inl (before.tail old)
      · exact .inr ⟨before, t, inside, after.tail old⟩
    · rcases ih with before | ⟨before, -⟩
      · exact .inr ⟨before, y, member, .refl⟩
      · exact .inr ⟨before, y, member, .refl⟩

/-- New edges from one node close a cycle if and only if one of their targets led there before. -/
theorem acyclic_append_fan (acyclic : Acyclic edges) :
    Acyclic (edges ++ fan source targets) ↔ ∀ t ∈ targets, ¬ PathFrom edges t source := by
  constructor
  · intro still t member back
    have edge : Leads (edges ++ fan source targets) source t :=
      (leads_append_fan source t).mpr (.inr ⟨rfl, member⟩)
    exact still source (.head' edge (PathFrom.append_fan back))
  · intro oneWay x cycle
    obtain ⟨y, edge, path⟩ := Relation.TransGen.head'_iff.mp cycle
    rcases (leads_append_fan x y).mp edge with old | ⟨rfl, member⟩
    · rcases path_append_fan path with back | ⟨before, t, inside, after⟩
      · exact acyclic x (.head' old back)
      · exact oneWay t inside ((after.tail old).trans before)
    · rcases path_append_fan path with back | ⟨before, -⟩
      · exact oneWay y member back
      · exact oneWay y member before

end Fan

/-! ### Lists without repeated names -/

section Named

variable {α : Type} {key : α → Text} {xs : List α}

/-- A look-up by name finds what has the name. -/
theorem find?_name_iff (distinct : (xs.map key).Nodup) (name : Text) (x : α) :
    xs.find? (fun y => decide (key y = name)) = some x ↔ x ∈ xs ∧ key x = name := by
  constructor
  · intro found
    have named := List.find?_some found
    exact ⟨List.mem_of_find?_eq_some found, of_decide_eq_true named⟩
  · rintro ⟨member, named⟩
    cases found : xs.find? (fun y => decide (key y = name)) with
    | none =>
      have missing := List.find?_eq_none.mp found x member
      exact absurd (decide_eq_true named) missing
    | some y =>
      have other := List.find?_some found
      have same := (of_decide_eq_true other).trans named.symm
      rw [List.inj_on_of_nodup_map distinct (List.mem_of_find?_eq_some found) member same]

/-- A member can be added if nothing has its name yet. -/
theorem nodup_names_append (distinct : (xs.map key).Nodup) (x : α) :
    ((xs ++ [x]).map key).Nodup ↔ xs.find? (fun y => decide (key y = key x)) = none := by
  rw [List.map_append, List.map_singleton, ← List.concat_eq_append, List.nodup_concat,
    and_iff_left distinct, List.find?_eq_none]
  simp

end Named

/-! ### Declarations -/

inductive Declaration where
  | type (name target : Text)
  | union (name : Text) (alternatives : List Text)
  | predicate (p : Predicate)

/-- The type that a declaration introduces. -/
def Declaration.alias? : Declaration → Option TypeAlias
  | .type name target => some ⟨name, [target], false⟩
  | .union name alternatives => some ⟨name, alternatives, true⟩
  | .predicate _ => none

namespace Registry

def declare (r : Registry) : Declaration → Except Error Registry
  | .type name target => r.declareType name target
  | .union name alternatives => r.declareUnion name alternatives
  | .predicate p => r.declarePredicate p

/-- The registry after an attempt to make a declaration. -/
def attempt (r : Registry) (d : Declaration) : Registry :=
  match r.declare d with
  | .ok result => result
  | .error _ => r

/-- The registry after attempts to make declarations one after another. -/
def attemptAll (r : Registry) (ds : List Declaration) : Registry := ds.foldl attempt r

/-- The registry with one more type, whether that is admissible or not. -/
def withType (r : Registry) (a : TypeAlias) : Registry := { r with types := r.types ++ [a] }

/-- The registry with one more predicate, whether that is admissible or not. -/
def withPredicate (r : Registry) (p : Predicate) : Registry :=
  { r with predicates := r.predicates ++ [p] }

/-- Whether a registry holds a declaration already. -/
def Holds (r : Registry) : Declaration → Prop
  | .type name target => ⟨name, [target], false⟩ ∈ r.types
  | .union name alternatives => ⟨name, alternatives, true⟩ ∈ r.types
  | .predicate p => p ∈ r.predicates

def extended (r : Registry) : Declaration → Registry
  | .type name target => r.withType ⟨name, [target], false⟩
  | .union name alternatives => r.withType ⟨name, alternatives, true⟩
  | .predicate p => r.withPredicate p

/-- A registry without contradictions. The ranks also cover targets that are not declared yet. -/
structure Consistent (r : Registry) : Prop where
  typeNames : (r.types.map TypeAlias.name).Nodup
  notPrimitive : ∀ a ∈ r.types, isPrimitive a.name = false
  targets : ∀ a ∈ r.types, a.targets ≠ []
  predicateNames : (r.predicates.map Predicate.name).Nodup
  argumentNames : ∀ p ∈ r.predicates, (p.arguments.map TypedName.name).Nodup
  ranked : ∃ rank : Text → Nat, ∀ a ∈ r.types, ∀ target ∈ a.targets, rank target < rank a.name

theorem consistent_empty : empty.Consistent where
  typeNames := List.nodup_nil
  notPrimitive := by simp [empty]
  targets := by simp [empty]
  predicateNames := List.nodup_nil
  argumentNames := by simp [empty]
  ranked := ⟨fun _ => 0, by simp [empty]⟩

/-! #### Types -/

theorem leads_aliasEdges (r : Registry) (x y : Text) :
    Leads r.aliasEdges x y ↔ ∃ a ∈ r.types, a.name = x ∧ y ∈ a.targets := by
  simp only [Leads, aliasEdges, List.mem_flatMap, List.mem_map, Edge.mk.injEq]
  constructor
  · rintro ⟨a, member, target, inside, rfl, rfl⟩
    exact ⟨a, member, rfl, inside⟩
  · rintro ⟨a, member, rfl, inside⟩
    exact ⟨a, member, y, inside, rfl, rfl⟩

/-- The types of a registry can be ranked if and only if no alias leads back to itself. -/
theorem acyclic_aliasEdges (r : Registry) : Acyclic r.aliasEdges ↔
    ∃ rank : Text → Nat, ∀ a ∈ r.types, ∀ target ∈ a.targets, rank target < rank a.name := by
  rw [acyclic_iff_ranked]
  simp only [leads_aliasEdges]
  constructor
  · rintro ⟨rank, descends⟩
    exact ⟨rank, fun a member target inside => descends _ _ ⟨a, member, rfl, inside⟩⟩
  · rintro ⟨rank, descends⟩
    refine ⟨rank, ?_⟩
    rintro _ target ⟨a, member, rfl, inside⟩
    exact descends a member target inside

theorem aliasEdges_withType (r : Registry) (a : TypeAlias) :
    (r.withType a).aliasEdges = r.aliasEdges ++ fan a.name a.targets := by
  simp [aliasEdges, withType, fan]

/-- A cycle is reported exactly if one of the targets leads to the new name already. -/
theorem cyclicTarget?_eq_none (r : Registry) (a : TypeAlias) :
    r.cyclicTarget? a = none ↔ ∀ target ∈ a.targets, ¬ PathFrom r.aliasEdges target a.name := by
  simp only [cyclicTarget?, List.find?_eq_none, Graph.reaches_iff]

/-- Ranks show that a new type is taken over, without a search. -/
theorem declareAlias_of_ranked (r : Registry) (a : TypeAlias) (rank : Text → Nat)
    (descends : ∀ b ∈ r.types ++ [a], ∀ target ∈ b.targets, rank target < rank b.name)
    (plain : isPrimitive a.name = false) (new : r.alias? a.name = none) :
    r.declareAlias a = .ok (r.withType a) := by
  have acyclic : Acyclic r.aliasEdges := (acyclic_aliasEdges r).mpr
    ⟨rank, fun b member => descends b (List.mem_append_left _ member)⟩
  have grown : Acyclic (r.withType a).aliasEdges :=
    (acyclic_aliasEdges _).mpr ⟨rank, descends⟩
  rw [aliasEdges_withType, acyclic_append_fan acyclic, ← cyclicTarget?_eq_none] at grown
  rw [declareAlias, if_neg (by simp [plain]), new, grown]
  rfl

variable {r : Registry}

/-- The search for a way back answers whether the new type would close a cycle. -/
theorem Consistent.cyclicTarget?_eq_none_iff (consistent : r.Consistent) (a : TypeAlias) :
    r.cyclicTarget? a = none ↔ Acyclic (r.withType a).aliasEdges := by
  have acyclic := (acyclic_aliasEdges r).mpr consistent.ranked
  rw [cyclicTarget?_eq_none, aliasEdges_withType, acyclic_append_fan acyclic]

/-- A type can be added to a consistent registry if its name is new, it has targets and it closes no
cycle. -/
theorem Consistent.withType_iff (consistent : r.Consistent) (a : TypeAlias) :
    (r.withType a).Consistent ↔ isPrimitive a.name = false ∧ r.alias? a.name = none ∧
      a.targets ≠ [] ∧ Acyclic (r.withType a).aliasEdges := by
  rw [alias?, ← nodup_names_append consistent.typeNames, acyclic_aliasEdges]
  constructor
  · intro grown
    have last : a ∈ (r.withType a).types := by simp [withType]
    exact ⟨grown.notPrimitive a last, grown.typeNames, grown.targets a last, grown.ranked⟩
  · rintro ⟨plain, unique, present, ranked⟩
    -- What is asked of each type is known of the others.
    have each {P : TypeAlias → Prop} (old : ∀ b ∈ r.types, P b) (last : P a) :
        ∀ b ∈ (r.withType a).types, P b :=
      List.forall_mem_append.mpr ⟨old, List.forall_mem_singleton.mpr last⟩
    exact { consistent with
      typeNames := unique
      notPrimitive := each consistent.notPrimitive plain
      targets := each consistent.targets present
      ranked := ranked }

/-! #### Predicates -/

/-- Arguments are told apart by their names. -/
theorem firstRepeated?_eq_none (names : List Text) : firstRepeated? names = none ↔ names.Nodup := by
  induction names with
  | nil => simp [firstRepeated?]
  | cons name rest ih =>
    rw [firstRepeated?, List.nodup_cons, ← ih]
    by_cases again : name ∈ rest <;> simp [again]

/-- A predicate can be added if its name is new and its arguments have different names. -/
theorem Consistent.withPredicate_iff (consistent : r.Consistent) (p : Predicate) :
    (r.withPredicate p).Consistent ↔ r.predicate? p.name = none ∧
      firstRepeated? (p.arguments.map TypedName.name) = none := by
  rw [predicate?, ← nodup_names_append consistent.predicateNames, firstRepeated?_eq_none]
  constructor
  · intro grown
    exact ⟨grown.predicateNames, grown.argumentNames p (by simp [withPredicate])⟩
  · rintro ⟨unique, distinct⟩
    exact { consistent with
      predicateNames := unique
      argumentNames := List.forall_mem_append.mpr
        ⟨consistent.argumentNames, List.forall_mem_singleton.mpr distinct⟩ }

/-! #### What is accepted -/

/-- How a registry answers a declaration that it holds already or not, and that would extend it
to `grown`. -/
inductive Answers (r : Registry) (known : Prop) (grown : Registry) : Except Error Registry → Prop where
  | unchanged (there : known) : Answers r known grown (.ok r)
  | extended (new : ¬ known) (consistent : grown.Consistent) : Answers r known grown (.ok grown)
  | refused (e : Error) (new : ¬ known) (inconsistent : ¬ grown.Consistent) :
      Answers r known grown (.error e)

/-- Where the name is known, only the same declaration is accepted. -/
theorem Answers.of_known {α : Type} [DecidableEq α] {known : Prop} {grown : Registry}
    {declared? : Option α} {new old : α} (there : known ↔ declared? = some new)
    (found : declared? = some old) (grows : grown.Consistent → declared? = none) (e : Error) :
    Answers r known grown (if old = new then .ok r else .error e) := by
  by_cases same : old = new
  · rw [if_pos same]
    exact .unchanged (there.mpr (same ▸ found))
  · rw [if_neg same]
    refine .refused e (fun given => ?_) (fun grown => ?_)
    · exact same (Option.some.inj (found.symm.trans (there.mp given)))
    · simp [grows grown] at found

/-- A type that is there is ignored, one that fits is added, and any other is refused. -/
theorem Consistent.declareAlias_answers (consistent : r.Consistent) (a : TypeAlias)
    (present : a.targets ≠ []) : Answers r (a ∈ r.types) (r.withType a) (r.declareAlias a) := by
  have grows := consistent.withType_iff a
  have acyclic := consistent.cyclicTarget?_eq_none_iff a
  have declared : a ∈ r.types ↔ r.alias? a.name = some a :=
    ((find?_name_iff consistent.typeNames a.name a).trans (and_iff_left rfl)).symm
  rw [declareAlias]
  by_cases primitive : isPrimitive a.name = true
  · rw [if_pos primitive]
    refine .refused _ (fun there => ?_) (fun grown => ?_)
    · exact absurd (consistent.notPrimitive a there) (by simp [primitive])
    · exact absurd (grows.mp grown).1 (by simp [primitive])
  rw [if_neg primitive]
  cases found : r.alias? a.name with
  | some known =>
    exact .of_known declared found (fun grown => (grows.mp grown).2.1) _
  | none =>
    have new : a ∉ r.types := fun there => by simp [declared.mp there] at found
    cases cycle : r.cyclicTarget? a with
    | some target =>
      refine .refused _ new (fun grown => ?_)
      simp [acyclic.mpr (grows.mp grown).2.2.2] at cycle
    | none =>
      have plain : isPrimitive a.name = false := by simpa using primitive
      exact .extended new (grows.mpr ⟨plain, found, present, acyclic.mp cycle⟩)

theorem Consistent.declareUnion_answers (consistent : r.Consistent) (name : Text)
    (alternatives : List Text) :
    Answers r (⟨name, alternatives, true⟩ ∈ r.types) (r.withType ⟨name, alternatives, true⟩)
      (r.declareUnion name alternatives) := by
  rw [declareUnion]
  by_cases none : alternatives = []
  · rw [if_pos (List.isEmpty_iff.mpr none)]
    refine .refused _ (fun there => consistent.targets _ there none) (fun grown => ?_)
    exact ((consistent.withType_iff _).mp grown).2.2.1 none
  · rw [if_neg (mt List.isEmpty_iff.mp none)]
    exact consistent.declareAlias_answers ⟨name, alternatives, true⟩ none

theorem Consistent.declarePredicate_answers (consistent : r.Consistent) (p : Predicate) :
    Answers r (p ∈ r.predicates) (r.withPredicate p) (r.declarePredicate p) := by
  have grows := consistent.withPredicate_iff p
  have declared : p ∈ r.predicates ↔ r.predicate? p.name = some p :=
    ((find?_name_iff consistent.predicateNames p.name p).trans (and_iff_left rfl)).symm
  rw [declarePredicate]
  cases found : r.predicate? p.name with
  | some known =>
    exact .of_known declared found (fun grown => (grows.mp grown).1) _
  | none =>
    have new : p ∉ r.predicates := fun there => by simp [declared.mp there] at found
    cases again : firstRepeated? (p.arguments.map TypedName.name) with
    | some argument =>
      refine .refused _ new (fun grown => ?_)
      simp [(grows.mp grown).2] at again
    | none => exact .extended new (grows.mpr ⟨found, again⟩)

/-- A declaration is accepted if and only if it is there already or can be added consistently. -/
theorem Consistent.declare_answers (consistent : r.Consistent) (d : Declaration) :
    Answers r (r.Holds d) (r.extended d) (r.declare d) := by
  cases d with
  | type name target =>
    exact consistent.declareAlias_answers ⟨name, [target], false⟩ (List.cons_ne_nil _ _)
  | union name alternatives => exact consistent.declareUnion_answers name alternatives
  | predicate p => exact consistent.declarePredicate_answers p

theorem Consistent.attempt (consistent : r.Consistent) (d : Declaration) :
    (r.attempt d).Consistent := by
  have answers := consistent.declare_answers d
  rw [Registry.attempt]
  generalize r.declare d = answer at answers
  cases answers with
  | unchanged => exact consistent
  | extended _ grown => exact grown
  | refused => exact consistent

theorem Consistent.attemptAll (consistent : r.Consistent) (ds : List Declaration) :
    (r.attemptAll ds).Consistent := by
  induction ds generalizing r with
  | nil => exact consistent
  | cons d ds ih => exact ih (consistent.attempt d)

/-! #### Cycles -/

/-- Among new types that are no primitives, those that close a cycle are refused for just that. -/
theorem Consistent.declareAlias_cyclic (consistent : r.Consistent) (a : TypeAlias)
    (plain : isPrimitive a.name = false) (new : r.alias? a.name = none) :
    (∃ e, r.declareAlias a = .error e ∧ e.kind = .cyclicTypeAlias) ↔
      ¬ Acyclic (r.withType a).aliasEdges := by
  rw [← consistent.cyclicTarget?_eq_none_iff, declareAlias, if_neg (by simp [plain]), new]
  cases cycle : r.cyclicTarget? a with
  | none => simp
  | some target => simp [Error.kind]

/-- A new type is refused as cyclic if and only if it would close a cycle. -/
theorem Consistent.declare_cyclic (consistent : r.Consistent) (d : Declaration) (a : TypeAlias)
    (introduced : d.alias? = some a) (plain : isPrimitive a.name = false)
    (new : ∀ b ∈ r.types, b.name ≠ a.name) :
    (∃ e, r.declare d = .error e ∧ e.kind = .cyclicTypeAlias) ↔
      ¬ Acyclic (r.extended d).aliasEdges := by
  have absent : r.alias? a.name = none := by simpa [alias?] using new
  cases d with
  | type name target =>
    obtain rfl := Option.some.inj introduced
    exact consistent.declareAlias_cyclic _ plain absent
  | union name alternatives =>
    obtain rfl := Option.some.inj introduced
    rw [declare, declareUnion]
    by_cases none : alternatives = []
    · -- Without alternatives the type is refused for another reason, and it adds no edge.
      have acyclic : Acyclic (r.extended (.union name alternatives)).aliasEdges := by
        rw [extended, aliasEdges_withType, none, fan, List.map_nil, List.append_nil]
        exact (acyclic_aliasEdges r).mpr consistent.ranked
      rw [if_pos (List.isEmpty_iff.mpr none)]
      simp [Error.kind, acyclic]
    · rw [if_neg (mt List.isEmpty_iff.mp none)]
      exact consistent.declareAlias_cyclic _ plain absent
  | predicate p => cases introduced

/-! ### Every sequence of declarations -/

/-- How a registry treats one more declaration. -/
structure Treats (r : Registry) (d : Declaration) : Prop where
  /-- What is declared already changes nothing. -/
  known : r.Holds d → r.declare d = .ok r
  /-- Anything new that is consistent with the rest is added. -/
  added : ¬ r.Holds d → (r.extended d).Consistent → r.declare d = .ok (r.extended d)
  /-- Anything else is refused. -/
  rejected : ¬ r.Holds d → ¬ (r.extended d).Consistent → ∃ e, r.declare d = .error e
  /-- A refused declaration leaves the registry as it is, also that of a theory. -/
  kept : ∀ e, r.declare d = .error e →
    r.attempt d = r ∧ ∀ t : Theory, t.registry = r → (t.declare (r.declare d)).2.registry = r
  /-- A new type is refused as cyclic if and only if it would close a cycle. -/
  cyclic : ∀ a, d.alias? = some a → isPrimitive a.name = false → (∀ b ∈ r.types, b.name ≠ a.name) →
    ((∃ e, r.declare d = .error e ∧ e.kind = .cyclicTypeAlias) ↔
      ¬ Acyclic (r.extended d).aliasEdges)

/-- What happens to a declaration is decided by consistency alone. -/
theorem Consistent.treats (consistent : r.Consistent) (d : Declaration) : r.Treats d := by
  have answers := consistent.declare_answers d
  have cyclic := consistent.declare_cyclic d
  have kept (e : Error) (failed : r.declare d = .error e) : r.attempt d = r ∧
      ∀ t : Theory, t.registry = r → (t.declare (r.declare d)).2.registry = r := by
    rw [Registry.attempt, failed]
    exact ⟨rfl, fun t same => same⟩
  generalize answered : r.declare d = answer at answers
  cases answers with
  | unchanged there =>
    exact ⟨fun _ => answered, fun new => absurd there new, fun new => absurd there new, kept,
      cyclic⟩
  | extended new grown =>
    exact ⟨fun there => absurd there new, fun _ _ => answered, fun _ other => absurd grown other,
      kept, cyclic⟩
  | refused e new other =>
    exact ⟨fun there => absurd there new, fun _ grown => absurd grown other, fun _ _ =>
      ⟨e, answered⟩, kept, cyclic⟩

/-- After any declarations, refused ones included, a registry is consistent. It takes over whatever
is consistent with it, ignores what it holds already and is not changed by what it refuses. -/
theorem attemptAll_consistent (ds : List Declaration) :
    (empty.attemptAll ds).Consistent ∧ ∀ d, (empty.attemptAll ds).Treats d := by
  have consistent := consistent_empty.attemptAll ds
  exact ⟨consistent, consistent.treats⟩

end Registry

end Clausal
