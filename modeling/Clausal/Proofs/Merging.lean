import Clausal.Proofs.TheoryBuilding

/-!
# What merging keeps, adds and refuses

A merged theory continues the first one. It takes over every declaration of the second one that is
consistent with what was there before, and every fact that agrees with the declarations in the end.
Nothing is dropped without a trace: what is refused is exactly what the merged theory does not hold,
and there is one note for each refusal, in order.
-/

namespace Clausal

/-! ### Registries that continue others -/

namespace Registry

/-- Whether a registry has the declarations of another one, in order and before its own. -/
structure Continues (m r : Registry) : Prop where
  types : r.types <+: m.types
  predicates : r.predicates <+: m.predicates

namespace Continues

variable {m r : Registry}

theorem refl (r : Registry) : r.Continues r := ⟨List.prefix_rfl, List.prefix_rfl⟩

theorem trans {k : Registry} (second : m.Continues r) (first : r.Continues k) : m.Continues k :=
  ⟨first.types.trans second.types, first.predicates.trans second.predicates⟩

theorem extended (r : Registry) (d : Declaration) : (r.extended d).Continues r := by
  cases d with
  | type | union => exact ⟨List.prefix_append _ _, List.prefix_rfl⟩
  | predicate => exact ⟨List.prefix_rfl, List.prefix_append _ _⟩

theorem holds (continues : m.Continues r) {d : Declaration} (there : r.Holds d) : m.Holds d := by
  cases d with
  | type | union => exact continues.types.subset there
  | predicate => exact continues.predicates.subset there

/-- A type of a consistent registry could have been added to every registry it continues. -/
theorem withType (continues : m.Continues r) (consistent : r.Consistent) (final : m.Consistent)
    {a : TypeAlias} (there : a ∈ m.types) (new : a ∉ r.types) : (r.withType a).Consistent := by
  rw [consistent.withType_iff]
  refine ⟨final.notPrimitive a there, ?_, final.targets a there, ?_⟩
  · -- Another type of this name would be there in the end, too.
    rw [alias?, List.find?_eq_none]
    intro b member named
    have same := List.inj_on_of_nodup_map final.typeNames (continues.types.subset member) there
      (of_decide_eq_true named)
    exact new (same ▸ member)
  · obtain ⟨rank, descends⟩ := final.ranked
    refine (acyclic_aliasEdges _).mpr ⟨rank, List.forall_mem_append.mpr ⟨?_, ?_⟩⟩
    · exact fun b member => descends b (continues.types.subset member)
    · exact List.forall_mem_singleton.mpr (descends a there)

theorem withPredicate (continues : m.Continues r) (consistent : r.Consistent) (final : m.Consistent)
    {p : Predicate} (there : p ∈ m.predicates) (new : p ∉ r.predicates) :
    (r.withPredicate p).Consistent := by
  rw [consistent.withPredicate_iff, firstRepeated?_eq_none]
  refine ⟨?_, final.argumentNames p there⟩
  rw [predicate?, List.find?_eq_none]
  intro q member named
  have same := List.inj_on_of_nodup_map final.predicateNames (continues.predicates.subset member)
    there (of_decide_eq_true named)
  exact new (same ▸ member)

/-- A declaration of a consistent registry could have been made on any registry that it
continues. -/
theorem extended_consistent (continues : m.Continues r) (consistent : r.Consistent)
    (final : m.Consistent) {d : Declaration} (there : m.Holds d) (new : ¬ r.Holds d) :
    (r.extended d).Consistent := by
  cases d with
  | type | union => exact continues.withType consistent final there new
  | predicate => exact continues.withPredicate consistent final there new

end Continues

/-! ### Declarations made one after another -/

theorem extended_holds (r : Registry) (d : Declaration) : (r.extended d).Holds d := by
  cases d <;> simp [extended, Holds, Registry.withType, Registry.withPredicate]

variable {r : Registry}

theorem Consistent.attempt_continues (consistent : r.Consistent) (d : Declaration) :
    (r.attempt d).Continues r := by
  have answers := consistent.declare_answers d
  rw [Registry.attempt]
  generalize r.declare d = answer at answers
  cases answers with
  | unchanged | refused => exact .refl r
  | extended => exact .extended r d

theorem Consistent.attemptAll_continues (consistent : r.Consistent) (ds : List Declaration) :
    (r.attemptAll ds).Continues r := by
  induction ds generalizing r with
  | nil => exact .refl r
  | cons d ds ih => exact (ih (consistent.attempt d)).trans (consistent.attempt_continues d)

instance (r : Registry) (d : Declaration) : Decidable (r.Holds d) :=
  match d with
  | .type name target => inferInstanceAs (Decidable (⟨name, [target], false⟩ ∈ r.types))
  | .union name alternatives => inferInstanceAs (Decidable (⟨name, alternatives, true⟩ ∈ r.types))
  | .predicate p => inferInstanceAs (Decidable (p ∈ r.predicates))

/-- What is refused is what is not there in the end, however far that is. -/
theorem Consistent.refusals_eq {m : Registry} (consistent : r.Consistent) (final : m.Consistent)
    (ds : List Declaration) (continues : m.Continues (r.attemptAll ds)) :
    (r.refusals ds).map Prod.fst = ds.filter fun d => !decide (m.Holds d) := by
  induction ds generalizing r with
  | nil => rfl
  | cons d ds ih =>
    have next := consistent.attempt d
    have later := continues.trans (next.attemptAll_continues ds)
    have answers := consistent.declare_answers d
    have rest := ih next continues
    rw [Registry.attempt] at later rest
    rw [refusals]
    generalize r.declare d = answer at answers later rest
    cases answers with
    | unchanged there => simpa [later.holds there] using rest
    | extended new grown => simpa [later.holds (r.extended_holds d)] using rest
    | refused e new inconsistent =>
      -- A later declaration cannot make good for a refused one.
      have absent : ¬ m.Holds d := fun there =>
        inconsistent (later.extended_consistent consistent final there new)
      simpa [absent] using rest

end Registry

/-! ### Notes under a key -/

namespace Notes

theorem values_cons (key other : Text) (known : List Text) (rest : Notes) :
    values key ((other, known) :: rest) = if key = other then known else values key rest := by
  by_cases same : key = other
  · simp [values, same]
  · simp [values, List.lookup_cons, beq_eq_false_iff_ne.mpr same, same]

theorem values_eq_nil (key : Text) (notes : Notes) (other : ∀ entry ∈ notes, key ≠ entry.1) :
    values key notes = [] := by
  induction notes with
  | nil => rfl
  | cons entry rest ih =>
    rw [List.forall_mem_cons] at other
    rw [values_cons, if_neg other.1, ih other.2]

/-- Added values come last under their key, and nothing changes under the others. -/
theorem values_add (key name : Text) (added : List Text) (notes : Notes) (sorted : Sorted notes) :
    values key (add name added notes) = values key notes ++ if key = name then added else [] := by
  induction notes with
  | nil =>
    rw [add, values_cons]
    rfl
  | cons first rest ih =>
    obtain ⟨other, known⟩ := first
    obtain ⟨below, sortedRest⟩ := List.pairwise_cons.mp sorted
    rw [add]
    split
    next same =>
      subst same
      rw [values_cons, values_cons]
      split <;> simp
    next different =>
      split
      next less =>
        -- The keys increase, so that the new one is none of them.
        have least : ∀ entry ∈ (other, known) :: rest, name ≠ entry.1 := by
          have before : name < other := of_decide_eq_true less
          refine List.forall_mem_cons.mpr ⟨different, fun entry member equal => ?_⟩
          exact List.lt_irrefl _ (equal ▸ List.lt_trans before (below entry member))
        rw [values_cons key name]
        split
        next same =>
          subst same
          rw [values_eq_nil _ _ least, List.nil_append]
        next => rw [List.append_nil]
      next =>
        rw [values_cons, values_cons, ih sortedRest]
        split
        next same =>
          rw [if_neg (fun equal => different (equal.symm.trans same)), List.append_nil]
        next => rfl

theorem values_enter (key name : Text) (added : List Text) (notes : Notes) (sorted : Sorted notes) :
    values key (enter name added notes) = values key notes ++ if key = name then added else [] := by
  induction added generalizing notes with
  | nil => simp [enter]
  | cons value added ih =>
    have rest := ih (add name [value] notes) (add_sorted name [value] notes sorted)
    rw [values_add key name [value] notes sorted] at rest
    refine rest.trans ?_
    split <;> simp

/-- The values of other notes come last under each key. -/
theorem values_addAll (key : Text) (notes other : Notes) (sorted : Sorted notes)
    (distinct : Sorted other) :
    values key (notes.addAll other) = values key notes ++ values key other := by
  induction other generalizing notes with
  | nil => simp [addAll, values]
  | cons entry rest ih =>
    obtain ⟨name, added⟩ := entry
    obtain ⟨below, distinctRest⟩ := List.pairwise_cons.mp distinct
    have later := ih (add name added notes) (add_sorted name added notes sorted) distinctRest
    rw [values_add key name added notes sorted] at later
    refine later.trans ?_
    rw [values_cons]
    split
    next same =>
      have last : ∀ entry ∈ rest, key ≠ entry.1 := fun entry member equal =>
        List.lt_irrefl _ (equal ▸ same ▸ below entry member)
      rw [values_eq_nil key rest last, List.append_nil]
    next => rw [List.append_nil]

end Notes

/-! ### Declarations of types -/

/-- Declarations and types come to the same: a declaration is held where its type is. -/
theorem Registry.holds_declaration (r : Registry) {a : TypeAlias} (shape : a.WellShaped) :
    r.Holds a.declaration ↔ a ∈ r.types := by
  obtain ⟨name, targets, isUnion⟩ := a
  rcases shape with ⟨rfl, -⟩ | ⟨rfl, target, rfl⟩ <;> rfl

namespace Theory

/-! ### What holds of every theory -/

/-- What no operation on theories can break. -/
structure Tidy (t : Theory) : Prop where
  consistent : t.registry.Consistent
  shaped : ∀ a ∈ t.registry.types, a.WellShaped
  facts : ∀ fact ∈ t.facts, fact.isTerm = true ∧ fact.isGround = true
  sorted : t.notes.Sorted

/-- Whatever is declared, aliases have one target and unions have one or more. -/
theorem attempt_shaped {r : Registry} (consistent : r.Consistent)
    (shaped : ∀ a ∈ r.types, a.WellShaped) (d : Declaration) :
    ∀ a ∈ (r.attempt d).types, a.WellShaped := by
  have answers := consistent.declare_answers d
  rw [Registry.attempt]
  generalize r.declare d = answer at answers
  cases answers with
  | unchanged | refused => exact shaped
  | extended new grown =>
    cases d with
    | type name target =>
      exact List.forall_mem_append.mpr
        ⟨shaped, List.forall_mem_singleton.mpr (.inr ⟨rfl, target, rfl⟩)⟩
    | union name alternatives =>
      have present :=
        grown.targets ⟨name, alternatives, true⟩ (r.extended_holds (.union name alternatives))
      exact List.forall_mem_append.mpr
        ⟨shaped, List.forall_mem_singleton.mpr (.inl ⟨rfl, present⟩)⟩
    | predicate => exact shaped

theorem attemptAll_shaped {r : Registry} (consistent : r.Consistent)
    (shaped : ∀ a ∈ r.types, a.WellShaped) (ds : List Declaration) :
    ∀ a ∈ (r.attemptAll ds).types, a.WellShaped := by
  induction ds generalizing r with
  | nil => exact shaped
  | cons d ds ih => exact ih (consistent.attempt d) (attempt_shaped consistent shaped d)

namespace Tidy

variable {t : Theory}

theorem of_eq {u : Theory} (tidy : t.Tidy) (registry : u.registry = t.registry)
    (facts : u.facts = t.facts) (notes : u.notes = t.notes) : u.Tidy where
  consistent := registry ▸ tidy.consistent
  shaped := registry ▸ tidy.shaped
  facts := facts ▸ tidy.facts
  sorted := notes ▸ tidy.sorted

theorem declare (tidy : t.Tidy) (d : Declaration) :
    (t.declare (t.registry.declare d)).2.Tidy := by
  rw [declare_eq]
  exact { tidy with
    consistent := tidy.consistent.attempt d
    shaped := attempt_shaped tidy.consistent tidy.shaped d
    sorted := Notes.enter_sorted _ _ _ tidy.sorted }

theorem addSentence (tidy : t.Tidy) (s : Sentence) (kind : GroupKind) :
    (t.addSentence s kind).Tidy := by
  unfold Theory.addSentence
  dsimp only
  split
  · split <;> exact tidy.of_eq rfl rfl rfl
  · exact tidy.of_eq rfl rfl rfl

theorem addFact (tidy : t.Tidy) (fact : Sentence) : (t.addFact fact).2.Tidy := by
  rw [addFact_eq]
  exact { tidy with
    facts := List.forall_mem_append.mpr ⟨tidy.facts, ground_of_mem_filter⟩
    sorted := Notes.enter_sorted _ _ _ tidy.sorted }

/-- A merged theory is tidy whatever it was merged with: everything is checked on the way. -/
theorem merge (tidy : t.Tidy) (other : Theory) : (t.merge other).Tidy := by
  rw [merge_eq]
  exact {
    consistent := tidy.consistent.attemptAll _
    shaped := attemptAll_shaped tidy.consistent tidy.shaped _
    facts := List.forall_mem_append.mpr ⟨tidy.facts, ground_of_mem_filter⟩
    sorted := Notes.addAll_sorted _ _
      (Notes.enter_sorted _ _ _ (Notes.enter_sorted _ _ _ tidy.sorted)) }

theorem note (tidy : t.Tidy) (key : Text) (values : List Text) :
    Tidy { t with notes := t.notes.add key values } :=
  { tidy with sorted := Notes.add_sorted key values _ tidy.sorted }

/-- Every operation keeps a theory tidy. -/
theorem apply (tidy : t.Tidy) (operation : Operation) : (t.apply operation).Tidy := by
  cases operation with
  | rename name => exact tidy.of_eq rfl rfl rfl
  | declareType name target => exact tidy.declare (.type name target)
  | declareUnion name alternatives => exact tidy.declare (.union name alternatives)
  | declarePredicate p => exact tidy.declare (.predicate p)
  | register d =>
    exact { tidy with
      consistent := tidy.consistent.attempt d
      shaped := attempt_shaped tidy.consistent tidy.shaped d }
  | addSentence s kind => exact tidy.addSentence s kind
  | addGroup g => exact tidy.of_eq rfl rfl rfl
  | addFact fact => exact tidy.addFact fact
  | annotate key value => exact tidy.note key [value]
  | note key values => exact tidy.note key values
  | merge other => exact tidy.merge other

end Tidy

theorem tidy_empty (name : Text) : (empty name).Tidy where
  consistent := Registry.consistent_empty
  shaped := fun _ member => absurd member List.not_mem_nil
  facts := fun _ member => absurd member List.not_mem_nil
  sorted := .nil

/-- However a theory was built, it is tidy. -/
theorem BuiltBy.tidy {admits : Operation → Prop} {t : Theory} (built : t.BuiltBy admits) :
    t.Tidy := by
  induction built with
  | empty name => exact tidy_empty name
  | apply _ operation _ _ tidy => exact tidy.apply operation

/-! ### What a merged theory contains -/

/-- How a theory is put together from two. -/
structure Merged (a b m : Theory) : Prop where
  name : m.name = a.name
  types : a.registry.types <+: m.registry.types
  predicates : a.registry.predicates <+: m.registry.predicates
  consistent : m.registry.Consistent
  groups : m.groups = a.groups ++ b.groups
  facts : m.facts = a.facts ++ b.facts.filter fun fact => (m.registry.checkArity fact).isOk
  /-- A type of the second theory is there with the same definition unless it was refused. -/
  type : ∀ a' ∈ b.registry.types,
    a' ∈ m.registry.types ↔ a'.declaration ∉ (refused a b).map Prod.fst
  /-- So is a predicate. -/
  predicate : ∀ p ∈ b.registry.predicates,
    p ∈ m.registry.predicates ↔ .predicate p ∉ (refused a b).map Prod.fst
  /-- There is one refusal for each declaration that is not there, types before predicates. -/
  refusals : (refused a b).map Prod.fst =
    b.registry.declarations.filter fun d => !decide (m.registry.Holds d)
  /-- Each refusal is noted between the notes of the two, with the facts last. -/
  skipped : m.skipped = a.skipped ++ (refused a b).map (fun refusal => record refusal.2) ++
    b.facts.filterMap (fun fact => refusal? (m.registry.checkArity fact)) ++ b.skipped
  notes : ∀ key, key ≠ skippedKey →
    m.notes.values key = a.notes.values key ++ b.notes.values key

/-- For ground terms, only the arities are checked. -/
theorem checkFact_eq {fact : Sentence} (isTerm : fact.isTerm = true)
    (isGround : fact.isGround = true) (r : Registry) : checkFact r fact = r.checkArity fact := by
  cases fact with
  | term p args => rw [checkFact, if_pos isGround]
  | _ => simp [Sentence.isTerm] at isTerm

theorem merge_registry (a b : Theory) :
    (a.merge b).registry = a.registry.attemptAll b.registry.declarations := by
  rw [merge_eq]

/-- Under each key, the notes of both theories are kept, with the refusals between them. -/
theorem Tidy.merge_values {a b : Theory} (first : a.Tidy) (second : b.Tidy) (key : Text) :
    (a.merge b).notes.values key = a.notes.values key ++
      (if key = skippedKey then (refused a b).map (fun refusal => record refusal.2) ++
        b.facts.filterMap (fun fact => refusal? (checkFact (a.merge b).registry fact)) else []) ++
      b.notes.values key := by
  rw [merge_registry, merge_eq]
  dsimp only
  -- The refusals are entered one by one, the declarations first, and then come the other notes.
  have declared := Notes.enter_sorted skippedKey
    ((refused a b).map fun refusal => record refusal.2) _ first.sorted
  rw [Notes.values_addAll key _ _ (Notes.enter_sorted _ _ _ declared) second.sorted,
    Notes.values_enter key _ _ _ declared, Notes.values_enter key _ _ _ first.sorted]
  split <;> simp

/-- Merging loses nothing and notes every refusal. -/
theorem merge_accounts (a b : Theory) (first : a.Built) (second : b.Built) :
    Merged a b (a.merge b) := by
  have consistent := first.tidy.consistent
  have final := (first.tidy.merge b).consistent
  have continues : (a.merge b).registry.Continues a.registry :=
    merge_registry a b ▸ consistent.attemptAll_continues _
  have refusals := consistent.refusals_eq final b.registry.declarations
    (merge_registry a b ▸ .refl _)
  -- A declaration of the second theory is refused or there, and not both.
  have settled (d : Declaration) (member : d ∈ b.registry.declarations) :
      (a.merge b).registry.Holds d ↔ d ∉ (refused a b).map Prod.fst := by
    rw [refused, refusals, List.mem_filter]
    simp [member]
  -- The facts of the second theory are ground terms, so that only their arities are at stake.
  have checked (fact : Sentence) (member : fact ∈ b.facts) :=
    checkFact_eq (second.tidy.facts fact member).1 (second.tidy.facts fact member).2
      (a.merge b).registry
  have values := first.tidy.merge_values second.tidy
  refine {
    name := by rw [merge_eq]
    types := continues.types
    predicates := continues.predicates
    consistent := final
    groups := by rw [merge_eq]
    facts := ?_
    type := fun a' member => ?_
    predicate := fun p member => settled _ (List.mem_append_right _ (List.mem_map_of_mem member))
    refusals := refusals
    skipped := ?_
    notes := fun key other => ?_ }
  · have collected : (a.merge b).facts = a.facts ++
        b.facts.filter fun fact => (checkFact (a.merge b).registry fact).isOk := by
      rw [merge_registry, merge_eq]
    rw [collected, List.filter_congr fun fact member => congrArg Except.isOk (checked fact member)]
  · rw [← Registry.holds_declaration _ (second.tidy.shaped a' member)]
    exact settled _ (List.mem_append_left _ (List.mem_map_of_mem member))
  · have records := values skippedKey
    rw [if_pos rfl, List.filterMap_congr fun fact member => congrArg refusal? (checked fact member),
      ← List.append_assoc] at records
    exact records
  · rw [values key, if_neg other, List.append_nil]

/-- Keys of books may be codes, which are not declared yet. -/
private def shelf : Theory :=
  (empty "shelf").run [.declareType "Isbn" "str", .declareUnion "Key" ["Code", "Isbn"],
    .declarePredicate ⟨"book", [⟨"key", "Key"⟩], [], []⟩,
    .addFact (.term "book" [.const (.string "a")]), .annotate "source" "shelf"]

/-- Codes are keys in turn, books have copies, and there are loans. -/
private def cellar : Theory :=
  (empty "cellar").run [.declareType "Isbn" "str", .declareType "Code" "Key",
    .declarePredicate ⟨"book", [⟨"key", "Code"⟩, ⟨"copy", "int"⟩], [], []⟩,
    .declarePredicate ⟨"lent", [⟨"key", "Code"⟩], [], []⟩,
    .addFact (.term "book" [.const (.string "b"), .const (.int 2)]),
    .addFact (.term "lent" [.const (.string "b")]), .annotate "source" "cellar"]

private def shelfTypes : List TypeAlias :=
  [⟨"Isbn", ["str"], false⟩, ⟨"Key", ["Code", "Isbn"], true⟩]

private def cellarTypes : List TypeAlias :=
  [⟨"Isbn", ["str"], false⟩, ⟨"Code", ["Key"], false⟩]

private theorem isbn_declared : Registry.empty.declareType "Isbn" "str" =
    .ok ⟨[⟨"Isbn", ["str"], false⟩], []⟩ :=
  Registry.declareAlias_of_ranked .empty ⟨"Isbn", ["str"], false⟩
    (fun name => if name = "Isbn" then 1 else 0) (by decide) rfl rfl

private theorem key_declared : Registry.declareUnion ⟨[⟨"Isbn", ["str"], false⟩], []⟩ "Key"
    ["Code", "Isbn"] = .ok ⟨shelfTypes, []⟩ :=
  Registry.declareAlias_of_ranked ⟨[⟨"Isbn", ["str"], false⟩], []⟩ ⟨"Key", ["Code", "Isbn"], true⟩
    (fun name => if name = "Key" then 2 else if name = "Isbn" then 1 else 0) (by decide) rfl rfl

private theorem code_declared : Registry.declareType ⟨[⟨"Isbn", ["str"], false⟩], []⟩ "Code" "Key" =
    .ok ⟨cellarTypes, []⟩ :=
  Registry.declareAlias_of_ranked ⟨[⟨"Isbn", ["str"], false⟩], []⟩ ⟨"Code", ["Key"], false⟩
    (fun name => if name = "str" ∨ name = "Key" then 0 else 1) (by decide) rfl rfl

private theorem shelf_eq : shelf = ⟨"shelf", ⟨shelfTypes, [⟨"book", [⟨"key", "Key"⟩], [], []⟩]⟩, [],
    [.term "book" [.const (.string "a")]], [("source", ["shelf"])]⟩ := by
  simp only [shelf, run, List.foldl_cons, List.foldl_nil, apply, declareType, declareUnion, declare,
    empty, isbn_declared, key_declared]
  rfl

private theorem cellar_eq : cellar =
    ⟨"cellar", ⟨cellarTypes, [⟨"book", [⟨"key", "Code"⟩, ⟨"copy", "int"⟩], [], []⟩,
      ⟨"lent", [⟨"key", "Code"⟩], [], []⟩]⟩, [],
    [.term "book" [.const (.string "b"), .const (.int 2)], .term "lent" [.const (.string "b")]],
    [("source", ["cellar"])]⟩ := by
  simp only [cellar, run, List.foldl_cons, List.foldl_nil, apply, declareType, declare, empty,
    isbn_declared, code_declared]
  rfl

private theorem isbn_known (predicates : List Predicate) :
    Registry.declareType ⟨shelfTypes, predicates⟩ "Isbn" "str" = .ok ⟨shelfTypes, predicates⟩ :=
  rfl

/-- A code would be a key that may be a code. -/
private theorem code_refused (predicates : List Predicate) :
    Registry.declareType ⟨shelfTypes, predicates⟩ "Code" "Key" =
      .error (.cyclicType "Code" "Key") := by
  have back : (Graph.ofEdges (Registry.aliasEdges ⟨shelfTypes, predicates⟩)).reaches "Key" "Code" =
      true := by
    rw [Graph.reaches_iff]
    refine .single ((Registry.leads_aliasEdges _ _ _).mpr ⟨⟨"Key", ["Code", "Isbn"], true⟩, ?_⟩)
    simp [shelfTypes]
  have found : Registry.cyclicTarget? ⟨shelfTypes, predicates⟩ ⟨"Code", ["Key"], false⟩ =
      some "Key" := by
    simp [Registry.cyclicTarget?, back]
  rw [Registry.declareType, Registry.declareAlias, found]
  rfl

theorem merge_accounts_shelf : shelf.Built ∧ cellar.Built ∧
    Merged shelf cellar (shelf.merge cellar) ∧ (refused shelf cellar).length = 2 ∧
    (shelf.merge cellar).facts.length = 2 ∧ (shelf.merge cellar).skipped.length = 3 := by
  have first : shelf.Built := (BuiltBy.empty _).run _ (by simp) (by simp)
  have second : cellar.Built := (BuiltBy.empty _).run _ (by simp) (by simp)
  refine ⟨first, second, merge_accounts shelf cellar first second, ?_⟩
  -- Only new types are searched for cycles, and for these the answer is known.
  simp only [shelf_eq, cellar_eq, refused, Registry.declarations, Registry.refusals,
    Registry.declare, TypeAlias.declaration, merge, redeclare, declareType, declare, cellarTypes,
    List.map_cons, List.map_nil, List.cons_append, List.nil_append, List.foldl_cons,
    List.foldl_nil, List.headD_cons, Bool.false_eq_true, if_false, isbn_known, code_refused]
  exact ⟨rfl, rfl, rfl⟩

end Theory

end Clausal
