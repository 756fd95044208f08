import Clausal.Proofs.Declarations
import Clausal.Proofs.SentenceDocuments

/-!
# What holds of every theory that was built

A theory is built by operations, of which `Theory.apply` makes one, and which may merge theories that
were built the same way. However a theory was built, its declarations could be made again in the same
order, its facts are ground terms, its sentences can be written and its notes are sorted. Each
operation keeps this, also when it skips a bad declaration or fact: `declare_eq`, `addFact_eq` and
`merge_eq` say what becomes of a theory then, and the invariants follow from these equations.
-/

namespace Clausal

namespace Notes

def Sorted (notes : Notes) : Prop := notes.Pairwise fun a b => a.1 < b.1

theorem key_of_mem_add (key : Text) (values : List Text) (notes : Notes) (entry : Text × List Text)
    (member : entry ∈ add key values notes) : entry.1 = key ∨ ∃ old ∈ notes, old.1 = entry.1 := by
  induction notes with
  | nil =>
    obtain rfl := List.mem_singleton.mp member
    exact .inl rfl
  | cons first rest ih =>
    obtain ⟨other, known⟩ := first
    unfold add at member
    split at member
    next equal =>
      rcases List.mem_cons.mp member with rfl | later
      · exact .inl equal.symm
      · exact .inr ⟨entry, List.mem_cons_of_mem _ later, rfl⟩
    next =>
      split at member
      · rcases List.mem_cons.mp member with rfl | later
        · exact .inl rfl
        · exact .inr ⟨entry, later, rfl⟩
      · rcases List.mem_cons.mp member with rfl | later
        · exact .inr ⟨(other, known), List.mem_cons_self, rfl⟩
        · rcases ih later with equal | ⟨old, inside, equal⟩
          · exact .inl equal
          · exact .inr ⟨old, List.mem_cons_of_mem _ inside, equal⟩

theorem add_sorted (key : Text) (values : List Text) (notes : Notes) (sorted : Sorted notes) :
    Sorted (add key values notes) := by
  induction notes with
  | nil => exact List.pairwise_singleton _ _
  | cons first rest ih =>
    obtain ⟨other, known⟩ := first
    obtain ⟨below, sortedRest⟩ := List.pairwise_cons.mp sorted
    unfold add
    split
    -- The key is known already, and its values change in place.
    next => exact List.pairwise_cons.mpr ⟨below, sortedRest⟩
    next different =>
      split
      next less =>
        have less : key < other := of_decide_eq_true less
        refine List.pairwise_cons.mpr ⟨?_, sorted⟩
        intro entry member
        rcases List.mem_cons.mp member with rfl | later
        · exact less
        · exact List.lt_trans less (below entry later)
      next notLess =>
        -- The key belongs further back, so it lies above the first one.
        have above : other < key := by
          have atLeast := List.not_lt.mp fun less => notLess (decide_eq_true less)
          exact Std.lt_of_le_of_ne atLeast fun equal => different equal.symm
        refine List.pairwise_cons.mpr ⟨?_, ih sortedRest⟩
        intro entry member
        rcases key_of_mem_add key values rest entry member with equal | ⟨old, inside, equal⟩
        · rw [equal]
          exact above
        · rw [← equal]
          exact below old inside

theorem add_last (key : Text) (values : List Text) (notes : Notes)
    (last : ∀ entry ∈ notes, entry.1 < key) : add key values notes = notes ++ [(key, values)] := by
  induction notes with
  | nil => rfl
  | cons first rest ih =>
    obtain ⟨other, known⟩ := first
    rw [List.forall_mem_cons] at last
    have different : key ≠ other := by
      rintro rfl
      exact List.lt_irrefl key last.1
    have notLess : ¬ Text.less key other = true := fun less =>
      List.lt_irrefl key (List.lt_trans (of_decide_eq_true less) last.1)
    rw [add, if_neg different, if_neg notLess, ih last.2, List.cons_append]

/-- Entering sorted notes one by one gives these notes. -/
theorem foldl_add (before notes : Notes) (sorted : Sorted (before ++ notes)) :
    notes.foldl (fun all entry => all.add entry.1 entry.2) before = before ++ notes := by
  induction notes generalizing before with
  | nil => rw [List.append_nil]; rfl
  | cons entry notes ih =>
    have below := (List.pairwise_append.mp sorted).2.2
    -- The next entry is the greatest so far, so it goes to the end.
    have last := fun old member => below old member entry List.mem_cons_self
    have grown : Sorted (before ++ [entry] ++ notes) := by
      rw [List.append_assoc]
      exact sorted
    rw [List.foldl_cons, add_last entry.1 entry.2 before last]
    exact (ih _ grown).trans (List.append_assoc before [entry] notes)

/-- Enters values one by one under a key. -/
def enter (key : Text) (added : List Text) (notes : Notes) : Notes :=
  added.foldl (fun notes value => notes.add key [value]) notes

theorem enter_sorted (key : Text) (added : List Text) (notes : Notes) (sorted : Sorted notes) :
    Sorted (enter key added notes) :=
  List.foldlRecOn (motive := Sorted) added _ sorted fun _ before value _ =>
    add_sorted key [value] _ before

/-- The content of other notes, entered key by key. -/
def addAll (notes other : Notes) : Notes :=
  other.foldl (fun notes entry => notes.add entry.1 entry.2) notes

theorem addAll_sorted (notes other : Notes) (sorted : Sorted notes) : Sorted (notes.addAll other) :=
  List.foldlRecOn (motive := Sorted) other _ sorted fun _ before entry _ =>
    add_sorted entry.1 entry.2 _ before

end Notes

/-- A plain alias has one target and a union has one or more. -/
def TypeAlias.WellShaped (a : TypeAlias) : Prop :=
  (a.isUnion = true ∧ a.targets ≠ []) ∨ (a.isUnion = false ∧ ∃ target, a.targets = [target])

namespace Registry

/-- Types that can be declared one after another, each as a new one. -/
inductive DeclaredTypes : List TypeAlias → Prop where
  | nil : DeclaredTypes []
  | snoc {types : List TypeAlias} {a : TypeAlias} (before : DeclaredTypes types)
      (shape : a.WellShaped)
      (accepted : ∀ predicates,
        declareAlias ⟨types, predicates⟩ a = .ok ⟨types ++ [a], predicates⟩) :
      DeclaredTypes (types ++ [a])

theorem DeclaredTypes.wellShaped {types : List TypeAlias} (declared : DeclaredTypes types) :
    ∀ a ∈ types, a.WellShaped := by
  induction declared with
  | nil => exact fun _ member => absurd member List.not_mem_nil
  | snoc before shape _ ih =>
    exact List.forall_mem_append.mpr ⟨ih, List.forall_mem_singleton.mpr shape⟩

/-- Predicates that can be declared one after another, each as a new one. -/
inductive DeclaredPredicates : List Predicate → Prop where
  | nil : DeclaredPredicates []
  | snoc {predicates : List Predicate} {p : Predicate} (before : DeclaredPredicates predicates)
      (accepted : ∀ types,
        declarePredicate ⟨types, predicates⟩ p = .ok ⟨types, predicates ++ [p]⟩) :
      DeclaredPredicates (predicates ++ [p])

/-- A registry whose declarations can be made again, the types before the predicates. -/
structure Declared (r : Registry) : Prop where
  types : DeclaredTypes r.types
  predicates : DeclaredPredicates r.predicates

theorem declared_empty : Declared empty := ⟨.nil, .nil⟩

/-- A type that is accepted could be declared again after the same types. -/
theorem declareAlias_declared (r result : Registry) (a : TypeAlias) (declared : r.Declared)
    (shape : a.WellShaped) (returned : r.declareAlias a = .ok result) : result.Declared := by
  unfold declareAlias at returned
  split at returned
  next => cases returned
  next notPrimitive =>
    split at returned
    next known found =>
      split at returned
      · cases returned
        exact declared
      · cases returned
    next isNew =>
      split at returned
      next => cases returned
      next noCycle =>
        cases returned
        refine ⟨.snoc declared.types shape ?_, declared.predicates⟩
        -- Whether an alias is accepted does not depend on the predicates.
        intro predicates
        have isNew' : alias? ⟨r.types, predicates⟩ a.name = none := isNew
        have noCycle' : cyclicTarget? ⟨r.types, predicates⟩ a = none := noCycle
        simp only [declareAlias, notPrimitive, isNew', noCycle', if_false, Bool.false_eq_true]

theorem declareUnion_declared (r result : Registry) (name : Text) (alternatives : List Text)
    (declared : r.Declared) (returned : r.declareUnion name alternatives = .ok result) :
    result.Declared := by
  unfold declareUnion at returned
  split at returned
  next => cases returned
  next present =>
    have shape : TypeAlias.WellShaped ⟨name, alternatives, true⟩ :=
      .inl ⟨rfl, fun none => present (List.isEmpty_iff.mpr none)⟩
    exact declareAlias_declared r result _ declared shape returned

/-- A predicate that is accepted could be declared again, whatever the types are. -/
theorem declarePredicate_declared (r result : Registry) (p : Predicate) (declared : r.Declared)
    (returned : r.declarePredicate p = .ok result) : result.Declared := by
  unfold declarePredicate at returned
  split at returned
  next known found =>
    split at returned
    · cases returned
      exact declared
    · cases returned
  next isNew =>
    split at returned
    next => cases returned
    next distinct =>
      cases returned
      refine ⟨declared.types, .snoc declared.predicates ?_⟩
      -- Nor does a declaration of a predicate look at the types.
      intro types
      have isNew' : predicate? ⟨types, r.predicates⟩ p.name = none := isNew
      simp only [declarePredicate, isNew', distinct]

theorem attempt_declared (r : Registry) (d : Declaration) (declared : r.Declared) :
    (r.attempt d).Declared := by
  unfold attempt
  split
  next result returned =>
    cases d with
    | type name target =>
      exact declareAlias_declared r result _ declared (.inr ⟨rfl, target, rfl⟩) returned
    | union name alternatives =>
      exact declareUnion_declared r result name alternatives declared returned
    | predicate p => exact declarePredicate_declared r result p declared returned
  next => exact declared

theorem attemptAll_declared (r : Registry) (ds : List Declaration) (declared : r.Declared) :
    (r.attemptAll ds).Declared :=
  List.foldlRecOn (motive := Declared) ds attempt declared fun r before d _ =>
    attempt_declared r d before

/-- The declarations that are refused when they are made one after another, with the reasons. -/
def refusals (r : Registry) : List Declaration → List (Declaration × Error)
  | [] => []
  | d :: ds =>
    match r.declare d with
    | .ok result => refusals result ds
    | .error e => (d, e) :: refusals r ds

end Registry

def TypeAlias.declaration (a : TypeAlias) : Declaration :=
  if a.isUnion then .union a.name a.targets else .type a.name (a.targets.headD [])

/-- The declarations of a registry, the types before the predicates. -/
def Registry.declarations (r : Registry) : List Declaration :=
  r.types.map TypeAlias.declaration ++ r.predicates.map .predicate

namespace Theory

/-! ### Operations -/

/-- The operations that build a theory. A declaration may also be made on the registry itself, where
a refusal is not noted, and any number of values may be entered under a key at once. -/
inductive Operation where
  | rename (name : Text)
  | declareType (name target : Text)
  | declareUnion (name : Text) (alternatives : List Text)
  | declarePredicate (p : Predicate)
  | register (d : Declaration)
  | addSentence (s : Sentence) (kind : GroupKind)
  | addGroup (g : SentenceGroup)
  | addFact (fact : Sentence)
  | annotate (key value : Text)
  | note (key : Text) (values : List Text)
  | merge (other : Theory)

def apply (t : Theory) : Operation → Theory
  | .rename name => { t with name }
  | .declareType name target => (t.declareType name target).2
  | .declareUnion name alternatives => (t.declareUnion name alternatives).2
  | .declarePredicate p => (t.declarePredicate p).2
  | .register d => { t with registry := t.registry.attempt d }
  | .addSentence s kind => t.addSentence s kind
  | .addGroup g => t.addGroup g
  | .addFact fact => (t.addFact fact).2
  | .annotate key value => t.annotate key value
  | .note key values => { t with notes := t.notes.add key values }
  | .merge other => t.merge other

def run (t : Theory) (operations : List Operation) : Theory := operations.foldl apply t

/-- Whether a document can hold the sentences that an operation adds. -/
def Operation.IsExpressible : Operation → Prop
  | .addSentence s _ => s.isExpressible false = true
  | .addGroup g => ∀ s ∈ g.sentences, s.isExpressible false = true
  | .addFact fact => fact.isExpressible false = true
  | _ => True

/-- The theories that admitted operations lead to, where only such theories are merged. -/
inductive BuiltBy (admits : Operation → Prop) : Theory → Prop where
  | empty (name : Text) : BuiltBy admits (.empty name)
  | apply {t : Theory} (before : BuiltBy admits t) (operation : Operation)
      (admitted : admits operation)
      (merged : ∀ other, operation = .merge other → BuiltBy admits other) :
      BuiltBy admits (t.apply operation)

/-- The theories that any operations lead to. -/
abbrev Built : Theory → Prop := BuiltBy fun _ => True

/-- Operations that merge nothing but such theories lead from one such theory to another. -/
theorem BuiltBy.run {admits : Operation → Prop} {t : Theory} (before : t.BuiltBy admits)
    (operations : List Operation) (admitted : ∀ operation ∈ operations, admits operation)
    (merged : ∀ other, .merge other ∈ operations → other.BuiltBy admits) :
    (t.run operations).BuiltBy admits := by
  induction operations generalizing t with
  | nil => exact before
  | cons operation rest ih =>
    rw [List.forall_mem_cons] at admitted
    refine ih (before.apply operation admitted.1 ?_) admitted.2 fun other member =>
      merged other (.tail _ member)
    rintro other rfl
    exact merged other (.head _)

/-! ### What an operation does -/

/-- What is noted about a refusal. -/
def record (e : Error) : Text := e.line.beforeNul

/-- What is noted about a check, unless it is passed. -/
def refusal? : Except Error Unit → Option Text
  | .ok () => none
  | .error e => some (record e)

/-- A type that is declared again goes through the ordinary declarations. -/
theorem redeclare_declaration (t : Theory) (a : TypeAlias) :
    t.redeclare a = t.declare (t.registry.declare a.declaration) := by
  unfold redeclare TypeAlias.declaration
  split <;> rfl

/-- Declarations made one after another leave the groups and facts alone, and note each refusal. -/
theorem foldl_declare (t : Theory) (ds : List Declaration) :
    ds.foldl (fun t d => (t.declare (t.registry.declare d)).2) t =
      { t with
        registry := t.registry.attemptAll ds
        notes := t.notes.enter skippedKey
          ((t.registry.refusals ds).map fun refusal => record refusal.2) } := by
  induction ds generalizing t with
  | nil => rfl
  | cons d ds ih =>
    have step : t.registry.attemptAll (d :: ds) = (t.registry.attempt d).attemptAll ds := rfl
    rw [List.foldl_cons, ih, step, Registry.attempt, Registry.refusals]
    cases t.registry.declare d with
    | ok result => rfl
    | error e => rfl

/-- Facts added one after another are checked against the same declarations, and each refusal is
noted. -/
theorem foldl_addFact_checked (t : Theory) (facts : List Sentence) :
    facts.foldl (fun t fact => (t.addFact fact).2) t =
      { t with
        facts := t.facts ++ facts.filter fun fact => (checkFact t.registry fact).isOk
        notes := t.notes.enter skippedKey
          (facts.filterMap fun fact => refusal? (checkFact t.registry fact)) } := by
  induction facts generalizing t with
  | nil => simp [Notes.enter]
  | cons fact facts ih =>
    rw [List.foldl_cons, ih, addFact, List.filter_cons, List.filterMap_cons]
    cases checkFact t.registry fact with
    | ok => simp [Except.isOk, Except.toBool, refusal?]
    | error e => simp [Except.isOk, Except.toBool, refusal?, skip, annotate, Notes.enter, record]

/-- What the registry of a theory refuses of the declarations of another one, with the reasons. -/
def refused (a b : Theory) : List (Declaration × Error) :=
  a.registry.refusals b.registry.declarations

/-- Merging makes the declarations of the other theory, then adds its groups, facts and notes. -/
theorem merge_eq (t other : Theory) : t.merge other =
    let registry := t.registry.attemptAll other.registry.declarations
    let declared := (refused t other).map fun refusal => record refusal.2
    let added := other.facts.filterMap fun fact => refusal? (checkFact registry fact)
    { name := t.name
      registry
      groups := t.groups ++ other.groups
      facts := t.facts ++ other.facts.filter fun fact => (checkFact registry fact).isOk
      notes := ((t.notes.enter skippedKey declared).enter skippedKey added).addAll other.notes } := by
  have types (t : Theory) : other.registry.types.foldl (fun t a => (t.redeclare a).2) t =
      (other.registry.types.map TypeAlias.declaration).foldl
        (fun t d => (t.declare (t.registry.declare d)).2) t := by
    simp only [List.foldl_map, redeclare_declaration]
  have predicates (t : Theory) :
      other.registry.predicates.foldl (fun t p => (t.declarePredicate p).2) t =
        (other.registry.predicates.map .predicate).foldl
          (fun t d => (t.declare (t.registry.declare d)).2) t := by
    rw [List.foldl_map]
    rfl
  unfold merge
  dsimp only
  rw [types, predicates, ← List.foldl_append, foldl_declare, foldl_addFact_checked]
  rfl

theorem declare_eq (t : Theory) (d : Declaration) :
    (t.declare (t.registry.declare d)).2 =
      { t with
        registry := t.registry.attempt d
        notes := t.notes.enter skippedKey
          ((t.registry.refusals [d]).map fun refusal => record refusal.2) } :=
  foldl_declare t [d]

theorem addFact_eq (t : Theory) (fact : Sentence) :
    (t.addFact fact).2 =
      { t with
        facts := t.facts ++ [fact].filter fun fact => (checkFact t.registry fact).isOk
        notes := t.notes.enter skippedKey
          ([fact].filterMap fun fact => refusal? (checkFact t.registry fact)) } :=
  foldl_addFact_checked t [fact]

/-! ### Theories that can be written -/

/-- A fact that a document can hold. -/
structure IsFact (fact : Sentence) : Prop where
  isTerm : fact.isTerm = true
  isGround : fact.isGround = true
  isExpressible : fact.isExpressible false = true

/-- What every theory that was built satisfies. -/
structure Writable (t : Theory) : Prop where
  declared : t.registry.Declared
  groups : ∀ g ∈ t.groups, ∀ s ∈ g.sentences, s.isExpressible false = true
  facts : ∀ fact ∈ t.facts, IsFact fact
  sorted : t.notes.Sorted

/-- The facts of a theory agree with its declarations. -/
def Checked (t : Theory) : Prop := ∀ fact ∈ t.facts, checkFact t.registry fact = .ok ()

theorem writable_empty (name : Text) : (empty name).Writable where
  declared := Registry.declared_empty
  groups := fun _ member => absurd member List.not_mem_nil
  facts := fun _ member => absurd member List.not_mem_nil
  sorted := .nil

theorem checkFact_ok_iff (r : Registry) (fact : Sentence) : checkFact r fact = .ok () ↔
    fact.isTerm = true ∧ fact.isGround = true ∧ r.checkArity fact = .ok () := by
  cases fact with
  | term p args =>
    by_cases ground : (Sentence.term p args).isGround = true
    · simp [checkFact, Sentence.isTerm, ground]
    · simp [checkFact, ground]
  | _ => simp [checkFact, Sentence.isTerm]

theorem checkFact_isOk_iff (r : Registry) (fact : Sentence) :
    (checkFact r fact).isOk = true ↔ checkFact r fact = .ok () := by
  cases checkFact r fact <;> simp [Except.isOk, Except.toBool]

theorem ground_of_mem_filter {r : Registry} {facts : List Sentence} :
    ∀ fact ∈ facts.filter fun fact => (checkFact r fact).isOk,
      fact.isTerm = true ∧ fact.isGround = true := by
  intro fact member
  have passed := (List.mem_filter.mp member).2
  rw [checkFact_isOk_iff, checkFact_ok_iff] at passed
  exact ⟨passed.1, passed.2.1⟩

/-- Facts that pass the check can be written if they are made of what can be written. -/
theorem isFact_of_mem_filter {r : Registry} {facts : List Sentence}
    (expressible : ∀ fact ∈ facts, fact.isExpressible false = true) :
    ∀ fact ∈ facts.filter fun fact => (checkFact r fact).isOk, IsFact fact := by
  intro fact member
  obtain ⟨isTerm, isGround⟩ := ground_of_mem_filter fact member
  exact ⟨isTerm, isGround, expressible fact (List.mem_of_mem_filter member)⟩

namespace Writable

variable {t : Theory}

theorem note (writable : t.Writable) (key : Text) (values : List Text) :
    Writable { t with notes := t.notes.add key values } where
  declared := writable.declared
  groups := writable.groups
  facts := writable.facts
  sorted := Notes.add_sorted key values t.notes writable.sorted

theorem declare (writable : t.Writable) (d : Declaration) :
    (t.declare (t.registry.declare d)).2.Writable := by
  rw [declare_eq]
  exact { writable with
    declared := Registry.attempt_declared t.registry d writable.declared
    sorted := Notes.enter_sorted _ _ _ writable.sorted }

theorem addGroup (writable : t.Writable) (g : SentenceGroup)
    (expressible : ∀ s ∈ g.sentences, s.isExpressible false = true) : (t.addGroup g).Writable where
  declared := writable.declared
  groups := by
    intro h member
    rcases List.mem_append.mp member with old | new
    · exact writable.groups h old
    · obtain rfl := List.mem_singleton.mp new
      exact expressible
  facts := writable.facts
  sorted := writable.sorted

/-- A sentence is added to a group, old or new, and can be written there. -/
theorem addSentence (writable : t.Writable) (s : Sentence) (kind : GroupKind)
    (expressible : s.isExpressible false = true) : (t.addSentence s kind).Writable := by
  have fresh := writable.addGroup ⟨looseGroupName kind, kind, [], [s]⟩
    (List.forall_mem_singleton.mpr expressible)
  unfold Theory.addSentence
  dsimp only
  split
  next last found =>
    split
    · -- The last group is replaced by one with the sentence at its end.
      refine { writable with groups := ?_ }
      intro g member t inside
      rcases List.mem_append.mp member with old | new
      · exact writable.groups g (List.dropLast_subset _ old) t inside
      · obtain rfl := List.mem_singleton.mp new
        rcases List.mem_append.mp inside with known | added
        · exact writable.groups last (List.mem_of_getLast? found) t known
        · obtain rfl := List.mem_singleton.mp added
          exact expressible
    · exact fresh
  next => exact fresh

theorem addFact (writable : t.Writable) (fact : Sentence)
    (expressible : fact.isExpressible false = true) : (t.addFact fact).2.Writable := by
  rw [addFact_eq]
  exact { writable with
    facts := List.forall_mem_append.mpr
      ⟨writable.facts, isFact_of_mem_filter (List.forall_mem_singleton.mpr expressible)⟩
    sorted := Notes.enter_sorted _ _ _ writable.sorted }

/-- Merging two theories that can be written gives one that can be written. -/
theorem merge (writable : t.Writable) {other : Theory} (otherWritable : other.Writable) :
    (t.merge other).Writable := by
  have added := isFact_of_mem_filter (r := t.registry.attemptAll other.registry.declarations)
    fun fact member => (otherWritable.facts fact member).isExpressible
  rw [merge_eq]
  exact {
    declared := Registry.attemptAll_declared _ _ writable.declared
    groups := List.forall_mem_append.mpr ⟨writable.groups, otherWritable.groups⟩
    facts := List.forall_mem_append.mpr ⟨writable.facts, added⟩
    sorted := Notes.addAll_sorted _ _
      (Notes.enter_sorted _ _ _ (Notes.enter_sorted _ _ _ writable.sorted)) }

theorem apply (writable : t.Writable) (operation : Operation)
    (expressible : operation.IsExpressible)
    (merged : ∀ other, operation = .merge other → other.Writable) :
    (t.apply operation).Writable := by
  cases operation with
  | rename name => exact { writable with }
  | declareType name target => exact writable.declare (.type name target)
  | declareUnion name alternatives => exact writable.declare (.union name alternatives)
  | declarePredicate p => exact writable.declare (.predicate p)
  | register d =>
    exact { writable with declared := Registry.attempt_declared t.registry d writable.declared }
  | addSentence s kind => exact writable.addSentence s kind expressible
  | addGroup g => exact writable.addGroup g expressible
  | addFact fact => exact writable.addFact fact expressible
  | annotate key value => exact writable.note key [value]
  | note key values => exact writable.note key values
  | merge other => exact writable.merge (merged other rfl)

end Writable

/-- However a theory is built from sentences that can be written, it can be written. -/
theorem BuiltBy.writable {t : Theory} (built : t.BuiltBy Operation.IsExpressible) :
    t.Writable := by
  induction built with
  | empty name => exact writable_empty name
  | apply _ operation expressible _ writable merged =>
    exact writable.apply operation expressible merged

end Theory

end Clausal
