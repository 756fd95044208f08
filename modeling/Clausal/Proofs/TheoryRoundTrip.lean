import Clausal.Proofs.TheoryDocuments

/-!
# A theory survives being written and read

A theory that was read, whatever was skipped on the way, satisfies what holds of every built theory, and
its facts agree with its declarations. So writing a theory and reading it again gives the same theory,
for theories that were built as for theories that were read.
-/

namespace Clausal

namespace Theory

/-- A built theory without facts. -/
structure Factless (t : Theory) : Prop where
  writable : t.Writable
  none : t.facts = []

/-- Whether a declaration is taken over or skipped, it adds no fact. -/
theorem Factless.declare {t : Theory} (factless : t.Factless) (result : Except Error Registry)
    (writable : (t.declare result).2.Writable) : (t.declare result).2.Factless where
  writable := writable
  none := by cases result <;> exact factless.none

theorem Factless.checked {t : Theory} (factless : t.Factless) : t.Checked := by
  intro fact member
  rw [factless.none] at member
  exact absurd member List.not_mem_nil

/-- A fact that is added agrees with the declarations, or is not added. -/
theorem addFact_checked (t : Theory) (fact : Sentence) (checked : t.Checked) :
    (t.addFact fact).2.Checked := by
  unfold addFact
  split
  next accepted =>
    exact List.forall_mem_append.mpr ⟨checked, List.forall_mem_singleton.mpr accepted⟩
  next => exact checked

end Theory

namespace SExpr

theorem tagged?_finite (tag : Text) (e : SExpr) (items : List SExpr) (finite : e.Finite)
    (found : e.tagged? tag = some items) : ∀ i ∈ items, i.Finite := by
  unfold tagged? at found
  split at found
  next pos q t rest =>
    split at found
    · cases found
      cases finite with
      | list _ each => exact (List.forall_mem_cons.mp each).2
    · cases found
  next => cases found

theorem sectionItems_finite (tag : Text) (items : List SExpr) (finite : ∀ e ∈ items, e.Finite) :
    ∀ e ∈ sectionItems tag items, e.Finite := by
  unfold sectionItems
  cases found : items.findSome? (tagged? tag) with
  | none => exact fun _ member => absurd member List.not_mem_nil
  | some inner =>
    obtain ⟨e, member, isTagged⟩ := List.exists_of_findSome?_eq_some found
    exact tagged?_finite tag e inner (finite e member) isTagged

/-- The sentences of a group that was read can be written. -/
theorem groupOf_expressible (e : SExpr) (finite : e.Finite) :
    Returns (fun g => ∀ s ∈ g.sentences, s.isExpressible false = true) e.groupOf := by
  unfold groupOf
  split
  next name fields found =>
    have each := (List.forall_mem_cons.mp (tagged?_finite _ e _ finite found)).2
    refine .andThen fun n => .foldlM fields _ (fun _ member => absurd member List.not_mem_nil) ?_
    -- Only the last kind of field adds sentences.
    intro g field member before
    unfold groupField
    split
    · exact .andThen fun _ => .ok before
    · exact .error _
    · exact .andThen fun _ => .ok before
    · exact .error _
    next items isTagged _ _ _ _ =>
      have inner := tagged?_finite _ field items (each field member) isTagged
      rw [sentencesOf_eq]
      refine (Returns.mapM items fun i isItem => sentenceOf_expressible i (inner i isItem)).map ?_
      exact fun ss found => List.forall_mem_append.mpr ⟨before, found⟩
    · exact .error _
  · exact .error _

theorem declareTypeIn_factless (t : Theory) (e : SExpr) (factless : t.Factless) :
    Returns Theory.Factless (declareTypeIn t e) := by
  unfold declareTypeIn
  split
  · exact .andThen fun name => .andThen fun target =>
      .ok (factless.declare _ (factless.writable.declare (.type name target)))
  · exact .error _
  · exact .andThen fun alternatives => .andThen fun name =>
      .ok (factless.declare _ (factless.writable.declare (.union name alternatives)))
  · exact .error _
  · exact .error _

theorem addGroup_factless (t : Theory) (e : SExpr) (finite : e.Finite) (factless : t.Factless) :
    Returns Theory.Factless (do return t.addGroup (← e.groupOf)) :=
  (groupOf_expressible e finite).map fun g expressible =>
    ⟨factless.writable.addGroup g expressible, factless.none⟩

theorem addFact_writable (t : Theory) (e : SExpr) (finite : e.Finite)
    (before : t.Writable ∧ t.Checked) :
    Returns (fun t => t.Writable ∧ t.Checked) (do return (t.addFact (← e.sentenceOf)).2) :=
  (sentenceOf_expressible e finite).map fun fact expressible =>
    ⟨before.1.addFact fact expressible, t.addFact_checked fact before.2⟩

/-- Whatever was skipped, what was read is like what was built, and the facts agree with the
declarations. -/
theorem theoryOfSections_checked (items : List SExpr) (finite : ∀ e ∈ items, e.Finite) :
    Returns (fun t => t.Writable ∧ t.Checked) (theoryOfSections items) := by
  have within (tag : Text) := sectionItems_finite tag items finite
  refine .andThen fun name => ?_
  -- No declaration comes after a fact, so a fact agrees with all of them once it is accepted.
  have nothing : (Theory.empty name).Factless := ⟨Theory.writable_empty name, rfl⟩
  refine (Returns.foldlM _ _ nothing fun t e _ => declareTypeIn_factless t e).bind
    fun t factless => ?_
  refine (Returns.foldlM _ t factless fun t e _ factless => .andThen fun p =>
    .ok (factless.declare _ (factless.writable.declare (.predicate p)))).bind fun t factless => ?_
  refine (Returns.foldlM _ t factless fun t e member =>
    addGroup_factless t e (within _ e member)).bind fun t factless => ?_
  have before : t.Writable ∧ t.Checked := ⟨factless.writable, factless.checked⟩
  refine (Returns.foldlM (P := fun t => t.Writable ∧ t.Checked) _ t before fun t e member =>
    addFact_writable t e (within _ e member)).bind fun t before => ?_
  exact .foldlM _ t before fun t e _ before => .andThen fun entry =>
    .ok ⟨before.1.note entry.1 entry.2, before.2⟩

end SExpr

namespace Theory

theorem sentences_same_self (ss : List Sentence) (expressible : ∀ s ∈ ss, s.isExpressible false = true) :
    Sentence.sameAll ss ss = true := by
  rw [Sentence.sameAll_iff, List.forall₂_same]
  exact fun s member => s.same_self false (expressible s member)

theorem groups_same_self (groups : List SentenceGroup)
    (expressible : ∀ g ∈ groups, ∀ s ∈ g.sentences, s.isExpressible false = true) :
    SentenceGroup.sameAll groups groups = true := by
  induction groups with
  | nil => rfl
  | cons g groups ih =>
    rw [List.forall_mem_cons] at expressible
    have first := sentences_same_self g.sentences expressible.1
    simp [SentenceGroup.sameAll, SentenceGroup.same, first, ih expressible.2]

theorem Writable.same_self {t : Theory} (writable : t.Writable) : t.same t = true := by
  have groups := groups_same_self t.groups writable.groups
  have facts := sentences_same_self t.facts fun fact member =>
    (writable.facts fact member).isExpressible
  simp [same, groups, facts]

/-- A theory that was read can be written, and its facts agree with its declarations. -/
theorem parse_checked (input : Text) (t : Theory) (parsed : Theory.parse input = .ok t) :
    t.Writable ∧ t.Checked := by
  simp only [Theory.parse, bind_ok_iff] at parsed
  obtain ⟨e, read, decoded⟩ := parsed
  have finite := SExpr.parse_finite input e read
  unfold SExpr.theoryOf at decoded
  split at decoded
  next items found =>
    exact SExpr.theoryOfSections_checked items (SExpr.tagged?_finite _ e items finite found) t decoded
  next => cases decoded

/-- Writing a theory and reading it again gives that theory. This is so for every theory that was built
from nothing, if its facts agree with its final declarations, and for every theory that was read from
any text, whatever was skipped in that text. -/
theorem parse_document_roundTrip :
    (∀ t : Theory, t.BuiltBy Operation.IsExpressible →
      (∀ fact ∈ t.facts, t.registry.checkArity fact = .ok ()) →
      Theory.parse t.document = .ok t ∧ t.same t = true) ∧
    ∀ (input : Text) (t : Theory), Theory.parse input = .ok t →
      Theory.parse t.document = .ok t ∧ t.same t = true := by
  constructor
  · intro t built agrees
    have writable := built.writable
    have checked : t.Checked := by
      intro fact member
      have isFact := writable.facts fact member
      exact (checkFact_ok_iff t.registry fact).mpr
        ⟨isFact.isTerm, isFact.isGround, agrees fact member⟩
    exact ⟨t.parse_document writable checked, writable.same_self⟩
  · intro input t parsed
    obtain ⟨writable, checked⟩ := parse_checked input t parsed
    exact ⟨t.parse_document writable checked, writable.same_self⟩

/-- A theory in which a primitive type was declared again, which was skipped. -/
def roads : Theory :=
  (empty "Roads").run [.declareType "int" "str", .declareUnion "place" ["str", "int"],
    .declarePredicate ⟨"road", [⟨"from", "place"⟩, ⟨"length", "float"⟩], [], []⟩,
    .addSentence (.weighted ⟨0x3FB999999999999A⟩
      (.forAll [⟨"x", "place"⟩] (.neg (.term "road" [.var "x" [], .const (.int 0)])))) .goal,
    .addFact (.term "road" [.const (.string "\"A\"\n"), .const (.float ⟨0xC008000000000000⟩)]),
    .annotate "origin" "survey"]

theorem roads_built : roads.BuiltBy Operation.IsExpressible := by
  refine (BuiltBy.empty _).run _ ?_ (by simp)
  simp only [List.forall_mem_cons, Operation.IsExpressible]
  exact ⟨trivial, trivial, trivial, by decide +kernel, by decide +kernel, trivial, by simp⟩

theorem place_declared : Registry.empty.declareUnion "place" ["str", "int"] =
    .ok ⟨[⟨"place", ["str", "int"], true⟩], []⟩ :=
  Registry.declareAlias_of_ranked .empty ⟨"place", ["str", "int"], true⟩
    (fun name => if name = "place" then 1 else 0) (by decide) rfl rfl

/-- The fact has the declared number of arguments. -/
theorem roads_agree : ∀ fact ∈ roads.facts, roads.registry.checkArity fact = .ok () := by
  have declared := congrArg (((empty "Roads").declareType "int" "str").2.declare ·) place_declared
  change ((empty "Roads").declareType "int" "str").2.declareUnion "place" ["str", "int"] = _
    at declared
  simp only [roads, run, List.foldl_cons, List.foldl_nil, apply, declared]
  exact List.forall_mem_singleton.mpr rfl

/-- A text with a bad declaration and little else. -/
def sketch : Text := "(Theory (type_definitions (Type \"int\" \"str\")) (annotations (\"by\")))"

theorem sketch_parsed : Theory.parse sketch =
    .ok ⟨[], .empty, [], [], [("by", []), ("skipped_declarations",
      ["DuplicateDeclaration: type int is a primitive and cannot be redeclared"])]⟩ := by
  rfl

theorem parse_document_roundTrip_roads :
    (roads.BuiltBy Operation.IsExpressible ∧
      (∀ fact ∈ roads.facts, roads.registry.checkArity fact = .ok ()) ∧
      Theory.parse roads.document = .ok roads) ∧
    ∃ t, Theory.parse sketch = .ok t ∧ t.skipped ≠ [] ∧ Theory.parse t.document = .ok t :=
  ⟨⟨roads_built, roads_agree, (parse_document_roundTrip.1 roads roads_built roads_agree).1⟩,
    _, sketch_parsed, by decide, (parse_document_roundTrip.2 sketch _ sketch_parsed).1⟩

end Theory

end Clausal
