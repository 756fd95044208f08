import Clausal.Proofs.SentenceReading
import Clausal.Proofs.TheoryBuilding
import Clausal.Theory.Document

/-!
# Theories in documents

What is written for the parts of a theory is read as these parts, and entering them again one after
another gives the theory.
-/

namespace Clausal

namespace Theory

theorem redeclare_eq (t : Theory) (a : TypeAlias) (shape : a.WellShaped) :
    t.redeclare a = t.declare (t.registry.declareAlias a) := by
  obtain ⟨name, targets, isUnion⟩ := a
  rcases shape with ⟨rfl, present⟩ | ⟨rfl, target, rfl⟩
  · have some_targets : targets.isEmpty = false := List.isEmpty_eq_false_iff.mpr present
    simp only [redeclare, declareUnion, Registry.declareUnion, some_targets, if_true,
      Bool.false_eq_true, if_false]
  · rfl

/-- Types that could be declared are all taken over again. -/
theorem foldl_redeclare {types : List TypeAlias} (declared : Registry.DeclaredTypes types)
    (t : Theory) (none : t.registry.types = []) :
    types.foldl (fun t a => (t.redeclare a).2) t =
      { t with registry := ⟨types, t.registry.predicates⟩ } := by
  induction declared with
  | nil =>
    rw [List.foldl_nil, ← none]
  | snoc before shape accepted ih =>
    -- Each type is accepted after those before it, as it was the first time.
    rw [List.foldl_append, ih, List.foldl_cons, List.foldl_nil, redeclare_eq _ _ shape]
    dsimp only
    rw [accepted]
    rfl

theorem foldl_declarePredicate {predicates : List Predicate}
    (declared : Registry.DeclaredPredicates predicates) (t : Theory)
    (none : t.registry.predicates = []) :
    predicates.foldl (fun t p => (t.declarePredicate p).2) t =
      { t with registry := ⟨t.registry.types, predicates⟩ } := by
  induction declared with
  | nil =>
    rw [List.foldl_nil, ← none]
  | snoc before accepted ih =>
    rw [List.foldl_append, ih, List.foldl_cons, List.foldl_nil]
    unfold declarePredicate
    dsimp only
    rw [accepted]
    rfl

theorem foldl_addGroup (groups : List SentenceGroup) (t : Theory) :
    groups.foldl addGroup t = { t with groups := t.groups ++ groups } := by
  induction groups generalizing t with
  | nil => rw [List.foldl_nil, List.append_nil]
  | cons g groups ih =>
    rw [List.foldl_cons, ih]
    simp only [addGroup, List.append_assoc, List.singleton_append]

/-- Facts that agree with the declarations are all taken over again. -/
theorem foldl_addFact (facts : List Sentence) (t : Theory)
    (checked : ∀ fact ∈ facts, checkFact t.registry fact = .ok ()) :
    facts.foldl (fun t fact => (t.addFact fact).2) t = { t with facts := t.facts ++ facts } := by
  induction facts generalizing t with
  | nil => rw [List.foldl_nil, List.append_nil]
  | cons fact facts ih =>
    rw [List.forall_mem_cons] at checked
    have added : (t.addFact fact).2 = { t with facts := t.facts ++ [fact] } := by
      rw [addFact, checked.1]
    rw [List.foldl_cons, added, ih { t with facts := t.facts ++ [fact] } checked.2,
      List.append_assoc, List.singleton_append]

theorem foldl_note (notes : Notes) (t : Theory) :
    notes.foldl (fun t entry => { t with notes := t.notes.add entry.1 entry.2 }) t =
      { t with notes := notes.foldl (fun all entry => all.add entry.1 entry.2) t.notes } := by
  induction notes generalizing t with
  | nil => rfl
  | cons entry notes ih => rw [List.foldl_cons, ih, List.foldl_cons]

/-- Entering all parts of a theory again gives the theory. -/
theorem replay (t : Theory) (writable : t.Writable) (checked : t.Checked) :
    t.notes.foldl (fun t entry => { t with notes := t.notes.add entry.1 entry.2 })
      (t.facts.foldl (fun t fact => (t.addFact fact).2)
        (t.groups.foldl addGroup
          (t.registry.predicates.foldl (fun t p => (t.declarePredicate p).2)
            (t.registry.types.foldl (fun t a => (t.redeclare a).2) (.empty t.name))))) = t := by
  -- No step is skipped, so each list of the empty theory becomes the list that was entered.
  rw [foldl_redeclare writable.declared.types _ rfl,
    foldl_declarePredicate writable.declared.predicates _ rfl, foldl_addGroup, foldl_addFact,
    foldl_note]
  · dsimp only [empty]
    rw [Notes.foldl_add [] t.notes writable.sorted]
    rfl
  · exact checked

end Theory

namespace SExpr

/-- Reading items one after another, where each does its own step. -/
theorem foldlM_of_forall₂ {α σ : Type} {f : σ → SExpr → Except Error σ} {step : σ → α → σ}
    {xs : List α} {es : List SExpr}
    (each : List.Forall₂ (fun x e => ∀ s, f s e = .ok (step s x)) xs es) (s : σ) :
    es.foldlM f s = .ok (xs.foldl step s) := by
  induction each generalizing s with
  | nil => rfl
  | cons first _ ih =>
    rw [List.foldlM_cons, first s]
    exact ih _

theorem foldlM_read {α σ : Type} {read : SExpr → Except Error α} {step : σ → α → σ} {xs : List α}
    {es : List SExpr} (each : List.Forall₂ (fun x e => read e = .ok x) xs es) (s : σ) :
    es.foldlM (fun s e => do return step s (← read e)) s = .ok (xs.foldl step s) := by
  refine foldlM_of_forall₂ (each.imp ?_) s
  intro x e found s
  rw [found]
  rfl

theorem expresses_optional (t : Text) :
    Expresses (optionalDocument t) fun e => ∀ role, e.optionalStringOf role = .ok t := by
  -- An empty text is written as the null literal, so that it can be told from a quoted one.
  cases t with
  | nil =>
    refine expresses_null.mono ?_
    rintro e ⟨pos⟩ role
    rfl
  | cons b t =>
    refine (expresses_string (b :: t)).mono ?_
    rintro e ⟨pos⟩ role
    rfl

theorem lists_strings (ts : List Text) :
    Lists (quotedList ts) fun es => ∀ role, es.mapM (stringOf role) = .ok ts := by
  have each := Lists.flatMap ts fun t _ => (expresses_string t).spaced
  refine ⟨each.delimited, ?_⟩
  intro pos top stack rest delimited
  obtain ⟨after, es, strings, read⟩ := each.reads pos top stack rest delimited
  refine ⟨after, es, ?_, read⟩
  intro role
  refine mapM_of_forall₂ (strings.imp ?_)
  rintro t e ⟨q⟩
  rfl

/-- A type is read back as a declaration of it. -/
theorem item_type (a : TypeAlias) (shape : a.WellShaped) :
    Item a.document fun e => ∀ t, declareTypeIn t e = .ok (t.redeclare a).2 := by
  obtain ⟨name, targets, isUnion⟩ := a
  have items := Lists.cons " " (by decide) (expresses_string name) (lists_strings targets)
  rcases shape with ⟨rfl, present⟩ | ⟨rfl, target, rfl⟩
  · refine ⟨"\n    ", _, ?_, by decide, (items.tagged "Union" (by decide)).mono ?_⟩
    · simp only [TypeAlias.document, form, List.append_assoc]
      rfl
    · rintro e ⟨pos, q, @⟨_, more, ⟨r⟩, strings⟩⟩ t
      -- A union has an alternative, so there is a second item after the tag.
      cases more with
      | nil =>
        have none := strings []
        cases none
        exact absurd rfl present
      | cons second more =>
        show (do
          let alternatives ← (second :: more).mapM (stringOf "union alternative")
          return (t.declareUnion (← stringOf "type name" (.atom r (.string name))) alternatives).2) = _
        rw [strings "union alternative"]
        rfl
  · refine ⟨"\n    ", _, ?_, by decide, (items.tagged "Type" (by decide)).mono ?_⟩
    · simp only [TypeAlias.document, form, List.append_assoc]
      rfl
    · rintro e ⟨pos, q, @⟨_, more, ⟨r⟩, strings⟩⟩ t
      -- A plain alias has exactly one target.
      obtain ⟨second, rfl, read⟩ : ∃ second, more = [second] ∧
          second.stringOf "type target" = .ok target := by
        have one := (mapM_ok_iff _ _ _).mp (strings "type target")
        cases one with
        | cons first rest =>
          cases rest
          exact ⟨_, rfl, first⟩
      show (do
        let name ← stringOf "type name" (.atom r (.string name))
        return (t.declareType name (← second.stringOf "type target")).2) = _
      rw [read]
      rfl

theorem item_argument (a : TypedName) : Item a.pairDocument fun e => e.argumentOf = .ok a := by
  have items := (expresses_string a.name).first
    (Lists.cons " " (by decide) (expresses_string a.type) Lists.nil)
  refine ⟨" ", _, ?_, by decide, items.bracketed.mono ?_⟩
  · simp only [TypedName.pairDocument, List.append_assoc, List.append_nil]
    rfl
  · rintro e ⟨pos, ⟨⟨q⟩, ⟨⟨r⟩, rfl⟩⟩⟩
    rfl

section Fields

variable (pos q : Position)

theorem predicateOf_form (r : Position) (name : Text) (fields : List SExpr) :
    predicateOf (.list pos (.atom q (.symbol "PredicateDefinition") :: .atom r (.string name) ::
      fields)) = fields.foldlM predicateField ⟨name, [], [], []⟩ := rfl

theorem groupOf_form (r : Position) (name : Text) (fields : List SExpr) :
    groupOf (.list pos (.atom q (.symbol "SentenceGroup") :: .atom r (.string name) :: fields)) =
      fields.foldlM groupField ⟨name, .plain, [], []⟩ := rfl

theorem predicateField_arguments (p : Predicate) (items : List SExpr) :
    predicateField p (.list pos (.atom q (.symbol "arguments") :: items)) = (do
      return { p with arguments := p.arguments ++ (← items.mapM argumentOf) }) := rfl

theorem predicateField_description (p : Predicate) (d : SExpr) :
    predicateField p (.list pos (.atom q (.symbol "description") :: [d])) = (do
      return { p with description := ← d.optionalStringOf "description" }) := rfl

theorem predicateField_parents (p : Predicate) (items : List SExpr) :
    predicateField p (.list pos (.atom q (.symbol "parents") :: items)) = (do
      return { p with parents := p.parents ++ (← items.mapM (stringOf "parent")) }) := rfl

theorem groupField_kind (g : SentenceGroup) (kind : SExpr) :
    groupField g (.list pos (.atom q (.symbol "kind") :: [kind])) = (do
      return { g with kind := ← kind.groupKindOf }) := rfl

theorem groupField_docstring (g : SentenceGroup) (d : SExpr) :
    groupField g (.list pos (.atom q (.symbol "docstring") :: [d])) = (do
      return { g with docstring := ← d.optionalStringOf "docstring" }) := rfl

theorem groupField_sentences (g : SentenceGroup) (items : List SExpr) :
    groupField g (.list pos (.atom q (.symbol "sentences") :: items)) = (do
      return { g with sentences := g.sentences ++ (← sentencesOf items) }) := rfl

end Fields

/-- The items of the definition of a predicate after its tag. -/
def PredicateItems (p : Predicate) : List SExpr → Prop :=
  Cons (AtomOf (.string p.name))
    (Cons (Tagged "arguments" (List.Forall₂ (fun a e => e.argumentOf = .ok a) p.arguments))
    (Cons (Tagged "description" (Cons (fun e => ∀ role, e.optionalStringOf role = .ok p.description)
      (· = [])))
    (Cons (Tagged "parents" fun es => ∀ role, es.mapM (stringOf role) = .ok p.parents) (· = []))))

theorem predicateOf_items (p : Predicate) (e : SExpr)
    (described : Tagged "PredicateDefinition" (PredicateItems p) e) : e.predicateOf = .ok p := by
  obtain ⟨pos, q, ⟨⟨r⟩, ⟨⟨p₁, q₁, readArguments⟩, ⟨⟨p₂, q₂, ⟨readDescription, rfl⟩⟩,
    ⟨⟨p₃, q₃, readParents⟩, rfl⟩⟩⟩⟩⟩ := described
  have reads := mapM_of_forall₂ readArguments
  simp only [predicateOf_form, List.foldlM_cons, List.foldlM_nil, predicateField_arguments,
    predicateField_description, predicateField_parents, reads, readDescription, readParents, bind,
    Except.bind, pure, Except.pure, List.nil_append]

/-- A predicate is read back with its arguments, its description and its parents. -/
theorem item_predicate (p : Predicate) : Item p.document fun e => e.predicateOf = .ok p := by
  have arguments := Lists.flatMap p.arguments fun a _ => item_argument a
  have description := Lists.cons " " (by decide) (expresses_optional p.description) Lists.nil
  -- The fields stand on two lines, in a fixed order.
  have fields := Lists.cons " " (by decide) (arguments.tagged "arguments" (by decide))
    (Lists.cons "\n      " (by decide) (description.tagged "description" (by decide))
      (Lists.cons " " (by decide) ((lists_strings p.parents).tagged "parents" (by decide)) Lists.nil))
  have items := Lists.cons " " (by decide) (expresses_string p.name) fields
  refine ⟨"\n    ", _, ?_, by decide,
    (items.tagged "PredicateDefinition" (by decide)).mono (predicateOf_items p)⟩
  simp only [Predicate.document, form, List.append_assoc, List.append_nil, List.cons_append]
  rfl

theorem groupKindOf_name (kind : GroupKind) (pos : Position) :
    groupKindOf (.atom pos (.symbol kind.name)) = .ok kind := by
  cases kind <;> rfl

theorem isTag_name (kind : GroupKind) : Lexeme.isTag kind.name = true := by
  cases kind <;> decide

theorem item_line (indent : Text) (blank : indent.all Byte.isSpace = true) (s : Sentence)
    (expressible : s.isExpressible false = true) :
    Item (s.lineDocument indent) fun e => e.sentenceOf = .ok s := by
  refine ⟨ascii '\n' :: (indent ++ Text.ofString "    "), s.document, ?_, ?_,
    expresses_sentence s expressible⟩
  · simp only [Sentence.lineDocument, List.cons_append]
  · simp only [isGap, List.all_append, blank]
    decide

/-- The items of a group after its tag. -/
def GroupItems (g : SentenceGroup) : List SExpr → Prop :=
  Cons (AtomOf (.string g.name))
    (Cons (Tagged "kind" (Cons (AtomOf (.symbol g.kind.name)) (· = [])))
    (Cons (Tagged "docstring" (Cons (fun e => ∀ role, e.optionalStringOf role = .ok g.docstring)
      (· = [])))
    (Cons (Tagged "sentences" (List.Forall₂ (fun s e => e.sentenceOf = .ok s) g.sentences)) (· = []))))

theorem groupOf_items (g : SentenceGroup) (e : SExpr)
    (described : Tagged "SentenceGroup" (GroupItems g) e) : e.groupOf = .ok g := by
  obtain ⟨pos, q, ⟨⟨r⟩, ⟨⟨p₁, q₁, ⟨⟨r₁⟩, rfl⟩⟩, ⟨⟨p₂, q₂, ⟨readDocstring, rfl⟩⟩,
    ⟨⟨p₃, q₃, readSentences⟩, rfl⟩⟩⟩⟩⟩ := described
  have reads := mapM_of_forall₂ readSentences
  simp only [groupOf_form, List.foldlM_cons, List.foldlM_nil, groupField_kind,
    groupField_docstring, groupField_sentences, groupKindOf_name, sentencesOf_eq, reads,
    readDocstring, bind, Except.bind, pure, Except.pure, List.nil_append]

/-- A group is read back with its kind, its docstring and its sentences. -/
theorem item_group (g : SentenceGroup)
    (expressible : ∀ s ∈ g.sentences, s.isExpressible false = true) :
    Item (ascii '\n' :: g.document "    ") fun e => e.groupOf = .ok g := by
  have kind := Lists.cons " " (by decide) (expresses_symbol g.kind.name (isTag_name g.kind)) Lists.nil
  have docstring := Lists.cons " " (by decide) (expresses_optional g.docstring) Lists.nil
  have sentences := Lists.flatMap g.sentences fun s member =>
    item_line "    " (by decide) s (expressible s member)
  have fields := Lists.cons " " (by decide) (kind.tagged "kind" (by decide))
    (Lists.cons " " (by decide) (docstring.tagged "docstring" (by decide))
      (Lists.cons "\n      " (by decide) (sentences.tagged "sentences" (by decide)) Lists.nil))
  have items := Lists.cons " " (by decide) (expresses_string g.name) fields
  refine ⟨"\n    ", _, ?_, by decide,
    (items.tagged "SentenceGroup" (by decide)).mono (groupOf_items g)⟩
  simp only [SentenceGroup.document, form, List.append_assoc, List.append_nil, List.cons_append]
  rfl

theorem item_note (entry : Text × List Text) :
    Item (Notes.entryDocument entry) fun e => e.keyedValuesOf = .ok entry := by
  have items := (expresses_string entry.1).first (lists_strings entry.2)
  refine ⟨"\n    ", _, ?_, by decide, items.bracketed.mono ?_⟩
  · simp only [Notes.entryDocument, List.append_assoc]
    rfl
  · rintro e ⟨pos, ⟨⟨q⟩, strings⟩⟩
    have reads := strings "annotation value"
    simp only [keyedValuesOf, reads, stringOf, bind, Except.bind, pure, Except.pure]

/-- The sections of a written document are found under their tags. -/
theorem theoryOf_form (pos q p₁ q₁ p₂ q₂ p₃ q₃ p₄ q₄ p₅ q₅ p₆ q₆ : Position) (name : SExpr)
    (types predicates groups facts notes : List SExpr) :
    theoryOf (.list pos (.atom q (.symbol "Theory") ::
      [.list p₁ (.atom q₁ (.symbol "name") :: [name]),
        .list p₂ (.atom q₂ (.symbol "type_definitions") :: types),
        .list p₃ (.atom q₃ (.symbol "predicate_definitions") :: predicates),
        .list p₄ (.atom q₄ (.symbol "sentence_groups") :: groups),
        .list p₅ (.atom q₅ (.symbol "ground_terms") :: facts),
        .list p₆ (.atom q₆ (.symbol "annotations") :: notes)])) = (do
      let t := Theory.empty (← name.optionalStringOf "theory name")
      let t ← types.foldlM declareTypeIn t
      let t ← predicates.foldlM (fun t e => do return (t.declarePredicate (← e.predicateOf)).2) t
      let t ← groups.foldlM (fun t e => do return t.addGroup (← e.groupOf)) t
      let t ← facts.foldlM (fun t e => do return (t.addFact (← e.sentenceOf)).2) t
      notes.foldlM (fun t e => do
        let (key, values) ← e.keyedValuesOf
        return { t with notes := t.notes.add key values }) t) := rfl

/-- The sections of the document of a theory. -/
def Sections (t : Theory) : List SExpr → Prop :=
  Cons (Tagged "name" (Cons (fun e => ∀ role, e.optionalStringOf role = .ok t.name) (· = [])))
    (Cons (Tagged "type_definitions" (List.Forall₂
      (fun a e => ∀ t, declareTypeIn t e = .ok (t.redeclare a).2) t.registry.types))
    (Cons (Tagged "predicate_definitions" (List.Forall₂ (fun p e => e.predicateOf = .ok p)
      t.registry.predicates))
    (Cons (Tagged "sentence_groups" (List.Forall₂ (fun g e => e.groupOf = .ok g) t.groups))
    (Cons (Tagged "ground_terms" (List.Forall₂ (fun fact e => e.sentenceOf = .ok fact) t.facts))
    (Cons (Tagged "annotations" (List.Forall₂ (fun entry e => e.keyedValuesOf = .ok entry) t.notes))
      (· = []))))))

/-- A theory is read back from its sections: nothing is refused that had been accepted. -/
theorem theoryOf_sections (t : Theory) (writable : t.Writable) (checked : t.Checked) (e : SExpr)
    (described : Tagged "Theory" (Sections t) e) : e.theoryOf = .ok t := by
  obtain ⟨pos, q, ⟨⟨p₁, q₁, ⟨readName, rfl⟩⟩, ⟨⟨p₂, q₂, readTypes⟩, ⟨⟨p₃, q₃, readPredicates⟩,
    ⟨⟨p₄, q₄, readGroups⟩, ⟨⟨p₅, q₅, readFacts⟩, ⟨⟨p₆, q₆, readNotes⟩, rfl⟩⟩⟩⟩⟩⟩⟩ := described
  rw [theoryOf_form]
  simp only [bind_ok_iff]
  -- Each section is folded into the theory by its own step, which is the step of the replay.
  refine ⟨t.name, readName _, _, foldlM_of_forall₂ readTypes _, _, foldlM_read readPredicates _,
    _, foldlM_read readGroups _, _, foldlM_read readFacts _, ?_⟩
  exact (foldlM_read readNotes _).trans (congrArg Except.ok (t.replay writable checked))

/-- The document of a theory has its sections in order. -/
theorem expresses_theory (t : Theory) (writable : t.Writable) :
    Expresses t.document (Tagged "Theory" (Sections t)) := by
  have name := Lists.cons " " (by decide) (expresses_optional t.name) Lists.nil
  have types := Lists.flatMap t.registry.types fun a member =>
    item_type a (writable.declared.types.wellShaped a member)
  have predicates := Lists.flatMap t.registry.predicates fun p _ => item_predicate p
  have groups := Lists.flatMap t.groups fun g member => item_group g (writable.groups g member)
  have facts := Lists.flatMap t.facts fun fact member =>
    item_line [] rfl fact (writable.facts fact member).isExpressible
  have notes := Lists.flatMap t.notes fun entry _ => item_note entry
  have sections := Lists.cons "\n  " (by decide) (name.tagged "name" (by decide))
    (Lists.cons "\n  " (by decide) (types.tagged "type_definitions" (by decide))
    (Lists.cons "\n  " (by decide) (predicates.tagged "predicate_definitions" (by decide))
    (Lists.cons "\n  " (by decide) (groups.tagged "sentence_groups" (by decide))
    (Lists.cons "\n  " (by decide) (facts.tagged "ground_terms" (by decide))
    (Lists.cons "\n  " (by decide) (notes.tagged "annotations" (by decide)) Lists.nil)))))
  refine (sections.tagged "Theory" (by decide)).of_eq ?_
  simp only [Theory.document, form, List.append_assoc, List.append_nil, List.cons_append]
  rfl

end SExpr

/-- A theory is read from what is written for it. -/
theorem Theory.parse_document (t : Theory) (writable : t.Writable) (checked : t.Checked) :
    Theory.parse t.document = .ok t := by
  obtain ⟨e, described, parsed⟩ := (SExpr.expresses_theory t writable).parse
  rw [Theory.parse, parsed]
  exact SExpr.theoryOf_sections t writable checked e described

end Clausal
