import Clausal.Target.SouffleProgram
import Clausal.Proofs.Normalization
import Clausal.Proofs.Refusal
import Clausal.Proofs.Stratification

/-!
# Emitted programs are stratified

The rules that a program keeps are stratified by levels of its predicates. What it leaves out is
reported, rule by rule, and nothing is left out where all the rules are stratified together.
-/

namespace Clausal

namespace Souffle

/-- What is kept of some sections, and what is dropped: every entry is one or the other, the order
stays, what is kept is stratified, what is dropped negates a predicate that depends on its head, and
nothing is dropped without need. -/
structure Keeps (collected kept : List Section) (dropped : List Entry) : Prop where
  sections : List.Forall₂ (fun before after : Section =>
    after.name = before.name ∧ after.entries.Sublist before.entries) collected kept
  ordered : dropped.Sublist (collected.flatMap Section.entries)
  complete : (collected.flatMap Section.entries).Perm (kept.flatMap Section.entries ++ dropped)
  stratified : ∃ level, ∀ e ∈ kept.flatMap Section.entries, e.clause.StratifiedBy level
  cyclic : ∀ e ∈ dropped, ∃ h args p others, e.clause.head = some (.term h args) ∧
    .neg (.term p others) ∈ e.clause.body ∧ isBuiltin p = false ∧
    Relation.ReflTransGen (DependsOn ((collected.flatMap Section.entries).map Entry.clause)) p h
  needed : (∃ level, ∀ e ∈ collected.flatMap Section.entries, e.clause.StratifiedBy level) →
    kept = collected ∧ dropped = []

/-- Whether an entry is dropped depends on the graph of all sections, before anything is dropped. -/
theorem entries_dropUnstratified (collected : List Section) :
    (dropUnstratified collected).1.flatMap Section.entries =
      (collected.flatMap Section.entries).filter fun e =>
        !e.clause.isUnstratified (sectionComponents collected) := by
  simp only [dropUnstratified, List.flatMap_map, List.filter_flatMap]

/-- Dropping the unstratified rules keeps the others, and reports each that is dropped. -/
theorem dropUnstratified_keeps (collected : List Section) :
    ∃ dropped, (dropUnstratified collected).2 = dropped.map unstratifiedReport ∧
      Keeps collected (dropUnstratified collected).1 dropped := by
  let isBad (e : Entry) : Bool := e.clause.isUnstratified (sectionComponents collected)
  have entries : (dropUnstratified collected).1.flatMap Section.entries =
      (collected.flatMap Section.entries).filter fun e => !isBad e :=
    entries_dropUnstratified collected
  refine ⟨(collected.flatMap Section.entries).filter isBad, rfl, ?_⟩
  constructor
  · simp only [dropUnstratified, List.forall₂_map_right_iff, List.forall₂_same]
    exact fun s _ => ⟨trivial, List.filter_sublist⟩
  · exact List.filter_sublist
  · rw [entries]
    have split := List.filter_append_perm isBad (collected.flatMap Section.entries)
    exact (List.perm_append_comm.trans split).symm
  -- The levels count dependencies among all entries, dropped ones included.
  · refine ⟨levelIn (((collected.flatMap Section.entries).map Entry.clause).flatMap
      Clause.dependencies), fun e member => ?_⟩
    rw [entries, List.mem_filter, Bool.not_eq_true'] at member
    refine e.clause.stratifiedBy_levelIn _ ?_ member.2
    intro edge found
    exact List.mem_flatMap.mpr ⟨e.clause, List.mem_map_of_mem member.1, found⟩
  · intro e member
    obtain ⟨h, args, p, others, head, negated, plain, back, -⟩ :=
      (e.clause.isUnstratified_iff_dependsOn _).mp (List.mem_filter.mp member).2
    exact ⟨h, args, p, others, head, negated, plain, back⟩
  · rintro ⟨level, all⟩
    have good (e : Entry) (member : e ∈ collected.flatMap Section.entries) : isBad e = false := by
      apply Clause.isUnstratified_eq_false _ level _ _ (List.mem_map_of_mem member)
      rw [List.forall_mem_map]
      exact all
    constructor
    · refine (List.map_congr_left fun s inside => ?_).trans (List.map_id collected)
      have all_kept : s.entries.filter (fun e => !isBad e) = s.entries := by
        rw [List.filter_eq_self]
        intro e member
        simp [good e (List.mem_flatMap.mpr ⟨s, inside, member⟩)]
      exact congrArg (Section.mk s.name) all_kept
    · rw [List.filter_eq_nil_iff]
      intro e member
      simp [good e member]

/-- Whether a clause has only terms and negated terms in its body, under a term as its head. -/
structure IsRule (c : Clause) : Prop where
  head : c.body ≠ [] → ∃ h args, c.head = some (.term h args)
  body : ∀ l ∈ c.body, ∃ p args, l = .term p args ∨ l = .neg (.term p args)

/-- Literals that can be written are terms and negated terms. -/
theorem literal_ok (l : Sentence) (text : Text) (returned : literal l = .ok text) :
    ∃ p args, l = .term p args ∨ l = .neg (.term p args) := by
  unfold literal at returned
  split at returned
  next p args => exact ⟨p, args, .inl rfl⟩
  next p args => exact ⟨p, args, .inr rfl⟩
  · simp at returned
  · simp at returned

theorem clause_ok (c : Clause) (text : Text) (returned : clause c = .ok text) :
    c.head ≠ none ∧ ∀ l ∈ c.body, ∃ p args, l = .term p args ∨ l = .neg (.term p args) := by
  unfold clause at returned
  split at returned
  · simp at returned
  · simp at returned
  next head _ found =>
    simp only [bind_ok_iff] at returned
    obtain ⟨_, _, literals, written, _⟩ := returned
    refine ⟨by simp [found], fun l inside => ?_⟩
    obtain ⟨text, _, writable⟩ := ok_of_mem_mapM written inside
    exact literal_ok l text writable

theorem arguments_eq (ss : List Sentence) : arguments ss = ss.mapM argument := by
  induction ss with
  | nil => rfl
  | cons s ss ih => rw [arguments, List.mapM_cons, ih]

theorem argument_refuses (s : Sentence) : Refuses (fun e => e.kind.IsShape) (argument s) := by
  induction s with
  | var | const =>
    rw [argument]
    exact .ok _
  | term p args ih =>
    rw [argument, arguments_eq]
    exact (Refuses.mapM args ih).map
  | _ =>
    -- Formulas have no place among the arguments of a term.
    simp only [argument]
    exact .error (Error.isShape_constraint rfl)

/-- A cause that is not about other rules. -/
def OwnFault (fault : TargetFault) : Prop := ∀ e, fault = .refused e → e.kind.IsShape

theorem ownFault_refused {e : Error} (shape : e.kind.IsShape) : OwnFault (.refused e) := by
  intro other refused
  cases refused
  exact shape

theorem ofError_refuses {α : Type} {x : Except Error α} (given : Refuses (fun e => e.kind.IsShape) x) :
    Refuses OwnFault (TargetFault.ofError x) := by
  cases x with
  | ok a => exact .ok a
  | error e => exact .error (ownFault_refused (given e rfl))

theorem ofBuild_refuses {α : Type} (x : Except BuildFault α) :
    Refuses OwnFault (TargetFault.ofBuild x) := by
  cases x with
  | ok a => exact .ok a
  | error fault => exact .error fun e refused => nomatch refused

theorem atom_refuses (p : Text) (args : List Sentence) : Refuses OwnFault (atom p args) := by
  rw [atom, arguments_eq]
  exact (ofError_refuses (Refuses.mapM args fun s _ => argument_refuses s)).map

theorem literal_refuses (l : Sentence) : Refuses OwnFault (literal l) := by
  unfold literal
  split
  next p args => exact atom_refuses p args
  next p args =>
    unfold negatedAtom
    split
    · exact (ofBuild_refuses _).bind fun _ => atom_refuses _ _
    · exact (atom_refuses p _).map
  · exact .error (ownFault_refused (Error.isShape_constraint rfl))
  · exact .error (ownFault_refused (Error.isShape_negation rfl))

theorem clause_refuses (c : Clause) : Refuses OwnFault (clause c) := by
  unfold clause
  split
  · exact .error (ownFault_refused (Error.isShape_annotations rfl))
  · exact .error (ownFault_refused (Error.isShape_constraint rfl))
  · exact (literal_refuses _).bind fun _ => (Refuses.mapM _ fun s _ => literal_refuses s).map

/-- Entries are the clauses that can be written, at the place of their sentence. -/
theorem writeClauses_ok (g : SentenceGroup) (cs : List Clause) (entries : List Entry)
    (reports : List Diagnostic) (returned : writeClauses g cs = .ok (entries, reports)) :
    (∀ e ∈ entries, e.clause ∈ cs ∧ clause e.clause = .ok e.text ∧ e.group = g.name ∧
      e.index = e.clause.source) ∧ ∀ x ∈ reports, x.kind ≠ .unstratifiedNegation := by
  induction cs generalizing entries reports with
  | nil =>
    simp only [writeClauses, Except.ok.injEq, Prod.mk.injEq] at returned
    obtain ⟨rfl, rfl⟩ := returned
    simp
  | cons c cs ih =>
    rw [writeClauses] at returned
    -- What is known of the entries for the rest stays true with one more clause in front.
    have later {es : List Entry} (given : ∀ e ∈ es, e.clause ∈ cs ∧ clause e.clause = .ok e.text ∧
        e.group = g.name ∧ e.index = e.clause.source) (e : Entry) (inside : e ∈ es) :
        e.clause ∈ c :: cs ∧ clause e.clause = .ok e.text ∧ e.group = g.name ∧
          e.index = e.clause.source :=
      ⟨List.mem_cons_of_mem c (given e inside).1, (given e inside).2⟩
    split at returned
    next text written =>
      simp only [bind_ok_iff, pure_ok_iff, Prod.mk.injEq] at returned
      obtain ⟨⟨rest, others⟩, remaining, rfl, rfl⟩ := returned
      obtain ⟨found, kinds⟩ := ih rest others remaining
      refine ⟨List.forall_mem_cons.mpr ⟨⟨List.mem_cons_self, written, rfl, rfl⟩, later found⟩, kinds⟩
    next e refused =>
      simp only [bind_ok_iff, pure_ok_iff, Prod.mk.injEq] at returned
      obtain ⟨⟨rest, others⟩, remaining, rfl, rfl⟩ := returned
      obtain ⟨found, kinds⟩ := ih rest others remaining
      refine ⟨later found, List.forall_mem_cons.mpr ⟨?_, kinds⟩⟩
      exact (clause_refuses c _ refused e rfl).ne
    · simp at returned

end Souffle

theorem Dialect.normalizeGroup_of_tryNormalizeGroup (d : Dialect) (r : Option Registry)
    (g : SentenceGroup) (n : Normalized)
    (returned : TargetFault.ofBuild (d.tryNormalizeGroup r g) = .ok n) :
    n = d.normalizeGroup r g := by
  unfold tryNormalizeGroup at returned
  split at returned
  · cases returned
  · exact (Except.ok.inj returned).symm

/-- Heads are terms, wherever a clause comes from. -/
theorem Dialect.normalize_head (d : Dialect) (r : Option Registry) (s : Sentence) (c : Clause)
    (member : c ∈ (d.normalize r s).clauses) (h : Sentence) (found : c.head = some h) :
    ∃ p args, h = .term p args := by
  obtain ⟨given, vars, _, gives, rfl, -⟩ := d.gives_of_mem_normalize r s c member
  obtain ⟨p, args, isTerm, -⟩ :=
    gives.head_term (Sentence.terms_of_forall (fun _ _ => trivial) s) h found
  exact ⟨p, args, isTerm⟩

theorem Dialect.normalizeFrom_head (d : Dialect) (r : Option Registry) (group : Text) (index : Nat)
    (ss : List Sentence) (c : Clause) (member : c ∈ (d.normalizeFrom r group index ss).clauses)
    (h : Sentence) (found : c.head = some h) : ∃ p args, h = .term p args := by
  obtain ⟨s, -, i, located⟩ := (d.normalizeFrom_origin r group index ss).1 c member
  obtain ⟨inner, inside, rfl⟩ := List.mem_map.mp located
  exact d.normalize_head r s inner inside h found

namespace Souffle

/-- Whether the entries of a section are rules at places of the section. -/
def WellPlaced (s : Section) : Prop :=
  ∀ e ∈ s.entries, IsRule e.clause ∧ e.group = s.name ∧ e.index = e.clause.source

/-- The section of a group holds rules at the places of their sentences. -/
theorem groupSection_ok (r : Registry) (g : SentenceGroup) (s : Section) (reports : List Diagnostic)
    (returned : groupSection r g = .ok (s, reports)) :
    WellPlaced s ∧ ∀ x ∈ reports, x.kind ≠ .unstratifiedNegation := by
  simp only [groupSection, bind_ok_iff, pure_ok_iff, Prod.mk.injEq] at returned
  obtain ⟨n, built, ⟨entries, refused⟩, written, rfl, rfl⟩ := returned
  obtain ⟨found, kinds⟩ := writeClauses_ok g n.clauses entries refused written
  obtain rfl := dialect.normalizeGroup_of_tryNormalizeGroup (some r) g n built
  refine ⟨fun e inside => ?_, ?_⟩
  -- Being written fixes the shape of the body, and heads are terms by the way clauses are found.
  · obtain ⟨member, writable, group, index⟩ := found e inside
    obtain ⟨hasHead, literals⟩ := clause_ok e.clause e.text writable
    obtain ⟨h, isHead⟩ := Option.ne_none_iff_exists'.mp hasHead
    obtain ⟨p, args, rfl⟩ := dialect.normalizeFrom_head _ _ _ _ e.clause member h isHead
    exact ⟨⟨fun _ => ⟨p, args, isHead⟩, literals⟩, group, index⟩
  · rw [List.forall_mem_append]
    exact ⟨dialect.normalizeFrom_reports _ _ _ _, kinds⟩

theorem factSection_ok (facts : List Sentence) (s : Section)
    (returned : factSection facts = .ok s) : WellPlaced s := by
  simp only [factSection, bind_ok_iff, pure_ok_iff] at returned
  obtain ⟨entries, written, rfl⟩ := returned
  intro e inside
  obtain ⟨⟨fact, index⟩, _, made⟩ := exists_of_mem_mapM written inside
  simp only [factEntry, bind_ok_iff, pure_ok_iff] at made
  obtain ⟨text, _, rfl⟩ := made
  -- A fact has no body, so nothing is asked of its head.
  exact ⟨⟨fun nonempty => absurd rfl nonempty, by simp⟩, rfl, rfl⟩

/-- The sections of a theory hold rules at their places, and what is reported while they are
collected is about single sentences. -/
theorem collect_ok (t : Theory) (collected : List Section) (reports : List Diagnostic)
    (returned : collect t = .ok (collected, reports)) :
    (∀ s ∈ collected, WellPlaced s) ∧ ∀ x ∈ reports, x.kind ≠ .unstratifiedNegation := by
  simp only [collect, bind_ok_iff, pure_ok_iff, Prod.mk.injEq] at returned
  obtain ⟨groups, grouped, facts, factual, rfl, rfl⟩ := returned
  have each (pair : Section × List Diagnostic) (inside : pair ∈ groups) :
      WellPlaced pair.1 ∧ ∀ x ∈ pair.2, x.kind ≠ .unstratifiedNegation := by
    obtain ⟨g, _, made⟩ := exists_of_mem_mapM grouped inside
    exact groupSection_ok t.registry g pair.1 pair.2 made
  constructor
  · simp only [List.forall_mem_append, List.forall_mem_map, List.mem_singleton, forall_eq]
    exact ⟨fun pair inside => (each pair inside).1, factSection_ok t.facts facts factual⟩
  · intro x found
    obtain ⟨pair, inside, found⟩ := List.mem_flatMap.mp found
    exact (each pair inside).2 x found

theorem leaves_refuses (r : Registry) (depth : Nat) (name : Text) :
    Refuses (fun e => e.kind ≠ .unstratifiedNegation) (r.leaves depth name) := by
  induction depth generalizing name with
  | zero =>
    rw [Registry.leaves]
    exact .error (by simp [Error.kind])
  | succ depth ih =>
    rw [Registry.leaves]
    split
    · exact .ok _
    · split
      · exact .error (by simp [Error.kind])
      · exact (Refuses.mapM _ fun target _ => ih target).map

theorem typeName_refuses (r : Registry) (type : Text) :
    Refuses (fun e => e.kind ≠ .unstratifiedNegation) (typeName r type) := by
  have resolved (name : Text) :
      Refuses (fun e => e.kind ≠ .unstratifiedNegation) (r.resolve name) :=
    (leaves_refuses r _ name).map
  unfold typeName
  split
  · exact .ok _
  · split
    · exact (resolved type).map.map
    · exact (resolved type).map

/-- What is reported about declarations is about types. -/
theorem declarations_reports {α : Type} (line : α → Except Error Text) (explain : α → Error → Error)
    (xs : List α) (refused : ∀ x, Refuses (fun e => (explain x e).kind ≠ .unstratifiedNegation) (line x))
    (report : Diagnostic) (member : report ∈ (declarations line explain xs).2) :
    report.kind ≠ .unstratifiedNegation := by
  induction xs with
  | nil => simp [declarations] at member
  | cons x xs ih =>
    simp only [declarations] at member
    split at member
    · exact ih member
    next e failed =>
      rcases List.mem_cons.mp member with rfl | later
      · exact refused x e failed
      · exact ih later

theorem header_reports (choices : Choices) (r : Registry) (report : Diagnostic)
    (member : report ∈ (header choices r).2) : report.kind ≠ .unstratifiedNegation := by
  rcases List.mem_append.mp member with type | relation
  · refine declarations_reports _ _ _ (fun a => ?_) report type
    exact (Refuses.mapM _ fun name _ => typeName_refuses r name).map
  · refine declarations_reports _ _ _ (fun p => ?_) report relation
    exact (Refuses.mapM _ fun (a : TypedName) _ => (typeName_refuses r a.type).map).map

/-- The emitted program is stratified, and no rule is lost silently: the rules of all groups and the
facts are kept in their order or dropped, the reports on unstratified negation are those on the
dropped entries, one on each, and nothing is dropped if levels exist for all entries. -/
theorem compile_stratified (choices : Choices) (t : Theory) (out : Compiled)
    (returned : compile choices t = .ok out) :
    ∃ collected reports kept dropped, collect t = .ok (collected, reports) ∧
      out.text = programText choices t.registry kept ∧ Keeps collected kept dropped ∧
      (∀ s ∈ collected, WellPlaced s) ∧
      List.Forall₂ (fun (e : Entry) (report : Diagnostic) => report.kind = .unstratifiedNegation ∧
          report.group = e.group ∧ report.index = e.index) dropped
        (out.diagnostics.filter fun report => report.kind = .unstratifiedNegation) := by
  simp only [compile, bind_ok_iff, pure_ok_iff] at returned
  obtain ⟨⟨collected, reports⟩, found, rfl⟩ := returned
  obtain ⟨placed, kinds⟩ := collect_ok t collected reports found
  obtain ⟨dropped, reported, keeps⟩ := dropUnstratified_keeps collected
  refine ⟨collected, reports, _, dropped, found, rfl, keeps, placed, ?_⟩
  -- Neither the declarations nor the single sentences are reported for unstratified negation.
  have others : (header choices t.registry).2.filter
      (fun report => report.kind = .unstratifiedNegation) = [] := by
    simpa [List.filter_eq_nil_iff] using header_reports choices t.registry
  have collecting : reports.filter (fun report => report.kind = .unstratifiedNegation) = [] := by
    simpa [List.filter_eq_nil_iff] using kinds
  have own : (dropped.map unstratifiedReport).filter
      (fun report => report.kind = .unstratifiedNegation) = dropped.map unstratifiedReport := by
    rw [List.filter_eq_self, List.forall_mem_map]
    exact fun e _ => rfl
  -- So the reports of this kind are those on dropped entries, in their order.
  simp only [reported, List.filter_append, others, collecting, own, List.nil_append]
  rw [List.forall₂_map_right_iff, List.forall₂_same]
  exact fun e _ => ⟨rfl, rfl, rfl⟩

/-- A game is won by a move to a position that is not won, and some positions are known. -/
private def game : Theory :=
  let x : Sentence := .var "x" []
  let y : Sentence := .var "y" []
  { name := "game"
    registry := .empty
    groups := [⟨"rules", .plain, [],
      [.implies (.conj [.term "move" [x, y], .neg (.term "win" [y])]) (.term "win" [x]),
        .implies (.conj [.term "move" [x, x], .neg (.term "known" [x])]) (.term "loop" [x])]⟩]
    facts := [.term "known" [.const (.string "a")]]
    notes := [] }

private def winning : Entry where
  clause := ⟨some (.term "win" [.var "x" []]),
    [.term "move" [.var "x" [], .var "y" []], .neg (.term "win" [.var "y" []])], [], none, none, 0⟩
  text := "win(x) :- move(x, y), !win(y)."
  group := "rules"
  index := 0
  source := "((move(x, y) ∧ ¬win(y)) → win(x))"

private def looping : Entry where
  clause := ⟨some (.term "loop" [.var "x" []]),
    [.term "move" [.var "x" [], .var "x" []], .neg (.term "known" [.var "x" []])], [], none, none, 1⟩
  text := "loop(x) :- move(x, x), !known(x)."
  group := "rules"
  index := 1
  source := "((move(x, x) ∧ ¬known(x)) → loop(x))"

private def knowing : Entry where
  clause := ⟨some (.term "known" [.const (.string "a")]), [], [], none, none, 0⟩
  text := "known(\"a\")."
  group := "Facts"
  index := 0
  source := "known('a')"

private theorem collect_game :
    collect game = .ok ([⟨"rules", [winning, looping]⟩, ⟨"Facts", [knowing]⟩], []) :=
  rfl

/-- No levels suit a rule that negates the predicate of its head. -/
private theorem winning_unstratified (level : Text → Nat) : ¬ winning.clause.StratifiedBy level := by
  intro stratified
  have less := stratified.negated "win" _ "win" [.var "y" []] rfl (by simp [winning]) (by decide)
  exact Nat.lt_irrefl _ less

/-- The known positions depend on nothing, so that no cycle leads through their negation. -/
private theorem not_dependsOn_known (p : Text) :
    ¬ DependsOn [winning.clause, looping.clause, knowing.clause] "known" p := by
  rw [← leads_dependencies]
  intro edge
  have sources : ∀ e ∈ [winning.clause, looping.clause, knowing.clause].flatMap Clause.dependencies,
      e.source ≠ "known" := by decide
  exact sources _ edge rfl

private theorem dropped_game {kept : List Section} {dropped : List Entry}
    (keeps : Keeps [⟨"rules", [winning, looping]⟩, ⟨"Facts", [knowing]⟩] kept dropped) :
    dropped = [winning] := by
  have won : winning ∈ dropped := by
    obtain ⟨level, all⟩ := keeps.stratified
    rcases List.mem_append.mp (keeps.complete.mem_iff.mp List.mem_cons_self) with remains | gone
    · exact (winning_unstratified level (all winning remains)).elim
    · exact gone
  have looped : looping ∉ dropped := by
    intro gone
    obtain ⟨h, args, p, others, head, negated, -, back⟩ := keeps.cyclic looping gone
    obtain ⟨rfl, -⟩ : "loop" = h ∧ _ = args := by simpa [looping] using head
    obtain ⟨rfl, -⟩ : p = "known" ∧ others = _ := by simpa [looping] using negated
    rcases back.cases_head with equal | ⟨q, step, -⟩
    · exact absurd equal (by decide)
    · exact not_dependsOn_known q step
  have known : knowing ∉ dropped := by
    intro gone
    obtain ⟨_, _, _, _, _, negated, -⟩ := keeps.cyclic knowing gone
    simp [knowing] at negated
  rcases List.sublist_cons_iff.mp keeps.ordered with among | ⟨rest, rfl, among⟩
  · simpa [winning, looping, knowing] using among.subset won
  · cases rest with
    | nil => rfl
    | cons e rest =>
      obtain rfl | rfl : e = looping ∨ e = knowing := by
        simpa using among.subset List.mem_cons_self
      · simp at looped
      · simp at known

private theorem kept_game {kept : List Section}
    (keeps : Keeps [⟨"rules", [winning, looping]⟩, ⟨"Facts", [knowing]⟩] kept [winning]) :
    kept = [⟨"rules", [looping]⟩, ⟨"Facts", [knowing]⟩] := by
  have remain : [looping, knowing].Perm (kept.flatMap Section.entries) :=
    (keeps.complete.trans (List.perm_append_singleton _ _)).cons_inv
  obtain ⟨⟨name, rules⟩, _, ⟨named, inRules⟩, others, rfl⟩ :=
    List.forall₂_cons_left_iff.mp keeps.sections
  obtain ⟨⟨other, facts⟩, _, ⟨named', inFacts⟩, noMore, rfl⟩ :=
    List.forall₂_cons_left_iff.mp others
  obtain rfl := List.forall₂_nil_left_iff.mp noMore
  obtain rfl : name = "rules" := named
  obtain rfl : other = "Facts" := named'
  rcases List.sublist_singleton.mp inFacts with rfl | rfl
  · have misplaced : knowing ∈ rules := by simpa using remain.subset (by simp)
    simpa [winning, looping, knowing] using inRules.subset misplaced
  · have single : ([looping] ++ [knowing]).Perm (rules ++ [knowing]) := remain
    rw [List.singleton_perm.mp ((List.perm_append_right_iff [knowing]).mp single)]

/-- The rule for winning is left out and reported; the other rule, which also negates, and the fact
make up the program. -/
theorem compile_stratified_game :
    ∃ out report, compile .full game = .ok out ∧
      out.text = programText .full game.registry
        [⟨"rules", [looping]⟩, ⟨"Facts", [knowing]⟩] ∧
      (∃ level, ∀ e ∈ [looping, knowing], e.clause.StratifiedBy level) ∧
      (out.diagnostics.filter fun report => report.kind = .unstratifiedNegation) = [report] ∧
      report.group = winning.group ∧ report.index = winning.index := by
  have returned : ∃ out, compile .full game = .ok out := by
    rw [compile, collect_game]
    exact ⟨_, rfl⟩
  obtain ⟨out, returned⟩ := returned
  obtain ⟨collected, _, kept, dropped, found, text, keeps, -, reports⟩ :=
    compile_stratified .full game out returned
  obtain ⟨rfl, -⟩ := Prod.mk.inj (Except.ok.inj (collect_game.symm.trans found))
  obtain rfl := dropped_game keeps
  obtain rfl := kept_game keeps
  obtain ⟨report, _, ⟨-, group, index⟩, noMore, single⟩ := List.forall₂_cons_left_iff.mp reports
  obtain rfl := List.forall₂_nil_left_iff.mp noMore
  exact ⟨out, report, returned, text, keeps.stratified, single, group, index⟩

end Souffle

end Clausal
