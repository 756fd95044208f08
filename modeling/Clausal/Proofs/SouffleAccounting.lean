import Clausal.Proofs.Accounting
import Clausal.Proofs.SouffleProgram

/-!
# Souffle programs account for every sentence

A clause that Datalog does not know is refused, and nothing else can go wrong with the clauses of a
sentence that a document can hold: the complement of a comparison can always be built, and facts are
terms. So a program is written for every theory that a document can hold. A sentence with a clause
that is refused is reported, and so is one with a rule that would not be stratified.
-/

namespace Clausal

namespace Sentence

/-- Whether the arguments of all terms in a sentence are terms, variables and constants. -/
def Regular : Sentence → Prop := Terms fun _ args => ∀ a ∈ args, a.isArgument = true

namespace Regular

variable {s : Sentence}

theorem of_isExpressible (asArgument : Bool) (expressible : s.isExpressible asArgument = true) :
    s.Regular := by
  rintro t inside p args rfl a member
  obtain ⟨_, possible⟩ := isExpressible_everywhere expressible _ inside
  exact a.isArgument_of_isExpressible ((allExpressible_iff true args).mp possible a member)

theorem child {c : Sentence} (regular : s.Regular) (child : c ∈ s.children) : c.Regular :=
  Terms.child regular child

theorem term {p : Text} {args : List Sentence} (regular : (Sentence.term p args).Regular) :
    ∀ a ∈ args, a.isArgument = true :=
  Terms.term regular

theorem terms (regular : s.Regular) : s.Terms fun p args => (Sentence.term p args).Regular := by
  rintro t inside p args rfl u below
  exact regular u (Relation.ReflTransGen.trans below inside)

/-- It does not matter which predicate is applied to the arguments. -/
theorem applied {p : Text} {args : List Sentence} (regular : (Sentence.term p args).Regular)
    (q : Text) : (Sentence.term q args).Regular := by
  refine (everywhere_iff _ _).mpr ⟨?_, fun a member => regular.child member⟩
  rintro _ _ ⟨⟩
  exact regular.term

end Regular

end Sentence

namespace Souffle

/-! ### Everything is written -/

theorem argument_returns (s : Sentence) (isArgument : s.isArgument = true)
    (regular : s.Regular) : Refuses (fun _ => False) (argument s) := by
  induction s with
  | var | const =>
    rw [argument]
    exact .ok _
  | term p args ih =>
    rw [argument, arguments_eq]
    exact (Refuses.mapM args fun a member =>
      ih a member (regular.term a member) (regular.child member)).map
  | _ => simp [Sentence.isArgument, Sentence.kind] at isArgument

theorem atom_returns {p : Text} {args : List Sentence} (regular : (Sentence.term p args).Regular) :
    Refuses (fun _ => False) (atom p args) := by
  obtain ⟨texts, written⟩ := (Refuses.mapM args fun a member =>
    argument_returns a (regular.term a member) (regular.child member)).returns
  rw [atom, arguments_eq, written]
  exact .ok _

theorem negatedAtom_returns {p : Text} {args : List Sentence}
    (regular : (Sentence.term p args).Regular) : Refuses (fun _ => False) (negatedAtom p args) := by
  unfold negatedAtom
  split
  next complement a b _ =>
    -- The arguments are arguments already, so that the complement can be built from them.
    rw [Sentence.Build.term_ok complement [a, b] regular.term]
    exact (Refuses.ok _).bind fun _ => atom_returns (regular.applied complement)
  next => exact (atom_returns regular).map

/-- A literal is refused for a reason that is reported. -/
theorem literal_refusal {l : Sentence} (writable : l.Writable) :
    Refuses TargetFault.IsRefusal (literal l) := by
  unfold literal
  split
  next p args =>
    cases writable with
    | term expressible =>
      have regular : (Sentence.term p args).Regular := .of_isExpressible false expressible
      exact (atom_returns regular).mono fun _ never => never.elim
  next p args =>
    cases Sentence.made_neg.mp writable with
    | term expressible =>
      have regular : (Sentence.term p args).Regular := .of_isExpressible false expressible
      exact (negatedAtom_returns regular).mono fun _ never => never.elim
  -- Literals of any other shape have no counterpart in Datalog and are refused as such.
  · exact .error ⟨_, rfl⟩
  · exact .error ⟨_, rfl⟩

theorem clause_refusal {c : Clause} (writable : c.Writable) :
    Refuses TargetFault.IsRefusal (clause c) := by
  unfold clause
  split
  -- Constraints and weighted clauses are refused before their literals are looked at.
  · exact .error ⟨_, rfl⟩
  · exact .error ⟨_, rfl⟩
  next h _ found =>
    exact (literal_refusal (writable.head h found)).bind fun _ =>
      (Refuses.mapM _ fun l member => literal_refusal (writable.body l member)).map

/-- So a clause that cannot be written never stops the program. -/
theorem writeClauses_returns (g : SentenceGroup) (cs : List Clause)
    (writable : ∀ c ∈ cs, c.Writable) : Refuses (fun _ => False) (writeClauses g cs) := by
  induction cs with
  | nil => exact .ok _
  | cons c cs ih =>
    rw [List.forall_mem_cons] at writable
    rw [writeClauses]
    split
    · exact (ih writable.2).bind fun _ => .ok _
    · exact (ih writable.2).bind fun _ => .ok _
    -- A refused clause is reported, and a clause that can be written fails in no other way.
    next fault other failed =>
      obtain ⟨e, rfl⟩ := clause_refusal writable.1 fault failed
      exact absurd rfl (other e)

theorem groupSection_returns (r : Registry) (g : SentenceGroup)
    (expressible : ∀ s ∈ g.sentences, s.isExpressible false = true) :
    Refuses (fun _ => False) (groupSection r g) := by
  rw [groupSection, dialect.tryNormalizeGroup_eq (some r) g expressible]
  refine (writeClauses_returns g _ fun c member => ?_).bind fun _ => .ok _
  exact dialect.normalizeFrom_writable (some r) g.name 0 g.sentences expressible c member

theorem factSection_returns (facts : List Sentence) (isTerm : ∀ fact ∈ facts, fact.isTerm = true)
    (expressible : ∀ fact ∈ facts, fact.isExpressible false = true) :
    Refuses (fun _ => False) (factSection facts) := by
  refine Refuses.map (Refuses.mapM _ ?_)
  rintro ⟨fact, index⟩ member
  have inside : fact ∈ facts := List.fst_mem_of_mem_zipIdx member
  have given := isTerm fact inside
  cases fact with
  | term p args =>
    exact ((atom_returns (.of_isExpressible false (expressible _ inside))).bind fun _ => .ok _).map
  | _ => simp [Sentence.isTerm] at given

/-- A program exists for every theory that can stand in a document. -/
theorem compile_returns (choices : Choices) (t : Theory)
    (expressible : ∀ g ∈ t.groups, ∀ s ∈ g.sentences, s.isExpressible false = true)
    (isTerm : ∀ fact ∈ t.facts, fact.isTerm = true)
    (facts : ∀ fact ∈ t.facts, fact.isExpressible false = true) :
    Refuses (fun _ => False) (compile choices t) := by
  have grouped := Refuses.mapM t.groups fun g member =>
    groupSection_returns t.registry g (expressible g member)
  exact (grouped.bind fun _ => (factSection_returns t.facts isTerm facts).map).bind fun _ => .ok _

/-! ### Everything is accounted for -/

/-- The text of the sentence that a clause of a group comes from. -/
def sourceText (g : SentenceGroup) (c : Clause) : Text := (g.sentences[c.source]?.getD .missing).text

/-- Every clause is written or refused, with the place and the text of its sentence. -/
theorem writeClauses_each (g : SentenceGroup) (cs : List Clause) (entries : List Entry)
    (reports : List Diagnostic) (returned : writeClauses g cs = .ok (entries, reports)) (c : Clause)
    (member : c ∈ cs) :
    (∃ text, clause c = .ok text ∧ ⟨c, text, g.name, c.source, sourceText g c⟩ ∈ entries) ∨
      ∃ e, clause c = .error (.refused e) ∧
        .ofError e g.name c.source (sourceText g c) ∈ reports := by
  induction cs generalizing entries reports with
  | nil => simp at member
  | cons first cs ih =>
    rw [writeClauses] at returned
    split at returned
    next text written =>
      simp only [bind_ok_iff, pure_ok_iff, Prod.mk.injEq] at returned
      obtain ⟨⟨rest, others⟩, remaining, rfl, rfl⟩ := returned
      rcases List.mem_cons.mp member with rfl | later
      · exact .inl ⟨text, written, List.mem_cons_self⟩
      · rcases ih rest others remaining later with ⟨text, found, inside⟩ | refused
        · exact .inl ⟨text, found, List.mem_cons_of_mem _ inside⟩
        · exact .inr refused
    next e refused =>
      simp only [bind_ok_iff, pure_ok_iff, Prod.mk.injEq] at returned
      obtain ⟨⟨rest, others⟩, remaining, rfl, rfl⟩ := returned
      rcases List.mem_cons.mp member with rfl | later
      · exact .inr ⟨e, refused, List.mem_cons_self⟩
      · rcases ih rest others remaining later with written | ⟨e, found, inside⟩
        · exact .inl written
        · exact .inr ⟨e, found, List.mem_cons_of_mem _ inside⟩
    next => cases returned

/-- Whether an entry is that of a line for a sentence. -/
structure Entry.Writes (e : Entry) (line group : Text) (index : Nat) (s : Sentence) : Prop where
  text : e.text = line
  group : e.group = group
  index : e.index = index
  source : e.source = s.text

/-- The section of a group has an entry for every line of a sentence, unless the sentence is
reported. -/
theorem groupSection_accounts (r : Registry) (g : SentenceGroup) (part : Section)
    (reports : List Diagnostic) (returned : groupSection r g = .ok (part, reports)) (i : Nat)
    (s : Sentence) (found : g.sentences[i]? = some s) :
    (dialect.lines? clause r s = none ∧ ∃ report ∈ reports, report.Concerns g.name i s) ∨
      ∃ lines, dialect.lines? clause r s = some lines ∧
        ∀ line ∈ lines, ∃ e ∈ part.entries, e.Writes line g.name i s := by
  simp only [groupSection, bind_ok_iff, pure_ok_iff, Prod.mk.injEq] at returned
  obtain ⟨n, normalized, ⟨entries, refused⟩, written, rfl, rfl⟩ := returned
  obtain rfl := dialect.normalizeGroup_of_tryNormalizeGroup (some r) g n normalized
  obtain ⟨clauses, diagnostics⟩ := dialect.normalizeFrom_locate (some r) g.name 0 g.sentences i s found
  rw [Nat.zero_add] at clauses diagnostics
  -- A clause knows the place of its sentence, and the text is looked up there.
  have source (c : Clause) : sourceText g { c with source := i } = s.text := by
    simp [sourceText, found]
  have outcome (c : Clause) (member : c ∈ (dialect.normalize (some r) s).clauses) :=
    writeClauses_each g _ entries refused written _ (clauses (List.mem_map_of_mem member))
  simp only [source] at outcome
  by_cases silent : (dialect.normalize (some r) s).diagnostics = []
  · by_cases all : ∃ c ∈ (dialect.normalize (some r) s).clauses, ∃ fault, clause c = .error fault
    · -- A clause that cannot be written is refused, and the refusal is reported.
      obtain ⟨c, member, fault, failed⟩ := all
      refine .inl ⟨Dialect.lines?_refused member failed, ?_⟩
      rcases outcome c member with ⟨text, ok, -⟩ | ⟨e, -, reported⟩
      · cases failed.symm.trans ok
      · exact ⟨_, List.mem_append_right _ reported, rfl, rfl, rfl⟩
    · have each (c : Clause) (member : c ∈ (dialect.normalize (some r) s).clauses) :
          Refuses (fun _ => False) (clause c) := fun fault failed => all ⟨c, member, fault, failed⟩
      obtain ⟨lines, listed⟩ := (Refuses.mapM _ each).returns
      refine .inr ⟨lines, Dialect.lines?_silent silent listed, fun line inLines => ?_⟩
      obtain ⟨c, member, ok⟩ := exists_of_mem_mapM listed inLines
      rcases outcome c member with ⟨text, same, inside⟩ | ⟨e, failed, -⟩
      · obtain rfl := Except.ok.inj (ok.symm.trans same)
        exact ⟨_, inside, rfl, rfl, rfl, rfl⟩
      · cases failed.symm.trans ok
  · obtain ⟨report, member, concerns⟩ := dialect.locate_concerns (some r) s g.name i silent
    exact .inl ⟨Dialect.lines?_reported silent, report,
      List.mem_append_left _ (diagnostics member), concerns⟩

/-- The text of every entry that is kept is found in the program. -/
theorem text_infix_program (choices : Choices) (r : Registry) (sections : List Section) (e : Entry)
    (member : e ∈ sections.flatMap Section.entries) :
    e.text <:+: programText choices r sections := by
  obtain ⟨part, inSections, inside⟩ := List.mem_flatMap.mp member
  have nonempty : part.entries.isEmpty = false := by
    simpa using List.ne_nil_of_mem inside
  have ofLine : e.text <:+: part.entries.flatMap fun e => e.text ++ "\n" :=
    (List.prefix_append _ _).isInfix.trans
      (List.infix_of_mem_flatten (List.mem_map_of_mem inside))
  have ofSection : e.text <:+: sectionText part := by
    simp only [sectionText, nonempty, Bool.false_eq_true, if_false]
    exact List.infix_append_of_infix_right ofLine
  have ofSections : e.text <:+: sections.flatMap sectionText :=
    ofSection.trans (List.infix_of_mem_flatten (List.mem_map_of_mem inSections))
  -- The sections stand between the declarations and the directives.
  apply List.infix_append_of_infix_left
  exact List.infix_append_of_infix_right ofSections

/-- A fact has an entry with its atom, and an entry without a body. -/
theorem factSection_writes (facts : List Sentence) (part : Section)
    (returned : factSection facts = .ok part) (fact : Sentence) (member : fact ∈ facts) :
    ∃ atom, literal fact = .ok atom ∧
      ∃ e ∈ part.entries, e.text = atom ++ "." ∧ e.clause.body = [] := by
  simp only [factSection, bind_ok_iff, pure_ok_iff] at returned
  obtain ⟨entries, listed, rfl⟩ := returned
  obtain ⟨i, found⟩ := List.mem_iff_getElem?.mp member
  have numbered : (fact, i) ∈ facts.zipIdx := List.mk_mem_zipIdx_iff_getElem?.mpr found
  obtain ⟨e, inEntries, entered⟩ := ok_of_mem_mapM listed numbered
  simp only [factEntry, clause, bind_ok_iff, pure_ok_iff, List.mapM_nil] at entered
  obtain ⟨_, ⟨atom, written, _, rfl, rfl⟩, rfl⟩ := entered
  refine ⟨atom, written, _, inEntries, ?_, rfl⟩
  simp [Clause.neck, Text.join]

/-- Facts stand in the program. They depend on nothing, so that none of them is dropped. -/
theorem compile_writes_facts (choices : Choices) (t : Theory) (out : Compiled)
    (returned : compile choices t = .ok out) (fact : Sentence) (member : fact ∈ t.facts) :
    ∃ atom, literal fact = .ok atom ∧ (atom ++ "." : Text) <:+: out.text := by
  simp only [compile, collect, bind_ok_iff, pure_ok_iff] at returned
  obtain ⟨_, ⟨groups, -, facts, collected, rfl⟩, rfl⟩ := returned
  obtain ⟨atom, written, e, inFacts, text, bodiless⟩ :=
    factSection_writes t.facts facts collected fact member
  refine ⟨atom, written, ?_⟩
  rw [← text]
  apply text_infix_program
  rw [entries_dropUnstratified, List.mem_filter]
  constructor
  · exact List.mem_flatMap.mpr ⟨facts, by simp, inFacts⟩
  · unfold Clause.isUnstratified
    split <;> simp [bodiless]

/-- Every sentence is stated by all its rules, or reported: as one that cannot be written, or as
unstratified. -/
theorem compile_accounts (choices : Choices) (t : Theory) (out : Compiled)
    (returned : compile choices t = .ok out) (g : SentenceGroup) (member : g ∈ t.groups) :
    AccountsFrom out.text out.diagnostics (dialect.lines? clause t.registry) g.name 0 g.sentences := by
  simp only [compile, collect, bind_ok_iff, pure_ok_iff] at returned
  obtain ⟨_, ⟨groups, grouped, facts, -, rfl⟩, rfl⟩ := returned
  -- Dropping rules sorts the entries into those that are kept and those that are reported.
  obtain ⟨dropped, reported, keeps⟩ := dropUnstratified_keeps (groups.map Prod.fst ++ [facts])
  obtain ⟨⟨part, reports⟩, inGroups, sectioned⟩ := ok_of_mem_mapM grouped member
  intro i s found
  rw [Nat.zero_add]
  rcases groupSection_accounts t.registry g part reports sectioned i s found with
    ⟨untranslated, report, inReports, concerns⟩ | ⟨lines, translated, entries⟩
  · rw [untranslated]
    refine .reported ?_ concerns
    have inside : report ∈ groups.flatMap Prod.snd :=
      List.mem_flatMap.mpr ⟨_, inGroups, inReports⟩
    exact List.mem_append_left _ (List.mem_append_right _ inside)
  · rw [translated]
    by_cases all : ∀ line ∈ lines, ∃ e ∈ (dropUnstratified
        (groups.map Prod.fst ++ [facts])).1.flatMap Section.entries, e.text = line
    · refine .written fun line inLines => ?_
      obtain ⟨e, kept, rfl⟩ := all line inLines
      exact text_infix_program choices t.registry _ e kept
    · -- An entry that is not kept was dropped, and there is a report on it.
      push Not at all
      obtain ⟨line, inLines, lost⟩ := all
      obtain ⟨e, inEntries, writes⟩ := entries line inLines
      have collected : e ∈ (groups.map Prod.fst ++ [facts]).flatMap Section.entries := by
        refine List.mem_flatMap.mpr ⟨part, List.mem_append_left _ ?_, inEntries⟩
        exact List.mem_map.mpr ⟨_, inGroups, rfl⟩
      rcases List.mem_append.mp (keeps.complete.mem_iff.mp collected) with kept | gone
      · exact absurd writes.text (lost e kept)
      · refine .dropped (List.mem_append_right _ (reported ▸ List.mem_map_of_mem gone)) rfl ?_
        exact ⟨writes.group, writes.index, writes.source⟩

end Souffle

end Clausal
