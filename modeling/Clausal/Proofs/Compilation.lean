import Clausal.Proofs.LogicProgram
import Clausal.Proofs.ProverProblems
import Clausal.Proofs.ReadFaults
import Clausal.Proofs.SouffleAccounting
import Clausal.Proofs.TheoryRoundTrip
import Clausal.Target.Compile
import Clausal.Theory.Parents

/-!
# Every input is read and compiled or refused

Whatever the bytes of a document are, it is either refused as malformed or read as a theory that
every format can write, with or without the sentences that follow from the parents of predicates. The
text accounts for every sentence and every fact of the theory.

## Main results

`Format.compile_covers`: a theory that a document can hold is compiled into any format, and the
outcome accounts for all its sentences and facts.

`Theory.parse_compiles`: this is so for every theory that is read, and what is not read is refused as
malformed input.
-/

namespace Clausal

/-! ### Documents -/

theorem Sentence.infix_document {t : Theory} {g : SentenceGroup} {s : Sentence}
    (inTheory : g ∈ t.groups) (inGroup : s ∈ g.sentences) : s.document <:+: t.document := by
  have ofGroup : s.document <:+: g.document "    " := by
    apply List.infix_append_of_infix_left
    apply List.infix_append_of_infix_right
    refine List.IsInfix.trans ?_ (List.infix_of_mem_flatten (List.mem_map_of_mem inGroup))
    exact List.infix_append_of_infix_right (List.infix_refl _)
  have ofGroups : s.document <:+: t.groups.flatMap fun g => ascii '\n' :: g.document "    " := by
    refine List.IsInfix.trans ?_ (List.infix_of_mem_flatten (List.mem_map_of_mem inTheory))
    exact List.infix_cons ofGroup
  -- The facts and the notes stand after the groups.
  unfold Theory.document
  apply List.infix_append_of_infix_left
  apply List.infix_append_of_infix_left
  apply List.infix_append_of_infix_left
  apply List.infix_append_of_infix_left
  apply List.infix_append_of_infix_left
  exact List.infix_append_of_infix_right ofGroups

theorem Sentence.fact_infix_document {t : Theory} {fact : Sentence} (member : fact ∈ t.facts) :
    fact.document <:+: t.document := by
  have ofFacts : fact.document <:+: t.facts.flatMap (Sentence.lineDocument []) := by
    refine List.IsInfix.trans ?_ (List.infix_of_mem_flatten (List.mem_map_of_mem member))
    exact List.infix_append_of_infix_right (List.infix_refl _)
  -- Only the notes stand after the facts.
  unfold Theory.document
  apply List.infix_append_of_infix_left
  apply List.infix_append_of_infix_left
  apply List.infix_append_of_infix_left
  exact List.infix_append_of_infix_right ofFacts

/-! ### All formats -/

def LogicProgram.format : LogicProgram → Format
  | .prolog => .prolog
  | .problog => .problog

def Prover.format : Prover → Format
  | .tptp => .tptp
  | .prover9 => .prover9

namespace Format

/-- What a format says of a sentence, if it can express it. -/
def translation? (format : Format) (r : Registry) (s : Sentence) : Option (List Text) :=
  match format with
  | .prolog => LogicProgram.prolog.translation? r s
  | .problog => LogicProgram.problog.translation? r s
  | .souffle => Souffle.dialect.lines? Souffle.clause r s
  | .tptp => (Prover.tptp.formula? r s).map fun formula => [formula]
  | .prover9 => (Prover.prover9.formula? r s).map fun formula => [formula]
  | .sexpr => some [s.document]
  | .record => none

/-- What a format says of a fact. Programs state facts as they are, without a look at the
declarations. -/
def factLine? (format : Format) (r : Registry) (fact : Sentence) : Option Text :=
  match format with
  | .prolog | .problog => (Prolog.literal fact).toOption.map fun literal => literal ++ ".\n"
  | .souffle => (Souffle.literal fact).toOption.map fun atom => atom ++ "."
  | .tptp => Prover.tptp.formula? r fact
  | .prover9 => Prover.prover9.formula? r fact
  | .sexpr => some fact.document
  | .record => none

def isProver : Format → Bool
  | .tptp | .prover9 => true
  | _ => false

/-- Whether the outcome of a compilation accounts for all sentences and facts of a theory, where
provers refuse what has no first-order reading and no other format refuses a fact. -/
structure Covers (format : Format) (t : Theory) (out : Compiled) : Prop where
  groups : ∀ g ∈ t.groups, AccountsFrom out.text out.diagnostics (format.translation? t.registry)
    g.name 0 g.sentences
  facts : ∀ i fact, t.facts[i]? = some fact →
    States out.text out.diagnostics "Facts" i fact (format.factLine? t.registry fact)
  refused : format.isProver = true → ∀ g ∈ t.groups, ∀ s ∈ g.sentences,
    (format.translation? t.registry s = none ↔ s.Unreadable t.registry)
  refusedFacts : ∀ fact ∈ t.facts,
    (format.factLine? t.registry fact = none ↔ format.isProver = true ∧ fact.Unreadable t.registry)

/-- Where every fact is written no fact is refused. -/
theorem Covers.of_written {format : Format} {t : Theory} {out : Compiled}
    (program : format.isProver = false)
    (groups : ∀ g ∈ t.groups, AccountsFrom out.text out.diagnostics (format.translation? t.registry)
      g.name 0 g.sentences)
    (facts : ∀ fact ∈ t.facts, ∃ line, format.factLine? t.registry fact = some line ∧
      line <:+: out.text) : format.Covers t out where
  groups := groups
  facts i fact found := by
    obtain ⟨line, written, inside⟩ := facts fact (List.mem_of_getElem? found)
    rw [written]
    exact .written inside
  refused prover := by simp [program] at prover
  refusedFacts fact member := by
    obtain ⟨line, written, -⟩ := facts fact member
    simp [written, program]

end Format

/-- A document states every sentence and every fact, and needs no report. -/
theorem Theory.document_covers (t : Theory) : Format.sexpr.Covers t ⟨t.document ++ "\n", []⟩ := by
  refine .of_written rfl (fun g inTheory i s found => ?_) fun fact member => ?_
  · refine .written (List.forall_mem_singleton.mpr (List.infix_append_of_infix_left ?_))
    exact Sentence.infix_document inTheory (List.mem_of_getElem? found)
  · exact ⟨_, rfl, List.infix_append_of_infix_left (Sentence.fact_infix_document member)⟩

section

variable (choices : Choices) {t : Theory} (writable : t.Writable)

include writable

/-- A logic program exists for every theory that was read, and accounts for all of it. -/
theorem LogicProgram.compile_covers (program : LogicProgram) :
    ∃ out, program.compile choices t = .ok out ∧ program.format.Covers t out := by
  obtain ⟨out, returned⟩ := (program.compile_returns choices t writable.groups fun fact member =>
    Sentence.writable_of_isTerm (writable.facts fact member).isTerm
      (writable.facts fact member).isExpressible).returns
  have groups := program.compile_accounts choices t out returned
  have facts := program.compile_writes_facts choices t out returned
  have lines (fact : Sentence) (member : fact ∈ t.facts) : ∃ line,
      ((Prolog.literal fact).toOption.map fun literal => (literal ++ ".\n" : Text)) = some line ∧
        line <:+: out.text := by
    obtain ⟨literal, written, inside⟩ := facts fact member
    exact ⟨_, by rw [written]; rfl, inside⟩
  refine ⟨out, returned, ?_⟩
  cases program with
  | prolog => exact .of_written rfl groups lines
  | problog => exact .of_written rfl groups lines

/-- A Datalog program accounts for all of a theory, too, though rules may be dropped from it. -/
theorem Souffle.compile_covers :
    ∃ out, compile choices t = .ok out ∧ Format.souffle.Covers t out := by
  obtain ⟨out, returned⟩ := (compile_returns choices t writable.groups
    (fun fact member => (writable.facts fact member).isTerm)
    fun fact member => (writable.facts fact member).isExpressible).returns
  refine ⟨out, returned, .of_written rfl (compile_accounts choices t out returned) ?_⟩
  intro fact member
  obtain ⟨atom, written, inside⟩ := compile_writes_facts choices t out returned fact member
  exact ⟨_, by rw [Format.factLine?, written]; rfl, inside⟩

/-- A problem states all sentences and facts, and refuses those without a reading. -/
theorem Prover.compile_covers (prover : Prover) : prover.format.Covers t (prover.compile t) := by
  have states := prover.compile_states t fun fact member => (writable.facts fact member).isGround
  have refused (g : SentenceGroup) (inTheory : g ∈ t.groups) (s : Sentence)
      (inGroup : s ∈ g.sentences) :
      (prover.formula? t.registry s).map (fun formula => [formula]) = none ↔
        s.Unreadable t.registry := by
    rw [Option.map_eq_none_iff,
      prover.formula?_eq_none_iff t.registry s (writable.groups g inTheory s inGroup)]
  have groups (g : SentenceGroup) (inTheory : g ∈ t.groups) :
      AccountsFrom (prover.compile t).text (prover.compile t).diagnostics
        (fun s => (prover.formula? t.registry s).map fun formula => [formula]) g.name 0
        g.sentences := by
    intro i s found
    have member : ⟨g.name, i, g.kind = .goal, s⟩ ∈ t.statements :=
      List.mem_append_left _ (List.mem_flatMap.mpr ⟨g, inTheory, mem_statementsFrom found⟩)
    rw [Nat.zero_add]
    exact (states _ member).accounts
  have facts (i : Nat) (fact : Sentence) (found : t.facts[i]? = some fact) :
      States (prover.compile t).text (prover.compile t).diagnostics "Facts" i fact
        (prover.formula? t.registry fact) :=
    states ⟨"Facts", i, false, fact⟩ (List.mem_append_right _ (mem_statementsFrom found))
  have refusedFacts (fact : Sentence) (member : fact ∈ t.facts) :
      prover.formula? t.registry fact = none ↔ true = true ∧ fact.Unreadable t.registry := by
    rw [prover.formula?_eq_none_iff t.registry fact (writable.facts fact member).isExpressible,
      and_iff_right rfl]
  cases prover with
  | tptp => exact ⟨groups, facts, fun _ => refused, refusedFacts⟩
  | prover9 => exact ⟨groups, facts, fun _ => refused, refusedFacts⟩

/-- A theory that a document can hold is compiled into every format that has a writer, and all its
sentences and facts are accounted for. -/
theorem Format.compile_covers (format : Format) (written : format ≠ .record) :
    ∃ out, format.compile choices t = .ok out ∧ format.Covers t out := by
  cases format with
  | prolog => exact LogicProgram.compile_covers choices writable .prolog
  | problog => exact LogicProgram.compile_covers choices writable .problog
  | souffle => exact Souffle.compile_covers choices writable
  | tptp => exact ⟨_, rfl, Prover.compile_covers writable .tptp⟩
  | prover9 => exact ⟨_, rfl, Prover.compile_covers writable .prover9⟩
  | sexpr => exact ⟨_, rfl, t.document_covers⟩
  | record => exact absurd rfl written

end

/-! ### What follows from parents -/

namespace Theory

/-- Parents are applied to variables, which can stand in every document. -/
theorem parentArguments_expressible (child : Predicate) (parent : Option Predicate)
    (args : List Sentence) (found : child.parentArguments? parent = some args) :
    Sentence.allExpressible true args = true := by
  have vars (p : Predicate) : Sentence.allExpressible true p.vars = true := by
    rw [Sentence.allExpressible_iff]
    exact List.forall_mem_map.mpr fun _ _ => rfl
  -- All ways to choose the arguments end with variables, of the child or of the parent.
  unfold Predicate.parentArguments? at found
  split at found
  · exact Option.some.inj found ▸ vars child
  · split at found
    · exact Option.some.inj found ▸ vars _
    · split at found
      · exact Option.some.inj found ▸ vars child
      · cases found

theorem parentSentence_expressible (child : Predicate) (parent : Text) (args : List Sentence)
    (expressible : Sentence.allExpressible true args = true) :
    (child.parentSentence parent args).isExpressible false = true := by
  have vars := parentArguments_expressible child none child.vars rfl
  simp [Predicate.parentSentence, Sentence.isExpressible, vars, expressible]

/-- Sentences that are inferred from parents can stand in a document like those that are read. -/
theorem parentSentences_expressible (r : Registry) (pairs : List (Predicate × Text))
    (found : List Sentence) (given : ∀ s ∈ found, s.isExpressible false = true) :
    ∀ s ∈ (parentSentences r pairs found).1, s.isExpressible false = true := by
  induction pairs generalizing found with
  | nil => exact given
  | cons pair pairs ih =>
    obtain ⟨child, parent⟩ := pair
    rw [parentSentences]
    split
    next args matched =>
      refine ih _ (List.forall_mem_append.mpr ⟨given, List.forall_mem_singleton.mpr ?_⟩)
      exact parentSentence_expressible child parent args
        (parentArguments_expressible child _ args matched)
    next => exact ih found given

/-- The sentences that follow from parents can be written like those that were read. -/
theorem Writable.withParents {t : Theory} (writable : t.Writable) :
    (t.addGroup t.parentGroup.1).Writable :=
  writable.addGroup _ (parentSentences_expressible t.registry _ [] (by simp))

/-- No input stops the compiler. Every text is refused as malformed input, or else it is read as a
theory that is compiled into each format with a writer, whatever the choices are, and with or without
the sentences that follow from parents. The outcome accounts for every sentence and every fact: it
contains what the format says of it, or else there is a report on it. -/
theorem parse_compiles (input : Text) :
    (∃ e, Theory.parse input = .error e ∧ e.kind = .parseError) ∨
      ∃ t, Theory.parse input = .ok t ∧ ∀ u, u = t ∨ u = t.addGroup t.parentGroup.1 →
        ∀ format : Format, format ≠ .record → ∀ choices,
          ∃ out, format.compile choices u = .ok out ∧ format.Covers u out := by
  cases parsed : Theory.parse input with
  | error e => exact .inl ⟨e, rfl, Theory.parse_refuses input e parsed⟩
  | ok t =>
    -- What was read can be written in every format, and the added group changes nothing in that.
    have writable := (parse_checked input t parsed).1
    refine .inr ⟨t, rfl, ?_⟩
    rintro u (rfl | rfl) format written choices
    · exact format.compile_covers choices writable written
    · exact format.compile_covers choices writable.withParents written

private def observed : Sentence := .evidence true (.term "windy" [])

private def drops : Binary64 := .ofInt 10000000000000000000

private def rain : Sentence := .term "drops" [.const (.float drops)]

/-- An observation, which has no reading in Prolog, and a fact about a number that is too large for a
prover. -/
private def weather : Theory :=
  { empty "weather" with
    groups := [⟨"today", .plain, [], [.term "dry" [], observed]⟩]
    facts := [rain] }

private theorem weather_writable : weather.Writable where
  declared := Registry.declared_empty
  groups := by decide +kernel
  facts := List.forall_mem_singleton.mpr ⟨rfl, rfl, by decide +kernel⟩
  sorted := (writable_empty "weather").sorted

private theorem weather_checked : weather.Checked :=
  List.forall_mem_singleton.mpr rfl

private theorem rain_unreadable : rain.Unreadable weather.registry :=
  .float drops ((Sentence.within_self _).of_child (by simp [rain, Sentence.children]))
    (by decide +kernel)

theorem parse_compiles_weather :
    Theory.parse weather.document = .ok weather ∧
      (∃ out, Format.prolog.compile .full weather = .ok out ∧
        (∃ report ∈ out.diagnostics, report.Concerns "today" 1 observed) ∧
        Text.ofString "drops(1e+19).\n" <:+: out.text) ∧
      ∃ out, Format.tptp.compile .full weather = .ok out ∧
        ∃ report ∈ out.diagnostics, report.Concerns "Facts" 0 rain := by
  have read := weather.parse_document weather_writable weather_checked
  refine ⟨read, ?_⟩
  rcases parse_compiles weather.document with ⟨e, failed, -⟩ | ⟨t, parsed, compiled⟩
  · cases read.symm.trans failed
  obtain rfl := Except.ok.inj (read.symm.trans parsed)
  constructor
  · obtain ⟨out, returned, covers⟩ := compiled _ (.inl rfl) .prolog (by decide) .full
    refine ⟨out, returned, covers.groups _ (List.mem_singleton_self _) 1 observed rfl, ?_⟩
    have written : Format.prolog.factLine? weather.registry rain = some "drops(1e+19).\n" := by
      decide +kernel
    have states := covers.facts 0 rain rfl
    rw [written] at states
    cases states with
    | written inside => exact inside
  · obtain ⟨out, returned, covers⟩ := compiled _ (.inl rfl) .tptp (by decide) .full
    have refused := (covers.refusedFacts rain (List.mem_singleton_self _)).mpr ⟨rfl, rain_unreadable⟩
    exact ⟨out, returned, (covers.facts 0 rain rfl).exists_report refused⟩

end Theory

end Clausal
