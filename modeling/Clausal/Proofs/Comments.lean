import Clausal.Proofs.Occurrence
import Clausal.Proofs.ProgramLines

/-!
# Comments and the program

The name and the docstring of a group and the description of a predicate are written as comments.
They decide nothing else, so that two theories that differ only in these have the same program as
long as the comments stay comments. A docstring always does, line by line. A name or a description
with several lines leaves its comment where a later line is neither blank nor a comment by itself.
-/

namespace Clausal

open Text (programLines newline isProgramLine Closed Confined Adds)

/-! ### Declarations without descriptions -/

/-- The description of a predicate as it is appended to a comment. -/
def Predicate.remark (p : Predicate) : Text :=
  if p.description.isEmpty then [] else "  " ++ p.description

def Predicate.uncommented (p : Predicate) : Predicate := { p with description := [] }

namespace Registry

/-- The same declarations without descriptions. -/
def uncommented (r : Registry) : Registry :=
  { r with predicates := r.predicates.map Predicate.uncommented }

/-- Descriptions are not looked at when a predicate is looked up. -/
theorem predicate?_uncommented (r : Registry) (name : Text) :
    r.uncommented.predicate? name = (r.predicate? name).map Predicate.uncommented := by
  rw [predicate?, uncommented, List.find?_map]
  rfl

theorem checkTerm_uncommented (r : Registry) (p : Text) (args : List Sentence) :
    r.uncommented.checkTerm p args = r.checkTerm p args := by
  rw [checkTerm, checkTerm, predicate?_uncommented]
  cases r.predicate? p with
  | none => rfl
  | some declared => rfl

theorem checkArity_uncommented (r : Registry) (s : Sentence) :
    r.uncommented.checkArity s = r.checkArity s := by
  have all (ss : List Sentence) (each : ∀ s ∈ ss, r.uncommented.checkArity s = r.checkArity s) :
      r.uncommented.checkArities ss = r.checkArities ss := by
    induction ss with
    | nil => rfl
    | cons s ss ih =>
      rw [List.forall_mem_cons] at each
      rw [checkArities, checkArities, each.1, ih each.2]
  induction s with
  | term p args ih => rw [checkArity, checkArity, checkTerm_uncommented, all args ih]
  | conj ss ih | disj ss ih =>
    rw [checkArity, checkArity]
    exact all ss ih
  | implies a b left right | iff a b left right => rw [checkArity, checkArity, left, right]
  | neg s ih | forAll vars s ih | forSome vars s ih | weighted w s ih | evidence holds s ih =>
    rw [checkArity, checkArity, ih]
  | var | const | missing => rfl

theorem checkArity?_uncommented (r : Registry) :
    checkArity? (some r.uncommented) = checkArity? (some r) :=
  funext r.checkArity_uncommented

end Registry

namespace Dialect

variable (d : Dialect) (r : Registry)

theorem checkClauses_uncommented (sentence : Text) (cs : List Clause) :
    checkClauses (some r.uncommented) sentence cs = checkClauses (some r) sentence cs := by
  have same (c : Clause) : c.check (some r.uncommented) = c.check (some r) := by
    rw [Clause.check, Clause.check, r.checkArity?_uncommented]
  induction cs with
  | nil => rfl
  | cons c cs ih => rw [checkClauses, checkClauses, same, ih]

/-- Without descriptions, a sentence has the same clauses and reports. -/
theorem tryNormalize_uncommented (s : Sentence) :
    d.tryNormalize (some r.uncommented) s = d.tryNormalize (some r) s := by
  have same : d.normalize (some r.uncommented) s = d.normalize (some r) s := by
    rw [normalize, normalize]
    cases d.flatten s .outermost with
    | error e => rfl
    | ok rules => exact checkClauses_uncommented r _ _
  rw [tryNormalize, tryNormalize, same]

end Dialect

theorem ProbLog.evidence_uncommented (r : Registry) (s : Sentence) (holds : Bool) :
    evidence (some r.uncommented) s holds = evidence (some r) s holds := by
  rw [evidence, evidence, r.checkArity?_uncommented]

/-! ### Theories without comments -/

/-- The same sentences without a name and a docstring. -/
def SentenceGroup.uncommented (g : SentenceGroup) : SentenceGroup :=
  { g with name := [], docstring := [] }

/-- The same theory without the texts that are written as comments only. -/
def Theory.uncommented (t : Theory) : Theory :=
  { t with registry := t.registry.uncommented, groups := t.groups.map SentenceGroup.uncommented }

namespace LogicProgram

/-- Whether two parts of a program differ in reports only. -/
def Part.Agrees (x y : Part) : Prop := x.text = y.text ∧ x.used = y.used

theorem observation_uncommented (r : Registry) (group other : Text) (index : Nat)
    (s body : Sentence) (holds : Bool) :
    Alike Part.Agrees (observation r group index s body holds)
      (observation r.uncommented other index s body holds) := by
  rw [observation, observation, ProbLog.evidence_uncommented]
  cases ProbLog.evidence (some r) body holds with
  | ok text => exact .ok ⟨rfl, rfl⟩
  | error fault =>
    cases fault with
    | refused e => exact .ok ⟨rfl, rfl⟩
    | _ => exact .error _

theorem rules_uncommented (program : LogicProgram) (r : Registry) (group other : Text) (index : Nat)
    (s : Sentence) :
    Alike Part.Agrees (program.rules r group index s)
      (program.rules r.uncommented other index s) := by
  rw [rules, rules, Dialect.tryNormalize_uncommented]
  refine (Alike.refl (R := Eq) _ fun _ => rfl).bind fun n _ same => ?_
  subst same
  -- The name of the group is noted in reports, and only whether there are any matters.
  have reports : (n.locate group index).diagnostics.isEmpty =
      (n.locate other index).diagnostics.isEmpty := by
    simp [Normalized.locate]
  have clauses : (n.locate group index).clauses = (n.locate other index).clauses := rfl
  refine (Alike.refl (R := Eq) _ fun _ => rfl).bind fun lines _ same => ?_
  subst same
  rw [reports, clauses]
  exact .ok ⟨rfl, rfl⟩

theorem sentencePart_uncommented (program : LogicProgram) (r : Registry) (group other : Text)
    (index : Nat) (s : Sentence) :
    Alike Part.Agrees (program.sentencePart r group index s)
      (program.sentencePart r.uncommented other index s) := by
  unfold sentencePart
  split
  · exact observation_uncommented r group other index s _ _
  · exact rules_uncommented _ r group other index s

theorem sentenceParts_uncommented (program : LogicProgram) (r : Registry) (group other : Text)
    (index : Nat) (ss : List Sentence) :
    Alike Part.Agrees (program.sentenceParts r group index ss)
      (program.sentenceParts r.uncommented other index ss) := by
  induction ss generalizing index with
  | nil => exact .ok ⟨rfl, rfl⟩
  | cons s ss ih =>
    refine (program.sentencePart_uncommented r group other index s).bind fun x y first => ?_
    refine (ih (index + 1)).map fun z w rest => ?_
    simp only [Part.Agrees, Part.append] at first rest ⊢
    rw [first.1, first.2, rest.1, rest.2]
    exact ⟨rfl, rfl⟩

/-! ### Lines of the program -/

/-- How a part of a program compares with the same part without comments: both end their lines,
refer to the same predicates, and the first has no line too many exactly if something holds. -/
structure Part.Surrounds (x y : Part) (harmless : Prop) : Prop where
  closed : Closed x.text
  closed_uncommented : Closed y.text
  used : x.used = y.used
  lines : Adds (programLines x.text) (programLines y.text) harmless

/-- Only the name of a group can leave the comments above its sentences. -/
theorem heading_lines (name docstring text : Text) :
    programLines ("%% " ++ name ++ "\n" ++ commentLines docstring ++ "\n" ++ text) =
      programLines ("%% " ++ name) ++ programLines text := by
  rw [Text.programLines_newline, Text.programLines_newline, (commentLines_programLines docstring).2,
    List.append_nil]

/-- The part of a group has the same lines as without comments, and more exactly if its name leaves
the comment. -/
theorem groupPart_uncommented (program : LogicProgram) (r : Registry) (g : SentenceGroup) :
    Alike (fun x y => x.used = y.used ∧
        Adds (programLines x.text) (programLines y.text) g.name.Confined)
      (program.groupPart r g) (program.groupPart r.uncommented g.uncommented) := by
  refine (program.sentenceParts_uncommented r g.name [] 0 g.sentences).map fun x y agree => ?_
  obtain ⟨text, used⟩ := agree
  have named : Adds (programLines ("%% " ++ g.name)) [] g.name.Confined :=
    .of_nil _ (Text.programLines_comment_eq_nil "%% " g.name (by decide) (by decide))
  refine ⟨used, ?_⟩
  rw [heading_lines, heading_lines, text]
  exact (named.append (.refl _)).congr (by simp)

/-- Part by part, the groups have more lines exactly if one of the names leaves its comment. -/
theorem groupParts_uncommented (program : LogicProgram) (r : Registry) (gs : List SentenceGroup) :
    Alike (fun x y => Part.Surrounds x y (∀ g ∈ gs, g.name.Confined)) (program.groupParts r gs)
      (program.groupParts r.uncommented (gs.map SentenceGroup.uncommented)) := by
  induction gs with
  | nil => exact .ok ⟨Text.closed_nil, Text.closed_nil, rfl, (Adds.refl []).congr (by simp)⟩
  | cons g gs ih =>
    refine (program.groupPart_uncommented r g).bind fun x y first => ?_
    refine ih.map fun z w rest => ?_
    obtain ⟨used, lines⟩ := first
    refine ⟨(Text.closed_newline _).append rest.closed,
      (Text.closed_newline _).append rest.closed_uncommented, ?_, ?_⟩
    · simp only [Part.append, used, rest.used]
    · simp only [Part.append, Text.programLines_newline]
      exact (lines.append rest.lines).congr (by rw [List.forall_mem_cons])

/-- A declared predicate with its arguments, as a comment starts with it. -/
def signature (p : Predicate) : Text :=
  let argument (a : TypedName) : Text := a.name ++ ": " ++ a.type
  "% " ++ p.name ++ "(" ++ Text.join ", " (p.arguments.map argument) ++ ")"

theorem signatureLine_eq (p : Predicate) :
    signatureLine p = signature p ++ p.remark ++ "\n" := rfl

/-- Whether the description of a predicate stays inside its comment, which must not have ended
before: the name of the predicate and its arguments come first. -/
def Confines (p : Predicate) : Prop :=
  p.description ≠ [] → isProgramLine (signature p).lastLine = false ∧ p.description.Confined

/-- A line with a signature ends itself, and adds to the program exactly what leaves its comment. -/
theorem signatureLine_lines (p : Predicate) :
    Closed (signatureLine p) ∧ Adds (programLines (signatureLine p))
      (programLines (signatureLine p.uncommented)) (Confines p) := by
  have visible : (signature p).lastLine.all Byte.isSpace = false := by
    rw [signature, Text.lastLine_append _ _ (by decide), List.all_append]
    simp only [Bool.and_eq_false_iff]
    exact .inr (by decide)
  refine ⟨Text.closed_newline _, ?_⟩
  have plain : signature p.uncommented ++ p.uncommented.remark = signature p := List.append_nil _
  rw [signatureLine_eq, signatureLine_eq, Text.programLines_line, Text.programLines_line, plain]
  by_cases none : p.description = []
  · have nothing : p.remark = [] := by simp [Predicate.remark, none]
    rw [nothing, List.append_nil]
    exact (Adds.refl _).congr (by simp [Confines, none])
  · have remark : p.remark = "  " ++ p.description := by simp [Predicate.remark, none]
    rw [remark]
    refine (Text.adds_continued _ _ visible ?_).congr ?_
    · rw [Text.split_before newline _ _ (by decide)]
      exact List.append_ne_nil_of_left_ne_nil (by decide) _
    · rw [Text.confined_append _ _ (by decide)]
      simp [Confines, none]

theorem signatures_lines (r : Registry) :
    Closed (signatures r) ∧ programLines (signatures r) =
      r.predicates.flatMap fun p => programLines (signatureLine p) := by
  obtain ⟨closed, lines⟩ := Closed.flatMap r.predicates fun p _ => (signatureLine_lines p).1
  have heading :
      Text.ofString "%% Predicate Definitions\n" = "%% Predicate Definitions" ++ "\n" := by decide
  unfold signatures
  split
  next absent => exact ⟨Text.closed_nil, by simp [List.isEmpty_iff.mp absent]⟩
  next =>
    refine ⟨Text.closed_newline _, ?_⟩
    rw [Text.programLines_line, heading, Text.programLines_newline, lines]
    rfl

/-- The comments on predicates add lines exactly if a description leaves its comment. -/
theorem signatures_uncommented (r : Registry) :
    Adds (programLines (signatures r)) (programLines (signatures r.uncommented))
      (∀ p ∈ r.predicates, Confines p) := by
  have lines := Adds.flatMap r.predicates fun p _ => (signatureLine_lines p).2
  rw [(signatures_lines r).2, (signatures_lines r.uncommented).2, Registry.uncommented,
    List.flatMap_map]
  exact lines

theorem queries_uncommented (program : LogicProgram) (r : Registry) (used : List Text) :
    program.queries r.uncommented used = program.queries r used := by
  simp only [queries, Registry.uncommented, List.flatMap_map]
  rfl

end LogicProgram

/-- Whether the comments of a theory stay comments: the names of the groups, and the descriptions of
the predicates if they are written. -/
structure Theory.Confined (choices : Choices) (t : Theory) : Prop where
  names : ∀ g ∈ t.groups, g.name.Confined
  descriptions : choices.comments = true → ∀ p ∈ t.registry.predicates, LogicProgram.Confines p

namespace LogicProgram

/-- The comments on the declared predicates, if they are written. -/
theorem comments_uncommented (choices : Choices) (r : Registry) :
    Adds (programLines (if choices.comments then signatures r else []))
      (programLines (if choices.comments then signatures r.uncommented else []))
      (choices.comments = true → ∀ p ∈ r.predicates, Confines p) := by
  cases written : choices.comments with
  | false => exact (Adds.refl _).congr (by simp)
  | true => exact (signatures_uncommented r).congr (by simp)

theorem closed_comments (choices : Choices) (r : Registry) :
    Closed (if choices.comments then signatures r else []) := by
  split
  · exact (signatures_lines r).1
  · exact Text.closed_nil

/-- A theory has the lines of the program that it has without its comments, and more exactly if a
comment does not stay one. -/
theorem compile_uncommented (program : LogicProgram) (choices : Choices) (t : Theory) :
    Alike (fun x y => Adds (programLines x.text) (programLines y.text) (t.Confined choices))
      (program.compile choices t) (program.compile choices t.uncommented) := by
  refine (program.groupParts_uncommented t.registry t.groups).bind fun x y groups => ?_
  refine (Alike.refl (R := Eq) (factLines t.facts) fun _ => rfl).map fun facts _ same => ?_
  subst same
  simp only [Theory.uncommented, queries_uncommented, ← groups.used]
  have comments := comments_uncommented choices t.registry
  have closed := closed_comments choices t.registry
  have plain := closed_comments choices t.registry.uncommented
  rw [List.append_assoc, List.append_assoc, closed, groups.closed, List.append_assoc,
    List.append_assoc, plain, groups.closed_uncommented]
  refine (comments.append (groups.lines.append (.refl _))).congr ?_
  constructor
  · rintro ⟨descriptions, names, -⟩
    exact ⟨names, descriptions⟩
  · exact fun confined => ⟨confined.descriptions, confined.names, trivial⟩

def lines (program : LogicProgram) (choices : Choices) (t : Theory) :
    Except TargetFault (List Text) := do
  return programLines (← program.compile choices t).text

/-- The comments make no difference exactly if they are confined, or if there is no program at
all. -/
theorem lines_uncommented (program : LogicProgram) (choices : Choices) (t : Theory) :
    program.lines choices t = program.lines choices t.uncommented ↔
      t.Confined choices ∨ ∃ fault, program.compile choices t = .error fault := by
  have compared := program.compile_uncommented choices t
  unfold lines
  generalize program.compile choices t = x at compared ⊢
  generalize program.compile choices t.uncommented = y at compared ⊢
  cases compared with
  | ok adds => simpa [bind, Except.bind, pure, Except.pure] using adds.eq_iff
  | error fault => exact iff_of_true rfl (.inr ⟨fault, rfl⟩)

/-- Theories that differ only in the names and docstrings of groups and in the descriptions of
predicates have the same program, as long as the comments stay comments; where they do not, the
program has other lines than without comments. -/
theorem compile_comments_confined (program : LogicProgram) (choices : Choices) :
    (∀ t u : Theory, t.uncommented = u.uncommented → t.Confined choices → u.Confined choices →
      program.lines choices t = program.lines choices u) ∧
    ∀ (t : Theory) (out : Compiled), program.compile choices t = .ok out →
      (program.lines choices t = program.lines choices t.uncommented ↔ t.Confined choices) := by
  constructor
  · intro t u alike confined also
    calc program.lines choices t
        = program.lines choices t.uncommented :=
          (program.lines_uncommented choices t).mpr (.inl confined)
      _ = program.lines choices u.uncommented := by rw [alike]
      _ = program.lines choices u := ((program.lines_uncommented choices u).mpr (.inl also)).symm
  · intro t out returned
    rw [program.lines_uncommented choices t, returned]
    simp

/-- One group under a name and one predicate with a description. -/
private def weather (name docstring description : Text) : Theory where
  name := "weather"
  registry := ⟨[], [⟨"wet", [⟨"x", "str"⟩], description, []⟩]⟩
  groups := [⟨name, .plain, docstring, [.term "rain" []]⟩]
  facts := []
  notes := []

private theorem weather_confined (docstring : Text) :
    (weather "rules" docstring "A road.\n% Wet.").Confined .full where
  names g member := by
    obtain rfl := List.mem_singleton.mp member
    change ("rules" : Text).Confined
    decide
  descriptions _ p member _ := by
    obtain rfl := List.mem_singleton.mp member
    exact ⟨by decide, by decide⟩

private theorem weather_not_confined (docstring description : Text) :
    ¬ (weather "rules\nwet(road)." docstring description).Confined .full := by
  intro confined
  have name : ("rules\nwet(road)." : Text).Confined := confined.names _ List.mem_cons_self
  exact absurd name (by decide)

/-- A docstring makes no difference to the program, but a name does that has a fact as its second
line. -/
theorem compile_comments_confined_weather :
    LogicProgram.prolog.lines .full (weather "rules" "Rain.\nwet(road)." "A road.\n% Wet.") =
        LogicProgram.prolog.lines .full (weather "rules" [] "A road.\n% Wet.") ∧
      LogicProgram.prolog.lines .full (weather "rules\nwet(road)." [] []) ≠
        LogicProgram.prolog.lines .full (weather "rules\nwet(road)." [] []).uncommented := by
  obtain ⟨same, exactly⟩ := compile_comments_confined .prolog .full
  constructor
  · exact same _ _ rfl (weather_confined _) (weather_confined _)
  · intro unchanged
    exact weather_not_confined [] [] ((exactly _ _ rfl).mp unchanged)

/-- The second line of a name, or of a description, becomes a fact of the program. -/
theorem compile_comment_escapes :
    (weather "rules\nwet(road)." [] []).uncommented = (weather "rules" [] []).uncommented ∧
      (weather "rules" [] "A road.\nwet(road).").uncommented = (weather "rules" [] []).uncommented ∧
      ∀ program : LogicProgram,
        program.lines ⟨false, true, true⟩ (weather "rules" [] []) = .ok ["rain."] ∧
        program.lines ⟨false, true, true⟩ (weather "rules\nwet(road)." [] []) =
          .ok ["wet(road).", "rain."] ∧
        program.lines ⟨false, true, true⟩ (weather "rules" [] "A road.\nwet(road).") =
          .ok ["wet(road).", "rain."] := by
  refine ⟨rfl, rfl, fun program => ?_⟩
  cases program with
  | prolog => exact ⟨rfl, rfl, rfl⟩
  | problog => exact ⟨rfl, rfl, rfl⟩

end LogicProgram

end Clausal
