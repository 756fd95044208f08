import Clausal.Proofs.Accounting
import Clausal.Target.LogicProgram

/-!
# Logic programs account for every sentence

Writing a clause in the notation of Prolog fails only for shapes that the clauses of a sentence never
have, so that Prolog and ProbLog programs are written for all theories whose sentences and facts a
document can hold. A sentence without clauses in the language, or an observation that is not of a
ground atom, is reported.
-/

namespace Clausal

/-! ### Notation -/

namespace Prolog

theorem arguments_eq (ss : List Sentence) : arguments ss = ss.mapM argument := by
  induction ss with
  | nil => rfl
  | cons s ss ih => rw [arguments, List.mapM_cons, ih]

theorem literals_eq (ss : List Sentence) : literals ss = ss.mapM literal := by
  induction ss with
  | nil => rfl
  | cons s ss ih => rw [literals, List.mapM_cons, ih]

/-- What is not infix is written before its arguments. -/
theorem applied_ordinary (nested : Bool) (p : Text) (args : List Text) (nonempty : args ≠ [])
    (notInfix : Operator.prologSigns.lookup p = none ∨ args.length ≠ 2) :
    applied nested p args = Text.atom p.toLower ++ "(" ++ Text.join ", " args ++ ")" := by
  fun_cases applied nested p args with
  | case1 sign a b found =>
    rcases notInfix with missing | other
    · rw [missing] at found
      cases found
    · exact absurd rfl other
  | case2 => exact absurd rfl nonempty
  | case3 => rfl

/-- Arguments that can stand in a document can be written. -/
theorem argument_returns (s : Sentence) (expressible : s.isExpressible true = true) :
    Refuses (fun _ => False) (argument s) := by
  induction s with
  | var | const =>
    rw [argument]
    exact .ok _
  | term p args ih =>
    have each := (Sentence.allExpressible_iff true args).mp expressible
    rw [argument, arguments_eq]
    exact (Refuses.mapM args fun a member => ih a member (each a member)).map
  | _ => exact absurd expressible Bool.false_ne_true

theorem literal_returns {s : Sentence} (writable : s.Writable) :
    Refuses (fun _ => False) (literal s) := by
  induction writable with
  | @term p args expressible =>
    have each := (Sentence.allExpressible_iff true args).mp expressible
    rw [literal, arguments_eq]
    exact (Refuses.mapM args fun a member => argument_returns a (each a member)).map
  | neg _ ih =>
    rw [literal]
    exact ih.map
  | @conj ss _ ih | @disj ss _ ih =>
    cases ss with
    | nil => exact .ok _
    | cons s ss =>
      rw [List.forall_mem_cons] at ih
      rw [literal, literals_eq]
      exact ih.1.bind fun _ => (Refuses.mapM ss ih.2).map

theorem clause_returns {c : Clause} (writable : c.Writable) :
    Refuses (fun _ => False) (clause c) := by
  have body := Refuses.mapM c.body fun l member => literal_returns (writable.body l member)
  rw [clause, literals_eq]
  -- Without a head the clause is written as a goal to be run.
  split
  next h found => exact (literal_returns (writable.head h found)).bind fun _ => body.map
  next => exact (Refuses.ok _).bind fun _ => body.map

end Prolog

namespace ProbLog

/-- An observation is below the negations, and can stand in a document like them. -/
theorem observed_expressible (s : Sentence) (holds : Bool)
    (expressible : s.isExpressible false = true) :
    (observed s holds).1.isExpressible false = true := by
  fun_induction observed s holds with
  | case1 s holds ih => exact ih (Sentence.isExpressible_children expressible s List.mem_cons_self)
  | case2 => exact expressible

/-- Evidence is refused for a reason that is reported, and never stops a compilation. -/
theorem evidence_refuses (r : Option Registry) (s : Sentence) (holds : Bool)
    (expressible : s.isExpressible false = true) :
    Refuses TargetFault.IsRefusal (evidence r s holds) := by
  have possible := observed_expressible s holds expressible
  unfold evidence
  dsimp only
  split
  · exact .error ⟨_, rfl⟩
  next proper =>
    have isTerm : (observed s holds).1.isTerm = true := by
      simp only [Bool.not_eq_true', Bool.not_eq_false, Bool.and_eq_true] at proper
      exact proper.1
    have written := Prolog.literal_returns (Sentence.writable_of_isTerm isTerm possible)
    -- What remains is the number of arguments, and it is checked before the atom is written.
    refine Refuses.bind ?_ fun _ => (written.mono fun _ never => never.elim).map
    cases Registry.checkArity? r (observed s holds).1 with
    | ok _ => exact .ok _
    | error e => exact .error ⟨e, rfl⟩

end ProbLog

/-! ### Programs -/

namespace LogicProgram

/-- What a program says of a sentence: its clauses, or in ProbLog the observation that it makes. -/
def translation? (program : LogicProgram) (r : Registry) (s : Sentence) : Option (List Text) :=
  match program, s.stripForAll.2 with
  | .problog, .evidence holds body =>
    (ProbLog.evidence (some r) body holds).toOption.map fun line => [line]
  | _, _ => program.dialect.lines? program.clauseLine r s

variable (program : LogicProgram) (r : Registry)

/-! #### Everything is written -/

theorem clauseLine_returns {c : Clause} (writable : c.Writable) :
    Refuses (fun _ => False) (program.clauseLine c) :=
  (Prolog.clause_returns writable).map

/-- No fault in a sentence that was read stops the program. -/
theorem rules_returns (group : Text) (index : Nat) {s : Sentence}
    (expressible : s.isExpressible false = true) :
    Refuses (fun _ => False) (program.rules r group index s) := by
  rw [rules, program.dialect.tryNormalize_eq _ expressible]
  refine Refuses.map (Refuses.mapM _ ?_)
  refine List.forall_mem_map.mpr fun c member => ?_
  -- The place of a clause changes neither its head nor its body.
  have writable := program.dialect.normalize_writable _ expressible c member
  exact program.clauseLine_returns ⟨writable.head, writable.body⟩

theorem observation_returns (group : Text) (index : Nat) (s : Sentence) {body : Sentence}
    (holds : Bool) (expressible : body.isExpressible false = true) :
    Refuses (fun _ => False) (observation r group index s body holds) := by
  unfold observation
  split
  · exact .ok _
  · exact .ok _
  -- An observation is refused with an error, never with a fault of the writer.
  next fault other failed =>
    obtain ⟨e, rfl⟩ := ProbLog.evidence_refuses _ body holds expressible fault failed
    exact absurd rfl (other e)

theorem stripForAll_expressible (s : Sentence) (expressible : s.isExpressible false = true) :
    s.stripForAll.2.isExpressible false = true := by
  induction s with
  | forAll vars s ih => exact ih (Sentence.isExpressible_children expressible s List.mem_cons_self)
  | _ => exact expressible

theorem sentencePart_returns (group : Text) (index : Nat) {s : Sentence}
    (expressible : s.isExpressible false = true) :
    Refuses (fun _ => False) (program.sentencePart r group index s) := by
  unfold sentencePart
  split
  next holds body stripped =>
    have inside := stripForAll_expressible s expressible
    rw [stripped] at inside
    exact observation_returns r group index s holds
      (Sentence.isExpressible_children inside body List.mem_cons_self)
  next => exact rules_returns _ r group index expressible

theorem sentenceParts_returns (group : Text) (index : Nat) (ss : List Sentence)
    (expressible : ∀ s ∈ ss, s.isExpressible false = true) :
    Refuses (fun _ => False) (program.sentenceParts r group index ss) := by
  induction ss generalizing index with
  | nil => exact .ok _
  | cons s ss ih =>
    rw [List.forall_mem_cons] at expressible
    rw [sentenceParts]
    exact (program.sentencePart_returns r group index expressible.1).bind fun _ =>
      (ih (index + 1) expressible.2).map

theorem groupParts_returns (gs : List SentenceGroup)
    (expressible : ∀ g ∈ gs, ∀ s ∈ g.sentences, s.isExpressible false = true) :
    Refuses (fun _ => False) (program.groupParts r gs) := by
  induction gs with
  | nil => exact .ok _
  | cons g gs ih =>
    rw [List.forall_mem_cons] at expressible
    rw [groupParts, groupPart]
    exact (program.sentenceParts_returns r g.name 0 g.sentences expressible.1).map.bind fun _ =>
      (ih expressible.2).map

theorem factLines_returns (facts : List Sentence) (writable : ∀ fact ∈ facts, fact.Writable) :
    Refuses (fun _ => False) (factLines facts) := by
  unfold factLines
  split
  · exact .ok _
  · rw [Prolog.literals_eq]
    exact (Refuses.mapM facts fun fact member => Prolog.literal_returns (writable fact member)).map

/-- A program exists for every theory whose sentences can stand in a document. -/
theorem compile_returns (choices : Choices) (t : Theory)
    (expressible : ∀ g ∈ t.groups, ∀ s ∈ g.sentences, s.isExpressible false = true)
    (facts : ∀ fact ∈ t.facts, fact.Writable) :
    Refuses (fun _ => False) (program.compile choices t) :=
  (program.groupParts_returns t.registry t.groups expressible).bind fun _ =>
    (factLines_returns t.facts facts).map

/-! #### Everything is accounted for -/

/-- A sentence is stated by the lines of all its clauses, or it is reported. -/
theorem rules_accounts (group : Text) (index : Nat) (s : Sentence) (part : Part)
    (returned : program.rules r group index s = .ok part) :
    Accounts part.text part.diagnostics (program.dialect.lines? program.clauseLine r s) group index
      s := by
  simp only [rules, bind_ok_iff, pure_ok_iff] at returned
  obtain ⟨n, normalized, lines, written, rfl⟩ := returned
  obtain rfl := program.dialect.normalize_of_tryNormalize (some r) s n normalized
  rw [Normalized.locate, List.mapM_map] at written
  -- The place of a clause is not part of its line.
  have plain : (program.dialect.normalize (some r) s).clauses.mapM program.clauseLine = .ok lines :=
    written
  by_cases silent : (program.dialect.normalize (some r) s).diagnostics = []
  · rw [Dialect.lines?_silent silent plain]
    refine .written fun line member => ?_
    exact List.infix_append_of_infix_left (List.infix_of_mem_flatten member)
  · rw [Dialect.lines?_reported silent]
    obtain ⟨report, member, concerns⟩ :=
      program.dialect.locate_concerns (some r) s group index silent
    exact .reported member concerns

theorem observation_accounts (group : Text) (index : Nat) (s body : Sentence) (holds : Bool)
    (part : Part) (returned : observation r group index s body holds = .ok part) :
    Accounts part.text part.diagnostics
      ((ProbLog.evidence (some r) body holds).toOption.map fun line => [line]) group index s := by
  unfold observation at returned
  split at returned
  next line written =>
    obtain rfl := Except.ok.inj returned
    rw [written]
    exact .written (List.forall_mem_singleton.mpr (List.prefix_append _ _).isInfix)
  next e refused =>
    obtain rfl := Except.ok.inj returned
    rw [refused]
    exact .reported (List.mem_singleton_self _) ⟨rfl, rfl, rfl⟩
  next => cases returned

theorem sentencePart_accounts (group : Text) (index : Nat) (s : Sentence) (part : Part)
    (returned : program.sentencePart r group index s = .ok part) :
    Accounts part.text part.diagnostics (program.translation? r s) group index s := by
  unfold sentencePart at returned
  unfold translation?
  -- Only ProbLog reads observations.
  cases program with
  | prolog => exact rules_accounts .prolog r group index s part returned
  | problog =>
    cases stripped : s.stripForAll.2 with
    | evidence holds body =>
      simp only [stripped] at returned ⊢
      exact observation_accounts r group index s body holds part returned
    | _ =>
      simp only [stripped] at returned ⊢
      exact rules_accounts .problog r group index s part returned

/-- The places of the sentences are counted from the start of their group. -/
theorem sentenceParts_accounts (group : Text) (index : Nat) (ss : List Sentence) (part : Part)
    (returned : program.sentenceParts r group index ss = .ok part) :
    AccountsFrom part.text part.diagnostics (program.translation? r) group index ss := by
  induction ss generalizing index part with
  | nil => exact .nil
  | cons s ss ih =>
    simp only [sentenceParts, bind_ok_iff, pure_ok_iff] at returned
    obtain ⟨first, one, rest, others, rfl⟩ := returned
    refine .cons ?_ ?_
    · exact (program.sentencePart_accounts r group index s first one).mono
        (List.prefix_append _ _).isInfix (List.subset_append_left _ _)
    · exact (ih (index + 1) rest others).mono (List.suffix_append _ _).isInfix
        (List.subset_append_right _ _)

theorem groupParts_accounts (gs : List SentenceGroup) (part : Part)
    (returned : program.groupParts r gs = .ok part) (g : SentenceGroup) (member : g ∈ gs) :
    AccountsFrom part.text part.diagnostics (program.translation? r) g.name 0 g.sentences := by
  induction gs generalizing part with
  | nil => simp at member
  | cons h gs ih =>
    simp only [groupParts, groupPart, bind_ok_iff, pure_ok_iff] at returned
    obtain ⟨_, ⟨body, written, rfl⟩, rest, others, rfl⟩ := returned
    rcases List.mem_cons.mp member with rfl | later
    · -- The sentences stand after the heading of the group and before the other groups.
      refine (program.sentenceParts_accounts r g.name 0 g.sentences body written).mono ?_
        (List.subset_append_left _ _)
      apply List.infix_append_of_infix_left
      apply List.infix_append_of_infix_left
      exact (List.suffix_append _ _).isInfix
    · exact (ih rest others later).mono (List.suffix_append _ _).isInfix
        (List.subset_append_right _ _)

/-- Every sentence of every group is stated or reported. -/
theorem compile_accounts (choices : Choices) (t : Theory) (out : Compiled)
    (returned : program.compile choices t = .ok out) (g : SentenceGroup) (member : g ∈ t.groups) :
    AccountsFrom out.text out.diagnostics (program.translation? t.registry) g.name 0 g.sentences := by
  simp only [compile, bind_ok_iff, pure_ok_iff] at returned
  obtain ⟨groups, grouped, facts, factual, rfl⟩ := returned
  -- The text of the groups stands between the heading and the facts.
  refine (program.groupParts_accounts t.registry t.groups groups grouped g member).mono ?_
    (List.Subset.refl _)
  apply List.infix_append_of_infix_left
  apply List.infix_append_of_infix_left
  exact (List.suffix_append _ _).isInfix

/-- Every fact stands in the program as a literal with its full stop. -/
theorem compile_writes_facts (choices : Choices) (t : Theory) (out : Compiled)
    (returned : program.compile choices t = .ok out) (fact : Sentence) (member : fact ∈ t.facts) :
    ∃ literal, Prolog.literal fact = .ok literal ∧ (literal ++ ".\n" : Text) <:+: out.text := by
  simp only [compile, bind_ok_iff, pure_ok_iff] at returned
  obtain ⟨groups, -, facts, factual, rfl⟩ := returned
  have nonempty : t.facts.isEmpty = false := by simpa using List.ne_nil_of_mem member
  simp only [factLines, nonempty, Bool.false_eq_true, if_false, bind_ok_iff, pure_ok_iff,
    Prolog.literals_eq] at factual
  obtain ⟨literals, written, rfl⟩ := factual
  obtain ⟨literal, inside, found⟩ := ok_of_mem_mapM written member
  refine ⟨literal, found, ?_⟩
  -- The facts stand after the groups and before the queries.
  apply List.infix_append_of_infix_left
  apply List.infix_append_of_infix_right
  apply List.infix_append_of_infix_right
  exact List.infix_of_mem_flatten (List.mem_map_of_mem inside)

end LogicProgram

end Clausal
