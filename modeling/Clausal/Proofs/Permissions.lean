import Clausal.Proofs.FirstOrder
import Clausal.Proofs.LogicProgram

/-!
# Permissions decide whether, not how

What a dialect permits decides whether a sentence has clauses, but never which. A dialect that permits
more gives the same clauses and reports for every sentence whose shape was accepted before, because
each step of flattening either returns what it returned or was refused. In particular a program of
ProbLog without weights and observations is a program of Prolog, byte for byte.
-/

namespace Clausal

/-! ### Computations that return more -/

/-- Whether a computation returns whatever another one returns. -/
def Extends {ε α : Type} (x y : Except ε α) : Prop := ∀ a, x = .ok a → y = .ok a

namespace Extends

variable {ε α β : Type} {x y : Except ε α}

theorem refl (x : Except ε α) : Extends x x := fun _ returned => returned

theorem of_error (e : ε) : Extends (.error e) y := by
  intro a returned
  cases returned

theorem bind {f g : α → Except ε β} (first : Extends x y) (rest : ∀ a, Extends (f a) (g a)) :
    Extends (x >>= f) (y >>= g) := by
  intro b returned
  obtain ⟨a, found, next⟩ := (bind_ok_iff x f b).mp returned
  exact (bind_ok_iff y g b).mpr ⟨a, first a found, rest a b next⟩

theorem map {f : α → β} (first : Extends x y) :
    Extends (do return f (← x)) (do return f (← y)) :=
  first.bind fun _ => .refl _

theorem ite {c : Prop} [Decidable c] {x' y' : Except ε α} (yes : Extends x y) (no : Extends x' y') :
    Extends (if c then x else x') (if c then y else y') := by
  by_cases holds : c
  · rw [if_pos holds, if_pos holds]
    exact yes
  · rw [if_neg holds, if_neg holds]
    exact no

theorem mapM {f g : α → Except ε β} (as : List α) (each : ∀ a ∈ as, Extends (f a) (g a)) :
    Extends (as.mapM f) (as.mapM g) := by
  induction as with
  | nil => exact .refl _
  | cons a as ih =>
    rw [List.forall_mem_cons] at each
    rw [List.mapM_cons, List.mapM_cons]
    exact each.1.bind fun _ => (ih each.2).map

/-- A refusal may be lifted. -/
theorem guard {c c' : Prop} [Decidable c] [Decidable c'] (lifted : c → c') (e e' : ε)
    (inner : Extends x y) : Extends (if c then x else .error e) (if c' then y else .error e') := by
  by_cases holds : c
  · rw [if_pos holds, if_pos (lifted holds)]
    exact inner
  · rw [if_neg holds]
    exact .of_error e

end Extends

/-! ### Dialects that permit more -/

namespace Dialect

/-- Whether a dialect splits disjunctions like another one and permits the constraints and negations
that the other one permits. -/
structure Permits (d e : Dialect) : Prop where
  splits : e.splitDisjunctions = d.splitDisjunctions
  constraints : d.allowConstraints = true → e.allowConstraints = true
  negations : d.allowCompoundNegation = true → e.allowCompoundNegation = true

/-- Whether a dialect permits the weights in a sentence if another one does. -/
def WeighsLike (d e : Dialect) (s : Sentence) : Prop :=
  d.allowWeights = true → e.allowWeights = true ∨ s.Unannotated

variable {d e : Dialect}

theorem weighsLike_hereditary : Sentence.Hereditary (d.WeighsLike e) where
  child weighs compound child allowed :=
    (weighs allowed).imp_right fun plain =>
      Sentence.unannotated_hereditary.child plain compound child
  negation weighs allowed := (weighs allowed).imp_right .neg
  conj each allowed := by
    by_cases also : e.allowWeights = true
    · exact .inl also
    · exact .inr (.conj fun s member => (each s member allowed).resolve_left also)

namespace Permits

variable (permits : d.Permits e)

include permits

/-! #### Bodies -/

/-- Where more negations are permitted, the check lets more through. -/
theorem checkNegation (s : Sentence) : Extends (d.checkNegation s) (e.checkNegation s) := by
  apply Extends.guard _ _ _ (.refl _)
  simp only [Bool.or_eq_true]
  exact Or.imp_right permits.negations

theorem withPolarity (s : Sentence) (positive : Bool) {x y : Except Error Inlined}
    (inner : Extends x y) : Extends (d.withPolarity s positive x) (e.withPolarity s positive y) :=
  .ite inner ((permits.checkNegation s).bind fun _ => inner.map)

omit permits in
theorem inlinedAll (ss : List Sentence)
    (each : ∀ s ∈ ss, ∀ positive, Extends (d.inlined s positive) (e.inlined s positive)) :
    Extends (d.inlinedAll ss) (e.inlinedAll ss) := by
  induction ss with
  | nil => exact .refl _
  | cons s ss ih =>
    rw [List.forall_mem_cons] at each
    rw [Dialect.inlinedAll, Dialect.inlinedAll]
    exact (each.1 true).bind fun _ => (ih each.2).bind fun _ => .refl _

/-- A dialect that permits more inlines at least the same formulas, in the same way. -/
theorem inlined (s : Sentence) (positive : Bool) :
    Extends (d.inlined s positive) (e.inlined s positive) := by
  induction s generalizing positive with
  | neg s ih =>
    rw [Dialect.inlined, Dialect.inlined]
    exact ih (!positive)
  | term p args =>
    rw [Dialect.inlined, Dialect.inlined]
    exact permits.withPolarity _ positive (.refl _)
  | conj ss ih | disj ss ih =>
    rw [Dialect.inlined, Dialect.inlined]
    exact permits.withPolarity _ positive ((Permits.inlinedAll ss ih).bind fun _ => .refl _)
  | implies a b left right =>
    rw [Dialect.inlined, Dialect.inlined]
    exact permits.withPolarity _ positive
      ((Extends.refl _).bind fun _ => (left false).bind fun _ => (right true).map)
  | forSome vars s ih =>
    rw [Dialect.inlined, Dialect.inlined]
    exact permits.withPolarity _ positive (ih true).map
  | var | const | iff | forAll | weighted | evidence | missing =>
    simp only [Dialect.inlined]
    exact permits.withPolarity _ positive (.of_error _)

theorem negatedLiteral (s : Sentence) : Extends (d.negatedLiteral s) (e.negatedLiteral s) := by
  induction s with
  | term p args => exact .refl _
  | forSome vars s ih =>
    rw [Dialect.negatedLiteral, Dialect.negatedLiteral]
    exact ih.map
  | _ =>
    simp only [Dialect.negatedLiteral]
    exact (permits.checkNegation _).bind fun _ => (permits.inlined _ true).map

theorem either (s : Sentence) {fails holds fails' holds' : Except Error Bodies}
    (left : Extends fails fails') (right : Extends holds holds') :
    Extends (d.either s fails holds) (e.either s fails' holds') := by
  rw [Dialect.either, Dialect.either, permits.splits]
  exact .ite (left.bind fun _ => right.map) (permits.inlined s true).map

omit permits in
theorem conjunction_of (ss : List Sentence)
    (each : ∀ s ∈ ss, ∀ positive, Extends (d.bodies s positive) (e.bodies s positive))
    (sofar : Bodies) : Extends (d.conjunction sofar ss) (e.conjunction sofar ss) := by
  induction ss generalizing sofar with
  | nil => exact .refl _
  | cons s ss ih =>
    rw [List.forall_mem_cons] at each
    rw [Dialect.conjunction, Dialect.conjunction]
    exact (each.1 true).bind fun b => ih each.2 (sofar.cross b)

omit permits in
theorem disjunction_of (ss : List Sentence)
    (each : ∀ s ∈ ss, ∀ positive, Extends (d.bodies s positive) (e.bodies s positive)) :
    Extends (d.disjunction ss) (e.disjunction ss) := by
  induction ss with
  | nil => exact .refl _
  | cons s ss ih =>
    rw [List.forall_mem_cons] at each
    rw [Dialect.disjunction, Dialect.disjunction]
    exact (each.1 true).bind fun _ => (ih each.2).map

/-- What is affirmed is at stake, since a negation becomes one literal. -/
theorem bodies_of_positive {s : Sentence} (compound : s.isNeg = false)
    (affirmed : Extends (d.bodies s true) (e.bodies s true)) (positive : Bool) :
    Extends (d.bodies s positive) (e.bodies s positive) := by
  cases positive with
  | true => exact affirmed
  | false =>
    rw [d.bodies_false s compound, e.bodies_false s compound]
    exact (permits.negatedLiteral s).map

/-- A dialect that permits more finds the same bodies, wherever the other one finds any. -/
theorem bodies (s : Sentence) (positive : Bool) :
    Extends (d.bodies s positive) (e.bodies s positive) := by
  induction s generalizing positive with
  | neg s ih =>
    rw [Dialect.bodies, Dialect.bodies]
    exact ih (!positive)
  | conj ss ih =>
    apply permits.bodies_of_positive rfl
    rw [Dialect.bodies, Dialect.bodies]
    exact Permits.conjunction_of ss ih .unit
  | disj ss ih =>
    apply permits.bodies_of_positive rfl
    rw [Dialect.bodies, Dialect.bodies, permits.splits]
    exact .ite (Permits.disjunction_of ss ih) (permits.inlined _ true).map
  | implies a b left right =>
    apply permits.bodies_of_positive rfl
    simp only [Dialect.bodies]
    exact (Extends.refl _).bind fun _ => permits.either _ (left false) (right true)
  | iff a b left right =>
    apply permits.bodies_of_positive rfl
    simp only [Dialect.bodies]
    have forward := permits.either (.implies a b) (left false) (right true)
    have backward := permits.either (.implies b a) (right false) (left true)
    exact (Extends.refl _).bind fun _ => (Extends.refl _).bind fun _ =>
      forward.bind fun _ => backward.map
  | forSome vars s ih =>
    apply permits.bodies_of_positive rfl
    rw [Dialect.bodies, Dialect.bodies]
    exact (ih true).map
  | term | var | const | forAll | weighted | evidence | missing =>
    apply permits.bodies_of_positive rfl
    rw [Dialect.bodies, Dialect.bodies]
    exact .refl _

theorem conjunction (ss : List Sentence) (sofar : Bodies) :
    Extends (d.conjunction sofar ss) (e.conjunction sofar ss) :=
  Permits.conjunction_of ss (fun s _ => permits.bodies s) sofar

/-! #### Clauses -/

omit permits in
theorem forEach (c : Setting) (b : Bodies) {rules rules' : Setting → Except Error Rules}
    (each : ∀ inner, Extends (rules inner) (rules' inner)) :
    Extends (c.forEach b rules) (c.forEach b rules') := by
  have collected (next : Nat) (bodies : List (List Sentence)) :
      Extends (Rules.collect next (fun n literals => rules (c.under n literals)) bodies)
        (Rules.collect next (fun n literals => rules' (c.under n literals)) bodies) := by
    induction bodies generalizing next with
    | nil => exact .refl _
    | cons body bodies ih =>
      rw [Rules.collect, Rules.collect]
      exact (each _).bind fun first => (ih _).map
  exact (collected c.next b.alternatives).map

theorem constraint (c : Setting) (kind : ErrorKind) (body : Sentence) :
    Extends (d.constraint c kind body) (e.constraint c kind body) :=
  .guard permits.constraints _ _ ((permits.bodies body true).bind fun _ => .refl _)

omit permits in
theorem flattenAll (ss : List Sentence)
    (each : ∀ s ∈ ss, ∀ c, Extends (d.flatten s c) (e.flatten s c)) (c : Setting) :
    Extends (d.flattenAll ss c) (e.flattenAll ss c) := by
  induction ss generalizing c with
  | nil => exact .refl _
  | cons s ss ih =>
    rw [List.forall_mem_cons] at each
    rw [Dialect.flattenAll, Dialect.flattenAll]
    exact (each.1 c).bind fun _ => (ih each.2 _).map

omit permits in
theorem flattenLast (ss : List Sentence)
    (each : ∀ s ∈ ss, ∀ c, Extends (d.flatten s c) (e.flatten s c)) (c : Setting) :
    Extends (d.flattenLast ss c) (e.flattenLast ss c) := by
  induction ss with
  | nil => exact .refl _
  | cons s ss ih =>
    rw [List.forall_mem_cons] at each
    rw [Dialect.flattenLast, Dialect.flattenLast]
    exact .ite (each.1 c) (ih each.2)

theorem flattenRungs (ladder : Nat) (parts : List Sentence.Part)
    (each : ∀ part ∈ parts, ∀ c, Extends (d.flatten part.consequent c) (e.flatten part.consequent c))
    (branch : Nat) (c : Setting) :
    Extends (d.flattenRungs ladder parts branch c) (e.flattenRungs ladder parts branch c) := by
  induction parts generalizing branch c with
  | nil => exact .refl _
  | cons part parts ih =>
    rw [List.forall_mem_cons] at each
    rw [Dialect.flattenRungs, Dialect.flattenRungs]
    exact (permits.conjunction part.premises .unit).bind fun b =>
      (Permits.forEach _ b each.1).bind fun _ => (ih each.2 _ _).map

/-- A dialect that permits more gives the clauses that a sentence had before. -/
theorem flatten (s : Sentence) (c : Setting) (weighs : d.WeighsLike e s) :
    Extends (d.flatten s c) (e.flatten s c) := by
  induction size : sizeOf s using Nat.strongRecOn generalizing s c with
  | ind n ih =>
    have smaller (t : Sentence) (less : sizeOf t < sizeOf s) (inside : d.WeighsLike e t)
        (c : Setting) : Extends (d.flatten t c) (e.flatten t c) :=
      ih _ (size ▸ less) t c inside rfl
    have child (compound : s.isTerm = false) (t : Sentence) (member : t ∈ s.children) (c : Setting) :
        Extends (d.flatten t c) (e.flatten t c) :=
      smaller t (s.children_smaller t member) (weighsLike_hereditary.child weighs compound member) c
    cases s with
    | term p args => exact .refl _
    | forAll vars s | forSome vars s =>
      rw [Dialect.flatten, Dialect.flatten]
      exact (child rfl s (List.mem_singleton_self s) c).map
    | implies a b =>
      rw [Dialect.flatten, Dialect.flatten]
      exact (permits.bodies a true).bind fun x =>
        Permits.forEach c x (child rfl b (by simp [Sentence.children]))
    | iff a b =>
      rw [Dialect.flatten, Dialect.flatten]
      have forward := child rfl b (by simp [Sentence.children])
      have backward := child rfl a (by simp [Sentence.children])
      refine .ite (.of_error _) ?_
      exact (permits.bodies a true).bind fun x => (Permits.forEach c x forward).bind fun _ =>
        (permits.bodies b true).bind fun y => (Permits.forEach _ y backward).map
    | conj ss =>
      rw [Dialect.flatten, Dialect.flatten]
      by_cases isLadder : Sentence.isLadder ss = true
      · rw [if_pos isLadder, if_pos isLadder, d.flattenLadder_eq ss _ _ _ _ isLadder,
          e.flattenLadder_eq ss _ _ _ _ isLadder]
        refine (permits.flattenRungs _ _ (fun part member => ?_) _ _).map
        have rung := Sentence.isRung_of_mem member isLadder
        exact smaller part.consequent rung.smaller
          (weighsLike_hereditary.rung rung (by simp) weighs).2
      · rw [if_neg isLadder, if_neg isLadder]
        exact Permits.flattenAll ss (child rfl) c
    | neg s =>
      cases s with
      | neg s =>
        rw [Dialect.flatten, Dialect.flatten]
        have inner := weighsLike_hereditary.child weighs rfl List.mem_cons_self
        simp only [Sentence.neg.sizeOf_spec] at smaller
        exact smaller s (by omega) (weighsLike_hereditary.child inner rfl List.mem_cons_self) c
      | _ => exact permits.constraint c _ _
    | disj ss =>
      rw [Dialect.flatten, Dialect.flatten]
      refine .ite (.refl _) (.ite (permits.constraint c _ _) ?_)
      exact (permits.conjunction _ .unit).bind fun b =>
        Permits.forEach c b fun inner => Permits.flattenLast ss (child rfl) inner
    | weighted w s =>
      rw [Dialect.flatten, Dialect.flatten]
      by_cases allowed : d.allowWeights = true
      · have also : e.allowWeights = true := (weighs allowed).resolve_right fun plain => by cases plain
        simp only [allowed, also, Bool.not_true, Bool.false_eq_true, if_false]
        exact .ite (.refl _) (child rfl s (List.mem_singleton_self s) _)
      · rw [if_pos (by simpa using allowed)]
        exact .of_error _
    | evidence | var | const | missing => exact .refl _

end Permits

end Dialect

/-! ### Normalization -/

namespace Dialect

variable {d e : Dialect} {s : Sentence} {n : Normalized}

/-- A sentence whose shape is accepted can be flattened. -/
theorem flatten_of_tryNormalize (r : Option Registry) (returned : d.tryNormalize r s = .ok n)
    (accepted : ∀ report ∈ n.diagnostics, ¬ report.kind.IsShape) :
    ∃ rules, d.flatten s .outermost = .ok rules := by
  cases flattened : d.flatten s .outermost with
  | ok rules => exact ⟨rules, rfl⟩
  | error cause =>
    obtain rfl := d.normalize_of_tryNormalize r s n (by rw [returned]; rfl)
    have shape := (d.flatten_refuses s .outermost cause flattened).shape
    have only : (d.normalize r s).diagnostics = [.ofError cause [] 0 s.text] := by
      simp [normalize, flattened]
    rw [only] at accepted
    exact absurd shape (accepted _ (List.mem_singleton_self _))

/-- A dialect that permits more changes nothing for a sentence whose shape was accepted. -/
theorem Permits.tryNormalize (permits : d.Permits e) (weighs : d.WeighsLike e s)
    (r : Option Registry) (returned : d.tryNormalize r s = .ok n)
    (accepted : ∀ report ∈ n.diagnostics, ¬ report.kind.IsShape) : e.tryNormalize r s = .ok n := by
  obtain ⟨rules, flattened⟩ := flatten_of_tryNormalize r returned accepted
  have same := permits.flatten s .outermost weighs rules flattened
  simp only [Dialect.tryNormalize, fault?, normalize, flattened] at returned
  simpa only [Dialect.tryNormalize, fault?, normalize, same] using returned

end Dialect

/-! ### Programs of Prolog and ProbLog -/

theorem TargetFault.ofBuild_ok_iff {α : Type} (x : Except BuildFault α) (a : α) :
    ofBuild x = .ok a ↔ x = .ok a := by
  cases x <;> simp [ofBuild]

namespace LogicProgram

/-- ProbLog permits in its clauses what Prolog permits. -/
theorem problog_permits_prolog : problog.dialect.Permits prolog.dialect :=
  ⟨rfl, fun _ => rfl, fun _ => rfl⟩

theorem stripForAll_unannotated (s : Sentence) (plain : s.Unannotated) :
    s.stripForAll.2.Unannotated := by
  induction s with
  | forAll vars s ih => exact ih (Sentence.unannotated_hereditary.child plain rfl List.mem_cons_self)
  | _ => exact plain

/-- Without an observation a sentence is given by its rules in both languages. -/
theorem sentencePart_unannotated (program : LogicProgram) (r : Registry) (group : Text)
    (index : Nat) {s : Sentence} (plain : s.Unannotated) :
    program.sentencePart r group index s = program.rules r group index s := by
  have inside := stripForAll_unannotated s plain
  unfold sentencePart
  split
  next holds body stripped =>
    rw [stripped] at inside
    cases inside
  next => rfl

/-- Without weights the clauses of a sentence are written alike in both languages. -/
theorem mapM_clauseLine (d : Dialect) (r : Option Registry) {s : Sentence} (plain : s.Unannotated)
    (group : Text) (index : Nat) :
    Extends (((d.normalize r s).locate group index).clauses.mapM problog.clauseLine)
      (((d.normalize r s).locate group index).clauses.mapM prolog.clauseLine) := by
  refine .mapM _ (List.forall_mem_map.mpr fun c member => ?_)
  obtain ⟨clause, vars, _, gives, rfl, -⟩ := d.gives_of_mem_normalize r s c member
  have unweighted := gives.weight_eq plain
  -- The mark of a missing weight is empty, and Prolog writes no mark at all.
  simp only [clauseLine, unweighted, Setting.outermost, ProbLog.weightMark, ite_self]
  exact .refl _

variable (r : Registry) (group : Text)

/-- What ProbLog says of a sentence without a report, Prolog says as well. -/
theorem sentencePart_prolog (index : Nat) {s : Sentence} {part : Part} (plain : s.Unannotated)
    (returned : problog.sentencePart r group index s = .ok part) (silent : part.diagnostics = []) :
    prolog.sentencePart r group index s = .ok part := by
  rw [sentencePart_unannotated _ r group index plain] at returned ⊢
  simp only [rules, bind_ok_iff, pure_ok_iff, TargetFault.ofBuild_ok_iff] at returned ⊢
  obtain ⟨n, normalized, lines, written, rfl⟩ := returned
  have none : n.diagnostics = [] := List.map_eq_nil_iff.mp silent
  have same := problog_permits_prolog.tryNormalize (fun _ => .inr plain) (some r) normalized
    (by simp [none])
  refine ⟨n, same, lines, ?_, rfl⟩
  have given := problog.dialect.normalize_of_tryNormalize (some r) s n (by rw [normalized]; rfl)
  rw [given] at written ⊢
  exact mapM_clauseLine _ _ plain group index lines written

/-- Without annotations and reports, a part for ProbLog is that for Prolog. -/
theorem sentenceParts_prolog (index : Nat) (ss : List Sentence) {part : Part}
    (plain : ∀ s ∈ ss, s.Unannotated)
    (returned : problog.sentenceParts r group index ss = .ok part) (silent : part.diagnostics = []) :
    prolog.sentenceParts r group index ss = .ok part := by
  induction ss generalizing index part with
  | nil => exact returned
  | cons s ss ih =>
    rw [List.forall_mem_cons] at plain
    simp only [sentenceParts, bind_ok_iff, pure_ok_iff] at returned ⊢
    obtain ⟨first, one, rest, others, rfl⟩ := returned
    obtain ⟨silentFirst, silentRest⟩ := List.append_eq_nil_iff.mp silent
    exact ⟨first, sentencePart_prolog r group index plain.1 one silentFirst, rest,
      ih (index + 1) plain.2 others silentRest, rfl⟩

theorem groupParts_prolog (gs : List SentenceGroup) {part : Part}
    (plain : ∀ g ∈ gs, ∀ s ∈ g.sentences, s.Unannotated)
    (returned : problog.groupParts r gs = .ok part) (silent : part.diagnostics = []) :
    prolog.groupParts r gs = .ok part := by
  induction gs generalizing part with
  | nil => exact returned
  | cons g gs ih =>
    rw [List.forall_mem_cons] at plain
    simp only [groupParts, groupPart, bind_ok_iff, pure_ok_iff] at returned ⊢
    obtain ⟨_, ⟨body, one, rfl⟩, rest, others, rfl⟩ := returned
    obtain ⟨silentFirst, silentRest⟩ := List.append_eq_nil_iff.mp silent
    exact ⟨_, ⟨body, sentenceParts_prolog r g.name 0 g.sentences plain.1 one silentFirst, rfl⟩, rest,
      ih plain.2 others silentRest, rfl⟩

/-- Without annotations, queries and reports, a program for ProbLog is one for Prolog. -/
theorem compile_prolog (choices : Choices) (t : Theory) {out : Compiled}
    (unasked : choices.queries = false)
    (plain : ∀ g ∈ t.groups, ∀ s ∈ g.sentences, s.Unannotated)
    (returned : problog.compile choices t = .ok out) (silent : out.diagnostics = []) :
    prolog.compile choices t = .ok out := by
  simp only [compile, bind_ok_iff, pure_ok_iff, unasked] at returned ⊢
  obtain ⟨groups, grouped, facts, factual, rfl⟩ := returned
  exact ⟨groups, groupParts_prolog t.registry t.groups plain grouped silent, facts, factual, rfl⟩

end LogicProgram

/-- Permissions decide whether a sentence has clauses, never which. A dialect that permits more gives
the same clauses and reports for a sentence whose shape was accepted, and a theory without weights and
observations that ProbLog expresses without a report has the same program in Prolog, queries apart. -/
theorem permissions_keep_output :
    (∀ (d e : Dialect) (r : Option Registry) (s : Sentence) (n : Normalized), d.Permits e →
      d.WeighsLike e s → d.tryNormalize r s = .ok n →
      (∀ report ∈ n.diagnostics, ¬ report.kind.IsShape) → e.tryNormalize r s = .ok n) ∧
    ∀ (choices : Choices) (t : Theory) (out : Compiled), choices.queries = false →
      (∀ g ∈ t.groups, ∀ s ∈ g.sentences, s.Unannotated) →
      LogicProgram.problog.compile choices t = .ok out → out.diagnostics = [] →
      LogicProgram.prolog.compile choices t = .ok out :=
  ⟨fun _ _ r _ _ permits weighs returned accepted => permits.tryNormalize weighs r returned accepted,
    fun choices t _ unasked plain returned silent =>
      LogicProgram.compile_prolog choices t unasked plain returned silent⟩

/-- A rule whose head has a variable that its body does not bind, beside one that is safe. -/
private def guesses : Sentence :=
  let x : Sentence := .var "x" []
  let y : Sentence := .var "y" []
  .conj [.implies (.term "seen" [x]) (.term "likes" [x, y]),
    .implies (.conj [.term "seen" [x], .neg (.term "gone" [x])]) (.term "here" [x])]

private def guessing : Theory :=
  { name := "guessing"
    registry := .empty
    groups := [⟨"rules", .plain, "Who is here.",
      [.implies (.conj [.term "seen" [.var "x" []], .neg (.term "gone" [.var "x" []])])
        (.term "here" [.var "x" []])]⟩]
    facts := [.term "seen" [.const (.string "Ann")]]
    notes := [] }

/-- The safe rule is kept and the other one reported, with fewer permissions as with more; and the
program of a theory is the same in both languages. -/
theorem permissions_keep_output_guesses :
    (∃ n, LogicProgram.problog.dialect.tryNormalize none guesses = .ok n ∧ n.clauses.length = 1 ∧
      n.diagnostics.map Diagnostic.kind = [.unsafeHeadVariable] ∧
      (⟨false, true, true, true⟩ : Dialect).tryNormalize none guesses = .ok n) ∧
    ∃ out, LogicProgram.problog.compile ⟨false, true, true⟩ guessing = .ok out ∧
      out.diagnostics = [] ∧ LogicProgram.prolog.compile ⟨false, true, true⟩ guessing = .ok out := by
  obtain ⟨normalized, compiled⟩ := permissions_keep_output
  have accepted : ∀ report ∈ (LogicProgram.problog.dialect.normalize none guesses).diagnostics,
      ¬ report.kind.IsShape := by decide
  have plain : ∀ g ∈ guessing.groups, ∀ s ∈ g.sentences, s.Unannotated := by
    simp only [guessing, List.mem_singleton, forall_eq]
    exact .implies (.conj (by simp [Sentence.Unannotated.term, Sentence.Unannotated.neg])) (.term _ _)
  refine ⟨⟨LogicProgram.problog.dialect.normalize none guesses, rfl, by decide, by decide, ?_⟩, ?_⟩
  · exact normalized LogicProgram.problog.dialect _ none guesses _
      ⟨rfl, fun _ => rfl, fun _ => rfl⟩ (fun _ => .inl rfl) rfl accepted
  · refine ⟨_, rfl, rfl, ?_⟩
    exact compiled ⟨false, true, true⟩ guessing _ rfl plain rfl rfl

end Clausal
