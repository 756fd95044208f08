import Clausal.Proofs.Accounting
import Clausal.Proofs.Emission
import Clausal.Proofs.TheoryBuilding
import Clausal.Target.Prover

/-!
# Problems for provers

A problem has a formula for every sentence with a first-order reading, closed and on the side where
its group belongs, and there is one report on each of the other sentences. Which sentences have a
reading does not depend on the notation: a declared predicate takes as many arguments as declared,
no weight, observation, variable or constant stands in place of a formula, and no float is too large
for a fraction.

## Main results

`Prover.compile_renders`: both notations render exactly the sentences with a reading, in order, and
report the others.
-/

namespace Clausal

/-! ### First-order readings -/

namespace Sentence

/-- Whether a sentence is another one or a part of it that is not within a term. -/
def FormulaWithin : Sentence → Sentence → Prop :=
  Relation.ReflTransGen fun part whole => whole.isTerm = false ∧ part ∈ whole.children

/-- The forms that are no formulas. -/
def formless : List SentenceKind := [.weighted, .evidence, .var, .const]

/-- Why a sentence has no first-order reading. -/
inductive Unreadable (r : Registry) (s : Sentence) : Prop where
  | arity (predicate : Text) (args : List Sentence) (inside : Within (.term predicate args) s)
      (declared : Predicate) (found : r.predicate? predicate = some declared)
      (differs : args.length ≠ declared.arity)
  | form (t : Sentence) (inside : FormulaWithin t s) (formless : t.kind ∈ formless)
  /-- A float of magnitude `9.2e18` or more; there are `unitsPerOne` units in one. -/
  | float (x : Binary64) (inside : Within (.const (.float x)) s)
      (huge : 9200000000000000000 * Binary64.unitsPerOne ≤ x.units)

/-- Whether a sentence is not a float that is too large for a fraction. -/
def Moderate (s : Sentence) : Prop :=
  ∀ x, s = .const (.float x) → x.units < 9200000000000000000 * Binary64.unitsPerOne

/-- Whether a sentence has the form of a formula, and so has every part that is not within a
term. -/
def Formal (s : Sentence) : Prop := ∀ t, FormulaWithin t s → t.kind ∉ formless

theorem formal_iff (s : Sentence) :
    s.Formal ↔ s.kind ∉ formless ∧ (s.isTerm = false → ∀ c ∈ s.children, c.Formal) := by
  constructor
  · intro formal
    exact ⟨formal s .refl, fun compound c child t below => formal t (below.tail ⟨compound, child⟩)⟩
  · rintro ⟨here, below⟩ t inside
    rcases Relation.ReflTransGen.cases_tail_iff .. |>.mp inside with rfl | ⟨c, inside, step⟩
    · exact here
    · exact below step.1 c step.2 t inside

theorem formal_term (p : Text) (args : List Sentence) : (Sentence.term p args).Formal := by
  rw [formal_iff]
  simp [kind, formless, isTerm]

theorem formal_compound {s : Sentence} (compound : s.isTerm = false) :
    s.Formal ↔ s.kind ∉ formless ∧ ∀ c ∈ s.children, c.Formal := by
  rw [formal_iff, forall_prop_of_true compound]

theorem everywhere_moderate_iff {s : Sentence} (notConst : s.kind ≠ .const) :
    Everywhere Moderate s ↔ ∀ c ∈ s.children, Everywhere Moderate c := by
  have moderate : s.Moderate := by
    rintro x rfl
    exact absurd rfl notConst
  rw [everywhere_iff, and_iff_right moderate]

/-- A sentence has a reading if its arities agree, its form is that of a formula and no float is too
large. -/
theorem not_unreadable_iff (r : Registry) (s : Sentence) :
    ¬ s.Unreadable r ↔ r.Agrees s ∧ s.Formal ∧ Everywhere Moderate s := by
  constructor
  · intro readable
    refine ⟨?_, fun t inside formless => readable (.form t inside formless), ?_⟩
    · intro predicate args inside declared found
      by_contra differs
      exact readable (.arity predicate args inside declared found differs)
    · rintro t inside x rfl
      exact Nat.lt_of_not_le fun huge => readable (.float x inside huge)
  · rintro ⟨agrees, formal, moderate⟩ unreadable
    cases unreadable with
    | arity predicate args inside declared found differs =>
      exact differs (agrees predicate args inside declared found)
    | form t inside formless => exact formal t inside formless
    | float x inside huge => exact absurd huge (Nat.not_le.mpr (moderate _ inside x rfl))

end Sentence

/-! ### Which sentences are rendered -/

/-- A float has a fraction exactly if it is in range. -/
theorem FirstOrder.rational_succeeds_iff (x : Binary64) (finite : x.isFinite = true) :
    Succeeds (rational x) ↔ x.units < Fraction.rangeLimit * Binary64.unitsPerOne := by
  have positive : ¬ Fraction.defaultLimit < 1 := by decide
  have notInfinite : ¬ (!x.isFinite) = true := by simp [finite]
  by_cases huge : Fraction.rangeLimit * Binary64.unitsPerOne ≤ x.units
  · refine iff_of_false ?_ (Nat.not_lt.mpr huge)
    rw [rational, Fraction.ofBinary64, if_neg notInfinite, if_neg positive, if_pos huge]
    exact Succeeds.not_error _
  · refine iff_of_true ?_ (Nat.lt_of_not_le huge)
    rw [rational, Fraction.ofBinary64, if_neg notInfinite, if_neg positive, if_neg huge]
    exact Succeeds.ok _

namespace Prover

open Sentence (Moderate Everywhere everywhere_iff)

variable (prover : Prover)

def argument : Prover → Sentence → Except Error Text
  | .tptp => Tptp.argument
  | .prover9 => Prover9.argument

theorem constant_succeeds_iff (v : Value) (finite : v.isFinite = true) :
    Succeeds (prover.argument (.const v)) ↔ (Sentence.const v).Moderate := by
  cases v with
  | float x =>
    -- Both notations write floats as fractions.
    have written : prover.argument (.const (.float x)) = FirstOrder.rational x := by
      cases prover <;> rfl
    rw [written, FirstOrder.rational_succeeds_iff x finite, Fraction.rangeLimit]
    constructor
    · rintro less _ ⟨⟩
      exact less
    · exact fun moderate => moderate x rfl
  | _ =>
    refine iff_of_true ?_ ?_
    · cases prover <;> exact Succeeds.ok _
    · rintro _ ⟨⟩

theorem application_succeeds_iff (p : Text) (args : List Sentence) :
    Succeeds (prover.argument (.term p args)) ↔ ∀ a ∈ args, Succeeds (prover.argument a) := by
  cases prover with
  | tptp =>
    rw [argument, Tptp.argument, Tptp.arguments_eq, Succeeds.map_iff]
    exact Succeeds.mapM_iff _ args
  | prover9 =>
    rw [argument, Prover9.argument, Prover9.arguments_eq, Succeeds.map_iff]
    exact Succeeds.mapM_iff _ args

theorem term_succeeds_iff (p : Text) (args : List Sentence) :
    Succeeds (prover.formula (.term p args)) ↔ ∀ a ∈ args, Succeeds (prover.argument a) := by
  cases prover with
  | tptp =>
    rw [formula, Tptp.formula, Tptp.arguments_eq, Succeeds.map_iff]
    exact Succeeds.mapM_iff _ args
  | prover9 =>
    rw [formula, Prover9.formula, Prover9.arguments_eq, Succeeds.map_iff]
    exact Succeeds.mapM_iff _ args

/-- An argument is written exactly if no float in it is too large. -/
theorem argument_succeeds_iff (s : Sentence) (expressible : s.isExpressible true = true) :
    Succeeds (prover.argument s) ↔ Everywhere Moderate s := by
  induction s with
  | term p args ih =>
    have arguments := (Sentence.allExpressible_iff true args).mp expressible
    rw [application_succeeds_iff, Sentence.everywhere_moderate_iff (by simp [Sentence.kind])]
    exact forall₂_congr fun a member => ih a member (arguments a member)
  | var name type =>
    refine iff_of_true ?_ ?_
    · cases prover <;> exact Succeeds.ok _
    · rw [Sentence.everywhere_moderate_iff (by simp [Sentence.kind])]
      simp [Sentence.children]
  | const v =>
    rw [constant_succeeds_iff prover v expressible, everywhere_iff]
    simp [Sentence.children]
  | _ => exact absurd expressible Bool.false_ne_true

/-- A sentence that is not a term is rendered if its form is that of a formula and its operands
are rendered. -/
theorem compound_succeeds_iff (s : Sentence) (compound : s.isTerm = false)
    (present : s.isMissing = false) : Succeeds (prover.formula s) ↔
      s.kind ∉ Sentence.formless ∧ ∀ c ∈ s.children, Succeeds (prover.formula c) := by
  cases s with
  | term => cases compound
  | missing => cases present
  | var | const | weighted | evidence =>
    refine iff_of_false ?_ ?_
    · cases prover <;> exact Succeeds.not_error _
    · simp [Sentence.kind, Sentence.formless]
  | conj ss | disj ss =>
    rw [and_iff_right (by simp [Sentence.kind, Sentence.formless])]
    -- Without operands a formula has a name of its own.
    cases ss with
    | nil =>
      refine iff_of_true ?_ (by simp [Sentence.children])
      cases prover <;> exact Succeeds.ok _
    | cons s ss =>
      rw [Sentence.children, List.forall_mem_cons]
      cases prover with
      | tptp =>
        rw [formula, Tptp.formula, Tptp.formulas_eq, Succeeds.bind_iff fun _ => Succeeds.map_iff,
          Succeeds.mapM_iff]
      | prover9 =>
        rw [formula, Prover9.formula, Prover9.formulas_eq,
          Succeeds.bind_iff fun _ => Succeeds.map_iff, Succeeds.mapM_iff]
  | implies a b | iff a b =>
    rw [and_iff_right (by simp [Sentence.kind, Sentence.formless]), Sentence.children,
      List.forall_mem_cons, List.forall_mem_singleton]
    cases prover <;> exact Succeeds.bind_iff fun _ => Succeeds.map_iff
  | neg s | forAll vars s | forSome vars s =>
    rw [Sentence.children, List.forall_mem_singleton]
    rw [and_iff_right (by simp [Sentence.kind, Sentence.formless])]
    cases prover <;> exact Succeeds.map_iff

/-- A sentence is written exactly if it has the form of a formula and no float is too large. -/
theorem formula_succeeds_iff (s : Sentence) (expressible : s.isExpressible false = true) :
    Succeeds (prover.formula s) ↔ s.Formal ∧ Everywhere Moderate s := by
  induction s using Sentence.induction_children with
  | step s ih =>
    cases isTerm : s.isTerm with
    | true =>
      obtain ⟨p, args, rfl⟩ : ∃ p args, s = .term p args := by
        cases s with
        | term p args => exact ⟨p, args, rfl⟩
        | _ => cases isTerm
      -- Within a term there are arguments only, and no more than their floats matter.
      have arguments := (Sentence.allExpressible_iff true args).mp expressible
      rw [term_succeeds_iff, and_iff_right (Sentence.formal_term p args),
        Sentence.everywhere_moderate_iff (by simp [Sentence.kind])]
      exact forall₂_congr fun a member => prover.argument_succeeds_iff a (arguments a member)
    | false =>
      have operands := Sentence.isExpressible_children expressible
      rw [isTerm] at operands
      have present := s.complete_of_isExpressible expressible s (Sentence.within_self s)
      have notConst : s.kind ≠ .const := by
        cases s with
        | const v => exact absurd expressible Bool.false_ne_true
        | _ => simp [Sentence.kind]
      rw [prover.compound_succeeds_iff s isTerm present, Sentence.formal_compound isTerm,
        Sentence.everywhere_moderate_iff notConst, and_assoc, ← forall₂_and]
      exact and_congr_right fun _ => forall₂_congr fun c child => ih c child (operands c child)

/-- Closing a formula makes no difference to whether it can be written. -/
theorem closure_succeeds_iff (s : Sentence) :
    Succeeds (prover.formula s.closure) ↔ Succeeds (prover.formula s) := by
  unfold Sentence.closure
  split
  · rfl
  · rw [prover.compound_succeeds_iff _ rfl rfl, Sentence.children, List.forall_mem_singleton]
    exact and_iff_right (by simp [Sentence.kind, Sentence.formless])

/-- Both notations render exactly the sentences that have a reading. -/
theorem checkedFormula_succeeds_iff (r : Registry) (s : Sentence)
    (expressible : s.isExpressible false = true) :
    Succeeds (prover.checkedFormula r s s.closure) ↔ ¬ s.Unreadable r := by
  have checked : Succeeds (r.checkArity s) ↔ r.Agrees s := by
    rw [← r.checkArity_ok_iff]
    exact ⟨fun ⟨_, returned⟩ => returned, fun returned => ⟨(), returned⟩⟩
  rw [checkedFormula, Succeeds.bind_iff fun _ => Iff.rfl, checked, closure_succeeds_iff,
    prover.formula_succeeds_iff s expressible, Sentence.not_unreadable_iff]

end Prover

/-! ### The lines of a problem -/

namespace Prover

/-- Formulas with a role, numbered from one. -/
def numbered (label role : Text) (formulas : List Text) : List Text :=
  formulas.mapIdx fun i formula =>
    "fof(" ++ label ++ Text.ofNat (i + 1) ++ ", " ++ role ++ ", " ++ formula ++ ")."

/-- Formulas between the lines that open and close a list. -/
def listed (label : Text) (formulas : List Text) : List Text :=
  let line (formula : Text) : Text := "    " ++ formula ++ "."
  ("formulas(" ++ label ++ ").") :: formulas.map line ++ [Text.ofString "end_of_list."]

def layout (prover : Prover) (name : Text) (assumptions goals : List Text) : List Text :=
  let title : Text := if name = [] then "unnamed" else name
  match prover with
  | .tptp => ("% Problem: " ++ title) :: numbered "axiom" "axiom" assumptions ++
      numbered "goal" "conjecture" goals
  | .prover9 => ("% Problem: " ++ title) :: listed "assumptions" assumptions ++
      [] :: listed "goals" goals

def textOf (lines : List Text) : Text := lines.flatMap fun line => line ++ "\n"

theorem textOf_append (lines more : List Text) :
    textOf (lines ++ more) = textOf lines ++ textOf more :=
  List.flatMap_append

theorem textOf_cons (line : Text) (lines : List Text) :
    textOf (line :: lines) = line ++ "\n" ++ textOf lines :=
  List.flatMap_cons

theorem infix_textOf {line : Text} {lines : List Text} (member : line ∈ lines) :
    line <:+: textOf lines :=
  (List.prefix_append line _).isInfix.trans (List.infix_of_mem_flatten (List.mem_map_of_mem member))

theorem lines_eq (label role : Text) (formulas : List Text) :
    Tptp.lines label role formulas = textOf (numbered label role formulas) := by
  rw [Tptp.lines, textOf, numbered, List.mapIdx_eq_zipIdx_map, List.zipIdx_eq_map_add,
    List.flatMap_map, List.flatMap_map]
  simp only [List.append_assoc, Nat.add_comm 1]
  rfl

theorem formulaList_eq (label : Text) (formulas : List Text) :
    Prover9.formulaList label formulas = textOf (listed label formulas) := by
  simp only [Prover9.formulaList, listed, List.cons_append, textOf_cons, textOf_append]
  simp only [textOf, List.flatMap_map, List.append_assoc]
  rfl

/-- A problem is a title, the assumptions and the goals: in the one notation numbered formulas with
their roles, in the other two lists with an empty line between them. -/
theorem problem_eq (prover : Prover) (name : Text) (assumptions goals : List Text) :
    prover.problem name assumptions goals = textOf (prover.layout name assumptions goals) := by
  unfold problem layout
  simp only [List.isEmpty_iff]
  cases prover with
  | tptp =>
    simp only [Tptp.problem, lines_eq, List.cons_append, textOf_append, textOf_cons,
      List.append_assoc]
  | prover9 =>
    simp only [Prover9.problem, formulaList_eq, List.cons_append, textOf_append, textOf_cons,
      List.append_assoc, List.nil_append]

theorem infix_numbered (label role : Text) {formulas : List Text} {formula : Text}
    (member : formula ∈ formulas) : ∃ line ∈ numbered label role formulas, formula <:+: line := by
  obtain ⟨k, bound, rfl⟩ := List.getElem_of_mem member
  refine ⟨_, List.mem_mapIdx.mpr ⟨k, bound, rfl⟩, ?_⟩
  exact List.infix_append_of_infix_left (List.suffix_append _ _).isInfix

theorem infix_listed (label : Text) {formulas : List Text} {formula : Text}
    (member : formula ∈ formulas) : ∃ line ∈ listed label formulas, formula <:+: line := by
  refine ⟨_, List.mem_append_left _ (List.mem_cons_of_mem _ (List.mem_map_of_mem member)), ?_⟩
  exact List.infix_append_of_infix_left (List.suffix_append _ _).isInfix

/-- Every formula stands in the problem, on a line of its own. -/
theorem infix_problem (prover : Prover) (name : Text) (assumptions goals : List Text)
    (formula : Text) (member : formula ∈ assumptions ∨ formula ∈ goals) :
    formula <:+: prover.problem name assumptions goals := by
  have onLine : ∃ line ∈ prover.layout name assumptions goals, formula <:+: line := by
    unfold layout
    cases prover with
    | tptp =>
      rcases member with assumed | goal
      · obtain ⟨line, found, inside⟩ := infix_numbered "axiom" "axiom" assumed
        exact ⟨line, by simp [found], inside⟩
      · obtain ⟨line, found, inside⟩ := infix_numbered "goal" "conjecture" goal
        exact ⟨line, by simp [found], inside⟩
    | prover9 =>
      rcases member with assumed | goal
      · obtain ⟨line, found, inside⟩ := infix_listed "assumptions" assumed
        exact ⟨line, by simp [found], inside⟩
      · obtain ⟨line, found, inside⟩ := infix_listed "goals" goal
        exact ⟨line, by simp [found], inside⟩
  obtain ⟨line, inLayout, inside⟩ := onLine
  rw [problem_eq]
  exact inside.trans (infix_textOf inLayout)

end Prover

/-! ### What becomes of the sentences of a theory -/

/-- A sentence of a theory with its place. -/
structure Statement where
  group : Text
  index : Nat
  isGoal : Bool
  sentence : Sentence

/-- Sentences under a name, numbered from `index` on. -/
def statementsFrom (group : Text) (isGoal : Bool) (index : Nat) (ss : List Sentence) :
    List Statement :=
  (ss.zipIdx index).map fun (s, i) => ⟨group, i, isGoal, s⟩

theorem mem_of_mem_statementsFrom {group : Text} {isGoal : Bool} {index : Nat} {ss : List Sentence}
    {st : Statement} (member : st ∈ statementsFrom group isGoal index ss) : st.sentence ∈ ss := by
  obtain ⟨⟨s, i⟩, inside, rfl⟩ := List.mem_map.mp member
  exact List.fst_mem_of_mem_zipIdx inside

theorem mem_statementsFrom {group : Text} {isGoal : Bool} {ss : List Sentence} {i : Nat} {s : Sentence}
    (found : ss[i]? = some s) : ⟨group, i, isGoal, s⟩ ∈ statementsFrom group isGoal 0 ss :=
  List.mem_map.mpr ⟨(s, i), List.mk_mem_zipIdx_iff_getElem?.mpr found, rfl⟩

def SentenceGroup.statements (g : SentenceGroup) : List Statement :=
  statementsFrom g.name (g.kind = .goal) 0 g.sentences

/-- The sentences of a theory, group by group, and then the facts. -/
def Theory.statements (t : Theory) : List Statement :=
  t.groups.flatMap SentenceGroup.statements ++ statementsFrom "Facts" false 0 t.facts

namespace Prover

variable (prover : Prover) (r : Registry)

/-- What becomes of a sentence: a formula, or else a report. -/
def outcome (st : Statement) : Except Diagnostic Text :=
  match prover.checkedFormula r st.sentence st.sentence.closure with
  | .ok formula => .ok formula
  | .error e => .error (.ofError e st.group st.index st.sentence.text)

def rendered (sts : List Statement) : List Text :=
  sts.filterMap fun st => (prover.outcome r st).toOption

def reported (sts : List Statement) : List Diagnostic :=
  sts.filterMap fun st => match prover.outcome r st with
    | .ok _ => none
    | .error report => some report

/-- The formulas and the reports of a group come from its statements, in order. -/
theorem formulas_eq (close : Sentence → Sentence) (group : Text) (isGoal : Bool) (index : Nat)
    (ss : List Sentence) (closes : ∀ s ∈ ss, close s = s.closure) :
    prover.formulas r close group index ss =
      (prover.rendered r (statementsFrom group isGoal index ss),
        prover.reported r (statementsFrom group isGoal index ss)) := by
  induction ss generalizing index with
  | nil => rfl
  | cons s ss ih =>
    rw [List.forall_mem_cons] at closes
    rw [formulas, ih (index + 1) closes.2, closes.1]
    simp only [statementsFrom, rendered, reported, outcome, List.zipIdx_cons, List.map_cons,
      List.filterMap_cons]
    cases prover.checkedFormula r s s.closure <;> rfl

theorem groupFormulas_eq (g : SentenceGroup) : prover.groupFormulas r g =
    (prover.rendered r g.statements, prover.reported r g.statements) :=
  prover.formulas_eq r Sentence.closure g.name _ 0 g.sentences fun _ _ => rfl

theorem isGoal_of_mem {group : Text} {isGoal : Bool} {index : Nat} {ss : List Sentence}
    {st : Statement} (member : st ∈ statementsFrom group isGoal index ss) : st.isGoal = isGoal := by
  obtain ⟨_, -, rfl⟩ := List.mem_map.mp member
  rfl

/-- The sentences of a list are all on one side. -/
theorem filter_statementsFrom (side : Bool → Bool) (group : Text) (isGoal : Bool) (index : Nat)
    (ss : List Sentence) :
    (statementsFrom group isGoal index ss).filter (fun st => side st.isGoal) =
      if side isGoal then statementsFrom group isGoal index ss else [] := by
  split
  next wanted =>
    rw [List.filter_eq_self]
    intro st member
    rw [isGoal_of_mem member, wanted]
  next unwanted =>
    rw [List.filter_eq_nil_iff]
    intro st member
    rw [isGoal_of_mem member]
    exact unwanted

theorem rendered_append (sts more : List Statement) :
    prover.rendered r (sts ++ more) = prover.rendered r sts ++ prover.rendered r more :=
  List.filterMap_append

theorem reported_append (sts more : List Statement) :
    prover.reported r (sts ++ more) = prover.reported r sts ++ prover.reported r more :=
  List.filterMap_append

/-- The formulas of the groups on one side are those of the sentences on that side. -/
theorem rendered_groups (side : Bool → Bool) (groups : List SentenceGroup) :
    ((groups.map fun g => (g.kind, prover.groupFormulas r g)).filter
        fun g => side (g.1 = .goal)).flatMap (fun g => g.2.1) =
      prover.rendered r
        ((groups.flatMap SentenceGroup.statements).filter fun st => side st.isGoal) := by
  induction groups with
  | nil => rfl
  | cons g groups ih =>
    rw [List.map_cons, List.filter_cons, List.flatMap_cons, List.filter_append,
      SentenceGroup.statements, filter_statementsFrom, rendered_append, ← ih,
      ← SentenceGroup.statements]
    split
    next => rw [List.flatMap_cons, groupFormulas_eq]
    next => rfl

theorem reported_groups (groups : List SentenceGroup) :
    (groups.map fun g => (g.kind, prover.groupFormulas r g)).flatMap (fun g => g.2.2) =
      prover.reported r (groups.flatMap SentenceGroup.statements) := by
  rw [List.flatMap_map, reported, List.filterMap_flatMap]
  simp only [groupFormulas_eq]
  rfl

/-- A problem is laid out from what can be rendered, with reports on the rest. -/
theorem compile_eq (t : Theory) (ground : ∀ fact ∈ t.facts, fact.isGround = true) :
    prover.compile t =
      ⟨prover.problem t.name
        (prover.rendered t.registry (t.statements.filter fun st => !st.isGoal))
        (prover.rendered t.registry (t.statements.filter fun st => st.isGoal)),
      prover.reported t.registry t.statements⟩ := by
  -- Facts have no variables, so that they are closed as they are.
  have facts := prover.formulas_eq t.registry id "Facts" false 0 t.facts
    fun fact member => (Sentence.closure_of_isGround (ground fact member)).symm
  have assumed : (statementsFrom "Facts" false 0 t.facts).filter (fun st => !st.isGoal) =
      statementsFrom "Facts" false 0 t.facts :=
    filter_statementsFrom Bool.not "Facts" false 0 t.facts
  have noGoals : (statementsFrom "Facts" false 0 t.facts).filter (fun st => st.isGoal) = [] :=
    filter_statementsFrom id "Facts" false 0 t.facts
  have goals := prover.rendered_groups t.registry (fun isGoal => isGoal) t.groups
  rw [Theory.statements, List.filter_append, List.filter_append, assumed, noGoals, List.append_nil,
    rendered_append, reported_append, ← prover.rendered_groups t.registry Bool.not, ← goals,
    ← reported_groups]
  simp only [compile, compileParts, facts, ne_eq, decide_not]

/-- The formula that a problem contains for a sentence. -/
def formula? (s : Sentence) : Option Text := (prover.checkedFormula r s s.closure).toOption

/-- A sentence is missing from a problem exactly if it has no first-order reading. -/
theorem formula?_eq_none_iff (s : Sentence) (expressible : s.isExpressible false = true) :
    prover.formula? r s = none ↔ s.Unreadable r := by
  have accepted := prover.checkedFormula_succeeds_iff r s expressible
  unfold formula?
  cases checked : prover.checkedFormula r s s.closure with
  | ok formula =>
    rw [checked] at accepted
    exact iff_of_false (by simp [Except.toOption]) (accepted.mp (.ok formula))
  | error e =>
    rw [checked] at accepted
    exact iff_of_true rfl (not_not.mp ((not_congr accepted).mp (Succeeds.not_error e)))

/-- Every sentence of a theory is stated by its problem. -/
theorem compile_states (t : Theory) (ground : ∀ fact ∈ t.facts, fact.isGround = true)
    (st : Statement) (member : st ∈ t.statements) :
    States (prover.compile t).text (prover.compile t).diagnostics st.group st.index st.sentence
      (prover.formula? t.registry st.sentence) := by
  rw [prover.compile_eq t ground]
  unfold formula?
  cases checked : prover.checkedFormula t.registry st.sentence st.sentence.closure with
  | ok formula =>
    refine .written (prover.infix_problem _ _ _ formula ?_)
    have rendered (side : Bool → Bool) (wanted : side st.isGoal = true) :
        formula ∈ prover.rendered t.registry (t.statements.filter fun st => side st.isGoal) :=
      List.mem_filterMap.mpr ⟨st, List.mem_filter.mpr ⟨member, wanted⟩, by
        simp [outcome, checked, Except.toOption]⟩
    -- The kind of the group decides in which of the two lists the formula is.
    cases goal : st.isGoal with
    | true => exact .inr (rendered id goal)
    | false => exact .inl (rendered Bool.not (by simp [goal]))
  | error e =>
    have reported : Diagnostic.ofError e st.group st.index st.sentence.text ∈
        prover.reported t.registry t.statements :=
      List.mem_filterMap.mpr ⟨st, member, by simp [outcome, checked]⟩
    exact .reported reported ⟨rfl, rfl, rfl⟩

/-- Whether the outcome for a sentence is what it should be: the formula of its closure, which has
no free variables, if it has a reading, and a report that gives its place otherwise. -/
inductive Settles (st : Statement) : Except Diagnostic Text → Prop where
  | formula {text : Text} (readable : ¬ st.sentence.Unreadable r)
      (closed : st.sentence.closure.freeVars = [])
      (written : prover.formula st.sentence.closure = .ok text) : Settles st (.ok text)
  | report {report : Diagnostic} (unreadable : st.sentence.Unreadable r)
      (concerns : report.Concerns st.group st.index st.sentence) : Settles st (.error report)

/-- Every statement is settled: it has the formula of its closure, or a report with its place. -/
theorem outcome_settles (st : Statement) (expressible : st.sentence.isExpressible false = true) :
    prover.Settles r st (prover.outcome r st) := by
  have accepted := prover.checkedFormula_succeeds_iff r st.sentence expressible
  unfold outcome
  cases checked : prover.checkedFormula r st.sentence st.sentence.closure with
  | ok formula =>
    rw [checked] at accepted
    have written := ((then_ok_iff _ _ formula).mp checked).2
    exact .formula (accepted.mp (.ok formula)) st.sentence.freeVars_closure written
  | error e =>
    rw [checked] at accepted
    have unreadable := not_not.mp ((not_congr accepted).mp (Succeeds.not_error e))
    exact .report unreadable ⟨rfl, rfl, rfl⟩

variable {prover r}

theorem Settles.succeeds_iff {st : Statement} {outcome : Except Diagnostic Text}
    (settles : prover.Settles r st outcome) : Succeeds outcome ↔ ¬ st.sentence.Unreadable r := by
  cases settles with
  | formula readable => exact iff_of_true (.ok _) readable
  | report unreadable => exact iff_of_false (Succeeds.not_error _) (not_not.mpr unreadable)

theorem Settles.exists_report {st : Statement} {outcome : Except Diagnostic Text}
    (settles : prover.Settles r st outcome) (unreadable : st.sentence.Unreadable r) :
    ∃ report, outcome = .error report ∧ report.Concerns st.group st.index st.sentence := by
  cases settles with
  | formula readable => exact absurd unreadable readable
  | report _ concerns => exact ⟨_, rfl, concerns⟩

end Prover

/-- The statements of a theory that was read can all stand in a document. -/
theorem Theory.expressible_of_mem_statements {t : Theory}
    (groups : ∀ g ∈ t.groups, ∀ s ∈ g.sentences, s.isExpressible false = true)
    (facts : ∀ fact ∈ t.facts, IsFact fact) {st : Statement} (member : st ∈ t.statements) :
    st.sentence.isExpressible false = true := by
  rcases List.mem_append.mp member with inGroups | inFacts
  · obtain ⟨g, inTheory, inGroup⟩ := List.mem_flatMap.mp inGroups
    exact groups g inTheory st.sentence (mem_of_mem_statementsFrom inGroup)
  · exact (facts st.sentence (mem_of_mem_statementsFrom inFacts)).isExpressible

/-- The problem of a theory accounts for each of its sentences, in both notations alike. Its text is a
title, the assumptions and the goals. The formulas of the sentences in goal groups are the goals and
all other formulas are the assumptions, the facts last; all are in order. A sentence with a
first-order reading has the formula of its closure, and on every other sentence there is a report that
gives its place. So both notations render the same sentences. -/
theorem Prover.compile_renders (t : Theory)
    (groups : ∀ g ∈ t.groups, ∀ s ∈ g.sentences, s.isExpressible false = true)
    (facts : ∀ fact ∈ t.facts, Theory.IsFact fact) :
    (∀ prover : Prover,
      prover.compile t =
        ⟨textOf (prover.layout t.name
          (prover.rendered t.registry (t.statements.filter fun st => !st.isGoal))
          (prover.rendered t.registry (t.statements.filter fun st => st.isGoal))),
        prover.reported t.registry t.statements⟩ ∧
      ∀ st ∈ t.statements, prover.Settles t.registry st (prover.outcome t.registry st)) ∧
    ∀ st ∈ t.statements, Succeeds (Prover.tptp.outcome t.registry st) ↔
      Succeeds (Prover.prover9.outcome t.registry st) := by
  have settles (prover : Prover) (st : Statement) (member : st ∈ t.statements) :
      prover.Settles t.registry st (prover.outcome t.registry st) :=
    prover.outcome_settles t.registry st (Theory.expressible_of_mem_statements groups facts member)
  refine ⟨fun prover => ⟨?_, settles prover⟩, fun st member => ?_⟩
  · rw [prover.compile_eq t fun fact member => (facts fact member).isGround, problem_eq]
  · rw [(settles .tptp st member).succeeds_iff, (settles .prover9 st member).succeeds_iff]

namespace Prover

private def near (a b : Sentence) : Sentence := .term "near" [a, b]

private def earth : Sentence := .const (.string "earth")

private def moon : Sentence := .const (.string "moon")

private def symmetry : Sentence :=
  .implies (near (.var "x" []) (.var "y" [])) (near (.var "y" []) (.var "x" []))

private def guess : Sentence := .weighted (.ofRatio false 1 2) (near earth earth)

private def incomplete : Sentence := .term "near" [earth]

private def heavy : Binary64 := .ofInt 10000000000000000000

private def mass : Sentence := .term "mass" [earth, .const (.float heavy)]

/-- A law with free variables, a guess, two questions, the first without an argument, and the mass of
a planet that is too large for a fraction. -/
private def orbits : Theory :=
  { Theory.empty "orbits" with
    registry := ⟨[], [⟨"near", [⟨"one", "str"⟩, ⟨"other", "str"⟩], [], []⟩]⟩
    groups := [⟨"questions", .goal, [], [incomplete, near moon earth]⟩,
      ⟨"laws", .plain, [], [symmetry, guess]⟩]
    facts := [mass, near earth moon] }

private theorem orbits_expressible :
    ∀ g ∈ orbits.groups, ∀ s ∈ g.sentences, s.isExpressible false = true := by
  decide +kernel

private theorem orbits_facts : ∀ fact ∈ orbits.facts, Theory.IsFact fact := by
  simp only [orbits, List.forall_mem_cons]
  exact ⟨⟨rfl, rfl, by decide +kernel⟩, ⟨rfl, rfl, rfl⟩, by simp⟩

private theorem guess_unreadable : guess.Unreadable orbits.registry :=
  .form guess .refl (by decide)

private theorem incomplete_unreadable : incomplete.Unreadable orbits.registry :=
  .arity "near" [earth] (Sentence.within_self _) _ rfl (by decide)

private theorem mass_unreadable : mass.Unreadable orbits.registry :=
  .float heavy ((Sentence.within_self _).of_child (by simp [mass, Sentence.children]))
    (by decide +kernel)

private theorem orbits_statements : orbits.statements =
    [⟨"questions", 0, true, incomplete⟩, ⟨"questions", 1, true, near moon earth⟩,
      ⟨"laws", 0, false, symmetry⟩, ⟨"laws", 1, false, guess⟩,
      ⟨"Facts", 0, false, mass⟩, ⟨"Facts", 1, false, near earth moon⟩] :=
  rfl

theorem compile_renders_orbits :
    (∀ g ∈ orbits.groups, ∀ s ∈ g.sentences, s.isExpressible false = true) ∧
    (∀ fact ∈ orbits.facts, Theory.IsFact fact) ∧
    (Prover.tptp.compile orbits).text =
      Text.ofString "% Problem: orbits\n" ++
      "fof(axiom1, axiom, ! [X, Y] : (near(X, Y) => near(Y, X))).\n" ++
      "fof(axiom2, axiom, near('earth', 'moon')).\n" ++
      "fof(goal1, conjecture, near('moon', 'earth')).\n" ∧
    (Prover.prover9.compile orbits).text =
      Text.ofString "% Problem: orbits\n" ++
      "formulas(assumptions).\n" ++
      "    all x y ((near(x, y) -> near(y, x))).\n" ++
      "    near(s_earth, s_moon).\n" ++
      "end_of_list.\n\n" ++
      "formulas(goals).\n" ++
      "    near(s_moon, s_earth).\n" ++
      "end_of_list.\n" ∧
    ∀ prover : Prover, ∃ first second third,
      (prover.compile orbits).diagnostics = [first, second, third] ∧
      first.Concerns "questions" 0 incomplete ∧ second.Concerns "laws" 1 guess ∧
      third.Concerns "Facts" 0 mass := by
  obtain ⟨compiled, alike⟩ := compile_renders orbits orbits_expressible orbits_facts
  refine ⟨orbits_expressible, orbits_facts, ?_, ?_, fun prover => ?_⟩
  · rw [(compiled .tptp).1]
    decide +kernel
  · rw [(compiled .prover9).1]
    decide +kernel
  obtain ⟨text, settles⟩ := compiled prover
  rw [orbits_statements] at text settles alike
  simp only [List.forall_mem_cons] at settles alike
  obtain ⟨settlesQuestion, -, -, settlesGuess, settlesMass, -⟩ := settles
  obtain ⟨-, question, law, -, -, fact, -⟩ := alike
  -- What is rendered in one notation is so in the other.
  have readable (st : Statement) (rendered : Succeeds (Prover.tptp.outcome orbits.registry st))
      (same : Succeeds (Prover.tptp.outcome orbits.registry st) ↔
        Succeeds (Prover.prover9.outcome orbits.registry st)) :
      Succeeds (prover.outcome orbits.registry st) := by
    cases prover with
    | tptp => exact rendered
    | prover9 => exact same.mp rendered
  obtain ⟨_, asked⟩ := readable _ ⟨_, rfl⟩ question
  obtain ⟨_, ruled⟩ := readable _ ⟨_, rfl⟩ law
  obtain ⟨_, stated⟩ := readable _ ⟨_, rfl⟩ fact
  obtain ⟨first, noQuestion, onQuestion⟩ := settlesQuestion.exists_report incomplete_unreadable
  obtain ⟨second, noGuess, onGuess⟩ := settlesGuess.exists_report guess_unreadable
  obtain ⟨third, noMass, onMass⟩ := settlesMass.exists_report mass_unreadable
  refine ⟨first, second, third, ?_, onQuestion, onGuess, onMass⟩
  rw [text]
  simp [reported, asked, ruled, stated, noQuestion, noGuess, noMass]

end Prover

end Clausal
