import Clausal.Proofs.LogicProgram
import Clausal.Proofs.SouffleProgram
import Clausal.Proofs.Templates
import Clausal.Proofs.VariableNames
import Clausal.Target.Prover

/-!
# Variables in emitted texts

The target languages ask for variables in upper camel case or in lower case. A clause or formula is
written with fixed texts between its variables, and each variable stands where it occurs under the name
that the language gives it. The names alone decide which variables the text tells apart: no clash is
looked for, so two variables become one exactly if their names are written alike.

Main result: `write_follows`; `write_identifies` has variables that become one in each language.
-/

namespace Clausal

/-! ### Applied predicates -/

namespace Arranges

variable {arrange : List Text → Text}

theorem none : Arranges arrange 0 :=
  ⟨⟨arrange [], [], []⟩, fun parts count => by
    simp [List.length_eq_zero_iff.mp count, Layout.text, Text.join]⟩

theorem two (opening middle closing : Text)
    (writes : ∀ a b, arrange [a, b] = opening ++ a ++ middle ++ b ++ closing) :
    Arranges arrange 2 := by
  refine ⟨⟨opening, middle, closing⟩, fun parts count => ?_⟩
  obtain ⟨a, b, rfl⟩ := List.length_eq_two.mp count
  rw [writes, Layout.text, Text.join, List.intercalate_cons_cons, List.intercalate_singleton]
  simp only [List.append_assoc]

theorem between {nested : Bool} {sign : Text}
    (writes : ∀ a b, arrange [a, b] = Operator.between nested sign a b) : Arranges arrange 2 := by
  cases nested with
  | false =>
    refine two [] (" " ++ sign ++ " ") [] fun a b => ?_
    rw [writes, Operator.between]
    simp
  | true =>
    refine two "(" (" " ++ sign ++ " ") ")" fun a b => ?_
    rw [writes, Operator.between]
    simp

theorem bracketed (name : Text) {count : Nat} (writes : ∀ parts, parts.length = count →
    arrange parts = name ++ "(" ++ Text.join ", " parts ++ ")") : Arranges arrange count :=
  ⟨⟨name ++ "(", ", ", ")"⟩, writes⟩

/-- A table of signs decides which predicates are infix; all others stand before their arguments. -/
theorem of_signs (nested : Bool) (sign? : Option Text) (name : Text)
    (infixes : ∀ sign, sign? = some sign → ∀ a b, arrange [a, b] = Operator.between nested sign a b)
    (prefixes : ∀ parts, parts ≠ [] → (sign? = .none ∨ parts.length ≠ 2) →
      arrange parts = name ++ "(" ++ Text.join ", " parts ++ ")") (count : Nat) :
    Arranges arrange count := by
  have nonempty {parts : List Text} (counted : parts.length = count) (some : count ≠ 0) :
      parts ≠ [] := by
    rintro rfl
    exact some counted.symm
  by_cases empty : count = 0
  · rw [empty]
    exact none
  by_cases pair : count = 2
  · cases found : sign? with
    | none =>
      exact bracketed name fun parts counted =>
        prefixes parts (nonempty counted empty) (.inl found)
    | some sign =>
      rw [pair]
      exact between (infixes sign found)
  · exact bracketed name fun parts counted =>
      prefixes parts (nonempty counted empty) (.inr (counted ▸ pair))

end Arranges

/-- Whatever the predicate is, its application puts the arguments at fixed places. -/
theorem Prolog.applied_arranges (nested : Bool) (p : Text) (count : Nat) :
    Arranges (applied nested p) count := by
  refine .of_signs nested (Operator.prologSigns.lookup p) (Text.atom p.toLower) ?_
    (applied_ordinary nested p) count
  intro sign found a b
  simp only [applied, found]

theorem Prover9.applied_arranges (nested : Bool) (p : Text) (count : Nat) :
    Arranges (applied nested p) count := by
  refine .of_signs nested (Operator.signs.lookup p) p ?_ ?_ count
  · intro sign found a b
    simp only [applied, found]
  · intro parts nonempty notInfix
    fun_cases applied nested p parts with
    | case1 sign a b found => simp_all
    | case2 => contradiction
    | case3 => rfl

theorem Souffle.applied_arranges (nested : Bool) (p : Text) (count : Nat) :
    Arranges (applied nested p) count := by
  refine .of_signs nested (Operator.signs.lookup p) p ?_ ?_ count
  · intro sign found a b
    simp only [applied, found]
  · intro parts nonempty notInfix
    fun_cases applied nested p parts with
    | case1 sign a b found => simp_all
    | case2 => rfl

theorem Tptp.applied_arranges (p : Text) (count : Nat) : Arranges (applied p) count := by
  by_cases empty : count = 0
  · rw [empty]
    exact .none
  by_cases pair : count = 2
  · rw [pair]
    by_cases isEq : p = "eq"
    · exact .two [] " = " [] fun a b => by simp [applied, isEq]
    by_cases isNe : p = "ne"
    · exact .two [] " != " [] fun a b => by rw [applied, if_neg isEq, if_pos isNe]; simp
    · exact .two (Text.atom p.toLower ++ "(") ", " ")" fun a b => by simp [applied, isEq, isNe]
  · refine .bracketed (Text.atom p.toLower) fun parts counted => ?_
    fun_cases applied p parts with
    | case1 => exact absurd counted.symm empty
    | case2 | case3 | case4 => exact absurd counted.symm pair
    | case5 => rfl

/-! ### Arguments -/

section Arguments

variable {ε : Type} {render : Text → Text} {argument : Sentence → Except ε Text}

/-- Arguments follow their templates in every notation that writes variables by name, and terms as
predicates applied to arguments. -/
theorem argument_follows {applied : Text → List Text → Text}
    (arranges : ∀ p count, Arranges (applied p) count)
    (var : ∀ x type, argument (.var x type) = .ok (render x))
    (term : ∀ p args, argument (.term p args) = do return applied p (← args.mapM argument))
    (other : ∀ s, s.isArgument = false → ∃ e, argument s = .error e) (s : Sentence) :
    Follows render argument s := by
  induction s with
  | var x type => exact (Fills.place x).of_eq fun f => var (f x) type
  | const v => exact .constant (argument (.const v))
  | term p args ih =>
    refine ((Follows.mapM args ih).arranged (arranges p args.length)).of_eq fun f => ?_
    rw [Sentence.rename, term]
  | _ => exact .error fun f => other _ rfl

end Arguments

/-- An argument is written by a template that depends on nothing but the form of the term. -/
theorem Prolog.argument_follows (s : Sentence) : Follows Text.upperCamel argument s := by
  refine Clausal.argument_follows (applied_arranges true) (fun _ _ => rfl) ?_ ?_ s
  · intro p args
    rw [argument, arguments_eq]
  · intro s notArgument
    cases s <;> simp_all [argument, Sentence.isArgument, Sentence.kind]

theorem Souffle.argument_follows (s : Sentence) : Follows Text.toLower argument s := by
  refine Clausal.argument_follows (applied_arranges true) (fun _ _ => rfl) ?_ ?_ s
  · intro p args
    rw [argument, arguments_eq]
  · intro s notArgument
    cases s <;> simp_all [argument, Sentence.isArgument, Sentence.kind]

theorem Tptp.arguments_eq (ss : List Sentence) : arguments ss = ss.mapM argument := by
  induction ss with
  | nil => rfl
  | cons s ss ih => rw [arguments, List.mapM_cons, ih]

theorem Tptp.argument_follows (s : Sentence) : Follows Text.upperCamel argument s := by
  refine Clausal.argument_follows applied_arranges (fun _ _ => rfl) ?_ ?_ s
  · intro p args
    rw [argument, arguments_eq]
  · intro s notArgument
    cases s <;> simp_all [argument, Sentence.isArgument, Sentence.kind]

theorem Prover9.arguments_eq (ss : List Sentence) : arguments ss = ss.mapM argument := by
  induction ss with
  | nil => rfl
  | cons s ss ih => rw [arguments, List.mapM_cons, ih]

theorem Prover9.argument_follows (s : Sentence) : Follows Text.toLower argument s := by
  refine Clausal.argument_follows (applied_arranges true) (fun _ _ => rfl) ?_ ?_ s
  · intro p args
    rw [argument, arguments_eq]
  · intro s notArgument
    cases s <;> simp_all [argument, Sentence.isArgument, Sentence.kind]

/-! ### Literals and formulas -/

/-- A literal is written by a template, with its variables in upper camel case. -/
theorem Prolog.literal_follows (s : Sentence) : Follows Text.upperCamel literal s := by
  induction s with
  | term p args =>
    have arguments := Follows.mapM args fun a _ => argument_follows a
    refine (arguments.arranged (applied_arranges false p args.length)).of_eq fun f => ?_
    rw [Sentence.rename, literal, arguments_eq]
  | neg s ih => exact (ih.wrap "\\+ (" ")").of_eq fun f => rfl
  | conj ss ih =>
    cases ss with
    | nil => exact .constant (.ok "true")
    | cons s ss =>
      refine (Follows.operands [] ", " [] s ss ih).of_eq fun f => ?_
      simp only [Sentence.rename, Sentence.renameAll, literal, literals_eq, List.nil_append,
        List.append_nil]
  | disj ss ih =>
    cases ss with
    | nil => exact .constant (.ok "fail")
    | cons s ss =>
      refine (Follows.operands "(" "; " ")" s ss ih).of_eq fun f => ?_
      rw [Sentence.rename, Sentence.renameAll, literal, literals_eq]
  | _ => exact .error fun f => ⟨_, rfl⟩

theorem Tptp.formulas_eq (ss : List Sentence) : formulas ss = ss.mapM formula := by
  induction ss with
  | nil => rfl
  | cons s ss ih => rw [formulas, List.mapM_cons, ih]

/-- The variables of a quantifier, before what they are bound in. -/
theorem Tptp.quantified_follows (mark : Text) (vars : List TypedName) : ∃ t : Template,
    t.places = vars.map TypedName.name ∧ ∀ f body,
      quantified mark (vars.map (TypedName.rename f)) body =
        t.fill (fun x => Text.upperCamel (f x)) ++ body ++ [] := by
  cases vars with
  | nil => exact ⟨[], rfl, fun _ body => (List.append_nil body).symm⟩
  | cons v vars =>
    let names := Template.join ", " ((v :: vars).map fun v => [.place v.name])
    refine ⟨[.fixed (mark ++ " [")] ++ names ++ [.fixed "] : "], ?_, fun f body => ?_⟩
    · rw [Template.places_append, Template.places_append, Template.places_join, Template.places_fixed,
        Template.places_fixed, List.nil_append, List.append_nil, List.flatMap_map]
      exact List.map_eq_flatMap.symm
    · rw [Template.fill_append, Template.fill_append, Template.fill_join, Template.fill_fixed,
        Template.fill_fixed, quantified, List.isEmpty_map, List.isEmpty_cons, if_neg Bool.false_ne_true,
        List.map_map, List.map_map]
      simp [Function.comp_def, Template.fill, TypedName.rename]

/-- Quantified variables are filled in as well, at the quantifier and below. -/
theorem Tptp.formula_follows (s : Sentence) : Follows Text.upperCamel formula s := by
  induction s with
  | term p args =>
    have arguments := Follows.mapM args fun a _ => argument_follows a
    refine (arguments.arranged (applied_arranges p args.length)).of_eq fun f => ?_
    rw [Sentence.rename, formula, arguments_eq]
  | neg s ih =>
    -- Whether parentheses are needed does not depend on names.
    have tight (f : Text → Text) : isTight (s.rename f) = isTight s := by
      cases s <;> simp [isTight, Sentence.rename, Sentence.renameAll_eq]
    by_cases isTight s = true
    · refine (ih.wrap "~" []).of_eq fun f => ?_
      simp [Sentence.rename, formula, *]
    · refine (ih.wrap "~(" ")").of_eq fun f => ?_
      simp [Sentence.rename, formula, *]
  | conj ss ih =>
    cases ss with
    | nil => exact .constant (.ok "$true")
    | cons s ss =>
      refine (Follows.operands "(" " & " ")" s ss ih).of_eq fun f => ?_
      rw [Sentence.rename, Sentence.renameAll, formula, formulas_eq]
  | disj ss ih =>
    cases ss with
    | nil => exact .constant (.ok "$false")
    | cons s ss =>
      refine (Follows.operands "(" " | " ")" s ss ih).of_eq fun f => ?_
      rw [Sentence.rename, Sentence.renameAll, formula, formulas_eq]
  | implies a b left right => exact (left.pair right "(" " => " ")").of_eq fun f => rfl
  | iff a b left right => exact (left.pair right "(" " <=> " ")").of_eq fun f => rfl
  | forAll vars s ih =>
    obtain ⟨t, places, writes⟩ := quantified_follows "!" vars
    rw [Follows, Sentence.occurrences, ← places]
    refine (ih.behind t []).of_eq fun f => ?_
    simp only [Sentence.rename, formula, writes]
  | forSome vars s ih =>
    obtain ⟨t, places, writes⟩ := quantified_follows "?" vars
    rw [Follows, Sentence.occurrences, ← places]
    refine (ih.behind t []).of_eq fun f => ?_
    simp only [Sentence.rename, formula, writes]
  | _ => exact .error fun f => ⟨_, rfl⟩

theorem Prover9.formulas_eq (ss : List Sentence) : formulas ss = ss.mapM formula := by
  induction ss with
  | nil => rfl
  | cons s ss ih => rw [formulas, List.mapM_cons, ih]

/-- The variables of a quantifier, before what they are bound in; without any there is no bracket. -/
theorem Prover9.quantified_follows (word : Text) (vars : List TypedName) :
    ∃ (t : Template) (closing : Text), t.places = vars.map TypedName.name ∧ ∀ f body,
      quantified word (vars.map (TypedName.rename f)) body =
        t.fill (fun x => Text.toLower (f x)) ++ body ++ closing := by
  cases vars with
  | nil => exact ⟨[], [], rfl, fun _ body => (List.append_nil body).symm⟩
  | cons v vars =>
    let spaced (v : TypedName) : Template := [.fixed " ", .place v.name]
    refine ⟨[.fixed word] ++ (v :: vars).flatMap spaced ++ [.fixed " ("], ")", ?_, fun f body => ?_⟩
    · rw [Template.places_append, Template.places_append, Template.places_fixed,
        Template.places_fixed, List.nil_append, List.append_nil, Template.places_flatMap]
      exact List.map_eq_flatMap.symm
    · have filled (w : TypedName) : (spaced w).fill (fun x => Text.toLower (f x)) =
          ascii ' ' :: (f w.name).toLower :=
        congrArg (ascii ' ' :: ·) (List.append_nil (f w.name).toLower)
      simp only [Template.fill_append, Template.fill_fixed, Template.fill_flatMap, filled, quantified,
        List.isEmpty_map, List.isEmpty_cons, if_neg Bool.false_ne_true, List.flatMap_map,
        TypedName.rename, List.append_assoc]

theorem Prover9.formula_follows (s : Sentence) : Follows Text.toLower formula s := by
  induction s with
  | term p args =>
    have arguments := Follows.mapM args fun a _ => argument_follows a
    refine (arguments.arranged (applied_arranges false p args.length)).of_eq fun f => ?_
    rw [Sentence.rename, formula, arguments_eq]
  | neg s ih => exact (ih.wrap "- ( " " )").of_eq fun f => rfl
  | conj ss ih =>
    cases ss with
    | nil => exact .constant (.ok "$T")
    | cons s ss =>
      refine (Follows.operands "(" " & " ")" s ss ih).of_eq fun f => ?_
      rw [Sentence.rename, Sentence.renameAll, formula, formulas_eq]
  | disj ss ih =>
    cases ss with
    | nil => exact .constant (.ok "$F")
    | cons s ss =>
      refine (Follows.operands "(" " | " ")" s ss ih).of_eq fun f => ?_
      rw [Sentence.rename, Sentence.renameAll, formula, formulas_eq]
  | implies a b left right => exact (left.pair right "(" " -> " ")").of_eq fun f => rfl
  | iff a b left right => exact (left.pair right "(" " <-> " ")").of_eq fun f => rfl
  | forAll vars s ih =>
    obtain ⟨t, closing, places, writes⟩ := quantified_follows "all" vars
    rw [Follows, Sentence.occurrences, ← places]
    refine (ih.behind t closing).of_eq fun f => ?_
    simp only [Sentence.rename, formula, writes]
  | forSome vars s ih =>
    obtain ⟨t, closing, places, writes⟩ := quantified_follows "exists" vars
    rw [Follows, Sentence.occurrences, ← places]
    refine (ih.behind t closing).of_eq fun f => ?_
    simp only [Sentence.rename, formula, writes]
  | _ => exact .error fun f => ⟨_, rfl⟩

/-! ### Rules of Datalog -/

theorem Fills.ofError {render : Text → Text} {write : (Text → Text) → Except Error Text}
    {names : List Text} (fills : Fills render write names) :
    Fills render (fun f => TargetFault.ofError (write f)) names := by
  rcases fills with fails | ⟨t, places, writes⟩
  · refine .inl fun f => ?_
    obtain ⟨e, failed⟩ := fails f
    exact ⟨_, congrArg TargetFault.ofError failed⟩
  · exact .inr ⟨t, places, fun f => congrArg TargetFault.ofError (writes f)⟩

namespace Sentence

theorem isArgument_rename (f : Text → Text) (s : Sentence) :
    (s.rename f).isArgument = s.isArgument := by
  rw [isArgument, isArgument, kind_rename]

/-- Whether a term can be built does not depend on names. -/
theorem build_term_rename (f : Text → Text) (p : Text) (args : List Sentence) :
    Build.term p (renameAll f args) = rename f <$> Build.term p args := by
  have argument (s : Sentence) : Build.argument p (s.rename f) = rename f <$> Build.argument p s := by
    have missing : (s.rename f).isMissing = s.isMissing := by cases s <;> rfl
    rw [Build.argument, Build.argument, missing, isArgument_rename, kind_rename]
    split
    · rfl
    · split <;> rfl
  have arguments : (renameAll f args).mapM (Build.argument p) =
      renameAll f <$> args.mapM (Build.argument p) := by
    induction args with
    | nil => rfl
    | cons s ss ih =>
      rw [renameAll, List.mapM_cons, List.mapM_cons, argument, ih]
      cases Build.argument p s with
      | error e => rfl
      | ok t => cases ss.mapM (Build.argument p) <;> rfl
  rw [Build.term, Build.term, arguments]
  cases args.mapM (Build.argument p) <;> rfl

end Sentence

namespace Souffle

theorem atom_follows (p : Text) (args : List Sentence) :
    Fills Text.toLower (fun f => atom p (Sentence.renameAll f args))
      (Sentence.occurrencesAll args) := by
  have arguments := Follows.mapM args fun a _ => argument_follows a
  refine (arguments.arranged (applied_arranges false p args.length)).ofError.of_eq fun f => ?_
  rw [atom, arguments_eq]
  cases (Sentence.renameAll f args).mapM argument <;> rfl

/-- Only comparisons of two arguments have a complement; everything else is negated by a mark. -/
theorem negatedAtom_ordinary (p : Text) (args : List Sentence)
    (notComparison : complements.lookup p = none ∨ args.length ≠ 2) :
    negatedAtom p args = do return ascii '!' :: (← atom p args) := by
  fun_cases negatedAtom p args with
  | case1 complement a b found =>
    rcases notComparison with missing | other
    · rw [missing] at found
      cases found
    · exact absurd rfl other
  | case2 => rfl

/-- The complement of a comparison is chosen by the predicate, so that names do not matter. -/
theorem negatedAtom_follows (p : Text) (args : List Sentence) :
    Fills Text.toLower (fun f => negatedAtom p (Sentence.renameAll f args))
      (Sentence.occurrencesAll args) := by
  have ordinary (notComparison : complements.lookup p = none ∨ args.length ≠ 2) :
      Fills Text.toLower (fun f => negatedAtom p (Sentence.renameAll f args))
        (Sentence.occurrencesAll args) := by
    refine ((atom_follows p args).wrap "!" []).of_eq fun f => ?_
    have length : (Sentence.renameAll f args).length = args.length := by
      rw [Sentence.renameAll_eq, List.length_map]
    rw [negatedAtom_ordinary p _ (length ▸ notComparison)]
    simp only [List.append_nil]
    rfl
  cases found : complements.lookup p with
  | none => exact ordinary (.inl found)
  | some complement =>
    by_cases pair : args.length = 2
    · obtain ⟨a, b, rfl⟩ := List.length_eq_two.mp pair
      have compared (f : Text → Text) : negatedAtom p (Sentence.renameAll f [a, b]) = (do
          let _ ← TargetFault.ofBuild (Sentence.rename f <$> Sentence.Build.term complement [a, b])
          atom complement (Sentence.renameAll f [a, b])) := by
        rw [← Sentence.build_term_rename]
        simp only [Sentence.renameAll, negatedAtom, found]
      -- The complementary comparison is built under every renaming or under none.
      cases built : Sentence.Build.term complement [a, b] with
      | error fault => exact .error fun f => ⟨.unbuildable fault, by rw [compared, built]; rfl⟩
      | ok s => exact (atom_follows complement [a, b]).of_eq fun f => by rw [compared, built]; rfl
    · exact ordinary (.inr pair)

theorem literal_follows (s : Sentence) : Follows Text.toLower literal s := by
  cases s with
  | term p args => exact atom_follows p args
  | neg s =>
    cases s with
    | term p args => exact negatedAtom_follows p args
    | _ => exact .error fun f => ⟨_, rfl⟩
  | _ => exact .error fun f => ⟨_, rfl⟩

end Souffle

/-! ### Clauses -/

namespace Clause

def rename (f : Text → Text) (c : Clause) : Clause :=
  { c with
    head := c.head.map (Sentence.rename f)
    body := Sentence.renameAll f c.body
    vars := c.vars.map (TypedName.rename f) }

/-- The variables that occur in a clause, the head before the body. -/
def occurrences (c : Clause) : List Text :=
  c.head.elim [] Sentence.occurrences ++ Sentence.occurrencesAll c.body

theorem rename_self (c : Clause) : c.rename id = c := by
  have head : c.head.map (Sentence.rename id) = c.head := by
    cases c.head with
    | none => rfl
    | some h => exact congrArg some h.rename_self
  have body : Sentence.renameAll id c.body = c.body := by
    rw [Sentence.renameAll_eq, List.map_congr_left fun s _ => s.rename_self, List.map_id']
  have vars : c.vars.map (TypedName.rename id) = c.vars := List.map_id c.vars
  rw [rename, head, body, vars]

theorem neck_rename (f : Text → Text) (c : Clause) : (c.rename f).neck = c.neck := by
  have empty : (c.rename f).body.isEmpty = c.body.isEmpty := by
    rw [rename, Sentence.renameAll_eq, List.isEmpty_map]
  have constraint : (c.rename f).isConstraint = c.isConstraint := Option.isNone_map
  rw [neck, neck, empty, constraint]

end Clause

/-- A head, and a body after the neck. -/
theorem Fills.clause {render : Text → Text} {literal : Sentence → Except TargetFault Text}
    (literals : ∀ s, Follows render literal s) {head : (Text → Text) → Except TargetFault Text}
    {names : List Text} (heads : Fills render head names) (c : Clause) :
    Fills render (fun f => do
      let first ← head f
      return first ++ (c.rename f).neck ++ Text.join ", " (← (c.rename f).body.mapM literal) ++ ".")
      (names ++ Sentence.occurrencesAll c.body) := by
  have arranges : Arranges (fun parts => c.neck ++ Text.join ", " parts ++ ".") c.body.length :=
    ⟨⟨c.neck, ", ", "."⟩, fun _ _ => rfl⟩
  have body := (Follows.mapM c.body fun s _ => literals s).arranged arranges
  refine (heads.append body).of_eq fun f => ?_
  rw [Clause.neck_rename, Clause.rename]
  cases head f with
  | error e => rfl
  | ok first =>
    cases written : (Sentence.renameAll f c.body).mapM literal with
    | error e => rfl
    | ok parts => exact congrArg Except.ok (by simp only [List.append_assoc])

/-- A clause of Prolog is a template filled with names in upper camel case. -/
theorem Prolog.clause_follows (c : Clause) :
    Fills Text.upperCamel (fun f => clause (c.rename f)) c.occurrences := by
  cases found : c.head with
  | none =>
    rw [Clause.occurrences, found]
    refine (Fills.clause literal_follows (.constant (.ok [])) c).of_eq fun f => ?_
    rw [clause, literals_eq, Clause.rename, found]
    rfl
  | some h =>
    rw [Clause.occurrences, found]
    refine (Fills.clause literal_follows (literal_follows h) c).of_eq fun f => ?_
    rw [clause, literals_eq, Clause.rename, found]
    rfl

theorem LogicProgram.clauseLine_follows (program : LogicProgram) (c : Clause) :
    Fills Text.upperCamel (fun f => program.clauseLine (c.rename f)) c.occurrences := by
  let weight := if program = .problog then ProbLog.weightMark c.weight else []
  exact ((Prolog.clause_follows c).wrap weight "\n").of_eq fun f => rfl

/-- A Datalog rule is a template filled with names in lower case. -/
theorem Souffle.clause_follows (c : Clause) :
    Fills Text.toLower (fun f => clause (c.rename f)) c.occurrences := by
  cases weight : c.weight with
  | some w =>
    refine .error fun f => ⟨.refused (.weightedClause (c.rename f).text), ?_⟩
    have weighted : (c.rename f).weight = some w := weight
    simp only [clause, weighted]
  | none =>
    have unweighted (f : Text → Text) : (c.rename f).weight = none := weight
    cases found : c.head with
    | none =>
      refine .error fun f => ⟨.refused (.constraintClause (c.rename f).text), ?_⟩
      have headless : (c.rename f).head = none := congrArg (Option.map _) found
      simp only [clause, unweighted, headless]
    | some h =>
      have headed (f : Text → Text) : (c.rename f).head = some (h.rename f) :=
        congrArg (Option.map _) found
      rw [Clause.occurrences, found]
      refine (Fills.clause literal_follows (literal_follows h) c).of_eq fun f => ?_
      simp only [clause, unweighted, headed]

/-! ### Which variables a text tells apart -/

/-- A clause or formula in one of the target languages. -/
inductive Emission where
  | logic (program : LogicProgram) (c : Clause)
  | datalog (c : Clause)
  | formula (prover : Prover) (s : Sentence)

namespace Emission

/-- The text of a clause or formula, if the language accepts it. -/
def write : Emission → Except TargetFault Text
  | .logic program c => program.clauseLine c
  | .datalog c => Souffle.clause c
  | .formula prover s => TargetFault.ofError (prover.formula s)

def occurrences : Emission → List Text
  | .logic _ c => c.occurrences
  | .datalog c => c.occurrences
  | .formula _ s => s.occurrences

def rename (f : Text → Text) : Emission → Emission
  | .logic program c => .logic program (c.rename f)
  | .datalog c => .datalog (c.rename f)
  | .formula prover s => .formula prover (s.rename f)

/-- The name that the language gives to a variable. -/
def render : Emission → Text → Text
  | .logic .. => Text.upperCamel
  | .datalog _ => Text.toLower
  | .formula .tptp _ => Text.upperCamel
  | .formula .prover9 _ => Text.toLower

/-- Whether two names are one in the language: the same words in upper camel case, the same letters in
lower case. -/
def Alike : Emission → Text → Text → Prop
  | .logic .. => Text.SameWords
  | .datalog _ => Text.SameLetters
  | .formula .tptp _ => Text.SameWords
  | .formula .prover9 _ => Text.SameLetters

theorem rename_self (e : Emission) : e.rename id = e := by
  cases e with
  | logic program c => exact congrArg (logic program) c.rename_self
  | datalog c => exact congrArg datalog c.rename_self
  | formula prover s => exact congrArg (formula prover) s.rename_self

/-- In every language, a clause or a formula is a template filled with the names of its
variables. -/
theorem fills (e : Emission) : Fills e.render (fun f => (e.rename f).write) e.occurrences := by
  cases e with
  | logic program c => exact program.clauseLine_follows c
  | datalog c => exact Souffle.clause_follows c
  | formula prover s =>
    cases prover with
    | tptp => exact Fills.ofError (Tptp.formula_follows s)
    | prover9 => exact Fills.ofError (Prover9.formula_follows s)

/-- Two variables get the same name exactly if the language takes their names for one. -/
theorem render_eq_iff (e : Emission) (x y : Text) : e.render x = e.render y ↔ e.Alike x y := by
  cases e with
  | logic => exact Text.upperCamel_eq_iff x y
  | datalog => exact Text.toLower_eq_iff x y
  | formula prover =>
    cases prover with
    | tptp => exact Text.upperCamel_eq_iff x y
    | prover9 => exact Text.toLower_eq_iff x y

/-- The text of an accepted clause or formula is fixed but for its variables, which stand under their
names in the language where they occur. Two of them are told apart by the text exactly if their names
are not alike in the language. -/
theorem write_follows (e : Emission) (text : Text) (accepted : e.write = .ok text) :
    ∃ t : Template, t.places = e.occurrences ∧ text = t.fill e.render ∧
      (∀ f, (e.rename f).write = .ok (t.fill fun x => e.render (f x))) ∧
      ∀ x ∈ e.occurrences, ∀ y ∈ e.occurrences, e.render x = e.render y ↔ e.Alike x y := by
  rcases e.fills with fails | ⟨t, places, writes⟩
  · obtain ⟨fault, failed⟩ : ∃ fault, (e.rename id).write = .error fault := fails id
    rw [rename_self, accepted] at failed
    cases failed
  · have written : (e.rename id).write = .ok (t.fill e.render) := writes id
    rw [rename_self, accepted] at written
    exact ⟨t, places, Except.ok.inj written, writes, fun x _ y _ => e.render_eq_iff x y⟩

/-- A rule whose two variables have nothing in common in upper camel case. -/
private def connects : Clause where
  head := some (.term "Linked" [.var "source_id" "int", .var "sourceName" "str"])
  body := [.term "node" [.var "source_id" "int", .var "sourceName" "str"],
    .neg (.term "closed" [.var "source_id" "int"])]
  vars := [⟨"source_id", "int"⟩, ⟨"sourceName", "str"⟩]
  weight := none
  rung := none
  source := 0

/-- A formula in which one quantifier captures the variable of another. -/
private def dominates : Sentence :=
  .forAll [⟨"x", []⟩] (.forSome [⟨"X", []⟩] (.term "above" [.var "X" [], .var "x" []]))

theorem write_follows_rules :
    (∃ t : Template, t.places = (logic .prolog connects).occurrences ∧
      Text.ofString "linked(SourceId, SourceName) :- " ++
        "node(SourceId, SourceName), \\+ (closed(SourceId)).\n" = t.fill Text.upperCamel ∧
      ¬ (logic .prolog connects).Alike "source_id" "sourceName") ∧
    (∃ t : Template, t.places = (formula .prover9 dominates).occurrences ∧
      Text.ofString "all x (exists x (above(x, x)))" = t.fill Text.toLower ∧
      (formula .prover9 dominates).Alike "x" "X") := by
  constructor
  · obtain ⟨t, places, written, -, apart⟩ := write_follows (logic .prolog connects) _ rfl
    refine ⟨t, places, written, ?_⟩
    rw [← apart "source_id" (by decide) "sourceName" (by decide)]
    decide
  · obtain ⟨t, places, written, -, apart⟩ := write_follows (formula .prover9 dominates) _ rfl
    refine ⟨t, places, written, ?_⟩
    rw [← apart "x" (by decide) "X" (by decide)]
    decide

/-- A term over two variables, as a fact. -/
private def pairFact (x y : Text) : Clause :=
  ⟨some (.term "p" [.var x [], .var y []]), [], [], none, none, 0⟩

/-- Different variables of one clause or formula can become one in each of the languages. -/
theorem write_identifies :
    (Text.ofString "a_b" ≠ "aB" ∧ Text.upperCamel "a_b" = Text.upperCamel "aB" ∧
      (logic .prolog (pairFact "a_b" "aB")).write = .ok "p(AB, AB).\n" ∧
      (logic .problog (pairFact "a_b" "aB")).write = .ok "p(AB, AB).\n" ∧
      (formula .tptp (.term "p" [.var "a_b" [], .var "aB" []])).write = .ok "p(AB, AB)") ∧
    (Text.ofString "x" ≠ "X" ∧ Text.toLower "x" = Text.toLower "X" ∧
      (datalog (pairFact "x" "X")).write = .ok "p(x, x)." ∧
      (formula .prover9 (.term "p" [.var "x" [], .var "X" []])).write = .ok "p(x, x)") := by
  exact ⟨⟨by decide, by decide, rfl, rfl, rfl⟩, by decide, by decide, rfl, rfl⟩

end Emission

end Clausal
