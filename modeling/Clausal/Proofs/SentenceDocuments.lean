import Clausal.Proofs.Expressions
import Clausal.Proofs.Occurrence
import Clausal.Sentence.Document

/-!
# Sentences in documents

Which sentences a document can hold, and that each of them is read back from what is written for it.
Writing and reading meet at the expression that a sentence is written as: every sentence without
missing parts and with finite numbers is written as such an expression, whether it can be read or not,
and whatever is read from the expression is the sentence.
-/

namespace Clausal

theorem Text.join_cons (separator part : Text) (parts : List Text) :
    join separator (part :: parts) = part ++ parts.flatMap fun next => separator ++ next := by
  induction parts generalizing part with
  | nil => simp [join]
  | cons next parts ih =>
    have later := ih next
    unfold join at later ⊢
    rw [List.intercalate_cons_cons, later, List.flatMap_cons, List.append_assoc, List.append_assoc]

/-- A weight lies between zero and one, so that it is finite. -/
theorem Binary64.isFinite_of_isWeight (w : Binary64) (weight : w.isWeight = true) :
    w.isFinite = true := by
  -- A weight is at most one, far below the exponent that infinities and undefined values have.
  have small : w.magnitude ≤ oneField * leadingBit := by
    simp only [isWeight, Bool.or_eq_true, beq_iff_eq, Bool.and_eq_true, decide_eq_true_eq] at weight
    omega
  have field : w.field ≤ oneField := Nat.div_le_of_le_mul (by rwa [Nat.mul_comm])
  rw [isFinite, bne_iff_ne]
  exact Nat.ne_of_lt (Nat.lt_of_le_of_lt field (by decide))

def Value.isFinite : Value → Bool
  | .float x => x.isFinite
  | _ => true

/-- The atom that a constant is written as. -/
def Value.atom : Value → Atom
  | .null => .null
  | .bool b => .bool b
  | .int n => .int n
  | .float x => .float x
  | .string t => .string t

namespace Sentence

mutual

/-- Whether a sentence can stand in a document, as an argument or on its own. Constants stand only as
arguments, and arguments are terms, variables and constants. That constants are finite, that weights
lie between zero and one and that nothing is missing is checked when a sentence is built. -/
def isExpressible (asArgument : Bool) : Sentence → Bool
  | .term _ args => allExpressible true args
  | .var .. => true
  | .const v => asArgument && v.isFinite
  | .neg s => !asArgument && isExpressible false s
  | .conj ss => !asArgument && allExpressible false ss
  | .disj ss => !asArgument && allExpressible false ss
  | .implies a b => !asArgument && (isExpressible false a && isExpressible false b)
  | .iff a b => !asArgument && (isExpressible false a && isExpressible false b)
  | .forAll _ s => !asArgument && isExpressible false s
  | .forSome _ s => !asArgument && isExpressible false s
  | .weighted w s => !asArgument && (w.isWeight && isExpressible false s)
  | .evidence _ s => !asArgument && isExpressible false s
  | .missing => false

def allExpressible (asArgument : Bool) : List Sentence → Bool
  | [] => true
  | s :: ss => isExpressible asArgument s && allExpressible asArgument ss

end

theorem allExpressible_iff (asArgument : Bool) (ss : List Sentence) :
    allExpressible asArgument ss = true ↔ ∀ s ∈ ss, isExpressible asArgument s = true := by
  induction ss with
  | nil => simp [allExpressible]
  | cons s ss ih => simp [allExpressible, ih]

/-- What can be written as an argument may stand as one. -/
theorem isArgument_of_isExpressible (s : Sentence) (expressible : isExpressible true s = true) :
    s.isArgument = true := by
  cases s with
  | const v | term p args | var name type => rfl
  | _ => exact absurd expressible Bool.false_ne_true

theorem Build.term_ok (p : Text) (args : List Sentence)
    (arguments : ∀ s ∈ args, s.isArgument = true) : Build.term p args = .ok (.term p args) := by
  have each : args.mapM (Build.argument p) = .ok args := by
    rw [mapM_ok_iff, List.forall₂_same]
    intro s member
    have present : s.isMissing = false := by
      cases s with
      | missing => exact absurd (arguments _ member) (by decide)
      | _ => rfl
    simp only [Build.argument, present, arguments s member, Bool.false_eq_true, if_false, if_true]
  rw [Build.term, each]
  rfl

theorem spaced_eq (ss : List Sentence) :
    spaced ss = ss.flatMap fun s => Text.ofString " " ++ s.document := by
  induction ss with
  | nil => rfl
  | cons s ss ih => rw [spaced, ih, List.flatMap_cons]; rfl

end Sentence

namespace SExpr

/-- What an expression stands for as an argument. -/
def termArgumentOf : SExpr → Except Error Sentence
  | .atom pos value => constantOf pos value
  | .list pos items => sentenceOf (.list pos items)

theorem sentencesOf_eq (es : List SExpr) : sentencesOf es = es.mapM sentenceOf := by
  induction es with
  | nil => rfl
  | cons e es ih => rw [sentencesOf, List.mapM_cons, ih]

theorem argumentsOf_eq (es : List SExpr) : argumentsOf es = es.mapM termArgumentOf := by
  induction es with
  | nil => rfl
  | cons e es ih => cases e <;> rw [argumentsOf, List.mapM_cons, ih] <;> rfl

theorem termArgumentOf_of_sentenceOf (e : SExpr) (s : Sentence) (reads : e.sentenceOf = .ok s) :
    e.termArgumentOf = .ok s := by
  cases e with
  | atom pos value => cases reads
  | list pos items => exact reads

section Forms

variable (pos p : Position)

theorem sentenceOf_term (predicate : SExpr) (args : List SExpr) :
    sentenceOf (.list pos (.atom p (.symbol "Term") :: predicate :: args)) = (do
      let args ← argumentsOf args
      built pos (Sentence.Build.term (← predicate.stringOf "predicate") args)) := by
  conv => lhs; unfold sentenceOf
  rfl

theorem sentenceOf_var (items : List SExpr) :
    sentenceOf (.list pos (.atom p (.symbol "Variable") :: items)) = (do
      let v ← variableOfItems pos items
      return .var v.name v.type) := by
  conv => lhs; unfold sentenceOf
  rfl

theorem sentenceOf_neg (s : SExpr) :
    sentenceOf (.list pos (.atom p (.symbol "Not") :: [s])) = (do return .neg (← sentenceOf s)) := rfl

theorem sentenceOf_conj (items : List SExpr) :
    sentenceOf (.list pos (.atom p (.symbol "And") :: items)) =
      (do return .conj (← sentencesOf items)) := by
  conv => lhs; unfold sentenceOf
  rfl

theorem sentenceOf_disj (items : List SExpr) :
    sentenceOf (.list pos (.atom p (.symbol "Or") :: items)) =
      (do return .disj (← sentencesOf items)) := by
  conv => lhs; unfold sentenceOf
  rfl

theorem sentenceOf_implies (a b : SExpr) :
    sentenceOf (.list pos (.atom p (.symbol "Implies") :: [a, b])) = (do
      let a ← sentenceOf a
      return .implies a (← sentenceOf b)) := rfl

theorem sentenceOf_iff (a b : SExpr) :
    sentenceOf (.list pos (.atom p (.symbol "Iff") :: [a, b])) = (do
      let a ← sentenceOf a
      return .iff a (← sentenceOf b)) := rfl

theorem sentenceOf_forAll (vars s : SExpr) :
    sentenceOf (.list pos (.atom p (.symbol "Forall") :: [vars, s])) = (do
      let vars ← variablesOf vars
      return .forAll vars (← sentenceOf s)) := rfl

theorem sentenceOf_forSome (vars s : SExpr) :
    sentenceOf (.list pos (.atom p (.symbol "Exists") :: [vars, s])) = (do
      let vars ← variablesOf vars
      return .forSome vars (← sentenceOf s)) := rfl

theorem sentenceOf_weighted (w s : SExpr) :
    sentenceOf (.list pos (.atom p (.symbol "Probability") :: [w, s])) = (do
      let w ← weightOf w
      built pos (Sentence.Build.weighted w (← sentenceOf s))) := rfl

theorem sentenceOf_evidence (holds s : SExpr) :
    sentenceOf (.list pos (.atom p (.symbol "Evidence") :: [holds, s])) = (do
      let holds ← boolOf holds
      return .evidence holds (← sentenceOf s)) := rfl

end Forms

theorem built_ok (pos : Position) (result : Except BuildFault Sentence) (s : Sentence)
    (returned : built pos result = .ok s) : result = .ok s := by
  cases result with
  | error fault => cases returned
  | ok t =>
    cases returned
    rfl

theorem of_build_term (p : Text) (args : List Sentence) (s : Sentence)
    (returned : Sentence.Build.term p args = .ok s) :
    s = .term p args ∧ ∀ t ∈ args, t.isArgument = true := by
  -- An argument is passed on unchanged, once it was found to be one.
  have step (t u : Sentence) (checked : Sentence.Build.argument p t = .ok u) :
      t = u ∧ t.isArgument = true := by
    unfold Sentence.Build.argument at checked
    split at checked
    · cases checked
    · split at checked
      next argument =>
        cases checked
        exact ⟨rfl, argument⟩
      next => cases checked
  simp only [Sentence.Build.term, bind_ok_iff, pure_ok_iff] at returned
  obtain ⟨checked, each, rfl⟩ := returned
  have same : args = checked := by
    rw [mapM_ok_iff] at each
    exact List.forall₂_eq_eq_eq ▸ each.imp fun t u found => (step t u found).1
  refine ⟨by rw [same], ?_⟩
  intro t member
  obtain ⟨u, -, found⟩ := ok_of_mem_mapM each member
  exact (step t u found).2

theorem of_build_weighted (w : Binary64) (operand s : Sentence)
    (returned : Sentence.Build.weighted w operand = .ok s) :
    s = .weighted w operand ∧ w.isWeight = true := by
  unfold Sentence.Build.weighted at returned
  split at returned
  next weight =>
    simp only [bind_ok_iff, pure_ok_iff] at returned
    obtain ⟨t, found, rfl⟩ := returned
    unfold Sentence.Build.operand at found
    split at found
    · cases found
    · cases found
      exact ⟨rfl, weight⟩
  next => cases returned

theorem mapM_of_forall₂ {α : Type} {read : SExpr → Except Error α} {xs : List α}
    {es : List SExpr} (each : List.Forall₂ (fun x e => read e = .ok x) xs es) :
    es.mapM read = .ok xs := by
  rw [mapM_ok_iff]
  exact each.flip

/-- A variable is read back with its type. -/
theorem expresses_variable (v : TypedName) : Expresses v.document
    (Tagged "Variable" fun items => ∀ pos, variableOfItems pos items = .ok v) := by
  obtain ⟨name, type⟩ := v
  -- An empty type is not written, so there are one or two items.
  cases type with
  | nil =>
    have written : TypedName.document ⟨name, []⟩ =
        form "Variable" (Text.ofString " " ++ (Text.doubleQuoted name ++ [])) := by
      simp only [TypedName.document, form, List.append_assoc, List.append_nil]
      rfl
    have items := Lists.cons " " (by decide) (expresses_string name) Lists.nil
    rw [written]
    refine (items.tagged "Variable" (by decide)).mono ?_
    rintro e ⟨pos, q, ⟨⟨r⟩, rfl⟩⟩
    exact ⟨pos, q, fun _ => rfl⟩
  | cons b type =>
    have written : TypedName.document ⟨name, b :: type⟩ =
        form "Variable" (Text.ofString " " ++ (Text.doubleQuoted name ++
          (Text.ofString " " ++ (Text.doubleQuoted (b :: type) ++ [])))) := by
      simp only [TypedName.document, form, List.append_assoc, List.append_nil]
      rfl
    have items := Lists.cons " " (by decide) (expresses_string name)
      (Lists.cons " " (by decide) (expresses_string (b :: type)) Lists.nil)
    rw [written]
    refine (items.tagged "Variable" (by decide)).mono ?_
    rintro e ⟨pos, q, ⟨⟨r⟩, ⟨⟨u⟩, rfl⟩⟩⟩
    exact ⟨pos, q, fun _ => rfl⟩

theorem expresses_variables (vars : List TypedName) :
    Expresses (ascii '(' :: (Text.join " " (vars.map TypedName.document) ++ [ascii ')']))
      fun e => e.variablesOf = .ok vars := by
  have each (v : TypedName) : Expresses v.document fun e => e.variableOf = .ok v := by
    refine (expresses_variable v).mono ?_
    rintro e ⟨pos, q, read⟩
    exact read pos
  have reads : Reads (Text.join " " (vars.map TypedName.document))
      (List.Forall₂ (fun v e => e.variableOf = .ok v) vars) := by
    cases vars with
    | nil => exact fun pos top stack rest _ => ⟨pos, [], .nil, rfl⟩
    | cons v vars =>
      -- The first variable has no blank in front of it.
      have joined : Text.join " " ((v :: vars).map TypedName.document) =
          v.document ++ vars.flatMap fun v => Text.ofString " " ++ v.document := by
        rw [List.map_cons, Text.join_cons, List.flatMap_map]
      have lists := Lists.flatMap vars fun v _ => (each v).spaced
      rw [joined]
      intro pos top stack rest delimited
      obtain ⟨after, es, ⟨first, others⟩, read⟩ :=
        (each v).first lists pos top stack rest delimited
      exact ⟨after, _, .cons first others, read⟩
  refine reads.bracketed.mono ?_
  rintro e ⟨pos, read⟩
  exact mapM_of_forall₂ read

/-- Every constant is read back, if it is finite. -/
theorem expresses_value (v : Value) (finite : v.isFinite = true) :
    Expresses v.document (AtomOf v.atom) := by
  cases v with
  | null => exact expresses_null
  | bool b => exact expresses_bool b
  | int n => exact expresses_int n
  | float x => exact expresses_float x finite
  | string t => exact expresses_string t

theorem expresses_unary (tag : Text) (isTag : Lexeme.isTag tag = true) {d : Text}
    {P : SExpr → Prop} (operand : Expresses d P) :
    Expresses (form tag (Text.ofString " " ++ d)) (Tagged tag (Cons P (· = []))) := by
  have items := Lists.cons " " (by decide) operand Lists.nil
  rw [List.append_nil] at items
  exact items.tagged tag isTag

theorem expresses_binary (tag : Text) (isTag : Lexeme.isTag tag = true) {d d' : Text}
    {P Q : SExpr → Prop} (first : Expresses d P) (second : Expresses d' Q) :
    Expresses (form tag (Text.ofString " " ++ (d ++ (Text.ofString " " ++ d'))))
      (Tagged tag (Cons P (Cons Q (· = [])))) := by
  have items := Lists.cons " " (by decide) first (Lists.cons " " (by decide) second Lists.nil)
  rw [List.append_nil] at items
  exact items.tagged tag isTag

theorem expresses_operands (tag : Text) (isTag : Lexeme.isTag tag = true) (ss : List Sentence)
    {P : Sentence → SExpr → Prop} (each : ∀ s ∈ ss, Expresses s.document (P s)) :
    Expresses (form tag (Sentence.spaced ss)) (Tagged tag (List.Forall₂ P ss)) := by
  have items := Lists.flatMap ss fun s member => (each s member).spaced
  rw [← Sentence.spaced_eq] at items
  exact items.tagged tag isTag

end SExpr

namespace Sentence

open SExpr

/-! ### Writing -/

/-- The expressions that a sentence is written as. They differ in their positions. -/
inductive WrittenAs : Sentence → SExpr → Prop where
  | term (pos q r : Position) (p : Text) {args : List Sentence} {es : List SExpr}
      (each : List.Forall₂ WrittenAs args es) :
      WrittenAs (.term p args) (.list pos (.atom q (.symbol "Term") :: .atom r (.string p) :: es))
  | var (pos q : Position) {name type : Text} {es : List SExpr}
      (declared : ∀ pos, variableOfItems pos es = .ok ⟨name, type⟩) :
      WrittenAs (.var name type) (.list pos (.atom q (.symbol "Variable") :: es))
  | const (pos : Position) (v : Value) : WrittenAs (.const v) (.atom pos v.atom)
  | neg (pos q : Position) {s : Sentence} {e : SExpr} (operand : WrittenAs s e) :
      WrittenAs (.neg s) (.list pos (.atom q (.symbol "Not") :: [e]))
  | conj (pos q : Position) {ss : List Sentence} {es : List SExpr}
      (each : List.Forall₂ WrittenAs ss es) :
      WrittenAs (.conj ss) (.list pos (.atom q (.symbol "And") :: es))
  | disj (pos q : Position) {ss : List Sentence} {es : List SExpr}
      (each : List.Forall₂ WrittenAs ss es) :
      WrittenAs (.disj ss) (.list pos (.atom q (.symbol "Or") :: es))
  | implies (pos q : Position) {a b : Sentence} {e f : SExpr} (left : WrittenAs a e)
      (right : WrittenAs b f) :
      WrittenAs (.implies a b) (.list pos (.atom q (.symbol "Implies") :: [e, f]))
  | iff (pos q : Position) {a b : Sentence} {e f : SExpr} (left : WrittenAs a e)
      (right : WrittenAs b f) : WrittenAs (.iff a b) (.list pos (.atom q (.symbol "Iff") :: [e, f]))
  | forAll (pos q : Position) {vars : List TypedName} {s : Sentence} {block e : SExpr}
      (declared : block.variablesOf = .ok vars) (body : WrittenAs s e) :
      WrittenAs (.forAll vars s) (.list pos (.atom q (.symbol "Forall") :: [block, e]))
  | forSome (pos q : Position) {vars : List TypedName} {s : Sentence} {block e : SExpr}
      (declared : block.variablesOf = .ok vars) (body : WrittenAs s e) :
      WrittenAs (.forSome vars s) (.list pos (.atom q (.symbol "Exists") :: [block, e]))
  | weighted (pos q r : Position) (w : Binary64) {s : Sentence} {e : SExpr}
      (operand : WrittenAs s e) : WrittenAs (.weighted w s)
        (.list pos (.atom q (.symbol "Probability") :: [.atom r (.float w), e]))
  | evidence (pos q r : Position) (holds : Bool) {s : Sentence} {e : SExpr}
      (operand : WrittenAs s e) : WrittenAs (.evidence holds s)
        (.list pos (.atom q (.symbol "Evidence") :: [.atom r (.bool holds), e]))

/-- What construction checks of every part: it is there, numbers are finite and weights are weights. -/
def Sound : Sentence → Prop
  | .const v => v.isFinite = true
  | .weighted w _ => w.isWeight = true
  | .missing => False
  | _ => True

/-- Every sentence that construction can give is written as an expression, also where it cannot be
read. -/
theorem expresses_written (s : Sentence) (sound : Everywhere Sound s) :
    Expresses s.document s.WrittenAs := by
  induction s with
  | term p args ih =>
    have parts := ((everywhere_iff _ _).mp sound).2
    have items := Lists.cons " " (by decide) (expresses_string p)
      (Lists.flatMap args fun s member => (ih s member (parts s member)).spaced)
    rw [← spaced_eq] at items
    -- The text is that of a form with the tag, up to how its pieces are bracketed.
    refine ((items.tagged "Term" (by decide)).of_eq ?_).mono ?_
    · simp only [document, form, List.append_assoc]
      rfl
    · rintro e ⟨pos, q, ⟨⟨r⟩, each⟩⟩
      exact .term pos q r p each
  | var name type =>
    refine (expresses_variable ⟨name, type⟩).mono ?_
    rintro e ⟨pos, q, declared⟩
    exact .var pos q declared
  | const v =>
    refine (expresses_value v ((everywhere_iff _ _).mp sound).1).mono ?_
    rintro e ⟨pos⟩
    exact .const pos v
  | neg s ih =>
    have operand := ih (((everywhere_iff _ _).mp sound).2 s List.mem_cons_self)
    refine ((expresses_unary "Not" (by decide) operand).of_eq ?_).mono ?_
    · simp only [document, form, List.append_assoc]
      rfl
    · rintro e ⟨pos, q, ⟨operand, rfl⟩⟩
      exact .neg pos q operand
  | conj ss ih =>
    have parts := ((everywhere_iff _ _).mp sound).2
    have each := fun s member => ih s member (parts s member)
    refine ((expresses_operands "And" (by decide) ss each).of_eq ?_).mono ?_
    · simp only [document, form, List.append_assoc]
      rfl
    · rintro e ⟨pos, q, each⟩
      exact .conj pos q each
  | disj ss ih =>
    have parts := ((everywhere_iff _ _).mp sound).2
    have each := fun s member => ih s member (parts s member)
    refine ((expresses_operands "Or" (by decide) ss each).of_eq ?_).mono ?_
    · simp only [document, form, List.append_assoc]
      rfl
    · rintro e ⟨pos, q, each⟩
      exact .disj pos q each
  | implies a b first second =>
    have parts := ((everywhere_iff _ _).mp sound).2
    have left := first (parts a (by simp [children]))
    have right := second (parts b (by simp [children]))
    refine ((expresses_binary "Implies" (by decide) left right).of_eq ?_).mono ?_
    · simp only [document, form, List.append_assoc]
      rfl
    · rintro e ⟨pos, q, ⟨left, ⟨right, rfl⟩⟩⟩
      exact .implies pos q left right
  | iff a b first second =>
    have parts := ((everywhere_iff _ _).mp sound).2
    have left := first (parts a (by simp [children]))
    have right := second (parts b (by simp [children]))
    refine ((expresses_binary "Iff" (by decide) left right).of_eq ?_).mono ?_
    · simp only [document, form, List.append_assoc]
      rfl
    · rintro e ⟨pos, q, ⟨left, ⟨right, rfl⟩⟩⟩
      exact .iff pos q left right
  | forAll vars s ih =>
    have body := ih (((everywhere_iff _ _).mp sound).2 s List.mem_cons_self)
    refine ((expresses_binary "Forall" (by decide) (expresses_variables vars) body).of_eq ?_).mono ?_
    · simp only [document, form, List.append_assoc, List.cons_append, List.nil_append]
      rfl
    · rintro e ⟨pos, q, ⟨declared, ⟨body, rfl⟩⟩⟩
      exact .forAll pos q declared body
  | forSome vars s ih =>
    have body := ih (((everywhere_iff _ _).mp sound).2 s List.mem_cons_self)
    refine ((expresses_binary "Exists" (by decide) (expresses_variables vars) body).of_eq ?_).mono ?_
    · simp only [document, form, List.append_assoc, List.cons_append, List.nil_append]
      rfl
    · rintro e ⟨pos, q, ⟨declared, ⟨body, rfl⟩⟩⟩
      exact .forSome pos q declared body
  | weighted w s ih =>
    obtain ⟨weight, parts⟩ := (everywhere_iff _ _).mp sound
    have finite := expresses_float w (w.isFinite_of_isWeight weight)
    have operand := ih (parts s List.mem_cons_self)
    refine ((expresses_binary "Probability" (by decide) finite operand).of_eq ?_).mono ?_
    · simp only [document, form, List.append_assoc]
      rfl
    · rintro e ⟨pos, q, ⟨⟨r⟩, ⟨operand, rfl⟩⟩⟩
      exact .weighted pos q r w operand
  | evidence holds s ih =>
    have operand := ih (((everywhere_iff _ _).mp sound).2 s List.mem_cons_self)
    refine ((expresses_binary "Evidence" (by decide) (expresses_bool holds) operand).of_eq ?_).mono ?_
    · simp only [document, form, List.append_assoc]
      rfl
    · rintro e ⟨pos, q, ⟨⟨r⟩, ⟨operand, rfl⟩⟩⟩
      exact .evidence pos q r holds operand
  | missing => exact absurd ((everywhere_iff _ _).mp sound).1 not_false

/-! ### Reading -/

theorem mapM_only {read : SExpr → Except Error Sentence} {ss ts : List Sentence} {es : List SExpr}
    (written : List.Forall₂ WrittenAs ss es)
    (each : ∀ s ∈ ss, ∀ e t, WrittenAs s e → read e = .ok t → t = s)
    (returned : es.mapM read = .ok ts) : ts = ss := by
  induction written generalizing ts with
  | nil =>
    cases returned
    rfl
  | cons first _ ih =>
    rw [List.forall_mem_cons] at each
    simp only [List.mapM_cons, bind_ok_iff, pure_ok_iff] at returned
    obtain ⟨t, found, rest, others, rfl⟩ := returned
    rw [each.1 _ t first found, ih each.2 others]

/-- Whatever is read from what is written for a sentence is that sentence. -/
theorem WrittenAs.only {s t : Sentence} {e : SExpr} (written : WrittenAs s e)
    (read : e.termArgumentOf = .ok t) : t = s := by
  induction s generalizing e t with
  | term p args ih =>
    cases written with
    | term pos q r _ each =>
    rw [termArgumentOf, sentenceOf_term, argumentsOf_eq] at read
    simp only [bind_ok_iff] at read
    obtain ⟨ts, found, _, ⟨⟩, returned⟩ := read
    -- The arguments are read in order, and each gives the argument it was written for.
    obtain rfl := mapM_only each (fun s member e t written => ih s member written) found
    exact (of_build_term p ts t (built_ok pos _ t returned)).1
  | var name type =>
    cases written with
    | var pos q declared =>
    rw [termArgumentOf, sentenceOf_var, declared pos] at read
    cases read
    rfl
  | const v =>
    cases written with
    | const pos =>
    -- As arguments all atoms but symbols are constants.
    cases v <;> cases read <;> rfl
  | neg s ih =>
    cases written with
    | neg pos q operand =>
    rw [termArgumentOf, sentenceOf_neg, bind_ok_iff] at read
    obtain ⟨u, found, ⟨⟩⟩ := read
    rw [ih operand (termArgumentOf_of_sentenceOf _ u found)]
  | conj ss ih =>
    cases written with
    | conj pos q each =>
    rw [termArgumentOf, sentenceOf_conj, sentencesOf_eq, bind_ok_iff] at read
    obtain ⟨us, found, ⟨⟩⟩ := read
    rw [mapM_only each (fun s member e t written found =>
      ih s member written (termArgumentOf_of_sentenceOf e t found)) found]
  | disj ss ih =>
    cases written with
    | disj pos q each =>
    rw [termArgumentOf, sentenceOf_disj, sentencesOf_eq, bind_ok_iff] at read
    obtain ⟨us, found, ⟨⟩⟩ := read
    rw [mapM_only each (fun s member e t written found =>
      ih s member written (termArgumentOf_of_sentenceOf e t found)) found]
  | implies a b first second =>
    cases written with
    | implies pos q left right =>
    simp only [termArgumentOf, sentenceOf_implies, bind_ok_iff] at read
    obtain ⟨u, foundLeft, v, foundRight, ⟨⟩⟩ := read
    rw [first left (termArgumentOf_of_sentenceOf _ u foundLeft),
      second right (termArgumentOf_of_sentenceOf _ v foundRight)]
  | iff a b first second =>
    cases written with
    | iff pos q left right =>
    simp only [termArgumentOf, sentenceOf_iff, bind_ok_iff] at read
    obtain ⟨u, foundLeft, v, foundRight, ⟨⟩⟩ := read
    rw [first left (termArgumentOf_of_sentenceOf _ u foundLeft),
      second right (termArgumentOf_of_sentenceOf _ v foundRight)]
  | forAll vars s ih =>
    cases written with
    | forAll pos q declared body =>
    simp only [termArgumentOf, sentenceOf_forAll, declared, bind_ok_iff] at read
    obtain ⟨_, ⟨⟩, u, found, ⟨⟩⟩ := read
    rw [ih body (termArgumentOf_of_sentenceOf _ u found)]
  | forSome vars s ih =>
    cases written with
    | forSome pos q declared body =>
    simp only [termArgumentOf, sentenceOf_forSome, declared, bind_ok_iff] at read
    obtain ⟨_, ⟨⟩, u, found, ⟨⟩⟩ := read
    rw [ih body (termArgumentOf_of_sentenceOf _ u found)]
  | weighted w s ih =>
    cases written with
    | weighted pos q r _ operand =>
    simp only [termArgumentOf, sentenceOf_weighted, bind_ok_iff] at read
    obtain ⟨_, ⟨⟩, u, found, returned⟩ := read
    rw [(of_build_weighted w u t (built_ok pos _ t returned)).1,
      ih operand (termArgumentOf_of_sentenceOf _ u found)]
  | evidence holds s ih =>
    cases written with
    | evidence pos q r _ operand =>
    simp only [termArgumentOf, sentenceOf_evidence, bind_ok_iff] at read
    obtain ⟨_, ⟨⟩, u, found, ⟨⟩⟩ := read
    rw [ih operand (termArgumentOf_of_sentenceOf _ u found)]
  | missing => cases written

theorem mapM_reads {read : SExpr → Except Error Sentence} {ss : List Sentence} {es : List SExpr}
    (written : List.Forall₂ WrittenAs ss es)
    (each : ∀ s ∈ ss, ∀ e, WrittenAs s e → read e = .ok s) : es.mapM read = .ok ss := by
  induction written with
  | nil => rfl
  | cons first _ ih =>
    rw [List.forall_mem_cons] at each
    rw [List.mapM_cons, each.1 _ first, ih each.2]
    rfl

/-- Outside of constants, it does not matter whether an expression is read as an argument. -/
theorem WrittenAs.sentenceOf_eq {s : Sentence} {e : SExpr} (written : WrittenAs s e)
    (expressible : s.isExpressible false = true) : e.sentenceOf = e.termArgumentOf := by
  cases written with
  | const pos v => exact absurd expressible Bool.false_ne_true
  | _ => rfl

/-- A sentence that a document can hold is read from what is written for it. -/
theorem WrittenAs.reads {s : Sentence} {e : SExpr} (written : WrittenAs s e) (asArgument : Bool)
    (expressible : s.isExpressible asArgument = true) : e.termArgumentOf = .ok s := by
  induction s generalizing e asArgument with
  | term p args ih =>
    cases written with
    | term pos q r _ each =>
    have arguments := (allExpressible_iff true args).mp expressible
    have read := mapM_reads each fun s member e written =>
      ih s member written true (arguments s member)
    -- Construction checks the arguments once more and keeps them.
    have built := Build.term_ok p args fun s member =>
      isArgument_of_isExpressible s (arguments s member)
    rw [termArgumentOf, sentenceOf_term, argumentsOf_eq, read]
    show SExpr.built pos (Build.term p args) = _
    rw [built]
    rfl
  | var name type =>
    cases written with
    | var pos q declared =>
    rw [termArgumentOf, sentenceOf_var, declared pos]
    rfl
  | const v =>
    cases written with
    | const pos => cases v <;> rfl
  | neg s ih =>
    cases written with
    | neg pos q operand =>
    have inner : s.isExpressible false = true := (Bool.and_eq_true_iff.mp expressible).2
    rw [termArgumentOf, sentenceOf_neg, operand.sentenceOf_eq inner, ih operand false inner]
    rfl
  | conj ss ih =>
    cases written with
    | conj pos q each =>
    have members := (allExpressible_iff false ss).mp (Bool.and_eq_true_iff.mp expressible).2
    have read : _ = Except.ok ss := mapM_reads each fun s member e written =>
      (written.sentenceOf_eq (members s member)).trans (ih s member written false (members s member))
    rw [termArgumentOf, sentenceOf_conj, sentencesOf_eq, read]
    rfl
  | disj ss ih =>
    cases written with
    | disj pos q each =>
    have members := (allExpressible_iff false ss).mp (Bool.and_eq_true_iff.mp expressible).2
    have read : _ = Except.ok ss := mapM_reads each fun s member e written =>
      (written.sentenceOf_eq (members s member)).trans (ih s member written false (members s member))
    rw [termArgumentOf, sentenceOf_disj, sentencesOf_eq, read]
    rfl
  | implies a b first second =>
    cases written with
    | implies pos q left right =>
    obtain ⟨inLeft, inRight⟩ := Bool.and_eq_true_iff.mp (Bool.and_eq_true_iff.mp expressible).2
    rw [termArgumentOf, sentenceOf_implies, left.sentenceOf_eq inLeft, right.sentenceOf_eq inRight,
      first left false inLeft, second right false inRight]
    rfl
  | iff a b first second =>
    cases written with
    | iff pos q left right =>
    obtain ⟨inLeft, inRight⟩ := Bool.and_eq_true_iff.mp (Bool.and_eq_true_iff.mp expressible).2
    rw [termArgumentOf, sentenceOf_iff, left.sentenceOf_eq inLeft, right.sentenceOf_eq inRight,
      first left false inLeft, second right false inRight]
    rfl
  | forAll vars s ih =>
    cases written with
    | forAll pos q declared body =>
    have inner : s.isExpressible false = true := (Bool.and_eq_true_iff.mp expressible).2
    rw [termArgumentOf, sentenceOf_forAll, declared, body.sentenceOf_eq inner, ih body false inner]
    rfl
  | forSome vars s ih =>
    cases written with
    | forSome pos q declared body =>
    have inner : s.isExpressible false = true := (Bool.and_eq_true_iff.mp expressible).2
    rw [termArgumentOf, sentenceOf_forSome, declared, body.sentenceOf_eq inner, ih body false inner]
    rfl
  | weighted w s ih =>
    cases written with
    | weighted pos q r _ operand =>
    obtain ⟨weight, inner⟩ := Bool.and_eq_true_iff.mp (Bool.and_eq_true_iff.mp expressible).2
    rw [termArgumentOf, sentenceOf_weighted, operand.sentenceOf_eq inner, ih operand false inner]
    have present : s.isMissing = false := by
      cases s with
      | missing => exact absurd inner Bool.false_ne_true
      | _ => rfl
    show SExpr.built pos (Build.weighted w s) = _
    simp only [Build.weighted, weight, if_true, Build.operand, present]
    rfl
  | evidence holds s ih =>
    cases written with
    | evidence pos q r _ operand =>
    have inner : s.isExpressible false = true := (Bool.and_eq_true_iff.mp expressible).2
    rw [termArgumentOf, sentenceOf_evidence, operand.sentenceOf_eq inner, ih operand false inner]
    rfl
  | missing => cases written

/-- The arguments of a term and the operands of any other sentence can be written if the sentence
can. -/
theorem isExpressible_children {s : Sentence} {asArgument : Bool}
    (expressible : s.isExpressible asArgument = true) :
    ∀ c ∈ s.children, c.isExpressible s.isTerm = true := by
  cases s with
  | term p args => exact (allExpressible_iff true args).mp expressible
  | conj ss | disj ss =>
    exact (allExpressible_iff false ss).mp (Bool.and_eq_true_iff.mp expressible).2
  | implies a b | iff a b =>
    have both := Bool.and_eq_true_iff.mp (Bool.and_eq_true_iff.mp expressible).2
    simpa [children, isTerm] using both
  | neg s | forAll vars s | forSome vars s | evidence holds s =>
    exact List.forall_mem_singleton.mpr (Bool.and_eq_true_iff.mp expressible).2
  | weighted w s =>
    have both := Bool.and_eq_true_iff.mp (Bool.and_eq_true_iff.mp expressible).2
    exact List.forall_mem_singleton.mpr both.2
  | var | const | missing => simp [children]

/-- Every part of what can be written can be written, as an argument or on its own. -/
theorem isExpressible_everywhere {s : Sentence} {asArgument : Bool}
    (expressible : s.isExpressible asArgument = true) :
    Everywhere (fun t => ∃ asArgument, t.isExpressible asArgument = true) s := by
  induction s using induction_children generalizing asArgument with
  | step s ih =>
    exact (everywhere_iff _ _).mpr
      ⟨⟨asArgument, expressible⟩, fun c child => ih c child (isExpressible_children expressible c child)⟩

/-- A document can only hold sentences that construction gives. -/
theorem sound_of_isExpressible (s : Sentence) (asArgument : Bool)
    (expressible : s.isExpressible asArgument = true) : Everywhere Sound s := by
  intro t inside
  obtain ⟨_, possible⟩ := isExpressible_everywhere expressible t inside
  cases t with
  | const v => exact (Bool.and_eq_true_iff.mp possible).2
  | weighted w s => exact (Bool.and_eq_true_iff.mp (Bool.and_eq_true_iff.mp possible).2).1
  | missing => exact absurd possible Bool.false_ne_true
  | _ => trivial

end Sentence

/-- What is written for a sentence is read as that sentence. -/
theorem SExpr.expresses_sentence (s : Sentence) (expressible : s.isExpressible false = true) :
    Expresses s.document fun e => e.sentenceOf = .ok s := by
  refine (s.expresses_written (s.sound_of_isExpressible false expressible)).mono ?_
  intro e written
  exact (written.sentenceOf_eq expressible).trans (written.reads false expressible)

end Clausal
