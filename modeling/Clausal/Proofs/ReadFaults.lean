import Clausal.Proofs.SentenceReading
import Clausal.Theory.Document

/-!
# Faults of documents

Whatever keeps a document from being read is reported as malformed input, at a position of the
document. What a theory cannot take up, a second declaration for example, is skipped instead.
-/

namespace Clausal

/-- Whether an error reports malformed input. -/
def Error.IsMalformed (e : Error) : Prop := e.kind = .parseError

open Error (IsMalformed)

namespace SExpr

/-! ### Expressions -/

theorem atomOfToken_refuses (token : Token) : Refuses IsMalformed (atomOfToken token) := by
  unfold atomOfToken
  split
  · exact .ok _
  · exact .ok _
  · refine Refuses.map ?_
    unfold Numeral.integerAt
    split
    · exact .ok _
    · exact .error rfl
  · refine Refuses.map ?_
    unfold Numeral.floatAt Numeral.finiteAt
    split
    · split
      · exact .ok _
      · exact .error rfl
    · exact .error rfl
  · split <;> exact .ok _
  · exact .error rfl

/-- A bracket out of place is the only thing that can go wrong with a token. -/
theorem Reading.step_refuses (token : Token) (reading : Reading) :
    Refuses IsMalformed (reading.step token) := by
  unfold Reading.step
  split
  · exact .error rfl
  · split
    · exact .ok _
    · exact .ok _
    · exact .error rfl
    · exact (atomOfToken_refuses token).map

theorem Reading.run_refuses (tokens : List Token) (reading : Reading) :
    Refuses IsMalformed (Reading.run tokens reading) := by
  induction tokens generalizing reading with
  | nil => exact .ok _
  | cons token tokens ih => exact (step_refuses token reading).bind ih

/-- Whatever is wrong with a document, it is reported as malformed. -/
theorem parse_refuses (input : Text) : Refuses IsMalformed (SExpr.parse input) := by
  refine (Reading.run_refuses _ _).bind fun reading => ?_
  unfold Reading.finish
  split
  · exact .error rfl
  · exact .ok _
  · exact .error rfl
  · exact .error rfl

/-! ### Sentences -/

theorem stringOf_refuses (role : Text) (e : SExpr) : Refuses IsMalformed (e.stringOf role) := by
  unfold stringOf
  split
  · exact .ok _
  · exact .error rfl

theorem optionalStringOf_refuses (role : Text) (e : SExpr) :
    Refuses IsMalformed (e.optionalStringOf role) := by
  unfold optionalStringOf
  split
  · exact .ok _
  · exact e.stringOf_refuses role

theorem variableOfItems_refuses (pos : Position) (items : List SExpr) :
    Refuses IsMalformed (variableOfItems pos items) := by
  unfold variableOfItems
  split
  · exact (stringOf_refuses _ _).map
  · exact (stringOf_refuses _ _).bind fun _ => (stringOf_refuses _ _).map
  · exact .error rfl

theorem variablesOf_refuses (e : SExpr) : Refuses IsMalformed e.variablesOf := by
  unfold variablesOf
  split
  · refine .mapM _ fun v _ => ?_
    unfold variableOf
    split
    · exact variableOfItems_refuses _ _
    · exact .error rfl
  · exact .error rfl

theorem weightOf_refuses (e : SExpr) : Refuses IsMalformed e.weightOf := by
  unfold weightOf
  split
  · exact .ok _
  · exact .ok _
  · exact .error rfl

theorem boolOf_refuses (e : SExpr) : Refuses IsMalformed e.boolOf := by
  unfold boolOf
  split
  · exact .ok _
  · exact .error rfl

theorem built_refuses (pos : Position) (result : Except BuildFault Sentence) :
    Refuses IsMalformed (built pos result) := by
  cases result with
  | ok s => exact .ok s
  | error fault => exact .error rfl

theorem constantOf_refuses (pos : Position) (value : Atom) :
    Refuses IsMalformed (constantOf pos value) := by
  cases value with
  | symbol text => exact .error rfl
  | _ => exact .ok _

/-- A tagged form is refused for its operands or for their number, and for nothing else. -/
theorem form_refuses (pos p : Position) (tag : Text) (items : List SExpr)
    (each : ∀ e ∈ items, Refuses IsMalformed e.sentenceOf) :
    Refuses IsMalformed (sentenceOf (.list pos (.atom p (.symbol tag) :: items))) := by
  have operands : Refuses IsMalformed (sentencesOf items) := by
    rw [sentencesOf_eq]
    exact .mapM items each
  -- Atoms among the arguments are constants, and only symbols are not.
  have arguments (args : List SExpr) (subset : args ⊆ items) :
      Refuses IsMalformed (argumentsOf args) := by
    rw [argumentsOf_eq]
    refine .mapM args fun e member => ?_
    cases e with
    | atom pos value => exact constantOf_refuses pos value
    | list pos more => exact each _ (subset member)
  apply form_cases pos p tag items
  case refused => exact fun fault => .error rfl
  case term =>
    rintro predicate args rfl
    exact (arguments args (List.subset_cons_self _ _)).bind fun _ =>
      (stringOf_refuses _ _).bind fun _ => built_refuses pos _
  case var => exact (variableOfItems_refuses pos items).map
  case neg =>
    rintro s rfl
    exact (each s (by simp)).map
  case conj => exact operands.map
  case disj => exact operands.map
  case implies | iff =>
    rintro a b rfl
    exact (each a (by simp)).bind fun _ => (each b (by simp)).map
  case forAll | forSome =>
    rintro vars s rfl
    exact (variablesOf_refuses vars).bind fun _ => (each s (by simp)).map
  case weighted =>
    rintro w s rfl
    exact (weightOf_refuses w).bind fun _ => (each s (by simp)).bind fun _ => built_refuses pos _
  case evidence =>
    rintro holds s rfl
    exact (boolOf_refuses holds).bind fun _ => (each s (by simp)).map

/-- An expression that is no sentence is malformed input, by induction on the expression. -/
theorem sentenceOf_refuses (e : SExpr) : Refuses IsMalformed e.sentenceOf := by
  induction e with
  | atom pos value => exact .error rfl
  | list pos items ih =>
    match items with
    | .atom p (.symbol tag) :: items => exact form_refuses pos p tag items (List.forall_mem_cons.mp ih).2
    | [] => exact .error rfl
    | .list .. :: _ => exact .error rfl
    | .atom _ (.string _) :: _ | .atom _ (.int _) :: _ | .atom _ (.float _) :: _
    | .atom _ (.bool _) :: _ | .atom _ .null :: _ => exact .error rfl

/-! ### Theories -/

/-- A bad declaration is skipped; only its form can be refused. -/
theorem declareTypeIn_refuses (t : Theory) (e : SExpr) :
    Refuses IsMalformed (declareTypeIn t e) := by
  unfold declareTypeIn
  split
  · exact (stringOf_refuses _ _).bind fun _ => (stringOf_refuses _ _).map
  · exact .error rfl
  · exact (Refuses.mapM _ fun e _ => stringOf_refuses _ e).bind fun _ => (stringOf_refuses _ _).map
  · exact .error rfl
  · exact .error rfl

theorem argumentOf_refuses (e : SExpr) : Refuses IsMalformed e.argumentOf := by
  unfold argumentOf
  split
  · exact (stringOf_refuses _ _).bind fun _ => (stringOf_refuses _ _).map
  · exact .error rfl

theorem predicateOf_refuses (e : SExpr) : Refuses IsMalformed e.predicateOf := by
  unfold predicateOf
  split
  · refine (stringOf_refuses _ _).bind fun _ => .foldlM (fun p field => ?_) _ _
    unfold predicateField
    split
    · exact (Refuses.mapM _ fun e _ => e.argumentOf_refuses).map
    · exact (optionalStringOf_refuses _ _).map
    · exact .error rfl
    · exact (Refuses.mapM _ fun e _ => stringOf_refuses _ e).map
    · exact .error rfl
  · exact .error rfl

theorem groupKindOf_refuses (e : SExpr) : Refuses IsMalformed e.groupKindOf := by
  unfold groupKindOf
  split
  · split
    · exact .ok _
    · exact .error rfl
  · exact .error rfl

theorem groupOf_refuses (e : SExpr) : Refuses IsMalformed e.groupOf := by
  unfold groupOf
  split
  · refine (stringOf_refuses _ _).bind fun _ => .foldlM (fun g field => ?_) _ _
    unfold groupField
    split
    · exact (groupKindOf_refuses _).map
    · exact .error rfl
    · exact (optionalStringOf_refuses _ _).map
    · exact .error rfl
    · rw [sentencesOf_eq]
      exact (Refuses.mapM _ fun e _ => e.sentenceOf_refuses).map
    · exact .error rfl
  · exact .error rfl

theorem keyedValuesOf_refuses (e : SExpr) : Refuses IsMalformed e.keyedValuesOf := by
  unfold keyedValuesOf
  split
  · exact (stringOf_refuses _ _).bind fun _ => (Refuses.mapM _ fun e _ => stringOf_refuses _ e).map
  · exact .error rfl

theorem nameOf_refuses (items : List SExpr) : Refuses IsMalformed (nameOf items) := by
  unfold nameOf
  split
  · exact .ok _
  · split
    · exact optionalStringOf_refuses _ _
    · exact .error rfl

theorem theoryOf_refuses (e : SExpr) : Refuses IsMalformed e.theoryOf := by
  unfold theoryOf
  split
  · refine (nameOf_refuses _).bind fun name => ?_
    -- One section after the other, and within a section one item after the other.
    refine (Refuses.foldlM declareTypeIn_refuses _ _).bind fun t => ?_
    refine (Refuses.foldlM (fun t e => e.predicateOf_refuses.map) _ _).bind fun t => ?_
    refine (Refuses.foldlM (fun t e => e.groupOf_refuses.map) _ _).bind fun t => ?_
    refine (Refuses.foldlM (fun t e => e.sentenceOf_refuses.map) _ _).bind fun t => ?_
    exact Refuses.foldlM (fun t e => e.keyedValuesOf_refuses.bind fun _ => .ok _) _ _
  · exact .error rfl

end SExpr

theorem Sentence.parse_refuses (input : Text) : Refuses IsMalformed (Sentence.parse input) :=
  (SExpr.parse_refuses input).bind SExpr.sentenceOf_refuses

theorem Theory.parse_refuses (input : Text) : Refuses IsMalformed (Theory.parse input) :=
  (SExpr.parse_refuses input).bind SExpr.theoryOf_refuses

end Clausal
