import Clausal.Proofs.SentenceDocuments

/-!
# What reading a sentence gives

The numbers of an expression that was read from a document are finite, so every sentence that is read
can be written again, and it is equal to itself.
-/

namespace Clausal

theorem Binary64.numEq_self (x : Binary64) (finite : x.isFinite = true) : x.numEq x = true := by
  simp [numEq, x.isNaN_eq_false finite]

/-- Constants that are finite are the same as themselves, which a NaN is not. -/
theorem Value.same_self (v : Value) (finite : v.isFinite = true) : v.same v = true := by
  cases v with
  | float x => exact x.numEq_self finite
  | _ => simp [same]

namespace Sentence

/-- Whether a constant is finite and a weight is a weight, as is checked where one is built. -/
def InRange : Sentence → Prop
  | .const v => v.isFinite = true
  | .weighted w _ => w.isWeight = true
  | _ => True

/-- Undefined numbers differ from themselves, but without them a sentence is equal to itself. -/
theorem same_self_of_inRange (s : Sentence) (numbers : Everywhere InRange s) : s.same s = true := by
  induction s with
  | term p ss ih | conj ss ih | disj ss ih =>
    obtain ⟨-, below⟩ := (everywhere_iff _ _).mp numbers
    have each : sameAll ss ss = true := by
      rw [sameAll_iff, List.forall₂_same]
      exact fun s member => ih s member (below s member)
    simp [same, each]
  | var name type => simp [same]
  | const v => exact v.same_self ((everywhere_iff _ _).mp numbers).1
  | implies a b first second | iff a b first second =>
    obtain ⟨-, below⟩ := (everywhere_iff _ _).mp numbers
    simp [same, first (below a (by simp [children])), second (below b (by simp [children]))]
  | neg s ih | forAll vars s ih | forSome vars s ih | evidence holds s ih =>
    obtain ⟨-, below⟩ := (everywhere_iff _ _).mp numbers
    simp [same, ih (below s List.mem_cons_self)]
  | weighted w s ih =>
    obtain ⟨weight, below⟩ := (everywhere_iff _ _).mp numbers
    have finite := w.isFinite_of_isWeight weight
    simp [same, w.numEq_self finite, ih (below s List.mem_cons_self)]
  | missing => rfl

/-- What can be written has finite numbers and proper weights everywhere. -/
theorem inRange_of_isExpressible (s : Sentence) (asArgument : Bool)
    (expressible : s.isExpressible asArgument = true) : Everywhere InRange s := by
  intro t inside
  have sound := s.sound_of_isExpressible asArgument expressible t inside
  cases t with
  | const | weighted => exact sound
  | _ => trivial

/-- A sentence that a document can hold is equal to itself. -/
theorem same_self (s : Sentence) (asArgument : Bool)
    (expressible : s.isExpressible asArgument = true) : s.same s = true :=
  s.same_self_of_inRange (s.inRange_of_isExpressible asArgument expressible)

end Sentence

namespace SExpr

/-- Structural induction. The hypothesis for a list is about each of its items. -/
@[elab_as_elim, induction_eliminator]
theorem induction {P : SExpr → Prop} (atom : ∀ pos value, P (.atom pos value))
    (list : ∀ pos items, (∀ e ∈ items, P e) → P (.list pos items)) (e : SExpr) : P e :=
  @SExpr.rec P (fun es => ∀ e ∈ es, P e) atom list
    (fun _ member => absurd member List.not_mem_nil)
    (fun _ _ first rest => List.forall_mem_cons.mpr ⟨first, rest⟩) e

/-- All numbers in an expression are finite. -/
inductive Finite : SExpr → Prop where
  | atom (pos : Position) {value : Atom} (finite : ∀ x, value = .float x → x.isFinite = true) :
      Finite (.atom pos value)
  | list (pos : Position) {items : List SExpr} (each : ∀ e ∈ items, Finite e) :
      Finite (.list pos items)

/-- A numeral that is too large for a finite number is not read. -/
theorem atomOfToken_finite (token : Token) (value : Atom) (read : atomOfToken token = .ok value)
    (x : Binary64) (isFloat : value = .float x) : x.isFinite = true := by
  subst isFloat
  obtain ⟨kind, text, pos⟩ := token
  cases kind with
  | float =>
    -- Only a float can be out of range, and then its token is refused.
    simp only [atomOfToken, bind_ok_iff, pure_ok_iff, Atom.float.injEq] at read
    obtain ⟨y, found, rfl⟩ := read
    unfold Numeral.floatAt at found
    split at found
    · unfold Numeral.finiteAt at found
      split at found
      next finite =>
        cases found
        exact finite
      next => cases found
    · cases found
  | integer =>
    simp only [atomOfToken, bind_ok_iff, pure_ok_iff] at read
    obtain ⟨n, -, isInt⟩ := read
    cases isInt
  | literal =>
    unfold atomOfToken at read
    dsimp only at read
    split at read <;> cases read
  | _ => cases read

/-- The numbers in what has been read so far are finite. -/
def Reading.Finite : Reading → Prop
  | .within stack => ∀ top ∈ stack, ∀ e ∈ top.items, SExpr.Finite e
  | .finished e => SExpr.Finite e

theorem Reading.place_finite (e : SExpr) (stack : List OpenList) (finite : SExpr.Finite e)
    (before : Reading.Finite (.within stack)) : (Reading.place e stack).Finite := by
  cases stack with
  | nil => exact finite
  | cons top stack =>
    obtain ⟨inTop, below⟩ := List.forall_mem_cons.mp before
    exact List.forall_mem_cons.mpr ⟨List.forall_mem_cons.mpr ⟨finite, inTop⟩, below⟩

/-- Reading one token keeps all numbers finite. -/
theorem Reading.step_finite (token : Token) (reading next : Reading) (before : reading.Finite)
    (stepped : reading.step token = .ok next) : next.Finite := by
  cases reading with
  | finished e => cases stepped
  | within stack =>
    unfold Reading.step at stepped
    dsimp only at stepped
    split at stepped
    next =>
      cases stepped
      exact List.forall_mem_cons.mpr ⟨fun e member => absurd member List.not_mem_nil, before⟩
    -- The innermost list is closed and becomes an item of the next one.
    next top stack _ =>
      cases stepped
      obtain ⟨inTop, below⟩ := List.forall_mem_cons.mp before
      exact Reading.place_finite _ stack
        (.list top.pos fun e member => inTop e (List.mem_reverse.mp member)) below
    next => cases stepped
    next =>
      simp only [bind_ok_iff, pure_ok_iff] at stepped
      obtain ⟨value, read, rfl⟩ := stepped
      exact Reading.place_finite _ _ (.atom token.pos (atomOfToken_finite token value read)) before

theorem Reading.run_finite (tokens : List Token) (reading last : Reading) (before : reading.Finite)
    (returned : Reading.run tokens reading = .ok last) : last.Finite := by
  induction tokens generalizing reading with
  | nil =>
    cases returned
    exact before
  | cons token tokens ih =>
    rw [Reading.run, bind_ok_iff] at returned
    obtain ⟨next, stepped, rest⟩ := returned
    exact ih next (Reading.step_finite token reading next before stepped) rest

/-- A document has no number in it that is not finite. -/
theorem parse_finite (input : Text) (e : SExpr) (parsed : SExpr.parse input = .ok e) : e.Finite := by
  simp only [SExpr.parse, bind_ok_iff] at parsed
  obtain ⟨reading, ran, finished⟩ := parsed
  have empty : Reading.Finite (.within []) := fun top member => absurd member List.not_mem_nil
  have finite := Reading.run_finite _ _ reading empty ran
  unfold Reading.finish at finished
  split at finished
  · cases finished
  · cases finished
    exact finite
  · cases finished
  · cases finished

theorem constantOf_expressible (pos : Position) (value : Atom) (s : Sentence)
    (finite : ∀ x, value = .float x → x.isFinite = true) (read : constantOf pos value = .ok s) :
    s.isExpressible true = true := by
  cases value with
  | symbol text => cases read
  | float x =>
    cases read
    exact finite x rfl
  | string t | int n | bool b | null =>
    cases read
    rfl

theorem expressible_as_argument (s : Sentence) (expressible : s.isExpressible false = true)
    (argument : s.isArgument = true) : s.isExpressible true = true := by
  cases s with
  | term p args => exact expressible
  | var name type => rfl
  | const v => exact absurd expressible Bool.false_ne_true
  | _ => exact absurd argument (by simp [Sentence.isArgument, Sentence.kind])

/-- A tagged list is refused or read in the way of one of the tags. -/
theorem form_cases {P : Except Error Sentence → Prop} (pos p : Position) (tag : Text)
    (items : List SExpr) (refused : ∀ fault, P (.error (.malformed pos fault)))
    (term : ∀ predicate args, items = predicate :: args → P (do
      let args ← argumentsOf args
      built pos (Sentence.Build.term (← predicate.stringOf "predicate") args)))
    (var : P (do
      let v ← variableOfItems pos items
      return .var v.name v.type))
    (neg : ∀ s, items = [s] → P (do return .neg (← sentenceOf s)))
    (conj : P (do return .conj (← sentencesOf items)))
    (disj : P (do return .disj (← sentencesOf items)))
    (implies : ∀ a b, items = [a, b] → P (do
      let a ← sentenceOf a
      return .implies a (← sentenceOf b)))
    (iff : ∀ a b, items = [a, b] → P (do
      let a ← sentenceOf a
      return .iff a (← sentenceOf b)))
    (forAll : ∀ vars s, items = [vars, s] → P (do
      let vars ← variablesOf vars
      return .forAll vars (← sentenceOf s)))
    (forSome : ∀ vars s, items = [vars, s] → P (do
      let vars ← variablesOf vars
      return .forSome vars (← sentenceOf s)))
    (weighted : ∀ w s, items = [w, s] → P (do
      let w ← weightOf w
      built pos (Sentence.Build.weighted w (← sentenceOf s))))
    (evidence : ∀ holds s, items = [holds, s] → P (do
      let holds ← boolOf holds
      return .evidence holds (← sentenceOf s))) :
    P (sentenceOf (.list pos (.atom p (.symbol tag) :: items))) := by
  have tried {c : Prop} [Decidable c] {yes no : Except Error Sentence} (first : P yes) (rest : P no) :
      P (if c then yes else no) := by
    split
    · exact first
    · exact rest
  unfold sentenceOf
  -- The tags are tried one after another, and most of them ask for a number of items.
  refine tried ?Term (tried var (tried ?Not (tried conj (tried disj (tried ?Implies (tried ?Iff
    (tried ?Forall (tried ?Exists (tried ?Probability (tried ?Evidence (refused _)))))))))))
  case Term =>
    split
    · exact refused _
    · exact term _ _ rfl
  case Not =>
    split
    · exact neg _ rfl
    · exact refused _
  case Implies =>
    split
    · exact implies _ _ rfl
    · exact refused _
  case Iff =>
    split
    · exact iff _ _ rfl
    · exact refused _
  case Forall =>
    split
    · exact forAll _ _ rfl
    · exact refused _
  case Exists =>
    split
    · exact forSome _ _ rfl
    · exact refused _
  case Probability =>
    split
    · exact weighted _ _ rfl
    · exact refused _
  case Evidence =>
    split
    · exact evidence _ _ rfl
    · exact refused _

/-- What a tagged list stands for can be written again if this is so for its items. -/
theorem form_expressible (pos p : Position) (tag : Text) (items : List SExpr)
    (operand : ∀ e ∈ items, Returns (fun s => s.isExpressible false = true) e.sentenceOf)
    (argument : ∀ e ∈ items, Returns
      (fun s => s.isArgument = true → s.isExpressible true = true) e.termArgumentOf) :
    Returns (fun s => s.isExpressible false = true)
      (sentenceOf (.list pos (.atom p (.symbol tag) :: items))) := by
  have operands : Returns (fun ss => Sentence.allExpressible false ss = true) (sentencesOf items) := by
    rw [sentencesOf_eq]
    intro ss returned
    exact (Sentence.allExpressible_iff false ss).mpr (Returns.mapM items operand ss returned)
  have both {a b : Bool} (first : a = true) (second : b = true) : (!false && (a && b)) = true := by
    rw [first, second]
    rfl
  apply form_cases pos p tag items
  case refused => exact fun fault => .error _
  case term =>
    rintro predicate args rfl
    rw [argumentsOf_eq]
    refine (Returns.mapM args fun e member =>
      argument e (List.mem_cons_of_mem predicate member)).bind fun ss each => .andThen fun name => ?_
    -- Construction keeps nothing but arguments.
    intro s returned
    obtain ⟨rfl, arguments⟩ := of_build_term name ss s (built_ok pos _ s returned)
    rw [Sentence.isExpressible, Sentence.allExpressible_iff]
    exact fun t member => each t member (arguments t member)
  case var => exact .andThen fun _ => .ok rfl
  case neg =>
    rintro s rfl
    exact (operand s (by simp)).map fun _ holds => holds
  case conj | disj => exact operands.map fun _ holds => holds
  case implies | iff =>
    rintro a b rfl
    exact (operand a (by simp)).bind fun _ left =>
      (operand b (by simp)).map fun _ right => both left right
  case forAll | forSome | evidence =>
    rintro _ s rfl
    exact .andThen fun _ => (operand s (by simp)).map fun _ holds => holds
  case weighted =>
    rintro _ s rfl
    refine .andThen fun w => (operand s (by simp)).bind fun t holds => ?_
    intro u returned
    obtain ⟨rfl, weight⟩ := of_build_weighted w t u (built_ok pos _ u returned)
    exact both weight holds

/-- Every sentence that is read can be written again. -/
theorem sentenceOf_expressible (e : SExpr) (finite : e.Finite) :
    Returns (fun s => s.isExpressible false = true) e.sentenceOf := by
  induction e with
  | atom pos value => exact .error _
  | list pos items ih =>
    cases finite with
    | list _ finite =>
    have operand : ∀ e ∈ items, Returns (fun s => s.isExpressible false = true) e.sentenceOf :=
      fun e member => ih e member (finite e member)
    -- An atom among the items stands for a constant, which is expressible as an argument only.
    have argument : ∀ e ∈ items, Returns
        (fun s => s.isArgument = true → s.isExpressible true = true) e.termArgumentOf := by
      intro e member t found isArgument
      cases e with
      | atom q value =>
        cases finite _ member with
        | atom _ finite => exact constantOf_expressible q value t finite found
      | list q more => exact expressible_as_argument t (operand _ member t found) isArgument
    cases items with
    | nil => exact .error _
    | cons first items =>
      cases first with
      | list => exact .error _
      | atom p value =>
        cases value with
        | symbol tag =>
          exact form_expressible pos p tag items (List.forall_mem_cons.mp operand).2
            (List.forall_mem_cons.mp argument).2
        | _ => exact .error _

end SExpr

end Clausal
