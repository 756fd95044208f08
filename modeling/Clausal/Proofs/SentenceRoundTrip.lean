import Clausal.Proofs.ReadFaults

/-!
# Which sentences survive a document

Substitution may put a constant where a formula belongs, or a formula where an argument belongs.
Such a sentence is still written, but what is written for it cannot be read. Among the sentences that
construction and substitution give, the well-formed ones are read back, the others are refused as
malformed input, and nothing but well-formed sentences is ever read.
-/

namespace Clausal

open SExpr (Expresses)

namespace Sentence

/-! ### Well-formed sentences -/

/-- Arguments are terms, variables and constants, constants stand nowhere else, weights lie between
zero and one and floats are finite. -/
structure WellFormed (s : Sentence) : Prop where
  arguments : ∀ p args, Within (.term p args) s → ∀ a ∈ args, a.isArgument = true
  notConstant : ∀ v, s ≠ .const v
  constants : ∀ t v, Within t s → .const v ∈ t.children → t.isTerm = true
  weights : ∀ w t, Within (.weighted w t) s → w.isWeight = true
  floats : ∀ x, Within (.const (.float x)) s → x.isFinite = true

/-- What well-formedness asks of one part with regard to its immediate parts. -/
structure Fits (t : Sentence) : Prop where
  arguments : t.isTerm = true → ∀ a ∈ t.children, a.isArgument = true
  constants : ∀ v, .const v ∈ t.children → t.isTerm = true

theorem fits_term (p : Text) (args : List Sentence) :
    Fits (.term p args) ↔ ∀ a ∈ args, a.isArgument = true :=
  ⟨fun fits => fits.arguments rfl, fun arguments => ⟨fun _ => arguments, fun _ _ => rfl⟩⟩

theorem fits_compound (t : Sentence) (compound : t.isTerm = false) :
    Fits t ↔ ∀ c ∈ t.children, ∀ v, c ≠ .const v := by
  constructor
  · rintro fits c child v rfl
    exact absurd (fits.constants v child) (by simp [compound])
  · intro none
    exact ⟨fun isTerm => absurd isTerm (by simp [compound]), fun v child => absurd rfl (none _ child v)⟩

/-- Well-formedness can be checked part by part. -/
theorem wellFormed_iff (s : Sentence) (sound : Everywhere Sound s) :
    WellFormed s ↔ (∀ v, s ≠ .const v) ∧ Everywhere Fits s := by
  constructor
  · intro formed
    refine ⟨formed.notConstant, fun t inside => ⟨?_, fun v => formed.constants t v inside⟩⟩
    intro isTerm
    cases t with
    | term p args => exact formed.arguments p args inside
    | _ => exact absurd isTerm Bool.false_ne_true
  · rintro ⟨notConstant, fits⟩
    -- Weights and floats are part of what construction checks.
    exact {
      arguments := fun p args inside => (fits _ inside).arguments rfl
      notConstant := notConstant
      constants := fun t v inside => (fits t inside).constants v
      weights := fun w t inside => sound _ inside
      floats := fun x inside => sound _ inside }

theorem isExpressible_compound (t : Sentence) (compound : t.isArgument = false) :
    t.isExpressible true = false ∧ (t.isExpressible false = true ↔
      Sound t ∧ ∀ c ∈ t.children, c.isExpressible false = true) := by
  cases t with
  | term | var | const => exact absurd compound (by simp [isArgument, kind])
  | _ => simp [isExpressible, allExpressible_iff, Sound, children]

/-- Expressible are the sentences whose parts all fit, and only arguments may be constants. -/
theorem isExpressible_iff (s : Sentence) (sound : Everywhere Sound s) :
    (s.isExpressible true = true ↔ s.isArgument = true ∧ Everywhere Fits s) ∧
      (s.isExpressible false = true ↔ (∀ v, s ≠ .const v) ∧ Everywhere Fits s) := by
  induction s using induction_children with
  | step s ih =>
    obtain ⟨here, below⟩ := (everywhere_iff _ _).mp sound
    have each := fun c child => ih c child (below c child)
    rw [everywhere_iff Fits s]
    -- A formula stands nowhere but as a sentence; a term, variable or constant may be an argument.
    cases compound : s.isArgument with
    | false =>
      have notTerm : s.isTerm = false := by
        cases s <;> simp_all [isArgument, kind, isTerm]
      have notConstant : ∀ v, s ≠ .const v := by
        rintro v rfl
        simp [isArgument, kind] at compound
      obtain ⟨never, alone⟩ := isExpressible_compound s compound
      refine ⟨by simp [never], ?_⟩
      rw [alone, fits_compound s notTerm, ← forall₂_and]
      constructor
      · rintro ⟨_, operands⟩
        exact ⟨notConstant, fun c child => (each c child).2.mp (operands c child)⟩
      · rintro ⟨_, operands⟩
        exact ⟨here, fun c child => (each c child).2.mpr (operands c child)⟩
    | true =>
      cases s with
      | term p args =>
        have arguments : allExpressible true args = true ↔
            Fits (.term p args) ∧ ∀ c ∈ args, Everywhere Fits c := by
          rw [allExpressible_iff, fits_term, ← forall₂_and]
          exact forall₂_congr fun c child => (each c child).1
        simp [isExpressible, arguments, children]
      | var name type => simp [isExpressible, children, fits_compound (.var name type) rfl]
      | const v =>
        have finite : v.isFinite = true := here
        simp [isExpressible, children, fits_compound (.const v) rfl, finite]
      | _ => simp [isArgument, kind] at compound

/-- The sentences that can be written are the well-formed ones, among those that construction can
give. -/
theorem wellFormed_iff_isExpressible (s : Sentence) (sound : Everywhere Sound s) :
    WellFormed s ↔ s.isExpressible false = true :=
  (wellFormed_iff s sound).trans (isExpressible_iff s sound).2.symm

/-! ### Construction -/

/-- The sentences that construction gives from parts that it gave before, and that substitution of
such sentences gives. -/
inductive Built : Sentence → Prop where
  | term {p : Text} {args : List Sentence} {s : Sentence} (parts : ∀ a ∈ args, Built a)
      (returned : Build.term p args = .ok s) : Built s
  | var (name type : Text) : Built (.var name type)
  | const {v : Value} {s : Sentence} (returned : Build.const v = .ok s) : Built s
  | neg {a s : Sentence} (part : Built a) (returned : Build.neg a = .ok s) : Built s
  | conj {parts : List Sentence} {s : Sentence} (built : ∀ a ∈ parts, Built a)
      (returned : Build.conj parts = .ok s) : Built s
  | disj {parts : List Sentence} {s : Sentence} (built : ∀ a ∈ parts, Built a)
      (returned : Build.disj parts = .ok s) : Built s
  | implies {a b s : Sentence} (first : Built a) (second : Built b)
      (returned : Build.implies a b = .ok s) : Built s
  | iff {a b s : Sentence} (first : Built a) (second : Built b)
      (returned : Build.iff a b = .ok s) : Built s
  | forAll {vars : List TypedName} {a s : Sentence} (part : Built a)
      (returned : Build.forAll vars a = .ok s) : Built s
  | forSome {vars : List TypedName} {a s : Sentence} (part : Built a)
      (returned : Build.forSome vars a = .ok s) : Built s
  | weighted {w : Binary64} {a s : Sentence} (part : Built a)
      (returned : Build.weighted w a = .ok s) : Built s
  | evidence {holds : Bool} {a s : Sentence} (part : Built a)
      (returned : Build.evidence holds a = .ok s) : Built s
  | substitute {m : Substitution} {a s : Sentence} (mapped : ∀ entry ∈ m, Built entry.2)
      (part : Built a) (returned : Build.substitute m a = .ok s) : Built s

theorem of_operand {kind : SentenceKind} {a s : Sentence}
    (returned : Build.operand kind a = .ok s) : s = a := by
  unfold Build.operand at returned
  split at returned <;> cases returned
  rfl

theorem of_operands {kind : SentenceKind} {parts ss : List Sentence}
    (returned : parts.mapM (Build.operand kind) = .ok ss) : ss = parts := by
  rw [mapM_ok_iff] at returned
  induction returned with
  | nil => rfl
  | cons first _ ih => rw [of_operand first, ih]

theorem substitute_sound (s : Sentence) (m : Substitution)
    (mapped : ∀ entry ∈ m, Everywhere Sound entry.2) (sound : Everywhere Sound s) :
    Everywhere Sound (s.substitute m) := by
  -- Under a quantifier some entries are left out, and the others are still sound.
  have inner (vars : List TypedName) : ∀ entry ∈ withoutBound vars m, Everywhere Sound entry.2 :=
    fun entry member => mapped entry (List.mem_of_mem_filter member)
  induction s generalizing m with
  | var name type =>
    rw [substitute]
    cases found : m.lookup name with
    | none => exact sound
    | some t =>
      -- A variable that is mapped gives way to a sentence of the mapping.
      obtain ⟨before, after, rfl, -⟩ := List.lookup_eq_some_iff.mp found
      exact mapped (name, t) (by simp)
  | const v | missing => exact sound
  | term p ss ih | conj ss ih | disj ss ih =>
    obtain ⟨-, below⟩ := (everywhere_iff _ _).mp sound
    rw [substitute, substituteAll_eq]
    refine (everywhere_iff _ _).mpr ⟨trivial, List.forall_mem_map.mpr fun s member => ?_⟩
    exact ih s member m mapped (below s member) inner
  | implies a b first second | iff a b first second =>
    obtain ⟨-, below⟩ := (everywhere_iff _ _).mp sound
    have left := first m mapped (below a (by simp [children])) inner
    have right := second m mapped (below b (by simp [children])) inner
    rw [substitute]
    exact (everywhere_iff _ _).mpr ⟨trivial, by simpa [children] using ⟨left, right⟩⟩
  | forAll vars s ih | forSome vars s ih =>
    obtain ⟨-, below⟩ := (everywhere_iff _ _).mp sound
    rw [substitute]
    refine (everywhere_iff _ _).mpr ⟨trivial, List.forall_mem_singleton.mpr ?_⟩
    refine ih (withoutBound vars m) (inner vars) (below s List.mem_cons_self) fun more => ?_
    exact fun entry member => inner vars entry (List.mem_of_mem_filter member)
  | neg s ih | weighted w s ih | evidence holds s ih =>
    obtain ⟨here, below⟩ := (everywhere_iff _ _).mp sound
    have operand := ih m mapped (below s List.mem_cons_self) inner
    rw [substitute]
    exact (everywhere_iff _ _).mpr ⟨here, List.forall_mem_singleton.mpr operand⟩

/-- Nothing that is built has missing parts, numbers that are not finite or weights out of range. -/
theorem Built.sound {s : Sentence} (built : Built s) : Everywhere Sound s := by
  induction built with
  | term _ returned ih =>
    obtain ⟨rfl, -⟩ := SExpr.of_build_term _ _ _ returned
    exact (everywhere_iff _ _).mpr ⟨trivial, ih⟩
  | var name type => exact (everywhere_iff _ _).mpr ⟨trivial, by simp [children]⟩
  | @const v s returned =>
    have finite : s = .const v ∧ v.isFinite = true := by
      unfold Build.const at returned
      split at returned
      · split at returned
        next finite =>
          cases returned
          exact ⟨rfl, finite⟩
        next => cases returned
      next notFloat =>
        cases returned
        refine ⟨rfl, ?_⟩
        cases v with
        | float x => exact absurd rfl (notFloat x)
        | _ => rfl
    obtain ⟨rfl, finite⟩ := finite
    exact (everywhere_iff _ _).mpr ⟨finite, by simp [children]⟩
  | neg _ returned ih =>
    simp only [Build.neg, bind_ok_iff, pure_ok_iff] at returned
    obtain ⟨_, found, rfl⟩ := returned
    obtain rfl := of_operand found
    exact (everywhere_iff _ _).mpr ⟨trivial, List.forall_mem_singleton.mpr ih⟩
  | conj _ returned ih =>
    simp only [Build.conj, bind_ok_iff, pure_ok_iff] at returned
    obtain ⟨_, found, rfl⟩ := returned
    obtain rfl := of_operands found
    exact (everywhere_iff _ _).mpr ⟨trivial, ih⟩
  | disj _ returned ih =>
    simp only [Build.disj, bind_ok_iff, pure_ok_iff] at returned
    obtain ⟨_, found, rfl⟩ := returned
    obtain rfl := of_operands found
    exact (everywhere_iff _ _).mpr ⟨trivial, ih⟩
  | implies _ _ returned first second =>
    simp only [Build.implies, bind_ok_iff, pure_ok_iff] at returned
    obtain ⟨_, foundFirst, _, foundSecond, rfl⟩ := returned
    obtain rfl := of_operand foundFirst
    obtain rfl := of_operand foundSecond
    exact (everywhere_iff _ _).mpr ⟨trivial, by simpa [children] using ⟨first, second⟩⟩
  | iff _ _ returned first second =>
    simp only [Build.iff, bind_ok_iff, pure_ok_iff] at returned
    obtain ⟨_, foundFirst, _, foundSecond, rfl⟩ := returned
    obtain rfl := of_operand foundFirst
    obtain rfl := of_operand foundSecond
    exact (everywhere_iff _ _).mpr ⟨trivial, by simpa [children] using ⟨first, second⟩⟩
  | forAll _ returned ih =>
    simp only [Build.forAll, bind_ok_iff, pure_ok_iff] at returned
    obtain ⟨_, found, rfl⟩ := returned
    obtain rfl := of_operand found
    exact (everywhere_iff _ _).mpr ⟨trivial, List.forall_mem_singleton.mpr ih⟩
  | forSome _ returned ih =>
    simp only [Build.forSome, bind_ok_iff, pure_ok_iff] at returned
    obtain ⟨_, found, rfl⟩ := returned
    obtain rfl := of_operand found
    exact (everywhere_iff _ _).mpr ⟨trivial, List.forall_mem_singleton.mpr ih⟩
  | weighted _ returned ih =>
    obtain ⟨rfl, weight⟩ := SExpr.of_build_weighted _ _ _ returned
    exact (everywhere_iff _ _).mpr ⟨weight, List.forall_mem_singleton.mpr ih⟩
  | evidence _ returned ih =>
    simp only [Build.evidence, bind_ok_iff, pure_ok_iff] at returned
    obtain ⟨_, found, rfl⟩ := returned
    obtain rfl := of_operand found
    exact (everywhere_iff _ _).mpr ⟨trivial, List.forall_mem_singleton.mpr ih⟩
  | @substitute m a s _ _ returned mapped part =>
    unfold Build.substitute at returned
    split at returned <;> cases returned
    exact substitute_sound a m mapped part

/-! ### Documents -/

/-- What is written for a sentence that no document can hold is refused. -/
theorem parse_document_refused (s : Sentence) (sound : Everywhere Sound s)
    (inexpressible : s.isExpressible false ≠ true) :
    ∃ e, Sentence.parse s.document = .error e ∧ e.kind = .parseError := by
  obtain ⟨e, written, parsed⟩ := (s.expresses_written sound).parse
  cases read : e.sentenceOf with
  | error cause =>
    refine ⟨cause, ?_, SExpr.sentenceOf_refuses e cause read⟩
    rw [Sentence.parse, parsed]
    exact read
  | ok t =>
    -- What is read is expressible, and it could only be the sentence itself.
    have expressible := SExpr.sentenceOf_expressible e (SExpr.parse_finite _ e parsed) t read
    rw [written.only (SExpr.termArgumentOf_of_sentenceOf e t read)] at expressible
    exact absurd expressible inexpressible

/-- A sentence that can be written is read back as it was. -/
theorem parse_document (s : Sentence) (expressible : s.isExpressible false = true) :
    Sentence.parse s.document = .ok s := by
  obtain ⟨e, read, parsed⟩ := (SExpr.expresses_sentence s expressible).parse
  rw [Sentence.parse, parsed]
  exact read

/-- Whatever is read can be written again. -/
theorem parse_expressible (input : Text) (s : Sentence) (parsed : Sentence.parse input = .ok s) :
    s.isExpressible false = true := by
  rw [Sentence.parse, bind_ok_iff] at parsed
  obtain ⟨e, found, read⟩ := parsed
  exact SExpr.sentenceOf_expressible e (SExpr.parse_finite input e found) s read

/-- A sentence that was built is read back from its document if it is well formed, and its document is
refused as malformed input if it is not. Whatever a document gives is well formed. -/
theorem parse_document_iff :
    (∀ s, Built s →
      (WellFormed s → Sentence.parse s.document = .ok s ∧ s.same s = true) ∧
      (¬ WellFormed s → ∃ e, Sentence.parse s.document = .error e ∧ e.kind = .parseError)) ∧
    ∀ input s, Sentence.parse input = .ok s → WellFormed s := by
  constructor
  · intro s built
    -- For what was built, being well formed is being expressible.
    rw [wellFormed_iff_isExpressible s built.sound]
    constructor
    · intro expressible
      exact ⟨parse_document s expressible, s.same_self false expressible⟩
    · exact parse_document_refused s built.sound
  · intro input s parsed
    have expressible := parse_expressible input s parsed
    exact (wellFormed_iff_isExpressible s (s.sound_of_isExpressible false expressible)).mpr expressible

/-- A rule of weight one half about a name that holds a quote. -/
def quotedRule : Sentence :=
  .weighted ⟨0x3FE0000000000000⟩
    (.implies (.term "p" [.var "x" []]) (.term "q" [.const (.string "\"")]))

theorem quotedRule_built : Built quotedRule := by
  have p : Built (.term "p" [.var "x" []]) :=
    .term (List.forall_mem_singleton.mpr (.var "x" [])) rfl
  have q : Built (.term "q" [.const (.string "\"")]) :=
    .term (List.forall_mem_singleton.mpr (.const (v := .string "\"") rfl)) rfl
  have weight : Binary64.isWeight ⟨0x3FE0000000000000⟩ = true := by decide
  refine .weighted (w := ⟨0x3FE0000000000000⟩) (.implies p q rfl) ?_
  rw [Build.weighted, if_pos weight]
  rfl

/-- What substitution of a constant makes of a negated variable. -/
def negatedConstant : Sentence := .neg (.const (.int 1))

theorem negatedConstant_built : Built negatedConstant := by
  have one : Built (.const (.int 1)) := .const (v := .int 1) rfl
  exact .substitute (m := [("x", .const (.int 1))]) (List.forall_mem_singleton.mpr one)
    (.neg (.var "x" []) rfl) rfl

theorem parse_document_iff_examples :
    (WellFormed quotedRule ∧ Sentence.parse quotedRule.document = .ok quotedRule) ∧
    (¬ WellFormed negatedConstant ∧ ∃ e, Sentence.parse negatedConstant.document = .error e ∧
      e.kind = .parseError) ∧
    ∃ s, Sentence.parse "(Not (Term \"p\"))" = .ok s ∧ WellFormed s := by
  have formed : WellFormed quotedRule :=
    (wellFormed_iff_isExpressible _ quotedRule_built.sound).mpr rfl
  have notFormed : ¬ WellFormed negatedConstant := fun formed =>
    absurd ((wellFormed_iff_isExpressible _ negatedConstant_built.sound).mp formed) (by decide)
  refine ⟨⟨formed, ?_⟩, ⟨notFormed, ?_⟩, .neg (.term "p" []), rfl, ?_⟩
  · exact ((parse_document_iff.1 _ quotedRule_built).1 formed).1
  · exact (parse_document_iff.1 _ negatedConstant_built).2 notFormed
  · exact parse_document_iff.2 "(Not (Term \"p\"))" _ rfl

end Sentence

end Clausal
