import Clausal.Proofs.Entailment

/-!
# Normalization and truth

What normalization keeps of the clauses found by flattening, and what these say. A clause that is
kept is safe: its body mentions every variable of its head. So a clause follows from its sentence
unless its body mentions a variable that the sentence asserts to exist. Without such variables, and
without a report, the clauses together say what the sentence says.
-/

namespace Clausal

universe u

/-- A literal binds only variables that occur free in it. -/
theorem Sentence.positiveVars_subset (s : Sentence) : s.positiveVars ⊆ s.freeIn [] := by
  induction s with
  | term p args =>
    intro x found
    rw [positiveVars] at found
    split at found
    · simp at found
    · exact (mem_freeVars x _).mp found
  | conj ss ih =>
    rw [positiveVars, freeIn]
    induction ss with
    | nil => simp [positiveVarsOf]
    | cons s ss rest =>
      rw [List.forall_mem_cons] at ih
      simp only [positiveVarsOf, freeInAll, List.flatten_cons]
      exact List.append_subset.mpr ⟨List.subset_append_of_subset_left _ ih.1,
        List.subset_append_of_subset_right _ (rest ih.2)⟩
  | disj ss ih =>
    cases ss with
    | nil => simp [positiveVars]
    | cons s ss =>
      intro x found
      rw [positiveVars] at found
      -- What all branches bind is free in the first one.
      have first := ih s List.mem_cons_self (List.mem_of_mem_filter found)
      simp [freeIn, freeInAll, first]
  | _ => simp [positiveVars]

theorem Clause.mem_boundVars (c : Clause) (x : Text) (bound : x ∈ c.boundVars) :
    ∃ l ∈ c.body, x ∈ l.freeVars := by
  -- Together the literals of a body bind what their conjunction binds.
  have inside : x ∈ (Sentence.conj c.body).positiveVars := by
    rw [Sentence.positiveVars]
    exact (Names.mem_ofList x _).mp bound
  have free := Sentence.positiveVars_subset _ inside
  rw [Sentence.freeIn, Sentence.mem_freeInAll] at free
  simpa only [Sentence.mem_freeVars] using free

/-- A clause that passes the checks binds every variable of its head. -/
theorem Clause.bound_of_check (r : Option Registry) (c : Clause) (passed : c.check r = .ok ())
    (head : Sentence) (found : c.head = some head) (x : Text) (free : x ∈ head.freeVars) :
    x ∈ c.boundVars := by
  unfold Clause.check at passed
  rw [bind_ok_iff] at passed
  obtain ⟨_, _, passed⟩ := passed
  simp only [found] at passed
  split at passed
  · simp at passed
  next none => simpa using List.find?_eq_none.mp none x free

/-- A clause that passes the checks binds every variable of its head in its body. -/
theorem Clause.safe_of_check (r : Option Registry) (c : Clause) (passed : c.check r = .ok ())
    (head : Sentence) (found : c.head = some head) (x : Text) (free : x ∈ head.freeVars) :
    ∃ l ∈ c.body, x ∈ l.freeVars :=
  c.mem_boundVars x (c.bound_of_check r passed head found x free)

namespace Dialect

/-- Of the clauses, exactly those that pass the checks are kept. -/
theorem mem_checkClauses (r : Option Registry) (sentence : Text) (c : Clause) (cs : List Clause) :
    c ∈ (checkClauses r sentence cs).clauses ↔ c ∈ cs ∧ c.check r = .ok () := by
  induction cs with
  | nil => simp [checkClauses, Normalized.empty]
  | cons first rest ih =>
    rw [checkClauses]
    split
    next passed =>
      simp only [Normalized.keep, List.mem_cons, ih]
      constructor
      · rintro (rfl | ⟨inRest, good⟩)
        · exact ⟨.inl rfl, passed⟩
        · exact ⟨.inr inRest, good⟩
      · rintro ⟨rfl | inRest, good⟩
        · exact .inl rfl
        · exact .inr ⟨inRest, good⟩
    next e failed =>
      simp only [Normalized.report, List.mem_cons, ih]
      constructor
      · rintro ⟨inRest, good⟩
        exact ⟨.inr inRest, good⟩
      · rintro ⟨rfl | inRest, good⟩
        · simp [failed] at good
        · exact ⟨inRest, good⟩

/-- Without a report no clause was left out. -/
theorem checkClauses_silent (r : Option Registry) (sentence : Text) (cs : List Clause)
    (silent : (checkClauses r sentence cs).diagnostics = []) :
    (checkClauses r sentence cs).clauses = cs := by
  induction cs with
  | nil => rfl
  | cons first rest ih =>
    rw [checkClauses] at silent ⊢
    split at silent
    · simp only [Normalized.keep] at silent ⊢
      rw [ih silent]
    -- A clause that fails its check would have been reported.
    · simp [Normalized.report] at silent

/-- The clauses of a sentence are those that flattening gives and that pass the checks. -/
theorem mem_normalize (d : Dialect) (r : Option Registry) (s : Sentence) (c : Clause) :
    c ∈ (d.normalize r s).clauses ↔ ∃ rules, d.flatten s .outermost = .ok rules ∧
      ∃ given ∈ rules.clauses, c = { given with vars := rules.vars } ∧ c.check r = .ok () := by
  unfold normalize
  split
  next e failed => simp [failed]
  next rules returned =>
    simp only [mem_checkClauses, List.mem_map, returned, Except.ok.injEq, exists_eq_left']
    constructor
    · rintro ⟨⟨given, inside, rfl⟩, passed⟩
      exact ⟨given, inside, rfl, passed⟩
    · rintro ⟨given, inside, rfl, passed⟩
      exact ⟨⟨given, inside, rfl⟩, passed⟩

/-- A clause of a sentence is given by it, up to the variables, and passed the checks. -/
theorem gives_of_mem_normalize (d : Dialect) (r : Option Registry) (s : Sentence) (c : Clause)
    (member : c ∈ (d.normalize r s).clauses) :
    ∃ given vars names, d.Gives names s .outermost given ∧ c = { given with vars := vars } ∧
      c.check r = .ok () := by
  obtain ⟨rules, returned, given, inside, equal, passed⟩ := (d.mem_normalize r s c).mp member
  obtain ⟨names, gives⟩ := d.flatten_gives s .outermost rules returned given inside
  exact ⟨given, rules.vars, names, gives, equal, passed⟩

theorem mem_checkClauses_reports (r : Option Registry) (sentence : Text) (cs : List Clause)
    (report : Diagnostic) (member : report ∈ (checkClauses r sentence cs).diagnostics) :
    ∃ c ∈ cs, ∃ e, c.check r = .error e ∧ report = .ofError e [] 0 sentence := by
  induction cs with
  | nil => simp [checkClauses, Normalized.empty] at member
  | cons c cs ih =>
    have later (found : report ∈ (checkClauses r sentence cs).diagnostics) :
        ∃ d ∈ c :: cs, ∃ e, d.check r = .error e ∧ report = .ofError e [] 0 sentence := by
      obtain ⟨d, inside, failed⟩ := ih found
      exact ⟨d, List.mem_cons_of_mem c inside, failed⟩
    rw [checkClauses] at member
    split at member
    · exact later member
    next e failed =>
      rcases List.mem_cons.mp member with rfl | found
      · exact ⟨c, List.mem_cons_self, e, failed, rfl⟩
      · exact later found

/-- A report is on a sentence that cannot be flattened or on a clause that fails a check, and it
quotes the sentence. -/
theorem mem_normalize_reports (d : Dialect) (r : Option Registry) (s : Sentence)
    (report : Diagnostic) (member : report ∈ (d.normalize r s).diagnostics) :
    ∃ e, report = .ofError e [] 0 s.text ∧
      (d.flatten s .outermost = .error e ∨ ∃ c : Clause, c.check r = .error e) := by
  unfold normalize at member
  split at member
  next e failed => exact ⟨e, List.mem_singleton.mp member, .inl failed⟩
  next =>
    obtain ⟨c, -, e, failed, equal⟩ := mem_checkClauses_reports r s.text _ report member
    exact ⟨e, equal, .inr ⟨c, failed⟩⟩

/-- What is found for a group is found for one of its sentences, up to the place. -/
theorem normalizeFrom_origin (d : Dialect) (r : Option Registry) (group : Text) (index : Nat)
    (ss : List Sentence) :
    (∀ c ∈ (d.normalizeFrom r group index ss).clauses, ∃ s ∈ ss, ∃ i,
      c ∈ ((d.normalize r s).locate group i).clauses) ∧
    ∀ report ∈ (d.normalizeFrom r group index ss).diagnostics, ∃ s ∈ ss, ∃ i,
      report ∈ ((d.normalize r s).locate group i).diagnostics := by
  induction ss generalizing index with
  | nil => simp [normalizeFrom, Normalized.empty]
  | cons s ss ih =>
    obtain ⟨clauses, diagnostics⟩ := ih (index + 1)
    simp only [normalizeFrom, Normalized.append, List.forall_mem_append]
    refine ⟨⟨fun c here => ⟨s, List.mem_cons_self, index, here⟩, fun c found => ?_⟩,
      fun report here => ⟨s, List.mem_cons_self, index, here⟩, fun report found => ?_⟩
    · obtain ⟨t, inside, place⟩ := clauses c found
      exact ⟨t, List.mem_cons_of_mem s inside, place⟩
    · obtain ⟨t, inside, place⟩ := diagnostics report found
      exact ⟨t, List.mem_cons_of_mem s inside, place⟩

variable (I : Interpretation.{u})

/-- Whether a sentence gives a clause on a way where no variable of its body is asserted to exist. -/
def GivesClear (d : Dialect) (s : Sentence) (c : Clause) : Prop :=
  ∃ given names, d.Gives names s .outermost given ∧ c = { given with vars := c.vars } ∧
    ∀ l ∈ c.body, l.Avoids names

/-- This is so if no variable of the body is asserted anywhere in the sentence. -/
theorem givesClear_of_avoids (d : Dialect) (r : Option Registry) {s : Sentence} {c : Clause}
    (member : c ∈ (d.normalize r s).clauses) (clear : ∀ l ∈ c.body, l.Avoids (s.asserted true)) :
    d.GivesClear s c := by
  obtain ⟨given, vars, names, gives, rfl, -⟩ := d.gives_of_mem_normalize r s c member
  refine ⟨given, names, gives, rfl, fun l inBody x free asserted => ?_⟩
  exact clear l inBody x free (gives.passed_subset asserted)

/-- A clause is true wherever its sentence is, unless a variable of its body is asserted to exist on
the way to the clause. -/
theorem normalize_sound (d : Dialect) (r : Option Registry) (s : Sentence) (c : Clause)
    (member : c ∈ (d.normalize r s).clauses) (clear : d.GivesClear s c) (p : I.Point)
    (holds : I.Holds p s) : I.HoldsClause p c := by
  obtain ⟨-, -, -, -, -, passed⟩ := d.gives_of_mem_normalize r s c member
  obtain ⟨clause, names, given, equal, clear⟩ := clear
  rw [equal] at passed clear ⊢
  -- Nothing is asked of the terms here, only that the literals are made of terms.
  have made := given.body_made (Sentence.terms_of_forall (fun _ _ => trivial) s)
    fun l none => absurd none List.not_mem_nil
  have steady : ∀ l ∈ clause.body, l.Made (I.Steady names) := fun l inBody =>
    I.steady_of_avoids (made l inBody) (clear l inBody)
  intro body
  obtain ⟨q, agree, head⟩ := given.sound I names steady (List.Subset.refl _) p holds body
  cases found : clause.head with
  | none => simp [found] at head
  | some term =>
    rw [found] at head
    obtain ⟨predicate, args, rfl, -⟩ :=
      given.head_term (Sentence.terms_of_forall (fun _ _ => trivial) s) term found
    -- Every variable of the head occurs in the body, which avoids those in which `p` and `q` differ.
    refine (I.atom_agree _ p q predicate args agree fun x free => ?_).mpr head
    obtain ⟨l, inBody, occurs⟩ := Clause.safe_of_check r _ passed _ found x
      ((Sentence.mem_freeVars x _).mpr free)
    exact clear l inBody x occurs

end Dialect

/-- A sentence under blocks of outermost quantifiers. -/
def Sentence.quantified (blocks : List (List TypedName)) (matrix : Sentence) : Sentence :=
  blocks.foldr .forAll matrix

theorem Sentence.asserted_quantified (blocks : List (List TypedName)) (matrix : Sentence) :
    (quantified blocks matrix).asserted true = matrix.asserted true := by
  induction blocks with
  | nil => rfl
  | cons vars blocks ih => exact ih

/-- Outermost quantifiers only record their variables. -/
theorem Dialect.flatten_quantified (d : Dialect) (blocks : List (List TypedName)) (matrix : Sentence)
    (c : Setting) (rules : Rules)
    (returned : d.flatten (Sentence.quantified blocks matrix) c = .ok rules) :
    ∃ inner, d.flatten matrix c = .ok inner ∧ inner.clauses = rules.clauses := by
  induction blocks generalizing rules with
  | nil => exact ⟨rules, returned, rfl⟩
  | cons vars blocks ih =>
    simp only [Sentence.quantified, List.foldr_cons, flatten, bind_ok_iff, pure_ok_iff] at returned
    obtain ⟨rest, flattened, rfl⟩ := returned
    exact ih rest flattened

/-- A truth value for every term, where terms that are the same have the same value. -/
structure Valuation where
  truth : Text → List Sentence → Prop
  truth_same : ∀ predicate args others, Sentence.sameAll args others = true →
    (truth predicate args ↔ truth predicate others)

namespace Valuation

/-- A valuation as an interpretation with a single point. -/
def toInterpretation (v : Valuation) : Interpretation.{0} where
  Point := Unit
  atom _ := v.truth
  agree _ _ _ := True
  agree_refl _ _ := trivial
  agree_symm _ _ _ _ := trivial
  agree_trans _ _ _ _ _ _ := trivial
  agree_mono _ _ _ _ _ _ := trivial
  atom_same _ := v.truth_same
  atom_agree _ _ _ _ _ _ _ := .rfl

def Holds (v : Valuation) (s : Sentence) : Prop := v.toInterpretation.Holds () s

def HoldsClause (v : Valuation) (c : Clause) : Prop := v.toInterpretation.HoldsClause () c

/-- Without points to quantify over, quantifiers do not matter. -/
theorem holds_quantified (v : Valuation) (blocks : List (List TypedName)) (matrix : Sentence) :
    v.Holds (.quantified blocks matrix) ↔ v.Holds matrix := by
  induction blocks with
  | nil => rfl
  | cons vars blocks ih =>
    rw [← ih]
    exact ⟨fun all => all () trivial, fun holds _ _ => holds⟩

end Valuation

namespace Dialect

/-- Normalization preserves meaning where there are no quantifiers but outermost ones: every clause is
true where the matrix is, and unless something is reported the matrix is true where all clauses are. -/
theorem normalize_preserves_truth (d : Dialect) (r : Option Registry)
    (blocks : List (List TypedName)) (matrix : Sentence) (plain : matrix.Propositional)
    (v : Valuation) :
    (v.Holds matrix → ∀ c ∈ (d.normalize r (.quantified blocks matrix)).clauses, v.HoldsClause c) ∧
      ((d.normalize r (.quantified blocks matrix)).diagnostics = [] →
        (∀ c ∈ (d.normalize r (.quantified blocks matrix)).clauses, v.HoldsClause c) →
        v.Holds matrix) := by
  constructor
  -- Soundness is the general statement, where no variable is asserted to exist.
  · intro holds c member
    have nothing : (Sentence.quantified blocks matrix).asserted true = [] := by
      rw [Sentence.asserted_quantified, plain.asserted_eq_nil true]
    have clear : d.GivesClear (.quantified blocks matrix) c :=
      d.givesClear_of_avoids r member fun l _ => nothing ▸ l.avoids_nil
    exact d.normalize_sound v.toInterpretation r _ c member clear ()
      ((v.holds_quantified blocks matrix).mpr holds)
  · intro silent all
    unfold normalize at silent all
    split at silent
    · simp at silent
    next rules returned =>
      -- Without a report nothing was lost after flattening, so all its clauses are true.
      obtain ⟨inner, flattened, same⟩ := d.flatten_quantified blocks matrix _ rules returned
      rw [returned] at all
      simp only [checkClauses_silent r _ _ silent, List.forall_mem_map] at all
      exact flatten_complete v.toInterpretation d matrix _ inner flattened plain ()
        (by simp [Setting.outermost]) (same ▸ all)

/-- A condition with a disjunction in it: each disjunct makes a clause. -/
private def guardedRule : Sentence :=
  let x : Sentence := .var "x" []
  .implies (.conj [.term "q" [x], .disj [.term "r" [x], .neg (.term "s" [x])]]) (.term "p" [x])

private theorem guardedRule_plain : guardedRule.Propositional := by
  refine .implies (.conj ?_) (.term _ _)
  simp only [List.forall_mem_cons]
  refine ⟨.term _ _, .disj ?_, by simp⟩
  simp only [List.forall_mem_cons]
  exact ⟨.term _ _, .neg (.term _ _), by simp⟩

private def options : Dialect := ⟨true, true, true, true⟩

/-- The terms with predicate `q` are true, and no others. -/
private def onlyQ : Valuation := ⟨fun predicate _ => predicate = "q", fun _ _ _ _ => .rfl⟩

theorem normalize_preserves_truth_guarded :
    guardedRule.Propositional ∧
      (options.normalize none (.quantified [[⟨"x", []⟩]] guardedRule)).diagnostics = [] ∧
      ¬ onlyQ.Holds guardedRule ∧
      ¬ ∀ c ∈ (options.normalize none (.quantified [[⟨"x", []⟩]] guardedRule)).clauses,
        onlyQ.HoldsClause c := by
  have preserved := options.normalize_preserves_truth none [[⟨"x", []⟩]] guardedRule
    guardedRule_plain onlyQ
  have silent : (options.normalize none (.quantified [[⟨"x", []⟩]] guardedRule)).diagnostics = [] := by
    decide
  have fails : ¬ onlyQ.Holds guardedRule := by
    intro holds
    have other : ("p" : Text) ≠ "q" ∧ ("s" : Text) ≠ "q" := by decide
    exact other.1 (holds ⟨rfl, .inr (.inl other.2), trivial⟩)
  exact ⟨guardedRule_plain, silent, fails, fun all => fails (preserved.2 silent all)⟩

end Dialect

end Clausal
