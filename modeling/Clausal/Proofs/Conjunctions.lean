import Clausal.Proofs.Permissions

/-!
# Conjunctions of sentences

A conjunction is normalized conjunct by conjunct. Nothing of what surrounds one conjunct reaches the
next, except for the numbers that its ladders have taken. Where flattening starts counting has no
influence on anything but these numbers, and so the clauses of a conjunction are those of its
conjuncts, with the ladders of each numbered after those of the conjuncts before.

## Main results

`flatten_shifted`: flattening from a later number on gives the same rules with later numbers.

`normalize_conj`: the clauses and the reports of a conjunction are those of its conjuncts, unless one
is refused for its shape: the first of these then speaks for the whole.
-/

namespace Clausal

open Sentence (Part children)

/-! ### Later numbers -/

/-- The branch of the same number on a ladder with a later number. -/
def Rung.shifted (shift : Nat) (rung : Rung) : Rung := { rung with ladder := rung.ladder + shift }

def Clause.shifted (shift : Nat) (c : Clause) : Clause :=
  { c with rung := c.rung.map (Rung.shifted shift) }

def Rules.shifted (shift : Nat) (x : Rules) : Rules :=
  { x with clauses := x.clauses.map (Clause.shifted shift) }

/-- The setting on the shifted rung, where ladders are numbered from a later number on. -/
def Setting.shifted (shift : Nat) (c : Setting) : Setting :=
  { c with rung := c.rung.map (Rung.shifted shift), next := c.next + shift }

namespace Rules

theorem shifted_append (shift : Nat) (x y : Rules) :
    (x.append y).shifted shift = (x.shifted shift).append (y.shifted shift) := by
  simp [append, shifted]

end Rules

namespace Setting

theorem shifted_clause (shift : Nat) (c : Setting) (head : Option Sentence)
    (literals : List Sentence) :
    (c.shifted shift).clause head literals = (c.clause head literals).shifted shift := rfl

theorem shifted_under (shift : Nat) (c : Setting) (next : Nat) (literals : List Sentence) :
    (c.shifted shift).under (next + shift) literals = (c.under next literals).shifted shift := rfl

theorem shifted_weight (shift : Nat) (c : Setting) : (c.shifted shift).weight = c.weight := rfl

theorem shifted_onRung (shift : Nat) (c : Setting) (ladder branch : Nat) :
    (c.shifted shift).onRung (ladder + shift) branch = (c.onRung ladder branch).shifted shift := by
  cases rung : c.rung with
  | none => simp [onRung, shifted, rung, Rung.shifted]
  | some _ => simp [onRung, shifted, rung]

end Setting

/-- Whether two computations fail for the same cause or return rules that differ by a shift. -/
def Shifts (shift : Nat) : Except Error Rules → Except Error Rules → Prop :=
  Alike fun x y => y = x.shifted shift

namespace Shifts

variable {shift : Nat}

theorem of_ok {x y : Except Error Rules} {a : Rules} (given : Shifts shift x y) (returned : x = .ok a) :
    y = .ok (a.shifted shift) := by
  cases given with
  | ok related => rw [related, Except.ok.inj returned]
  | error => cases returned

theorem of_error {x y : Except Error Rules} {e : Error} (given : Shifts shift x y)
    (failed : x = .error e) : y = .error e := by
  cases given with
  | ok => cases failed
  | error => exact failed

theorem map {x y : Except Error Rules} {f : Rules → Rules} (given : Shifts shift x y)
    (commutes : ∀ a, f (a.shifted shift) = (f a).shifted shift) :
    Shifts shift (do return f (← x)) (do return f (← y)) := by
  refine Alike.map given ?_
  rintro a _ rfl
  exact commutes a

/-- What does not depend on numbers may go before. -/
theorem after {α : Type} {f g : α → Except Error Rules} (x : Except Error α)
    (rest : ∀ a, Shifts shift (f a) (g a)) : Shifts shift (x >>= f) (x >>= g) := by
  refine Alike.bind (Alike.refl x fun _ => rfl) ?_
  rintro a _ rfl
  exact rest a

/-- The rules of two steps: the second one starts where the numbers of the first one end. -/
theorem append {x y : Except Error Rules} {next : Nat} (f g : Nat → Except Error Rules)
    (first : Shifts shift x y) (rest : ∀ n, Shifts shift (f n) (g (n + shift))) :
    Shifts shift (do let a ← x; return a.append (← f (next + a.ladders)))
      (do let a ← y; return a.append (← g (next + shift + a.ladders))) := by
  refine Alike.bind first ?_
  rintro a _ rfl
  have later := rest (next + a.ladders)
  rw [Nat.add_right_comm] at later
  refine Alike.map later ?_
  rintro b _ rfl
  exact (a.shifted_append shift b).symm

theorem collect {α : Type} (f g : Nat → α → Except Error Rules)
    (each : ∀ n a, Shifts shift (f n a) (g (n + shift) a)) (next : Nat) (as : List α) :
    Shifts shift (Rules.collect next f as) (Rules.collect (next + shift) g as) := by
  induction as generalizing next with
  | nil => exact .ok rfl
  | cons a as ih => exact append (Rules.collect · f as) (Rules.collect · g as) (each next a) ih

theorem forEach {rules : Setting → Except Error Rules}
    (each : ∀ inner : Setting, Shifts shift (rules inner) (rules (inner.shifted shift)))
    (c : Setting) (b : Bodies) :
    Shifts shift (c.forEach b rules) ((c.shifted shift).forEach b rules) := by
  refine map (collect _ _ (fun n literals => ?_) c.next b.alternatives) fun x => rfl
  rw [c.shifted_under shift]
  exact each (c.under n literals)

end Shifts

namespace Dialect

variable (d : Dialect) (shift : Nat)

/-- A constraint depends on the numbers of ladders only through its rung. -/
theorem constraint_shifted (c : Setting) (kind : ErrorKind) (body : Sentence) :
    Shifts shift (d.constraint c kind body) (d.constraint (c.shifted shift) kind body) := by
  unfold constraint
  split
  · cases d.bodies body true with
    | error e => exact .error e
    | ok b =>
      simp only [bind, Except.bind, List.any_map, Function.comp_def, Setting.shifted_clause,
        Clause.shifted]
      split
      · exact .error _
      · exact .ok (by simp [Rules.shifted, Clause.shifted, Setting.shifted_clause])
  · exact .error _

/-- The shift passes to the members of a conjunction. -/
theorem flattenAll_shifted (ss : List Sentence)
    (each : ∀ s ∈ ss, ∀ c, Shifts shift (d.flatten s c) (d.flatten s (c.shifted shift)))
    (c : Setting) : Shifts shift (d.flattenAll ss c) (d.flattenAll ss (c.shifted shift)) := by
  induction ss generalizing c with
  | nil => exact .ok rfl
  | cons s ss ih =>
    rw [List.forall_mem_cons] at each
    rw [flattenAll, flattenAll]
    exact .append (fun n => d.flattenAll ss (c.under n []))
      (fun n => d.flattenAll ss ((c.shifted shift).under n [])) (each.1 c)
      fun n => ih each.2 (c.under n [])

/-- The shift passes to the branches of a ladder, whose number is shifted as well. -/
theorem flattenRungs_shifted (ladder : Nat) (parts : List Part)
    (each : ∀ part ∈ parts, ∀ c, Shifts shift (d.flatten part.consequent c)
      (d.flatten part.consequent (c.shifted shift)))
    (branch : Nat) (c : Setting) :
    Shifts shift (d.flattenRungs ladder parts branch c)
      (d.flattenRungs (ladder + shift) parts branch (c.shifted shift)) := by
  induction parts generalizing branch c with
  | nil => exact .ok rfl
  | cons part parts ih =>
    rw [List.forall_mem_cons] at each
    rw [flattenRungs, flattenRungs]
    refine .after _ fun b => ?_
    rw [c.shifted_onRung shift]
    exact .append (fun n => d.flattenRungs ladder parts (branch + 1) (c.under n []))
      (fun n => d.flattenRungs (ladder + shift) parts (branch + 1) ((c.shifted shift).under n []))
      (.forEach each.1 _ b) fun n => ih each.2 (branch + 1) (c.under n [])

theorem flattenLast_shifted (ss : List Sentence)
    (each : ∀ s ∈ ss, ∀ c, Shifts shift (d.flatten s c) (d.flatten s (c.shifted shift)))
    (c : Setting) : Shifts shift (d.flattenLast ss c) (d.flattenLast ss (c.shifted shift)) := by
  induction ss with
  | nil => exact .ok rfl
  | cons s ss ih =>
    rw [List.forall_mem_cons] at each
    rw [flattenLast, flattenLast]
    split
    · exact each.1 c
    · exact ih each.2

/-- What is flattened from a later number on is the same with later numbers. -/
theorem flatten_shifted (s : Sentence) (c : Setting) :
    Shifts shift (d.flatten s c) (d.flatten s (c.shifted shift)) := by
  induction size : sizeOf s using Nat.strongRecOn generalizing s c with
  | ind n ih =>
    have smaller (t : Sentence) (less : sizeOf t < sizeOf s) (c : Setting) :
        Shifts shift (d.flatten t c) (d.flatten t (c.shifted shift)) := ih _ (size ▸ less) t c rfl
    have child (t : Sentence) (member : t ∈ s.children) (c : Setting) :
        Shifts shift (d.flatten t c) (d.flatten t (c.shifted shift)) :=
      smaller t (s.children_smaller t member) c
    cases s with
    | term p args => exact .ok rfl
    | forAll vars s | forSome vars s =>
      rw [flatten, flatten]
      exact (child s (List.mem_singleton_self s) c).map fun x => rfl
    | implies a b =>
      rw [flatten, flatten]
      exact .after _ fun x => .forEach (child b (by simp [children])) c x
    | iff a b =>
      rw [flatten, flatten]
      split
      · exact .error _
      · refine .after _ fun x => ?_
        -- The bodies of the other side are found only after the rules of this one.
        refine Alike.bind (Shifts.forEach (child b (by simp [children])) c x) ?_
        rintro first _ rfl
        refine Shifts.after _ fun y => ?_
        have back := Shifts.forEach (child a (by simp [children]))
          (c.under (c.next + first.ladders) []) y
        rw [← c.shifted_under shift, Nat.add_right_comm] at back
        refine Alike.map back ?_
        rintro second _ rfl
        exact (first.shifted_append shift second).symm
    | conj ss =>
      rw [flatten, flatten]
      split
      next isLadder =>
        rw [d.flattenLadder_eq ss _ _ _ _ isLadder, d.flattenLadder_eq ss _ _ _ _ isLadder]
        have rungs := d.flattenRungs_shifted shift c.next (Sentence.rungs [] (.conj ss))
          (fun part member => smaller part.consequent (Sentence.isRung_of_mem member isLadder).smaller)
          0 (c.under (c.next + 1) [])
        rw [← c.shifted_under shift, Nat.add_right_comm] at rungs
        exact rungs.map fun x => rfl
      next => exact d.flattenAll_shifted shift ss child c
    | neg s =>
      cases s with
      | neg s =>
        rw [flatten, flatten]
        simp only [Sentence.neg.sizeOf_spec] at smaller
        exact smaller s (by omega) c
      | _ => exact d.constraint_shifted shift c _ _
    | disj ss =>
      rw [flatten, flatten]
      split
      · exact .error _
      · split
        · exact d.constraint_shifted shift c _ _
        · exact .after _ fun x => .forEach (d.flattenLast_shifted shift ss child) c x
    | weighted w s =>
      rw [flatten, flatten, c.shifted_weight]
      split
      · exact .error _
      · split
        · exact .error _
        · exact child s (List.mem_singleton_self s) { c with weight := some w }
    | evidence | var | const | missing => exact .error _

end Dialect

/-! ### Checks -/

/-- The clause as it is found among others: with all their variables, and with its ladder numbered
after earlier ones. -/
def Clause.among (vars : List TypedName) (shift : Nat) (c : Clause) : Clause :=
  { c.shifted shift with vars := vars }

/-- What a report says, wherever it is made. -/
def Diagnostic.cause (report : Diagnostic) : ErrorKind × Text := (report.kind, report.message)

namespace Dialect

/-- Clauses are checked one by one. -/
theorem checkClauses_append (r : Option Registry) (sentence : Text) (xs ys : List Clause) :
    checkClauses r sentence (xs ++ ys) =
      (checkClauses r sentence xs).append (checkClauses r sentence ys) := by
  induction xs with
  | nil => rfl
  | cons x xs ih =>
    rw [List.cons_append, checkClauses, checkClauses, ih]
    cases x.check r <;> rfl

/-- The checks look neither at recorded variables nor at ladders. -/
theorem checkClauses_among (r : Option Registry) (sentence whole : Text)
    (own vars : List TypedName) (shift : Nat) (cs : List Clause) :
    let apart := checkClauses r sentence (cs.map fun c => { c with vars := own })
    let together := checkClauses r whole ((cs.map (Clause.shifted shift)).map fun c =>
      { c with vars := vars })
    together.clauses = apart.clauses.map (Clause.among vars shift) ∧
      together.diagnostics.map Diagnostic.cause = apart.diagnostics.map Diagnostic.cause := by
  induction cs with
  | nil => exact ⟨rfl, rfl⟩
  | cons c cs ih =>
    have same : Clause.check r { c.shifted shift with vars := vars } =
      Clause.check r { c with vars := own } := rfl
    simp only [List.map_cons, checkClauses, same]
    cases Clause.check r { c with vars := own } with
    | ok _ => exact ⟨congrArg (_ :: ·) ih.1, ih.2⟩
    | error e => exact ⟨ih.1, congrArg (_ :: ·) ih.2⟩

end Dialect

/-! ### Conjunctions -/

/-- Whether the reports say that the shape of the sentence is not accepted. -/
def Normalized.Rejected (n : Normalized) : Prop := ∃ report ∈ n.diagnostics, report.kind.IsShape

instance (n : Normalized) : Decidable n.Rejected :=
  inferInstanceAs (Decidable (∃ report ∈ n.diagnostics, report.kind.IsShape))

namespace Dialect

variable (d : Dialect) (r : Option Registry)

/-- The number of ladders met in a sentence. -/
def ladders (s : Sentence) : Nat :=
  match d.flatten s .outermost with
  | .ok rules => rules.ladders
  | .error _ => 0

/-- The clauses of some sentences side by side: the ladders of each sentence are numbered after those
of the sentences before, from `next` on. -/
def sideBySide (vars : List TypedName) : Nat → List (Sentence × Normalized) → List Clause
  | _, [] => []
  | next, (s, n) :: rest =>
    n.clauses.map (Clause.among vars next) ++ sideBySide vars (next + d.ladders s) rest

/-- A conjunct stands like a whole sentence, except for the numbers taken before. -/
theorem flattenAll_cons_shifted (s : Sentence) (ss : List Sentence) (next : Nat) :
    d.flattenAll (s :: ss) (Setting.outermost.shifted next) = (do
      let first ← d.flatten s (Setting.outermost.shifted next)
      return first.append (← d.flattenAll ss (Setting.outermost.shifted (next + first.ladders)))) := by
  have later (n : Nat) : (Setting.outermost.shifted next).under
      ((Setting.outermost.shifted next).next + n) [] = Setting.outermost.shifted (next + n) := by
    simp [Setting.shifted, Setting.under, Setting.outermost]
  simp only [flattenAll, later]

/-- Conjuncts that can be flattened give their clauses side by side and all their reports. -/
theorem flattenAll_normalizes (whole : Text) (ss : List Sentence)
    (each : ∀ s ∈ ss, ∃ rules, d.flatten s .outermost = .ok rules) (next : Nat) :
    ∃ rules, d.flattenAll ss (Setting.outermost.shifted next) = .ok rules ∧ ∀ vars,
      let n := checkClauses r whole (rules.clauses.map fun c => { c with vars := vars })
      n.clauses = d.sideBySide vars next (ss.map fun s => (s, d.normalize r s)) ∧
        n.diagnostics.map Diagnostic.cause =
          ss.flatMap fun s => (d.normalize r s).diagnostics.map Diagnostic.cause := by
  induction ss generalizing next with
  | nil => exact ⟨.none, rfl, fun vars => ⟨rfl, rfl⟩⟩
  | cons s ss ih =>
    rw [List.forall_mem_cons] at each
    obtain ⟨⟨own, flattened⟩, others⟩ := each
    have first := (d.flatten_shifted next s .outermost).of_ok flattened
    obtain ⟨rest, remaining, checked⟩ := ih others (next + own.ladders)
    refine ⟨(own.shifted next).append rest, ?_, fun vars => ?_⟩
    · have numbers : (own.shifted next).ladders = own.ladders := rfl
      simp only [flattenAll_cons_shifted, first, bind, Except.bind, numbers, remaining]
      rfl
    · obtain ⟨clauses, reports⟩ := checked vars
      have alone : d.normalize r s =
          checkClauses r s.text (own.clauses.map fun c => { c with vars := own.vars }) := by
        simp only [normalize, flattened]
      have count : d.ladders s = own.ladders := by simp only [ladders, flattened]
      obtain ⟨ownClauses, ownReports⟩ :=
        checkClauses_among r s.text whole own.vars vars next own.clauses
      simp only [Rules.append, Rules.shifted, List.map_append, checkClauses_append,
        Normalized.append, List.map_cons, List.flatMap_cons, sideBySide, count]
      simp only [alone, ownClauses, ownReports, clauses, reports, and_self]

/-- The first conjunct that cannot be flattened stops the whole. -/
theorem flattenAll_stops (before : List Sentence) (s : Sentence) (after : List Sentence) (e : Error)
    (each : ∀ t ∈ before, ∃ rules, d.flatten t .outermost = .ok rules)
    (failed : d.flatten s .outermost = .error e) (next : Nat) :
    d.flattenAll (before ++ s :: after) (Setting.outermost.shifted next) = .error e := by
  induction before generalizing next with
  | nil =>
    rw [List.nil_append, flattenAll_cons_shifted, (d.flatten_shifted next s _).of_error failed]
    rfl
  | cons t before ih =>
    rw [List.forall_mem_cons] at each
    obtain ⟨⟨own, flattened⟩, others⟩ := each
    rw [List.cons_append, flattenAll_cons_shifted, (d.flatten_shifted next t _).of_ok flattened]
    simp only [bind, Except.bind, ih others]

/-- Sentences that cannot be flattened for the same cause are refused alike. -/
theorem tryNormalize_refused {s t : Sentence} {e : Error} (failed : d.flatten s .outermost = .error e)
    (same : d.flatten t .outermost = .error e) :
    (∀ fault, d.tryNormalize r s = .error fault → d.tryNormalize r t = .error fault) ∧
      ∀ n, d.tryNormalize r s = .ok n → n = ⟨[], [.ofError e [] 0 s.text]⟩ ∧
        d.tryNormalize r t = .ok ⟨[], [.ofError e [] 0 t.text]⟩ := by
  simp only [tryNormalize, fault?, normalize, failed, same]
  cases e with
  | missingOperand kind =>
    refine ⟨fun fault given => given, ?_⟩
    intro n given
    cases given
  | _ =>
    constructor
    · intro fault given
      cases given
    · intro n given
      exact ⟨(Except.ok.inj given).symm, rfl⟩

/-- Only a sentence that cannot be flattened is rejected for its shape. -/
theorem flatten_of_rejected {s : Sentence} {n : Normalized} (returned : d.tryNormalize r s = .ok n)
    (rejected : n.Rejected) : ∃ e, d.flatten s .outermost = .error e := by
  obtain rfl := d.normalize_of_tryNormalize r s n (by rw [returned]; rfl)
  obtain ⟨report, member, shape⟩ := rejected
  obtain ⟨e, rfl, failed | ⟨c, failed⟩⟩ := d.mem_normalize_reports r s report member
  · exact ⟨e, failed⟩
  · -- The checks report other things.
    rcases c.check_refuses r e failed with kind | kind <;>
      simp [ErrorKind.IsShape, Diagnostic.ofError, kind] at shape

theorem mapM_tryNormalize {ss : List Sentence} {ns : List Normalized}
    (returned : ss.mapM (d.tryNormalize r) = .ok ns) : ns = ss.map (d.normalize r) := by
  rw [mapM_ok_iff] at returned
  induction returned with
  | nil => rfl
  | cons first _ ih =>
    have alone := d.normalize_of_tryNormalize r _ _ (by rw [first]; rfl)
    rw [List.map_cons, ih, alone]

/-- A conjunction that is no ladder has the clauses of its conjuncts, one after the other, and all of
their reports. If one of them is rejected for its shape, then the first of these speaks for the
whole, and likewise if one cannot be normalized at all. -/
theorem normalize_conj (d : Dialect) (r : Option Registry) (ss : List Sentence)
    (plain : Sentence.isLadder ss = false) :
    (∀ ns, ss.mapM (d.tryNormalize r) = .ok ns → (∀ n ∈ ns, ¬ n.Rejected) →
      ∃ n vars, d.tryNormalize r (.conj ss) = .ok n ∧
        n.clauses = d.sideBySide vars 0 (ss.zip ns) ∧
        n.diagnostics.map Diagnostic.cause =
          ns.flatMap fun m => m.diagnostics.map Diagnostic.cause) ∧
    ∀ before s after, ss = before ++ s :: after →
      (∀ t ∈ before, ∃ n, d.tryNormalize r t = .ok n ∧ ¬ n.Rejected) →
        (∀ n, d.tryNormalize r s = .ok n → n.Rejected →
          ∃ own report, n = ⟨[], [own]⟩ ∧ d.tryNormalize r (.conj ss) = .ok ⟨[], [report]⟩ ∧
            report.cause = own.cause) ∧
        ∀ fault, d.tryNormalize r s = .error fault →
          d.tryNormalize r (.conj ss) = .error fault := by
  have whole : d.flatten (.conj ss) .outermost = d.flattenAll ss (Setting.outermost.shifted 0) :=
    d.flatten_conj ss _ plain
  have flattened {t : Sentence} {n : Normalized} (returned : d.tryNormalize r t = .ok n)
      (accepted : ¬ n.Rejected) : ∃ rules, d.flatten t .outermost = .ok rules :=
    flatten_of_tryNormalize r returned fun report member shape => accepted ⟨report, member, shape⟩
  constructor
  · intro ns returned accepted
    have each : ∀ s ∈ ss, ∃ rules, d.flatten s .outermost = .ok rules := by
      intro s member
      obtain ⟨n, inside, found⟩ := ok_of_mem_mapM returned member
      exact flattened found (accepted n inside)
    obtain rfl := d.mapM_tryNormalize r returned
    obtain ⟨rules, all, checked⟩ := d.flattenAll_normalizes r (Sentence.conj ss).text ss each 0
    rw [all] at whole
    have given : d.tryNormalize r (.conj ss) = .ok (checkClauses r (Sentence.conj ss).text
        (rules.clauses.map fun c => { c with vars := rules.vars })) := by
      simp only [tryNormalize, fault?, normalize, whole]
    have pairs : ss.zip (ss.map (d.normalize r)) = ss.map fun s => (s, d.normalize r s) := by
      exact List.map_prod_left_eq_zip.symm
    refine ⟨_, rules.vars, given, ?_⟩
    rw [pairs, List.flatMap_map]
    exact checked rules.vars
  · rintro before s after rfl accepted
    have others : ∀ t ∈ before, ∃ rules, d.flatten t .outermost = .ok rules := by
      intro t member
      obtain ⟨n, returned, kept⟩ := accepted t member
      exact flattened returned kept
    constructor
    · intro n returned rejected
      obtain ⟨e, failed⟩ := d.flatten_of_rejected r returned rejected
      rw [d.flattenAll_stops before s after e others failed] at whole
      obtain ⟨own, refused⟩ := (d.tryNormalize_refused r failed whole).2 n returned
      exact ⟨_, _, own, refused, rfl⟩
    · intro fault returned
      cases failed : d.flatten s .outermost with
      | ok rules => simp [tryNormalize, fault?, failed] at returned
      | error e =>
        rw [d.flattenAll_stops before s after e others failed] at whole
        exact (d.tryNormalize_refused r failed whole).1 fault returned

/-- Two ladders, with a weighted fact and a rule with an unsafe head between them. -/
private def weather : List Sentence :=
  let rain : Sentence := .term "rain" []
  let wind : Sentence := .term "wind" []
  [.conj [.implies rain (.term "wet" []), .implies (.neg rain) (.term "dry" [])],
    .weighted ⟨0x3FE0000000000000⟩ rain,
    .implies rain (.term "flooded" [.var "x" []]),
    .conj [.implies wind (.term "waves" []), .implies (.neg wind) (.term "calm" [])]]

private def observed : Sentence := .evidence true (.term "rain" [])

/-- The ladders are numbered apart and the weight stays with its fact; with evidence among the
conjuncts nothing is left but the report on it. -/
theorem normalize_conj_weather :
    (∃ ns n vars, weather.mapM (LogicProgram.problog.dialect.tryNormalize none) = .ok ns ∧
      (∀ m ∈ ns, ¬ m.Rejected) ∧
      LogicProgram.problog.dialect.tryNormalize none (.conj weather) = .ok n ∧
      n.clauses = LogicProgram.problog.dialect.sideBySide vars 0 (weather.zip ns) ∧
      n.diagnostics.map Diagnostic.cause =
        (ns.flatMap fun m => m.diagnostics.map Diagnostic.cause) ∧
      n.clauses.map Clause.rung = [some ⟨0, 0⟩, some ⟨0, 1⟩, none, some ⟨1, 0⟩, some ⟨1, 1⟩] ∧
      n.diagnostics.map Diagnostic.kind = [.unsafeHeadVariable]) ∧
    ∃ own report, LogicProgram.problog.dialect.tryNormalize none observed = .ok ⟨[], [own]⟩ ∧
      LogicProgram.problog.dialect.tryNormalize none (.conj (weather ++ [observed])) =
        .ok ⟨[], [report]⟩ ∧ report.cause = own.cause := by
  have accepted : ∀ m ∈ weather.map (LogicProgram.problog.dialect.normalize none), ¬ m.Rejected := by
    decide
  have returned : weather.mapM (LogicProgram.problog.dialect.tryNormalize none) =
    .ok (weather.map (LogicProgram.problog.dialect.normalize none)) := rfl
  constructor
  · obtain ⟨n, vars, given, clauses, reports⟩ :=
      (normalize_conj LogicProgram.problog.dialect none weather rfl).1 _ returned accepted
    refine ⟨_, n, vars, returned, accepted, given, clauses, reports, ?_⟩
    obtain rfl := Except.ok.inj given
    exact ⟨rfl, rfl⟩
  · have others : ∀ t ∈ weather, ∃ n, LogicProgram.problog.dialect.tryNormalize none t = .ok n ∧
        ¬ n.Rejected := by
      intro t member
      obtain ⟨n, inside, found⟩ := ok_of_mem_mapM returned member
      exact ⟨n, found, accepted n inside⟩
    obtain ⟨stopped, -⟩ :=
      (normalize_conj LogicProgram.problog.dialect none (weather ++ [observed]) rfl).2 weather
        observed [] rfl others
    obtain ⟨own, report, alone, whole, same⟩ := stopped _ rfl (by decide)
    exact ⟨own, report, congrArg Except.ok alone, whole, same⟩

end Dialect

end Clausal
