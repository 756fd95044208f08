import Clausal.Proofs.Normalization
import Clausal.Proofs.Refusal
import Clausal.Proofs.SentenceDocuments
import Clausal.Target

/-!
# Accounting for sentences

A target language cannot express every sentence. The text of a program still accounts for all of
them: what the language can say of a sentence stands in the text, and a sentence that it cannot
express is reported with its place. Only the rules of a translated sentence may be left out again, if
the program would not be stratified, and then this is reported.

The second half is about sentences that a document can hold. Normalizing them never fails for want
of an operand, and their clauses are made of terms whose arguments can be written.
-/

namespace Clausal

/-! ### Reports and texts -/

/-- Whether a report is on a sentence and gives its place. -/
structure Diagnostic.Concerns (report : Diagnostic) (group : Text) (index : Nat) (s : Sentence) :
    Prop where
  group : report.group = group
  index : report.index = index
  sentence : report.sentence = s.text

/-- Whether a text with reports accounts for a sentence, whose translation is a list of lines if
there is one. -/
def Accounts (text : Text) (reports : List Diagnostic) (translation : Option (List Text))
    (group : Text) (index : Nat) (s : Sentence) : Prop :=
  match translation with
  | some lines => (∀ line ∈ lines, line <:+: text) ∨
      ∃ report ∈ reports, report.kind = .unstratifiedNegation ∧ report.Concerns group index s
  | none => ∃ report ∈ reports, report.Concerns group index s

/-- Whether a text with reports accounts for each sentence of a list, numbered from `index` on. -/
def AccountsFrom (text : Text) (reports : List Diagnostic)
    (translation : Sentence → Option (List Text)) (group : Text) (index : Nat)
    (ss : List Sentence) : Prop :=
  ∀ i s, ss[i]? = some s → Accounts text reports (translation s) group (index + i) s

/-- Whether a sentence is stated in a text by a line of its own, or reported if it has none. -/
inductive States (text : Text) (reports : List Diagnostic) (group : Text) (index : Nat)
    (s : Sentence) : Option Text → Prop where
  | written {line : Text} (inside : line <:+: text) : States text reports group index s (some line)
  | reported {report : Diagnostic} (member : report ∈ reports)
      (concerns : report.Concerns group index s) : States text reports group index s none

variable {text wider : Text} {reports more : List Diagnostic} {group : Text} {index : Nat}

theorem Accounts.written {lines : List Text} {s : Sentence} (all : ∀ line ∈ lines, line <:+: text) :
    Accounts text reports (some lines) group index s := .inl all

theorem Accounts.dropped {lines : List Text} {s : Sentence} {report : Diagnostic}
    (member : report ∈ reports) (kind : report.kind = .unstratifiedNegation)
    (concerns : report.Concerns group index s) :
    Accounts text reports (some lines) group index s := .inr ⟨report, member, kind, concerns⟩

theorem Accounts.reported {s : Sentence} {report : Diagnostic} (member : report ∈ reports)
    (concerns : report.Concerns group index s) : Accounts text reports none group index s :=
  ⟨report, member, concerns⟩

/-- A text that states a sentence accounts for it. -/
theorem States.accounts {s : Sentence} {line : Option Text}
    (states : States text reports group index s line) :
    Accounts text reports (line.map fun line => [line]) group index s := by
  cases states with
  | written inside => exact .written (List.forall_mem_singleton.mpr inside)
  | reported member concerns => exact .reported member concerns

/-- Where a sentence has no line of its own, there is a report on it. -/
theorem States.exists_report {s : Sentence} {line : Option Text}
    (states : States text reports group index s line) (refused : line = none) :
    ∃ report ∈ reports, report.Concerns group index s := by
  cases states with
  | written => cases refused
  | reported member concerns => exact ⟨_, member, concerns⟩

/-- More text and more reports account for no less. -/
theorem Accounts.mono {translation : Option (List Text)} {s : Sentence}
    (given : Accounts text reports translation group index s) (inside : text <:+: wider)
    (included : reports ⊆ more) : Accounts wider more translation group index s := by
  cases translation with
  | some lines =>
    rcases given with written | ⟨report, member, found⟩
    · exact .inl fun line inLines => (written line inLines).trans inside
    · exact .inr ⟨report, included member, found⟩
  | none =>
    obtain ⟨report, member, found⟩ := given
    exact ⟨report, included member, found⟩

variable {translation : Sentence → Option (List Text)} {s : Sentence} {ss : List Sentence}

theorem AccountsFrom.mono (given : AccountsFrom text reports translation group index ss)
    (inside : text <:+: wider) (included : reports ⊆ more) :
    AccountsFrom wider more translation group index ss :=
  fun i s found => (given i s found).mono inside included

theorem AccountsFrom.nil : AccountsFrom text reports translation group index [] := by
  intro i s found
  simp at found

theorem AccountsFrom.cons (first : Accounts text reports (translation s) group index s)
    (rest : AccountsFrom text reports translation group (index + 1) ss) :
    AccountsFrom text reports translation group index (s :: ss) := by
  rintro (_ | i) t found
  · obtain rfl := Option.some.inj found
    exact first
  · have later := rest i t found
    rwa [Nat.add_right_comm] at later

/-! ### Clauses as lines -/

/-- The lines for the clauses of a sentence, unless a clause is left out or cannot be written. -/
def Dialect.lines? (d : Dialect) (write : Clause → Except TargetFault Text) (r : Registry)
    (s : Sentence) : Option (List Text) :=
  if (d.normalize (some r) s).diagnostics.isEmpty then
    ((d.normalize (some r) s).clauses.mapM write).toOption
  else none

namespace Dialect

variable {d : Dialect} {write : Clause → Except TargetFault Text} {r : Registry}

theorem lines?_silent {lines : List Text} (silent : (d.normalize (some r) s).diagnostics = [])
    (written : (d.normalize (some r) s).clauses.mapM write = .ok lines) :
    d.lines? write r s = some lines := by
  rw [lines?, silent, written]
  rfl

/-- One clause that cannot be written is enough to give up all lines of its sentence. -/
theorem lines?_refused {c : Clause} {fault : TargetFault}
    (member : c ∈ (d.normalize (some r) s).clauses) (failed : write c = .error fault) :
    d.lines? write r s = none := by
  unfold lines?
  split
  · cases listed : (d.normalize (some r) s).clauses.mapM write with
    | error _ => rfl
    | ok lines =>
      -- A list of lines would contain one for this clause.
      obtain ⟨line, -, written⟩ := ok_of_mem_mapM listed member
      simp [failed] at written
  · rfl

theorem lines?_reported (reported : (d.normalize (some r) s).diagnostics ≠ []) :
    d.lines? write r s = none :=
  if_neg (by simpa using reported)

end Dialect

/-- A sentence whose normalization is not silent has a report at its place. -/
theorem Dialect.locate_concerns (d : Dialect) (r : Option Registry) (s : Sentence) (group : Text)
    (index : Nat) (reported : (d.normalize r s).diagnostics ≠ []) :
    ∃ report ∈ ((d.normalize r s).locate group index).diagnostics,
      report.Concerns group index s := by
  obtain ⟨report, member⟩ := List.exists_mem_of_ne_nil _ reported
  -- Reports of a normalization quote the sentence; its place is added afterwards.
  obtain ⟨e, rfl, -⟩ := d.mem_normalize_reports r s report member
  exact ⟨_, List.mem_map_of_mem member, rfl, rfl, rfl⟩

/-! ### Sentences of documents -/

/-- Whether a compilation that fails says that it was refused something. -/
def TargetFault.IsRefusal (fault : TargetFault) : Prop := ∃ e, fault = .refused e

namespace Sentence

/-- Formulas made of terms whose arguments can be written. -/
def Writable : Sentence → Prop := Made fun _ args => allExpressible true args = true

/-- What can stand in a document lacks no operand. -/
theorem complete_of_isExpressible (s : Sentence) (expressible : s.isExpressible false = true) :
    s.Complete := by
  intro t inside
  obtain ⟨_, possible⟩ := isExpressible_everywhere expressible t inside
  -- A missing operand is the one thing that has no written form anywhere.
  cases t with
  | missing => exact absurd possible Bool.false_ne_true
  | _ => rfl

theorem terms_of_isExpressible (s : Sentence) (expressible : s.isExpressible false = true) :
    s.Terms fun _ args => allExpressible true args = true := by
  rintro t inside p args rfl
  obtain ⟨_, possible⟩ := isExpressible_everywhere expressible _ inside
  exact possible

/-- A term that can stand in a document can be written in every language. -/
theorem writable_of_isTerm {s : Sentence} (isTerm : s.isTerm = true)
    (expressible : s.isExpressible false = true) : s.Writable := by
  cases s with
  | term p args => exact .term expressible
  | _ => simp [Sentence.isTerm] at isTerm

end Sentence

/-- Whether the head and the literals of a clause can be written. -/
structure Clause.Writable (c : Clause) : Prop where
  head : ∀ h, c.head = some h → h.Writable
  body : ∀ l ∈ c.body, l.Writable

namespace Dialect

variable (d : Dialect) {s : Sentence}

/-- Nothing keeps a sentence from being normalized that can stand in a document. -/
theorem fault?_eq_none (expressible : s.isExpressible false = true) : d.fault? s = none := by
  unfold fault?
  split
  next kind failed =>
    -- Only an operand that is missing could have stopped the attempt.
    have shape := d.flatten_refuses s .outermost _ failed
    have present := shape.present (s.complete_of_isExpressible expressible)
    simp [Error.isMissing] at present
  · rfl

theorem tryNormalize_eq (r : Option Registry) (expressible : s.isExpressible false = true) :
    d.tryNormalize r s = .ok (d.normalize r s) := by
  rw [tryNormalize, d.fault?_eq_none expressible]

theorem normalize_of_tryNormalize (r : Option Registry) (s : Sentence) (n : Normalized)
    (returned : TargetFault.ofBuild (d.tryNormalize r s) = .ok n) : n = d.normalize r s := by
  unfold tryNormalize at returned
  split at returned
  · cases returned
  · exact (Except.ok.inj returned).symm

/-- From what can stand in a document come only clauses that can be written. -/
theorem normalize_writable (r : Option Registry) (expressible : s.isExpressible false = true)
    (c : Clause) (member : c ∈ (d.normalize r s).clauses) : c.Writable := by
  obtain ⟨given, vars, _, gives, rfl, -⟩ := d.gives_of_mem_normalize r s c member
  -- Heads and literals are terms of the sentence, so they inherit what holds of its terms.
  have terms := s.terms_of_isExpressible expressible
  constructor
  · intro h found
    obtain ⟨p, args, rfl, arguments⟩ := gives.head_term terms h found
    exact .term arguments
  · exact gives.body_made terms fun l none => absurd none List.not_mem_nil

/-! ### Groups of sentences -/

theorem tryNormalizeGroup_eq (r : Option Registry) (g : SentenceGroup)
    (expressible : ∀ s ∈ g.sentences, s.isExpressible false = true) :
    d.tryNormalizeGroup r g = .ok (d.normalizeGroup r g) := by
  have none : g.sentences.findSome? d.fault? = none :=
    List.findSome?_eq_none_iff.mpr fun s member => d.fault?_eq_none (expressible s member)
  rw [tryNormalizeGroup, none]

theorem normalizeFrom_writable (r : Option Registry) (group : Text) (index : Nat)
    (ss : List Sentence) (expressible : ∀ s ∈ ss, s.isExpressible false = true) (c : Clause)
    (member : c ∈ (d.normalizeFrom r group index ss).clauses) : c.Writable := by
  obtain ⟨s, inside, i, located⟩ := (d.normalizeFrom_origin r group index ss).1 c member
  obtain ⟨c, found, rfl⟩ := List.mem_map.mp located
  have writable := d.normalize_writable r (expressible s inside) c found
  exact ⟨writable.head, writable.body⟩

/-- What is found for a sentence of a group is found for the group, with the place of the sentence. -/
theorem normalizeFrom_locate (r : Option Registry) (group : Text) (index : Nat) (ss : List Sentence)
    (i : Nat) (s : Sentence) (found : ss[i]? = some s) :
    ((d.normalize r s).locate group (index + i)).clauses ⊆
        (d.normalizeFrom r group index ss).clauses ∧
      ((d.normalize r s).locate group (index + i)).diagnostics ⊆
        (d.normalizeFrom r group index ss).diagnostics := by
  induction ss generalizing index i with
  | nil => simp at found
  | cons t ss ih =>
    -- Each step of the list moves the place of all later sentences by one.
    cases i with
    | zero =>
      obtain rfl := Option.some.inj found
      exact ⟨List.subset_append_left _ _, List.subset_append_left _ _⟩
    | succ i =>
      obtain ⟨clauses, diagnostics⟩ := ih (index + 1) i found
      rw [Nat.add_right_comm] at clauses diagnostics
      exact ⟨List.subset_append_of_subset_right _ clauses,
        List.subset_append_of_subset_right _ diagnostics⟩

end Dialect

end Clausal
