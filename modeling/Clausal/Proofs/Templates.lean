import Clausal.Clause
import Clausal.Proofs.Outcome
import Clausal.Proofs.Sentence

/-!
# Templates

A template is a text with places for the names of variables. A way of writing sentences follows a
template on a sentence if renaming the variables changes nothing but what is put in the places, and the
places are the occurrences of variables in the sentence, in order. A writer may also refuse the
sentence, but then it does so under every renaming.
-/

namespace Clausal

/-- A fixed text or the place of a variable. -/
inductive Piece where
  | fixed (t : Text)
  | place (x : Text)
deriving DecidableEq

abbrev Template := List Piece

namespace Template

/-- The text with a name in each place. -/
def fill (name : Text → Text) (t : Template) : Text :=
  t.flatMap fun
    | .fixed t => t
    | .place x => name x

/-- The variables of the places, in order. -/
def places (t : Template) : List Text :=
  t.flatMap fun
    | .fixed _ => []
    | .place x => [x]

@[simp]
theorem fill_append (name : Text → Text) (s t : Template) :
    fill name (s ++ t) = fill name s ++ fill name t :=
  List.flatMap_append

@[simp]
theorem places_append (s t : Template) : places (s ++ t) = places s ++ places t :=
  List.flatMap_append

@[simp]
theorem fill_fixed (name : Text → Text) (t : Text) : fill name [.fixed t] = t :=
  List.append_nil t

@[simp]
theorem places_fixed (t : Text) : places [.fixed t] = [] := rfl

theorem fill_flatMap {α : Type} (name : Text → Text) (xs : List α) (t : α → Template) :
    fill name (xs.flatMap t) = xs.flatMap fun x => fill name (t x) :=
  List.flatMap_assoc

theorem places_flatMap {α : Type} (xs : List α) (t : α → Template) :
    places (xs.flatMap t) = xs.flatMap fun x => places (t x) :=
  List.flatMap_assoc

/-- Templates with a separator between neighbours. -/
def join (separator : Text) (ts : List Template) : Template := List.intercalate [.fixed separator] ts

/-- Joining templates and filling them can be exchanged. -/
theorem fill_join (name : Text → Text) (separator : Text) (ts : List Template) :
    fill name (join separator ts) = Text.join separator (ts.map (fill name)) := by
  rw [join, Text.join]
  induction ts with
  | nil => rfl
  | cons t ts ih =>
    cases ts with
    | nil => simp
    | cons u ts =>
      rw [List.intercalate_cons_cons, List.map_cons, List.map_cons, List.intercalate_cons_cons,
        fill_append, fill_append, fill_fixed, ih, List.map_cons]

theorem places_join (separator : Text) (ts : List Template) :
    places (join separator ts) = ts.flatMap places := by
  rw [join]
  induction ts with
  | nil => rfl
  | cons t ts ih =>
    cases ts with
    | nil => simp
    | cons u ts =>
      rw [List.intercalate_cons_cons, places_append, places_append, places_fixed, ih,
        List.append_nil]
      rfl

end Template

/-! ### Renaming variables -/

def TypedName.rename (f : Text → Text) (v : TypedName) : TypedName := { v with name := f v.name }

namespace Sentence

mutual

/-- Renames all variables, bound ones and those of quantifiers included. -/
def rename (f : Text → Text) : Sentence → Sentence
  | .term p args => .term p (renameAll f args)
  | .var name type => .var (f name) type
  | .const v => .const v
  | .neg s => .neg (rename f s)
  | .conj ss => .conj (renameAll f ss)
  | .disj ss => .disj (renameAll f ss)
  | .implies a b => .implies (rename f a) (rename f b)
  | .iff a b => .iff (rename f a) (rename f b)
  | .forAll vars s => .forAll (vars.map (TypedName.rename f)) (rename f s)
  | .forSome vars s => .forSome (vars.map (TypedName.rename f)) (rename f s)
  | .weighted w s => .weighted w (rename f s)
  | .evidence holds s => .evidence holds (rename f s)
  | .missing => .missing

def renameAll (f : Text → Text) : List Sentence → List Sentence
  | [] => []
  | s :: ss => rename f s :: renameAll f ss

end

mutual

/-- The variables that occur in a sentence, at quantifiers and in terms, from left to right. -/
def occurrences : Sentence → List Text
  | .term _ args => occurrencesAll args
  | .var name _ => [name]
  | .const _ => []
  | .neg s => occurrences s
  | .conj ss => occurrencesAll ss
  | .disj ss => occurrencesAll ss
  | .implies a b => occurrences a ++ occurrences b
  | .iff a b => occurrences a ++ occurrences b
  | .forAll vars s => vars.map TypedName.name ++ occurrences s
  | .forSome vars s => vars.map TypedName.name ++ occurrences s
  | .weighted _ s => occurrences s
  | .evidence _ s => occurrences s
  | .missing => []

def occurrencesAll : List Sentence → List Text
  | [] => []
  | s :: ss => occurrences s ++ occurrencesAll ss

end

theorem renameAll_eq (f : Text → Text) (ss : List Sentence) : renameAll f ss = ss.map (rename f) := by
  induction ss with
  | nil => rfl
  | cons s ss ih => rw [renameAll, ih, List.map_cons]

theorem rename_self (s : Sentence) : s.rename id = s := by
  have vars (vs : List TypedName) : vs.map (TypedName.rename id) = vs := List.map_id vs
  induction s with
  | term _ ss ih | conj ss ih | disj ss ih =>
    rw [rename, renameAll_eq, List.map_congr_left ih, List.map_id']
  | implies _ _ left right | iff _ _ left right => rw [rename, left, right]
  | forAll vs _ ih | forSome vs _ ih => rw [rename, vars, ih]
  | neg _ ih | weighted _ _ ih | evidence _ _ ih => rw [rename, ih]
  | var | const | missing => rfl

theorem kind_rename (f : Text → Text) (s : Sentence) : (s.rename f).kind = s.kind := by
  cases s <;> rfl

end Sentence

/-! ### Outcomes that follow a template -/

section Fills

variable {ε : Type} (render : Text → Text)

/-- What is written under each renaming: always an error, or always a template that is filled with the
new names. -/
def Fills (write : (Text → Text) → Except ε Text) (names : List Text) : Prop :=
  (∀ f, ∃ e, write f = .error e) ∨
    ∃ t : Template, t.places = names ∧ ∀ f, write f = .ok (t.fill fun x => render (f x))

/-- The same for a number of texts, with a template for each. -/
def FillsEach (write : (Text → Text) → Except ε (List Text)) (names : List Text) (count : Nat) :
    Prop :=
  (∀ f, ∃ e, write f = .error e) ∨
    ∃ ts : List Template, ts.length = count ∧ ts.flatMap Template.places = names ∧
      ∀ f, write f = .ok (ts.map (Template.fill fun x => render (f x)))

variable {render}

/-- A computation that fails under every renaming fails at once. -/
theorem fails_bind {α β : Type} {first : (Text → Text) → Except ε α}
    (fails : ∀ f, ∃ e, first f = .error e) (next : (Text → Text) → α → Except ε β) (f : Text → Text) :
    ∃ e, (first f >>= next f) = .error e := by
  obtain ⟨e, failed⟩ := fails f
  exact ⟨e, by rw [failed]; rfl⟩

namespace Fills

variable {write other : (Text → Text) → Except ε Text} {names others : List Text}

theorem error (fails : ∀ f, ∃ e, write f = .error e) : Fills render write names := .inl fails

theorem of_eq (fills : Fills render write names) (same : ∀ f, other f = write f) :
    Fills render other names := by
  rw [funext same]
  exact fills

theorem constant (outcome : Except ε Text) : Fills render (fun _ => outcome) [] := by
  cases outcome with
  | error e => exact .inl fun _ => ⟨e, rfl⟩
  | ok t => exact .inr ⟨[.fixed t], rfl, fun _ => congrArg Except.ok (Template.fill_fixed _ t).symm⟩

/-- A place is filled with the name that the language gives to its variable. -/
theorem place (x : Text) : Fills render (fun f => (.ok (render (f x)) : Except ε Text)) [x] :=
  .inr ⟨[.place x], rfl, fun f => congrArg Except.ok (List.append_nil (render (f x))).symm⟩

/-- A text after a template, with a fixed end. -/
theorem behind (fills : Fills render write names) (before : Template) (closing : Text) :
    Fills render (fun f => do return before.fill (fun x => render (f x)) ++ (← write f) ++ closing)
      (before.places ++ names) := by
  rcases fills with fails | ⟨t, rfl, writes⟩
  · exact .inl (fails_bind fails _)
  · refine .inr ⟨before ++ t ++ [.fixed closing], by simp, fun f => ?_⟩
    simp only [writes f, Template.fill_append, Template.fill_fixed]
    rfl

theorem wrap (fills : Fills render write names) (opening closing : Text) :
    Fills render (fun f => do return opening ++ (← write f) ++ closing) names :=
  (fills.behind [.fixed opening] closing).of_eq fun f => by rw [Template.fill_fixed]

/-- One text after another. -/
theorem append (left : Fills render write names) (right : Fills render other others) :
    Fills render (fun f => do
      let first ← write f
      return first ++ (← other f)) (names ++ others) := by
  rcases left with fails | ⟨s, rfl, writes⟩
  · exact .inl (fails_bind fails _)
  rcases right with fails | ⟨t, rfl, continues⟩
  · refine .inl fun f => ?_
    obtain ⟨e, failed⟩ := fails f
    exact ⟨e, by simp only [writes f, failed]; rfl⟩
  · refine .inr ⟨s ++ t, Template.places_append s t, fun f => ?_⟩
    simp only [writes f, continues f, Template.fill_append]
    rfl

theorem pair (left : Fills render write names) (right : Fills render other others)
    (opening middle closing : Text) :
    Fills render (fun f => do
      let first ← write f
      return opening ++ first ++ middle ++ (← other f) ++ closing) (names ++ others) := by
  refine ((left.wrap opening middle).append (right.wrap [] closing)).of_eq fun f => ?_
  cases write f <;> cases other f <;> simp [bind, Except.bind, pure, Except.pure]

end Fills

/-! ### Several texts -/

/-- Texts with separators between them, in brackets. -/
structure Layout where
  opening : Text
  separator : Text
  closing : Text

def Layout.text (l : Layout) (parts : List Text) : Text :=
  l.opening ++ Text.join l.separator parts ++ l.closing

/-- Whether a number of texts is put together by some layout. -/
def Arranges (arrange : List Text → Text) (count : Nat) : Prop :=
  ∃ l : Layout, ∀ parts, parts.length = count → arrange parts = l.text parts

namespace FillsEach

variable {write : (Text → Text) → Except ε (List Text)} {names : List Text} {count : Nat}

/-- Texts that are arranged at fixed places make a template of their templates. -/
theorem arranged (fills : FillsEach render write names count) {arrange : List Text → Text}
    (arranges : Arranges arrange count) :
    Fills render (fun f => do return arrange (← write f)) names := by
  obtain ⟨l, puts⟩ := arranges
  rcases fills with fails | ⟨ts, counted, rfl, writes⟩
  · exact .inl (fails_bind fails _)
  · have joined : Fills render (ε := ε)
        (fun f => .ok (Text.join l.separator (ts.map (Template.fill fun x => render (f x)))))
        (ts.flatMap Template.places) :=
      .inr ⟨Template.join l.separator ts, Template.places_join l.separator ts,
        fun f => congrArg Except.ok (Template.fill_join _ l.separator ts).symm⟩
    refine (joined.wrap l.opening l.closing).of_eq fun f => ?_
    have length : (ts.map (Template.fill fun x => render (f x))).length = count := by
      rw [List.length_map, counted]
    simp only [writes f]
    exact congrArg Except.ok (puts _ length)

end FillsEach

/-- Whether a way of writing follows a template on a sentence. -/
def Follows (render : Text → Text) (write : Sentence → Except ε Text) (s : Sentence) : Prop :=
  Fills render (fun f => write (s.rename f)) s.occurrences

/-- What is followed on each sentence of a list is followed on the list. -/
theorem Follows.mapM {write : Sentence → Except ε Text} (ss : List Sentence)
    (each : ∀ s ∈ ss, Follows render write s) :
    FillsEach render (fun f => (Sentence.renameAll f ss).mapM write) (Sentence.occurrencesAll ss)
      ss.length := by
  induction ss with
  | nil => exact .inr ⟨[], rfl, rfl, fun _ => rfl⟩
  | cons s ss ih =>
    rw [List.forall_mem_cons] at each
    simp only [Sentence.renameAll, List.mapM_cons]
    rcases each.1 with fails | ⟨t, here, writes⟩
    · exact .inl (fails_bind fails _)
    rcases ih each.2 with fails | ⟨ts, counted, there, continues⟩
    · refine .inl fun f => ?_
      obtain ⟨e, failed⟩ := fails f
      exact ⟨e, by simp only [writes f, failed]; rfl⟩
    · refine .inr ⟨t :: ts, congrArg (· + 1) counted, ?_, fun f => ?_⟩
      · rw [List.flatMap_cons, here, there, Sentence.occurrencesAll]
      · simp only [writes f, continues f]
        rfl

/-- The operands of a connective, which are written one after another. -/
theorem Follows.operands {write : Sentence → Except ε Text} (opening separator closing : Text)
    (s : Sentence) (ss : List Sentence) (each : ∀ t ∈ s :: ss, Follows render write t) :
    Fills render (fun f => do
      let first ← write (s.rename f)
      return opening ++ Text.join separator (first :: (← (Sentence.renameAll f ss).mapM write)) ++
        closing)
      (Sentence.occurrencesAll (s :: ss)) := by
  have arranges : Arranges (fun parts => opening ++ Text.join separator parts ++ closing)
      (s :: ss).length := ⟨⟨opening, separator, closing⟩, fun _ _ => rfl⟩
  refine ((Follows.mapM (s :: ss) each).arranged arranges).of_eq fun f => ?_
  rw [Sentence.renameAll, List.mapM_cons]
  cases write (s.rename f) with
  | error e => rfl
  | ok first => cases (Sentence.renameAll f ss).mapM write <;> rfl

end Fills

end Clausal
