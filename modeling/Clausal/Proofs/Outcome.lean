import Mathlib.Data.List.Forall2

/-!
# Outcomes of steps that may fail

How a successful outcome comes apart into the outcomes of its steps, and what is known of a failure if
it is known of the failures of the steps.
-/

namespace Clausal

/-- What succeeded in two steps succeeded in each. -/
theorem bind_ok_iff {ε α β : Type} (first : Except ε α) (next : α → Except ε β) (result : β) :
    (first >>= next) = .ok result ↔ ∃ value, first = .ok value ∧ next value = .ok result := by
  cases first <;> simp [bind, Except.bind]

/-- Something is returned after a check exactly if the check is passed. -/
theorem then_ok_iff {ε β : Type} (check : Except ε Unit) (next : Except ε β) (result : β) :
    (check >>= fun _ => next) = .ok result ↔ check = .ok () ∧ next = .ok result := by
  rw [bind_ok_iff]
  constructor
  · rintro ⟨_, both⟩
    exact both
  · exact fun both => ⟨(), both⟩

theorem pure_ok_iff {ε α : Type} (value result : α) :
    (pure value : Except ε α) = .ok result ↔ value = result := by
  simp [pure, Except.pure]

/-- What succeeded for all members of a list succeeded for each, in order. -/
theorem mapM_ok_iff {ε α β : Type} (f : α → Except ε β) (as : List α) (bs : List β) :
    as.mapM f = .ok bs ↔ List.Forall₂ (fun a b => f a = .ok b) as bs := by
  induction as generalizing bs with
  | nil =>
    rw [List.mapM_nil, pure_ok_iff, List.forall₂_nil_left_iff]
    exact eq_comm
  | cons a as ih =>
    simp only [List.mapM_cons, bind_ok_iff, pure_ok_iff, ih, List.forall₂_cons_left_iff]
    constructor
    · rintro ⟨b, first, bs, rest, rfl⟩
      exact ⟨b, bs, first, rest, rfl⟩
    · rintro ⟨b, bs, first, rest, rfl⟩
      exact ⟨b, first, bs, rest, rfl⟩

/-- The member of a list at a place has a partner at the same place of a related list. -/
theorem partner_at {α β : Type} {R : α → β → Prop} {as : List α} {bs : List β}
    (related : List.Forall₂ R as bs) {i : Nat} {a : α} (found : as[i]? = some a) :
    ∃ b, bs[i]? = some b ∧ R a b := by
  induction related generalizing i with
  | nil => simp at found
  | cons first _ ih =>
    cases i with
    | zero => exact ⟨_, rfl, Option.some.inj found ▸ first⟩
    | succ i => exact ih found

theorem partner_of_mem {α β : Type} {R : α → β → Prop} {as : List α} {bs : List β}
    (related : List.Forall₂ R as bs) {a : α} (member : a ∈ as) : ∃ b ∈ bs, R a b := by
  obtain ⟨i, found⟩ := List.mem_iff_getElem?.mp member
  obtain ⟨b, partner, holds⟩ := partner_at related found
  exact ⟨b, List.mem_of_getElem? partner, holds⟩

theorem ok_of_mem_mapM {ε α β : Type} {f : α → Except ε β} {as : List α} {bs : List β}
    (returned : as.mapM f = .ok bs) {a : α} (member : a ∈ as) : ∃ b ∈ bs, f a = .ok b :=
  partner_of_mem ((mapM_ok_iff f as bs).mp returned) member

theorem exists_of_mem_mapM {ε α β : Type} {f : α → Except ε β} {as : List α} {bs : List β}
    (returned : as.mapM f = .ok bs) {b : β} (member : b ∈ bs) : ∃ a ∈ as, f a = .ok b :=
  partner_of_mem ((mapM_ok_iff f as bs).mp returned).flip member

/-- What succeeded for the member at a place gave the result at that place. -/
theorem ok_at_of_mapM {ε α β : Type} {f : α → Except ε β} {as : List α} {bs : List β}
    (returned : as.mapM f = .ok bs) {i : Nat} {a : α} (found : as[i]? = some a) :
    ∃ b, bs[i]? = some b ∧ f a = .ok b :=
  partner_at ((mapM_ok_iff f as bs).mp returned) found

/-- Whether a computation fails only for certain causes. -/
def Refuses {ε α : Type} (P : ε → Prop) (x : Except ε α) : Prop := ∀ e, x = .error e → P e

namespace Refuses

variable {ε α β : Type} {P : ε → Prop}

theorem ok (a : α) : Refuses P (.ok a : Except ε α) := by
  intro e failed
  cases failed

theorem error {e : ε} (cause : P e) : Refuses P (.error e : Except ε α) := by
  intro other failed
  cases failed
  exact cause

/-- The causes of a sequence are those of its steps. -/
theorem bind {x : Except ε α} {f : α → Except ε β} (first : Refuses P x)
    (rest : ∀ a, Refuses P (f a)) : Refuses P (x >>= f) := by
  intro e failed
  cases x with
  | error cause =>
    obtain rfl := Except.error.inj failed
    exact first cause rfl
  | ok a => exact rest a e failed

theorem map {x : Except ε α} {f : α → β} (first : Refuses P x) :
    Refuses P (do return f (← x)) :=
  first.bind fun a => ok (f a)

theorem ite {c : Prop} [Decidable c] {x y : Except ε α} (yes : Refuses P x) (no : Refuses P y) :
    Refuses P (if c then x else y) := by
  split
  · exact yes
  · exact no

theorem mono {Q : ε → Prop} {x : Except ε α} (given : Refuses P x) (weaker : ∀ e, P e → Q e) :
    Refuses Q x :=
  fun e failed => weaker e (given e failed)

/-- A computation that fails for no cause at all returns something. -/
theorem returns {x : Except ε α} (never : Refuses (fun _ => False) x) : ∃ a, x = .ok a := by
  cases x with
  | ok a => exact ⟨a, rfl⟩
  | error e => exact (never e rfl).elim

theorem forM {f : α → Except ε Unit} (each : ∀ a, Refuses P (f a)) (as : List α) :
    Refuses P (as.forM f) := by
  induction as with
  | nil => exact ok ()
  | cons a as ih => exact (each a).bind fun _ => ih

theorem mapM {f : α → Except ε β} (as : List α) (each : ∀ a ∈ as, Refuses P (f a)) :
    Refuses P (as.mapM f) := by
  induction as with
  | nil => exact ok []
  | cons a as ih =>
    rw [List.forall_mem_cons] at each
    rw [List.mapM_cons]
    exact each.1.bind fun _ => (ih each.2).map

theorem foldlM {f : β → α → Except ε β} (each : ∀ b a, Refuses P (f b a)) (as : List α) (b : β) :
    Refuses P (as.foldlM f b) := by
  induction as generalizing b with
  | nil => exact ok b
  | cons a as ih => exact (each b a).bind fun next => ih next

end Refuses

/-- Whether a computation returns only values with a property. -/
def Returns {ε α : Type} (P : α → Prop) (x : Except ε α) : Prop := ∀ a, x = .ok a → P a

namespace Returns

variable {ε α β : Type} {P : β → Prop} {Q : α → Prop}

theorem ok {b : β} (holds : P b) : Returns P (.ok b : Except ε β) := by
  intro other returned
  cases returned
  exact holds

theorem error (e : ε) : Returns P (.error e : Except ε β) := by
  intro b returned
  cases returned

/-- A later step may rely on what an earlier one returned. -/
theorem bind {x : Except ε α} {f : α → Except ε β} (first : Returns Q x)
    (rest : ∀ a, Q a → Returns P (f a)) : Returns P (x >>= f) := by
  intro b returned
  obtain ⟨a, found, next⟩ := (bind_ok_iff x f b).mp returned
  exact rest a (first a found) b next

/-- What a step returns may be of no concern. -/
theorem andThen {x : Except ε α} {f : α → Except ε β} (rest : ∀ a, Returns P (f a)) :
    Returns P (x >>= f) :=
  bind (Q := fun _ => True) (fun _ _ => trivial) fun a _ => rest a

theorem map {x : Except ε α} {f : α → β} (first : Returns Q x) (implied : ∀ a, Q a → P (f a)) :
    Returns P (do return f (← x)) :=
  first.bind fun a holds => ok (implied a holds)

theorem ite {c : Prop} [Decidable c] {x y : Except ε β} (yes : Returns P x) (no : Returns P y) :
    Returns P (if c then x else y) := by
  split
  · exact yes
  · exact no

theorem mapM {f : α → Except ε β} (as : List α) (each : ∀ a ∈ as, Returns P (f a)) :
    Returns (fun bs => ∀ b ∈ bs, P b) (as.mapM f) := by
  intro bs returned b member
  obtain ⟨a, inside, found⟩ := exists_of_mem_mapM returned member
  exact each a inside b found

/-- What each step keeps holds after all steps. -/
theorem foldlM {f : β → α → Except ε β} (as : List α) (start : β) (initially : P start)
    (step : ∀ b, ∀ a ∈ as, P b → Returns P (f b a)) : Returns P (as.foldlM f start) := by
  induction as generalizing start with
  | nil => exact ok initially
  | cons a as ih =>
    rw [List.foldlM_cons]
    refine (step start a List.mem_cons_self initially).bind fun next holds => ?_
    exact ih next holds fun b a member => step b a (List.mem_cons_of_mem _ member)

end Returns

/-- Whether a computation returns something. -/
def Succeeds {ε α : Type} (x : Except ε α) : Prop := ∃ a, x = .ok a

namespace Succeeds

variable {ε α β : Type}

theorem ok (a : α) : Succeeds (.ok a : Except ε α) := ⟨a, rfl⟩

theorem not_error (e : ε) : ¬ Succeeds (.error e : Except ε α) := by
  rintro ⟨a, returned⟩
  cases returned

/-- A second step succeeds or not, whatever the first one returns. -/
theorem bind_iff {x : Except ε α} {f : α → Except ε β} {P : Prop}
    (next : ∀ a, Succeeds (f a) ↔ P) : Succeeds (x >>= f) ↔ Succeeds x ∧ P := by
  cases x with
  | error e => simp [bind, Except.bind, not_error]
  | ok a => simp [bind, Except.bind, next, ok]

theorem map_iff {x : Except ε α} {f : α → β} : Succeeds (do return f (← x)) ↔ Succeeds x := by
  have always (a : α) : Succeeds (pure (f a) : Except ε β) ↔ True := iff_true_intro (ok (f a))
  rw [bind_iff always, and_true]

theorem mapM_iff (f : α → Except ε β) (as : List α) :
    Succeeds (as.mapM f) ↔ ∀ a ∈ as, Succeeds (f a) := by
  induction as with
  | nil => simp [pure, Except.pure, ok]
  | cons a as ih => rw [List.mapM_cons, bind_iff fun _ => map_iff, ih, List.forall_mem_cons]

end Succeeds

/-- Whether two computations fail for the same cause or return related values. -/
inductive Alike {ε α β : Type} (R : α → β → Prop) : Except ε α → Except ε β → Prop where
  | ok {a : α} {b : β} (related : R a b) : Alike R (.ok a) (.ok b)
  | error (e : ε) : Alike R (.error e) (.error e)

namespace Alike

variable {ε α β γ δ : Type} {R : α → β → Prop} {S : γ → δ → Prop}

theorem refl {R : α → α → Prop} (x : Except ε α) (reflexive : ∀ a, R a a) : Alike R x x := by
  cases x with
  | ok a => exact .ok (reflexive a)
  | error e => exact .error e

/-- Computations that are alike stay so under steps that are alike. -/
theorem bind {x : Except ε α} {y : Except ε β} {f : α → Except ε γ} {g : β → Except ε δ}
    (first : Alike R x y) (rest : ∀ a b, R a b → Alike S (f a) (g b)) :
    Alike S (x >>= f) (y >>= g) := by
  cases first with
  | ok related => exact rest _ _ related
  | error e => exact .error e

theorem map {x : Except ε α} {y : Except ε β} {f : α → γ} {g : β → δ} (first : Alike R x y)
    (implied : ∀ a b, R a b → S (f a) (g b)) :
    Alike S (do return f (← x)) (do return g (← y)) :=
  first.bind fun a b related => .ok (implied a b related)

end Alike

end Clausal
