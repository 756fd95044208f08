import Clausal.Proofs.Declarations

/-!
# Types are resolved by unfolding

A type name unfolds through the targets of its alias to a tree of names. In a registry that was built
by declarations the tree is finite, however deep it may be, because the types can be ranked.
Resolution reads the tree from left to right: it collects the primitives unless a name stands in the
way, and the first such name decides how it fails.

## Main results

`Unfolding.exists_of_ranked` and `Unfolding.Of.eq`: every name has one unfolding.

`Unfolding.Of.leaves_eq`: what a bounded search finds, by the names met on the way.

`resolve_unfolds`: resolution and the kind of a type by the unfolding of its name.
-/

namespace Clausal

/-! ### Members by their first occurrence -/

/-- Whether a list has the members of another one, each once and in the order in which they occur
there first. -/
structure FirstOccurrences (all once : List Text) : Prop where
  mem_iff : ∀ x, x ∈ once ↔ x ∈ all
  ordered : once.Pairwise fun x y => all.idxOf x < all.idxOf y

/-- Leaving out members does not change the order of first occurrences of the others. -/
theorem idxOf_lt_of_filter {keep : Text → Bool} {x y : Text} (first : keep x = true)
    (second : keep y = true) (xs : List Text)
    (less : (xs.filter keep).idxOf x < (xs.filter keep).idxOf y) : xs.idxOf x < xs.idxOf y := by
  induction xs with
  | nil => simp at less
  | cons z zs ih => grind

/-- Erasing repetitions keeps the first occurrences, in order. -/
theorem firstOccurrences_eraseDups (xs : List Text) : FirstOccurrences xs xs.eraseDups := by
  refine ⟨fun x => List.mem_eraseDups, ?_⟩
  -- After the first member come the others without its copies, which is not a tail of the list.
  induction len : xs.length using Nat.strongRecOn generalizing xs with
  | ind n ih =>
    cases xs with
    | nil => simp
    | cons a xs =>
      rw [List.eraseDups_cons, List.pairwise_cons]
      have others {y : Text} (member : y ∈ (xs.filter fun b => !b == a).eraseDups) :
          (!y == a) = true := (List.mem_filter.mp (List.mem_eraseDups.mp member)).2
      constructor
      · intro y member
        have different := others member
        grind
      · have fewer : (xs.filter fun b => !b == a).length < n := by
          have most := List.length_filter_le (fun b => !b == a) xs
          rw [← len, List.length_cons]
          omega
        refine (ih _ fewer _ rfl).imp_of_mem fun {y z} left right less => ?_
        have first := others left
        have second := others right
        have before := idxOf_lt_of_filter first second xs less
        grind

/-! ### Unfoldings -/

/-- A name that is met when a type is unfolded, with the number of alias steps that lead to it. -/
structure Visit where
  depth : Nat
  name : Text

/-- What a type name unfolds to: itself over what the targets of its alias unfold to. -/
inductive Unfolding where
  | node (name : Text) (parts : List Unfolding)

namespace Unfolding

def name : Unfolding → Text
  | .node name _ => name

mutual

/-- The names of an unfolding from left to right, each one before its parts. -/
def visits (depth : Nat) : Unfolding → List Visit
  | .node name parts => ⟨depth, name⟩ :: visitsAll (depth + 1) parts

def visitsAll (depth : Nat) : List Unfolding → List Visit
  | [] => []
  | tree :: trees => visits depth tree ++ visitsAll depth trees

end

/-- Whether a registry unfolds a name like this. Primitives and undeclared names stand for
themselves, however deep they are met. -/
inductive Of (r : Registry) : Unfolding → Prop where
  | primitive {name : Text} (primitive : isPrimitive name = true) : Of r (.node name [])
  | undeclared {name : Text} (plain : isPrimitive name = false) (absent : r.alias? name = none) :
      Of r (.node name [])
  | declared {name : Text} {a : TypeAlias} {parts : List Unfolding}
      (plain : isPrimitive name = false) (found : r.alias? name = some a)
      (targets : parts.map Unfolding.name = a.targets) (each : ∀ part ∈ parts, Of r part) :
      Of r (.node name parts)

variable {r : Registry}

/-- Names that unfold one by one unfold together. -/
theorem exists_parts (names : List Text)
    (each : ∀ name ∈ names, ∃ tree : Unfolding, tree.name = name ∧ tree.Of r) :
    ∃ parts : List Unfolding, parts.map name = names ∧ ∀ part ∈ parts, part.Of r := by
  induction names with
  | nil => exact ⟨[], rfl, by simp⟩
  | cons first names ih =>
    obtain ⟨tree, rfl, unfolds⟩ := each first List.mem_cons_self
    obtain ⟨parts, rfl, all⟩ := ih fun name member => each name (List.mem_cons_of_mem _ member)
    exact ⟨tree :: parts, rfl, List.forall_mem_cons.mpr ⟨unfolds, all⟩⟩

/-- With ranked types every name has an unfolding. -/
theorem exists_of_ranked
    (ranked : ∃ rank : Text → Nat, ∀ a ∈ r.types, ∀ target ∈ a.targets, rank target < rank a.name)
    (name : Text) : ∃ tree : Unfolding, tree.name = name ∧ tree.Of r := by
  obtain ⟨rank, descends⟩ := ranked
  induction level : rank name using Nat.strongRecOn generalizing name with
  | ind n ih =>
    cases primitive : isPrimitive name with
    | true => exact ⟨.node name [], rfl, .primitive primitive⟩
    | false =>
      cases found : r.alias? name with
      | none => exact ⟨.node name [], rfl, .undeclared primitive found⟩
      | some a =>
        -- The targets rank lower than the name, so they unfold by induction.
        have member : a ∈ r.types := List.mem_of_find?_eq_some found
        have named : a.name = name := by simpa using List.find?_some found
        obtain ⟨parts, targets, all⟩ := exists_parts a.targets fun target inside =>
          ih (rank target) (level ▸ named ▸ descends a member target inside) target rfl
        exact ⟨.node name parts, rfl, .declared primitive found targets all⟩

/-- Unfoldings of the same names are equal if each is the only one of its name. -/
theorem parts_eq {parts others : List Unfolding} (names : others.map name = parts.map name)
    (only : ∀ part ∈ parts, ∀ other : Unfolding, other.Of r → other.name = part.name → other = part)
    (all : ∀ other ∈ others, other.Of r) : others = parts := by
  induction parts generalizing others with
  | nil => simpa using names
  | cons part parts ih =>
    cases others with
    | nil => simp at names
    | cons other others =>
      rw [List.map_cons, List.map_cons, List.cons.injEq] at names
      rw [List.forall_mem_cons] at only all
      rw [only.1 other all.1 names.1, ih names.2 only.2 all.2]

/-- A name has no other unfolding. -/
theorem Of.eq {tree other : Unfolding} (given : tree.Of r) (also : other.Of r)
    (same : other.name = tree.name) : other = tree := by
  -- Whether the name is primitive or declared decides the case of both.
  induction given generalizing other with
  | primitive primitive => cases also <;> simp_all [name]
  | undeclared plain absent => cases also <;> simp_all [name]
  | declared plain found targets each ih =>
    cases also with
    | primitive primitive => simp_all [name]
    | undeclared _ absent => simp_all [name]
    | declared _ again targets' each' =>
      simp only [name] at same
      subst same
      obtain rfl := Option.some.inj (found.symm.trans again)
      rw [parts_eq (targets'.trans targets.symm) (fun part member _ of => ih part member of) each']

end Unfolding

/-! ### Obstacles -/

namespace Registry

/-- What stands in the way of resolution: a name that is neither primitive nor declared, and any
name more than 64 alias steps away. -/
def Obstacle (r : Registry) (v : Visit) : Prop :=
  64 < v.depth ∨ (isPrimitive v.name = false ∧ r.alias? v.name = none)

instance (r : Registry) (v : Visit) : Decidable (r.Obstacle v) :=
  inferInstanceAs (Decidable (_ ∨ _))

theorem not_obstacle {r : Registry} {v : Visit} (near : v.depth ≤ 64)
    (known : isPrimitive v.name = true ∨ r.alias? v.name ≠ none) : ¬ r.Obstacle v := by
  rintro (deep | ⟨plain, absent⟩)
  · omega
  · exact known.elim (by simp [plain]) fun declared => declared absent

def obstacleError (v : Visit) : Error :=
  if 64 < v.depth then .aliasTooDeep v.name else .unresolvedType v.name

/-- What the names met one after another lead to: the primitives among them, or the report on the
first obstacle. -/
def outcome (r : Registry) (visits : List Visit) : Except Error (List Text) :=
  match visits.find? fun v => decide (r.Obstacle v) with
  | some v => .error (obstacleError v)
  | none => .ok ((visits.map Visit.name).filter isPrimitive)

theorem outcome_append (r : Registry) (us vs : List Visit) :
    r.outcome (us ++ vs) = do return (← r.outcome us) ++ (← r.outcome vs) := by
  unfold outcome
  rw [List.find?_append]
  cases us.find? fun v => decide (r.Obstacle v) with
  | some v => rfl
  | none =>
    cases vs.find? fun v => decide (r.Obstacle v) with
    | some v => rfl
    | none => simp [bind, Except.bind, pure, Except.pure]

theorem outcome_clear {r : Registry} {v : Visit} (clear : ¬ r.Obstacle v) (vs : List Visit) :
    r.outcome (v :: vs) = do
      return (if isPrimitive v.name then [v.name] else []) ++ (← r.outcome vs) := by
  have one : r.outcome [v] = .ok (if isPrimitive v.name then [v.name] else []) := by
    simp [outcome, clear, List.filter_cons]
  rw [← List.singleton_append, outcome_append, one]
  rfl

theorem outcome_obstacle {r : Registry} {v : Visit} (obstacle : r.Obstacle v) (vs : List Visit) :
    r.outcome (v :: vs) = .error (obstacleError v) := by
  simp [outcome, obstacle]

/-- A type is resolved exactly if nothing stands in the way, to the primitives that are met. -/
theorem outcome_eq_ok_iff (r : Registry) (vs : List Visit) (found : List Text) :
    r.outcome vs = .ok found ↔
      (∀ v ∈ vs, ¬ r.Obstacle v) ∧ found = (vs.map Visit.name).filter isPrimitive := by
  have clear := List.find?_eq_none (p := fun v => decide (r.Obstacle v)) (l := vs)
  simp only [decide_eq_true_eq] at clear
  rw [← clear, outcome]
  cases vs.find? fun v => decide (r.Obstacle v) with
  | some v => simp
  | none => simp [eq_comm]

/-- Otherwise the first obstacle decides how resolution fails. -/
theorem outcome_eq_error_iff (r : Registry) (vs : List Visit) (e : Error) :
    r.outcome vs = .error e ↔ ∃ before v after, vs = before ++ v :: after ∧
      (∀ u ∈ before, ¬ r.Obstacle u) ∧ r.Obstacle v ∧ e = obstacleError v := by
  have first (v : Visit) : (vs.find? fun v => decide (r.Obstacle v)) = some v ↔
      r.Obstacle v ∧ ∃ before after, vs = before ++ v :: after ∧
        ∀ u ∈ before, ¬ r.Obstacle u := by
    simp [List.find?_eq_some_iff_append]
  constructor
  · intro failed
    unfold outcome at failed
    split at failed
    next v found =>
      obtain ⟨obstacle, before, after, split, clear⟩ := (first v).mp found
      exact ⟨before, v, after, split, clear, obstacle, (Except.error.inj failed).symm⟩
    next => cases failed
  · rintro ⟨before, v, after, split, clear, obstacle, rfl⟩
    rw [outcome, (first v).mpr ⟨obstacle, before, after, split, clear⟩]

end Registry

namespace Unfolding

variable {r : Registry}

/-- Searching several names is reading their unfoldings one after another. -/
theorem mapM_leaves {fuel depth : Nat} (parts : List Unfolding)
    (each : ∀ part ∈ parts, r.leaves fuel part.name = r.outcome (part.visits depth)) :
    (do return (← (parts.map name).mapM (r.leaves fuel)).flatten) =
      r.outcome (visitsAll depth parts) := by
  induction parts with
  | nil => rfl
  | cons part parts ih =>
    rw [List.forall_mem_cons] at each
    rw [visitsAll, Registry.outcome_append, ← ih each.2, List.map_cons, List.mapM_cons, each.1]
    cases r.outcome (part.visits depth) with
    | error e => rfl
    | ok first => cases (parts.map name).mapM (r.leaves fuel) <;> rfl

/-- Too many alias steps away nothing is looked at. -/
theorem outcome_deep (tree : Unfolding) {depth : Nat} (deep : 64 < depth) :
    r.outcome (tree.visits depth) = .error (.aliasTooDeep tree.name) := by
  cases tree with
  | node name parts =>
    rw [visits, Registry.outcome_obstacle (.inl deep), Registry.obstacleError, if_pos deep]
    rfl

/-- A search within the bound on alias steps reads the unfolding from left to right. -/
theorem Of.leaves_eq {tree : Unfolding} (given : tree.Of r) (fuel depth : Nat)
    (bound : depth + fuel = 65) : r.leaves fuel tree.name = r.outcome (tree.visits depth) := by
  -- The search runs out of fuel exactly where a name is too many steps away.
  induction given generalizing fuel depth with
  | @primitive name primitive =>
    cases fuel with
    | zero => exact (outcome_deep _ (by omega)).symm
    | succ fuel =>
      have clear : ¬ r.Obstacle ⟨depth, name⟩ :=
        Registry.not_obstacle (by simp only; omega) (.inl primitive)
      rw [visits, Registry.outcome_clear clear]
      simp only [Unfolding.name, Registry.leaves, primitive, if_true, visitsAll]
      rfl
  | @undeclared name plain absent =>
    cases fuel with
    | zero => exact (outcome_deep _ (by omega)).symm
    | succ fuel =>
      rw [visits, Registry.outcome_obstacle (.inr ⟨plain, absent⟩), Registry.obstacleError,
        if_neg (by simp only; omega)]
      simp [Unfolding.name, Registry.leaves, plain, absent]
  | @declared name a parts plain found targets each ih =>
    cases fuel with
    | zero => exact (outcome_deep _ (by omega)).symm
    | succ fuel =>
      have clear : ¬ r.Obstacle ⟨depth, name⟩ :=
        Registry.not_obstacle (by simp only; omega) (.inr (by simp [found]))
      have below := mapM_leaves parts fun part member => ih part member fuel (depth + 1) (by omega)
      rw [visits, Registry.outcome_clear clear, ← below, targets]
      simp only [Unfolding.name, Registry.leaves, plain, found]
      cases a.targets.mapM (r.leaves fuel) <;> rfl

end Unfolding

/-! ### Resolution -/

namespace Registry

def IsNumeric (primitive : Text) : Prop :=
  primitive = "int" ∨ primitive = "float" ∨ primitive = "decimal"

/-- How a type is resolved whose name unfolds to a tree. -/
structure ResolvesBy (r : Registry) (name : Text) (tree : Unfolding) : Prop where
  /-- It succeeds if and only if nothing stands in the way. -/
  succeeds : (∃ found, r.resolve name = .ok found) ↔ ∀ v ∈ tree.visits 0, ¬ r.Obstacle v
  /-- The primitives come from left to right, without later duplicates. -/
  found : ∀ found, r.resolve name = .ok found →
    FirstOccurrences (((tree.visits 0).map Visit.name).filter isPrimitive) found
  /-- The first obstacle decides how it fails. -/
  fails : ∀ e, r.resolve name = .error e ↔ ∃ before v after,
    tree.visits 0 = before ++ v :: after ∧ (∀ u ∈ before, ¬ r.Obstacle u) ∧ r.Obstacle v ∧
      e = obstacleError v ∧ e.kind = if 64 < v.depth then .cyclicTypeAlias else .unknownType
  /-- A type is held as a number if and only if all its primitives are numeric. -/
  number : r.scalarKind name = .ok .number ↔ ∃ found, r.resolve name = .ok found ∧
    ∀ p ∈ found, IsNumeric p
  symbol : r.scalarKind name = .ok .symbol ↔ ∃ found, r.resolve name = .ok found ∧
    ∃ p ∈ found, ¬ IsNumeric p
  refused : ∀ e, r.scalarKind name = .error e ↔ r.resolve name = .error e

/-- Too many alias steps look like a cycle; any other obstacle is an unknown type. -/
theorem kind_obstacleError (v : Visit) :
    (obstacleError v).kind = if 64 < v.depth then .cyclicTypeAlias else .unknownType := by
  unfold obstacleError
  split <;> rfl

theorem resolve_eq {r : Registry} {tree : Unfolding} (unfolds : tree.Of r) :
    r.resolve tree.name = do return (← r.outcome (tree.visits 0)).eraseDups := by
  rw [resolve, unfolds.leaves_eq (maxAliasDepth + 1) 0 rfl]

theorem resolve_eq_ok_iff {r : Registry} {tree : Unfolding} (unfolds : tree.Of r)
    (found : List Text) :
    r.resolve tree.name = .ok found ↔ (∀ v ∈ tree.visits 0, ¬ r.Obstacle v) ∧
      found = (((tree.visits 0).map Visit.name).filter isPrimitive).eraseDups := by
  have clear := r.outcome_eq_ok_iff (tree.visits 0)
  rw [resolve_eq unfolds]
  cases outcome : r.outcome (tree.visits 0) with
  | error e =>
    have obstructed : ¬ ∀ v ∈ tree.visits 0, ¬ r.Obstacle v := fun free => by
      simpa [outcome] using (clear _).mpr ⟨free, rfl⟩
    simp [bind, Except.bind, obstructed]
  | ok primitives =>
    obtain ⟨free, rfl⟩ := (clear primitives).mp outcome
    rw [and_iff_right free]
    exact ⟨fun same => (Except.ok.inj same).symm, congrArg Except.ok ∘ Eq.symm⟩

theorem resolve_eq_error_iff {r : Registry} {tree : Unfolding} (unfolds : tree.Of r) (e : Error) :
    r.resolve tree.name = .error e ↔ r.outcome (tree.visits 0) = .error e := by
  rw [resolve_eq unfolds]
  cases r.outcome (tree.visits 0) <;> simp [bind, Except.bind, pure, Except.pure]

theorem all_numericTypes (found : List Text) :
    found.all numericTypes.contains = true ↔ ∀ p ∈ found, IsNumeric p := by
  simp [numericTypes, IsNumeric]

/-- A type is numeric exactly if all its primitives are. -/
theorem scalarKind_eq_ok_iff (r : Registry) (name : Text) (kind : ScalarKind) :
    r.scalarKind name = .ok kind ↔ ∃ found, r.resolve name = .ok found ∧
      ((∀ p ∈ found, IsNumeric p) ↔ kind = .number) := by
  unfold scalarKind
  simp only [← all_numericTypes]
  cases r.resolve name with
  | error e => simp [bind, Except.bind]
  | ok found => cases kind <;> simp [bind, Except.bind, pure, Except.pure]

theorem scalarKind_eq_error_iff (r : Registry) (name : Text) (e : Error) :
    r.scalarKind name = .error e ↔ r.resolve name = .error e := by
  unfold scalarKind
  cases r.resolve name <;> simp [bind, Except.bind, pure, Except.pure]

theorem resolvesBy {r : Registry} {tree : Unfolding} (unfolds : tree.Of r) :
    r.ResolvesBy tree.name tree := by
  have ok := resolve_eq_ok_iff unfolds
  refine ⟨?_, fun found resolved => ?_, fun e => ?_, ?_, ?_, scalarKind_eq_error_iff r tree.name⟩
  · simp only [ok, exists_and_left, exists_eq, and_true]
  · rw [((ok found).mp resolved).2]
    exact firstOccurrences_eraseDups _
  · rw [resolve_eq_error_iff unfolds, outcome_eq_error_iff]
    constructor
    · rintro ⟨before, v, after, split, clear, obstacle, rfl⟩
      exact ⟨before, v, after, split, clear, obstacle, rfl, kind_obstacleError v⟩
    · rintro ⟨before, v, after, split, clear, obstacle, same, -⟩
      exact ⟨before, v, after, split, clear, obstacle, same⟩
  · simp [scalarKind_eq_ok_iff]
  · simp [scalarKind_eq_ok_iff]

/-- After any declarations, refused ones included, every type name has one unfolding, which is
finite, and resolution is reading it from left to right. -/
theorem resolve_unfolds (ds : List Declaration) (name : Text) :
    ∃ tree : Unfolding, (tree.name = name ∧ tree.Of (empty.attemptAll ds)) ∧
      (∀ other : Unfolding, other.name = name → other.Of (empty.attemptAll ds) → other = tree) ∧
      (empty.attemptAll ds).ResolvesBy name tree := by
  have consistent := consistent_empty.attemptAll ds
  obtain ⟨tree, rfl, unfolds⟩ := Unfolding.exists_of_ranked consistent.ranked name
  exact ⟨tree, ⟨rfl, unfolds⟩, fun other same also => unfolds.eq also same, resolvesBy unfolds⟩

end Registry

end Clausal
