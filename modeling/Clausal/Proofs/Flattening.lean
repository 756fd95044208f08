import Clausal.Clause.Flatten
import Clausal.Proofs.Occurrence
import Clausal.Proofs.Outcome
import Mathlib.Data.List.Basic
import Mathlib.Tactic.MkIffOfInductiveProp

/-!
# The parts of a sentence

Flattening takes a sentence in head position to pieces. A term is the head of a clause, a denied
formula makes constraints, and every other sentence amounts to some implications from premises to a
smaller sentence: its parts. This module says so once, so that statements about flattening need to
look at three cases only.
-/

namespace Clausal

namespace Sentence

/-- An implication from premises to a consequent. -/
structure Part where
  premises : List Sentence
  consequent : Sentence

/-- Whether a sentence is a ladder. -/
def isLadderSentence : Sentence → Bool
  | .conj ss => isLadder ss
  | _ => false

/-- The branches of a ladder after some earlier guards: each from its own guard and the negated
earlier ones. -/
def rungs : List Sentence → Sentence → List Part
  | earlier, .conj [.implies guard consequent, .implies _ rest] =>
    ⟨guard :: earlier.map negate, consequent⟩ ::
      if rest.isLadderSentence then rungs (earlier ++ [guard]) rest
      else [⟨guard.negate :: earlier.map negate, rest⟩]
  | _, _ => []

/-- How a ladder after some earlier guards has a branch. -/
inductive IsRung : List Sentence → Sentence → Part → Prop
  | first {earlier : List Sentence} {guard consequent otherwise rest : Sentence}
      (opposite : isNegationOf otherwise guard = true) :
      IsRung earlier (.conj [.implies guard consequent, .implies otherwise rest])
        ⟨guard :: earlier.map negate, consequent⟩
  | last {earlier : List Sentence} {guard consequent otherwise rest : Sentence}
      (opposite : isNegationOf otherwise guard = true) :
      IsRung earlier (.conj [.implies guard consequent, .implies otherwise rest])
        ⟨guard.negate :: earlier.map negate, rest⟩
  | later {earlier : List Sentence} {guard consequent otherwise rest : Sentence} {part : Part}
      (opposite : isNegationOf otherwise guard = true)
      (above : IsRung (earlier ++ [guard]) rest part) :
      IsRung earlier (.conj [.implies guard consequent, .implies otherwise rest]) part

theorem exists_of_isLadderSentence {s : Sentence} (ladder : s.isLadderSentence = true) :
    ∃ guard consequent otherwise rest,
      s = .conj [.implies guard consequent, .implies otherwise rest] := by
  unfold isLadderSentence isLadder at ladder
  split at ladder
  · split at ladder
    · exact ⟨_, _, _, _, rfl⟩
    · simp at ladder
  · simp at ladder

/-- The branches of a ladder are found one by one, each after the guards of the earlier ones. -/
theorem isRung_of_mem {earlier : List Sentence} {s : Sentence} {part : Part}
    (member : part ∈ rungs earlier s) (ladder : s.isLadderSentence = true) :
    IsRung earlier s part := by
  induction earlier, s using rungs.induct with
  | case1 earlier guard consequent otherwise rest ih =>
    rw [rungs, List.mem_cons] at member
    rcases member with rfl | member
    · exact .first ladder
    · split at member
      next nested => exact .later ladder (ih member nested)
      · obtain rfl := List.mem_singleton.mp member
        exact .last ladder
  | case2 s earlier other =>
    obtain ⟨_, _, _, _, rfl⟩ := exists_of_isLadderSentence ladder
    exact (other _ _ _ _ rfl).elim

/-- The formula that a sentence denies: its negation is all that the sentence says. -/
def denied? : Sentence → Option Sentence
  | .neg s => if s.isNeg then none else some s
  | .disj ss => if (positives ss).isEmpty then some (.conj (negatives ss)) else none
  | _ => none

/-- The implications that a sentence amounts to in head position, unless it is a term or denies a
formula. -/
def parts : Sentence → List Part
  | .forAll _ s => [⟨[], s⟩]
  | .forSome _ s => [⟨[], s⟩]
  | .weighted _ s => [⟨[], s⟩]
  | .implies a b => [⟨[a], b⟩]
  | .iff a b => [⟨[a], b⟩, ⟨[b], a⟩]
  | .conj ss => if isLadder ss then rungs [] (.conj ss) else ss.map fun s => ⟨[], s⟩
  | .neg (.neg s) => [⟨[], s⟩]
  | .disj ss =>
    (positives ss).getLast?.toList.map fun last =>
      ⟨negatives ss ++ (positives ss).dropLast.map negate, last⟩
  | _ => []

end Sentence

open Sentence (Part)

namespace Dialect

/-- Whether the rules come from the consequent of a part under one of its bodies. -/
def FlattensPart (d : Dialect) (c : Setting) (part : Part) (body : List Sentence) (rules : Rules) :
    Prop :=
  ∃ inner : Setting, inner.conditions = c.conditions ++ body ∧ inner.weight = c.weight ∧
    d.flatten part.consequent inner = .ok rules

/-- Whether some clauses are those of the parts of a sentence, each part under each of its bodies. -/
@[mk_iff covers_iff]
structure Covers (d : Dialect) (c : Setting) (parts : List Part) (clauses : List Clause) : Prop where
  sound : ∀ clause ∈ clauses, ∃ part ∈ parts, ∃ b, d.conjunction .unit part.premises = .ok b ∧
    ∃ body ∈ b.alternatives, ∃ rules, d.FlattensPart c part body rules ∧ clause ∈ rules.clauses
  complete : ∀ part ∈ parts, ∃ b, d.conjunction .unit part.premises = .ok b ∧
    ∀ body ∈ b.alternatives, ∃ rules, d.FlattensPart c part body rules ∧ rules.clauses ⊆ clauses

namespace Covers

variable {d : Dialect} {c : Setting}

theorem nil : d.Covers c [] [] := ⟨by simp, by simp⟩

theorem append {left right : List Part} {x y : List Clause} (first : d.Covers c left x)
    (second : d.Covers c right y) : d.Covers c (left ++ right) (x ++ y) where
  sound := by
    rw [List.forall_mem_append]
    constructor
    · intro clause member
      obtain ⟨part, inLeft, found⟩ := first.sound clause member
      exact ⟨part, List.mem_append_left right inLeft, found⟩
    · intro clause member
      obtain ⟨part, inRight, found⟩ := second.sound clause member
      exact ⟨part, List.mem_append_right left inRight, found⟩
  complete := by
    rw [List.forall_mem_append]
    constructor
    · intro part member
      obtain ⟨b, expanded, all⟩ := first.complete part member
      refine ⟨b, expanded, fun body inBody => ?_⟩
      obtain ⟨rules, flattened, included⟩ := all body inBody
      exact ⟨rules, flattened, List.subset_append_of_subset_left y included⟩
    · intro part member
      obtain ⟨b, expanded, all⟩ := second.complete part member
      refine ⟨b, expanded, fun body inBody => ?_⟩
      obtain ⟨rules, flattened, included⟩ := all body inBody
      exact ⟨rules, flattened, List.subset_append_of_subset_right x included⟩

/-- Only the conditions and the weight of the surrounding matter. -/
theorem congr {other : Setting} {parts : List Part} {clauses : List Clause}
    (given : d.Covers other parts clauses) (same : other.conditions = c.conditions)
    (weight : other.weight = c.weight) : d.Covers c parts clauses := by
  have moved (part : Part) (body : List Sentence) (rules : Rules) :
      d.FlattensPart other part body rules ↔ d.FlattensPart c part body rules := by
    simp only [FlattensPart, same, weight]
  simpa only [covers_iff, moved] using given

theorem single {s : Sentence} {rules : Rules} (returned : d.flatten s c = .ok rules) :
    d.Covers c [⟨[], s⟩] rules.clauses := by
  have expanded : d.conjunction .unit [] = .ok .unit := rfl
  have flattened : d.FlattensPart c ⟨[], s⟩ [] rules := ⟨c, by simp, rfl, returned⟩
  constructor
  · intro clause member
    exact ⟨_, List.mem_singleton_self _, _, expanded, [], List.mem_singleton_self _, rules,
      flattened, member⟩
  · simp only [List.mem_singleton, forall_eq]
    refine ⟨_, expanded, fun body member => ⟨rules, ?_, List.Subset.refl _⟩⟩
    obtain rfl := List.mem_singleton.mp member
    exact flattened

end Covers

end Dialect

/-- Rules that are collected come from the members, and none of them is lost. -/
theorem Rules.mem_collect {α : Type} (rules : Nat → α → Except Error Rules) (next : Nat)
    (xs : List α) (found : Rules) (returned : Rules.collect next rules xs = .ok found) :
    (∀ clause ∈ found.clauses, ∃ x ∈ xs, ∃ n r, rules n x = .ok r ∧ clause ∈ r.clauses) ∧
      ∀ x ∈ xs, ∃ n r, rules n x = .ok r ∧ r.clauses ⊆ found.clauses := by
  induction xs generalizing next found with
  | nil =>
    obtain rfl := Except.ok.inj returned
    simp [Rules.none]
  | cons x xs ih =>
    simp only [Rules.collect, bind_ok_iff, pure_ok_iff] at returned
    obtain ⟨first, one, rest, others, rfl⟩ := returned
    have tail := ih (next + first.ladders) rest others
    simp only [Rules.append, List.forall_mem_append, List.forall_mem_cons]
    refine ⟨⟨fun clause member => ⟨x, List.mem_cons_self, next, first, one, member⟩, ?_⟩,
      ⟨next, first, one, List.subset_append_left _ _⟩, ?_⟩
    · intro clause member
      obtain ⟨y, inRest, found⟩ := tail.1 clause member
      exact ⟨y, List.mem_cons_of_mem x inRest, found⟩
    · intro y member
      obtain ⟨n, r, flattened, included⟩ := tail.2 y member
      exact ⟨n, r, flattened, List.subset_append_of_subset_right _ included⟩

@[simp] theorem Setting.onRung_conditions (c : Setting) (ladder branch : Nat) :
    (c.onRung ladder branch).conditions = c.conditions := by
  unfold Setting.onRung
  split <;> rfl

@[simp] theorem Setting.onRung_weight (c : Setting) (ladder branch : Nat) :
    (c.onRung ladder branch).weight = c.weight := by
  unfold Setting.onRung
  split <;> rfl

@[simp] theorem Setting.under_conditions (c : Setting) (next : Nat) (literals : List Sentence) :
    (c.under next literals).conditions = c.conditions ++ literals := rfl

@[simp] theorem Setting.under_weight (c : Setting) (next : Nat) (literals : List Sentence) :
    (c.under next literals).weight = c.weight := rfl

/-- The setting of the parts of a sentence, which changes with a weight only. -/
def Setting.within (c : Setting) : Sentence → Setting
  | .weighted w _ => { c with weight := some w }
  | _ => c

@[simp] theorem Setting.within_conditions (c : Setting) (s : Sentence) :
    (c.within s).conditions = c.conditions := by
  cases s <;> rfl

namespace Dialect

variable (d : Dialect)

/-- The clauses under each of several bodies are those of one part. -/
theorem forEach_covers (c : Setting) (premises : List Sentence) (s : Sentence) (b : Bodies)
    (rules : Setting → Except Error Rules) (found : Rules)
    (expanded : d.conjunction .unit premises = .ok b) (same : ∀ inner, rules inner = d.flatten s inner)
    (returned : c.forEach b rules = .ok found) :
    d.Covers c [⟨premises, s⟩] found.clauses := by
  simp only [Setting.forEach, bind_ok_iff, pure_ok_iff] at returned
  obtain ⟨all, collected, rfl⟩ := returned
  have members := Rules.mem_collect _ c.next b.alternatives all collected
  simp only [same] at members
  constructor
  · intro clause member
    obtain ⟨body, inBody, next, r, flattened, inRules⟩ := members.1 clause member
    exact ⟨_, List.mem_singleton_self _, b, expanded, body, inBody, r,
      ⟨c.under next body, rfl, rfl, flattened⟩, inRules⟩
  · simp only [List.mem_singleton, forall_eq]
    refine ⟨b, expanded, fun body inBody => ?_⟩
    obtain ⟨next, r, flattened, included⟩ := members.2 body inBody
    exact ⟨r, ⟨c.under next body, rfl, rfl, flattened⟩, included⟩

theorem conjunction_singleton (a : Sentence) : d.conjunction .unit [a] = d.bodies a true := by
  -- The product with the one empty body changes nothing.
  have product (b : Bodies) : Bodies.unit.cross b = b := by
    simp [Bodies.unit, Bodies.cross, List.flatMap_singleton']
  cases expanded : d.bodies a true with
  | error e => simp [conjunction, expanded, bind, Except.bind]
  | ok b => simp [conjunction, expanded, bind, Except.bind, product]

/-- A conjunction that is no ladder is covered by its members. -/
theorem flattenAll_covers (ss : List Sentence) (c : Setting) (rules : Rules)
    (returned : d.flattenAll ss c = .ok rules) :
    d.Covers c (ss.map fun s => ⟨[], s⟩) rules.clauses := by
  induction ss generalizing c rules with
  | nil =>
    obtain rfl := Except.ok.inj returned
    exact .nil
  | cons s ss ih =>
    simp only [flattenAll, bind_ok_iff, pure_ok_iff] at returned
    obtain ⟨first, one, rest, others, rfl⟩ := returned
    have head : d.Covers c [⟨[], s⟩] first.clauses := .single one
    have tail := ih _ rest others
    exact head.append (tail.congr (by simp) rfl)

/-- The last disjunct that is no negation is flattened. -/
theorem flattenLast_eq (ss : List Sentence) (last : Sentence) (c : Setting)
    (found : (Sentence.positives ss).getLast? = some last) :
    d.flattenLast ss c = d.flatten last c := by
  induction ss with
  | nil => simp [Sentence.positives] at found
  | cons s ss ih =>
    rw [flattenLast]
    simp only [Sentence.positives, List.isEmpty_iff, List.filter_cons] at found ih ⊢
    split
    next empty =>
      rw [empty] at found
      split at found <;> simp at found
      rw [found]
    next more =>
      -- There is a later one, so the answer is that of the rest of the list.
      apply ih
      obtain ⟨t, ts, equal⟩ := List.exists_cons_of_ne_nil more
      rw [equal] at found ⊢
      split at found
      · rwa [List.getLast?_cons_cons] at found
      · exact found

theorem flatten_conj (ss : List Sentence) (c : Setting) (plain : Sentence.isLadder ss = false) :
    d.flatten (.conj ss) c = d.flattenAll ss c := by
  simp [flatten, plain]

/-- One step along a ladder: its first branch, and then the ladder that the rest is or the rest as the
last branch. -/
theorem flattenLadder_step (guard consequent otherwise rest : Sentence) (ladder branch : Nat)
    (earlier : List Sentence) (c : Setting) :
    d.flattenLadder [.implies guard consequent, .implies otherwise rest] ladder branch earlier c =
      (do
        let conditions ← d.branchConditions guard earlier
        let first ← (c.onRung ladder branch).forEach conditions (d.flatten consequent)
        let c := c.under (c.next + first.ladders) []
        if rest.isLadderSentence then
          return first.append
            (← d.flattenLadder rest.children ladder (branch + 1) (earlier ++ [guard]) c)
        else
          let conditions ← d.branchConditions guard.negate earlier
          return first.append
            (← (c.onRung ladder (branch + 1)).forEach conditions (d.flatten rest))) := by
  -- Only a rest that is a conjunction can go on as a ladder, and then its members are handed on
  -- without the conjunction around them.
  by_cases nested : ∃ ss, rest = .conj ss
  · obtain ⟨ss, rfl⟩ := nested
    rw [flattenLadder]
    by_cases isLadder : Sentence.isLadder ss = true
    · simp only [Sentence.isLadderSentence, isLadder, if_true, Sentence.children]
    · have notLadder : Sentence.isLadder ss = false := by simpa using isLadder
      have whole : d.flatten (.conj ss) = d.flattenAll ss :=
        funext fun inner => d.flatten_conj ss inner notLadder
      simp only [Sentence.isLadderSentence, notLadder, Bool.false_eq_true, if_false, whole]
  · have notLadder : rest.isLadderSentence = false := by
      cases rest <;> simp [Sentence.isLadderSentence] at nested ⊢
    rw [flattenLadder]
    · simp only [notLadder, Bool.false_eq_true, if_false]
    · exact fun ss equal => nested ⟨ss, equal⟩

/-- The clauses of the branches of a ladder from number `branch` on, given as parts. -/
def flattenRungs (ladder : Nat) : List Part → Nat → Setting → Except Error Rules
  | [], _, _ => .ok .none
  | part :: parts, branch, c => do
    let conditions ← d.conjunction .unit part.premises
    let first ← (c.onRung ladder branch).forEach conditions (d.flatten part.consequent)
    return first.append
      (← flattenRungs ladder parts (branch + 1) (c.under (c.next + first.ladders) []))

/-- The last branch of a ladder has no further ones after it. -/
theorem flattenRungs_last (ladder branch : Nat) (part : Part) (c : Setting) :
    d.flattenRungs ladder [part] branch c =
      (do
        let conditions ← d.conjunction .unit part.premises
        (c.onRung ladder branch).forEach conditions (d.flatten part.consequent)) := by
  have nothing (x : Rules) : x.append .none = x := by simp [Rules.append, Rules.none]
  simp only [flattenRungs]
  congr 1
  funext conditions
  cases (c.onRung ladder branch).forEach conditions (d.flatten part.consequent) with
  | error e => rfl
  | ok first => exact congrArg Except.ok (nothing first)

/-- A ladder is flattened rung by rung. -/
theorem flattenLadder_eq (ss : List Sentence) (ladder branch : Nat) (earlier : List Sentence)
    (c : Setting) (isLadder : Sentence.isLadder ss = true) :
    d.flattenLadder ss ladder branch earlier c =
      d.flattenRungs ladder (Sentence.rungs earlier (.conj ss)) branch c := by
  -- The recursion goes from a ladder to its rest, which `rungs` follows.
  generalize whole : Sentence.conj ss = s
  induction earlier, s using Sentence.rungs.induct generalizing ss branch c with
  | case1 earlier guard consequent otherwise rest ih =>
    obtain rfl := Sentence.conj.inj whole
    rw [flattenLadder_step, Sentence.rungs, flattenRungs]
    by_cases nested : rest.isLadderSentence = true
    · cases rest with
      | conj ss =>
        simp only [nested, if_true, branchConditions, Sentence.children]
        simp only [ih ss (branch + 1) _ nested rfl]
      | _ => simp [Sentence.isLadderSentence] at nested
    · simp only [nested, if_false, Bool.false_eq_true, branchConditions, flattenRungs_last,
        bind_assoc]
  | case2 s earlier other =>
    subst whole
    obtain ⟨_, _, _, _, shape⟩ := Sentence.exists_of_isLadderSentence (s := .conj ss) isLadder
    exact (other _ _ _ _ shape).elim

/-- The clauses of a ladder are those of its branches, by induction on the branches. -/
theorem flattenRungs_covers (ladder : Nat) (parts : List Part) (branch : Nat) (c : Setting)
    (rules : Rules) (returned : d.flattenRungs ladder parts branch c = .ok rules) :
    d.Covers c parts rules.clauses := by
  induction parts generalizing branch c rules with
  | nil =>
    obtain rfl := Except.ok.inj returned
    exact .nil
  | cons part parts ih =>
    simp only [flattenRungs, bind_ok_iff, pure_ok_iff] at returned
    obtain ⟨b, expanded, first, flattened, rest, others, rfl⟩ := returned
    have own := d.forEach_covers _ _ _ _ _ _ expanded (fun _ => rfl) flattened
    have further := ih _ _ rest others
    -- Being on a rung changes neither the conditions nor the weight.
    have here : d.Covers c [part] first.clauses := own.congr (by simp) (by simp)
    exact here.append (further.congr (by simp) rfl)

/-- What flattening can do: a term becomes a head, a denied formula becomes constraints, and any
other sentence gives the clauses of its parts. -/
theorem flatten_cases (s : Sentence) (c : Setting) (rules : Rules)
    (returned : d.flatten s c = .ok rules) :
    (∃ p args, s = .term p args ∧ rules.clauses = [c.clause (some s) []]) ∨
      (∃ body kind, s.denied? = some body ∧ d.constraint c kind body = .ok rules) ∨
      (s.isTerm = false ∧ s.denied? = none ∧ d.Covers (c.within s) s.parts rules.clauses) := by
  cases s with
  | term p args =>
    obtain rfl := Except.ok.inj returned
    exact .inl ⟨p, args, rfl, rfl⟩
  | forAll vars s | forSome vars s =>
    simp only [flatten, bind_ok_iff, pure_ok_iff] at returned
    obtain ⟨inner, flattened, rfl⟩ := returned
    have covered : d.Covers c [⟨[], s⟩] inner.clauses := .single flattened
    exact .inr (.inr ⟨rfl, rfl, covered⟩)
  | implies a b =>
    simp only [flatten, bind_ok_iff, ← conjunction_singleton] at returned
    obtain ⟨bodies, expanded, returned⟩ := returned
    exact .inr (.inr ⟨rfl, rfl, d.forEach_covers _ _ _ _ _ _ expanded (fun _ => rfl) returned⟩)
  | iff a b =>
    simp only [flatten] at returned
    split at returned
    · simp [bind, Except.bind] at returned
    · simp only [bind_ok_iff, pure_ok_iff, ← conjunction_singleton] at returned
      obtain ⟨x, expanded, first, forward, y, expandedBack, second, backward, rfl⟩ := returned
      have left := d.forEach_covers _ _ _ _ _ _ expanded (fun _ => rfl) forward
      have right := d.forEach_covers _ _ _ _ _ _ expandedBack (fun _ => rfl) backward
      exact .inr (.inr ⟨rfl, rfl, left.append (right.congr (by simp) rfl)⟩)
  | conj ss =>
    rw [flatten] at returned
    split at returned
    next isLadder =>
      simp only [bind_ok_iff, pure_ok_iff] at returned
      obtain ⟨inner, flattened, rfl⟩ := returned
      -- A ladder inside a setting starts with no earlier guards.
      rw [d.flattenLadder_eq ss _ _ _ _ isLadder] at flattened
      have covered := d.flattenRungs_covers _ _ _ _ inner flattened
      refine .inr (.inr ⟨rfl, rfl, ?_⟩)
      rw [Sentence.parts, if_pos isLadder]
      exact covered.congr (by simp [Setting.within]) rfl
    next plain =>
      refine .inr (.inr ⟨rfl, rfl, ?_⟩)
      rw [Sentence.parts, if_neg plain]
      exact d.flattenAll_covers ss c rules returned
  | neg s =>
    cases s with
    | neg s =>
      rw [flatten] at returned
      exact .inr (.inr ⟨rfl, rfl, .single returned⟩)
    | _ => exact .inr (.inl ⟨_, _, rfl, returned⟩)
  | disj ss =>
    rw [flatten] at returned
    split at returned
    · simp at returned
    · split at returned
      next empty =>
        exact .inr (.inl ⟨_, _, by simp [Sentence.denied?, empty], returned⟩)
      next more =>
        simp only [bind_ok_iff] at returned
        obtain ⟨b, expanded, returned⟩ := returned
        have nonempty : Sentence.positives ss ≠ [] := by simpa using more
        have found := List.getLast?_eq_some_getLast nonempty
        refine .inr (.inr ⟨rfl, by simp [Sentence.denied?, more], ?_⟩)
        rw [Sentence.parts, found]
        exact d.forEach_covers _ _ _ _ _ _ expanded (fun inner => d.flattenLast_eq ss _ inner found)
          returned
  | weighted w s =>
    rw [flatten] at returned
    split at returned
    · simp at returned
    · split at returned
      · simp at returned
      · exact .inr (.inr ⟨rfl, rfl, .single returned⟩)
  | var | const | evidence | missing => simp [flatten] at returned

/-- The clauses of constraints deny one body each, which is not empty. -/
theorem constraint_clauses (c : Setting) (kind : ErrorKind) (body : Sentence) (rules : Rules)
    (returned : d.constraint c kind body = .ok rules) :
    ∃ b, d.bodies body true = .ok b ∧ rules.clauses = b.alternatives.map (c.clause none) ∧
      ∀ clause ∈ rules.clauses, clause.body ≠ [] := by
  unfold constraint at returned
  split at returned
  · simp only [bind_ok_iff] at returned
    obtain ⟨b, expanded, returned⟩ := returned
    split at returned
    · simp at returned
    next proper =>
      simp only [pure_ok_iff] at returned
      subst returned
      refine ⟨b, expanded, rfl, fun clause member empty => proper ?_⟩
      exact List.any_eq_true.mpr ⟨clause, member, by simp [empty]⟩
  · simp at returned

theorem constraint_allowed (c : Setting) (kind : ErrorKind) (body : Sentence) (rules : Rules)
    (returned : d.constraint c kind body = .ok rules) : d.allowConstraints = true := by
  unfold constraint at returned
  split at returned
  next allowed => exact allowed
  · simp at returned

theorem weighted_allowed (s : Sentence) (c : Setting) (rules : Rules)
    (returned : d.flatten s c = .ok rules) (weighted : s.kind = .weighted) :
    d.allowWeights = true := by
  cases s with
  | weighted w s =>
    rw [flatten] at returned
    split at returned
    · simp at returned
    next allowed => simpa using allowed
  | _ => simp [Sentence.kind] at weighted

end Dialect

namespace Sentence

theorem positives_subset (ss : List Sentence) : positives ss ⊆ ss := List.filter_subset_self _

theorem IsRung.smaller {earlier : List Sentence} {s : Sentence} {part : Part}
    (given : IsRung earlier s part) : sizeOf part.consequent < sizeOf s := by
  induction given with
  | first | last | later =>
    simp
    omega

/-- Flattening goes on with smaller sentences only, so that it ends. -/
theorem parts_smaller (s : Sentence) (part : Part) (member : part ∈ s.parts) :
    sizeOf part.consequent < sizeOf s := by
  cases s with
  | conj ss =>
    rw [parts] at member
    split at member
    -- The branches of a ladder may lie several levels deep.
    next isLadder => exact (isRung_of_mem member isLadder).smaller
    · obtain ⟨t, inside, rfl⟩ := List.mem_map.mp member
      have smaller := List.sizeOf_lt_of_mem inside
      simp only [conj.sizeOf_spec]
      omega
  | disj ss =>
    obtain ⟨last, found, rfl⟩ := List.mem_map.mp member
    have inside := positives_subset ss (List.mem_of_getLast? (Option.mem_toList.mp found))
    have smaller := List.sizeOf_lt_of_mem inside
    simp only [disj.sizeOf_spec]
    omega
  | iff a b =>
    simp only [parts, List.mem_cons, List.not_mem_nil, or_false] at member
    rcases member with rfl | rfl
    all_goals
      simp only [iff.sizeOf_spec]
      omega
  | neg s =>
    cases s with
    | neg s =>
      obtain rfl := List.mem_singleton.mp member
      simp only [neg.sizeOf_spec]
      omega
    | _ => simp [parts] at member
  | forAll | forSome | weighted | implies =>
    obtain rfl := List.mem_singleton.mp member
    simp only [forAll.sizeOf_spec, forSome.sizeOf_spec, weighted.sizeOf_spec, implies.sizeOf_spec]
    omega
  | _ => simp [parts] at member

theorem mem_negatives (ss : List Sentence) (s : Sentence) :
    s ∈ negatives ss ↔ .neg s ∈ ss := by
  simp only [negatives, List.mem_filterMap]
  constructor
  · rintro ⟨t, member, equal⟩
    split at equal
    next inner => simpa [← Option.some.inj equal] using member
    · simp at equal
  · exact fun member => ⟨.neg s, member, rfl⟩

/-- The positive members of a list are the last of them and those before it. -/
theorem mem_positives_iff (ss : List Sentence) (last : Sentence)
    (found : (positives ss).getLast? = some last) (s : Sentence) :
    s ∈ positives ss ↔ s ∈ (positives ss).dropLast ∨ s = last := by
  conv_lhs => rw [← List.dropLast_append_getLast? last found]
  simp

/-! ### What parts inherit -/

/-- A property that passes from a sentence to its operands, to negations and to conjunctions. -/
structure Hereditary (P : Sentence → Prop) : Prop where
  child {s c : Sentence} : P s → s.isTerm = false → c ∈ s.children → P c
  negation {s : Sentence} : P s → P (.neg s)
  conj {ss : List Sentence} : (∀ s ∈ ss, P s) → P (.conj ss)

namespace Hereditary

variable {P : Sentence → Prop} (inherits : Hereditary P)

include inherits

theorem negate {s : Sentence} (holds : P s) : P s.negate := by
  cases s with
  | neg s => exact inherits.child holds rfl List.mem_cons_self
  | _ => exact inherits.negation holds

/-- A hereditary property passes to the premises and to the consequent of each branch. -/
theorem rung {earlier : List Sentence} {s : Sentence} {part : Part} (given : IsRung earlier s part)
    (guards : ∀ g ∈ earlier, P g) (holds : P s) :
    (∀ a ∈ part.premises, P a) ∧ P part.consequent := by
  -- What a branch is made of: the two operands of each implication.
  have operands {a b c d : Sentence} (holds : P (.conj [.implies a b, .implies c d])) :
      P a ∧ P b ∧ P d := by
    have first : P (.implies a b) := inherits.child holds rfl (by simp [children])
    have second : P (.implies c d) := inherits.child holds rfl (by simp [children])
    exact ⟨inherits.child first rfl (by simp [children]),
      inherits.child first rfl (by simp [children]), inherits.child second rfl (by simp [children])⟩
  have negated (gs : List Sentence) (each : ∀ g ∈ gs, P g) : ∀ a ∈ gs.map Sentence.negate, P a :=
    List.forall_mem_map.mpr fun g inside => inherits.negate (each g inside)
  induction given with
  | first =>
    obtain ⟨guard, consequent, -⟩ := operands holds
    exact ⟨List.forall_mem_cons.mpr ⟨guard, negated _ guards⟩, consequent⟩
  | last =>
    obtain ⟨guard, -, rest⟩ := operands holds
    exact ⟨List.forall_mem_cons.mpr ⟨inherits.negate guard, negated _ guards⟩, rest⟩
  | later _ _ ih =>
    obtain ⟨guard, -, rest⟩ := operands holds
    exact ih (List.forall_mem_append.mpr ⟨guards, List.forall_mem_singleton.mpr guard⟩) rest

/-- A hereditary property passes to all parts of a sentence. -/
theorem parts {s : Sentence} (holds : P s) (part : Part) (member : part ∈ s.parts) :
    (∀ a ∈ part.premises, P a) ∧ P part.consequent := by
  cases s with
  | conj ss =>
    rw [Sentence.parts] at member
    split at member
    next isLadder => exact inherits.rung (isRung_of_mem member isLadder) (by simp) holds
    · obtain ⟨t, inside, rfl⟩ := List.mem_map.mp member
      exact ⟨by simp, inherits.child holds rfl inside⟩
  | disj ss =>
    obtain ⟨last, found, rfl⟩ := List.mem_map.mp member
    have member_iff := mem_positives_iff ss last (Option.mem_toList.mp found)
    have positive (t : Sentence) (inside : t ∈ positives ss) : P t :=
      inherits.child holds rfl (positives_subset ss inside)
    refine ⟨List.forall_mem_append.mpr ⟨fun a inside => ?_, ?_⟩,
      positive last ((member_iff last).mpr (.inr rfl))⟩
    · have negation : P (.neg a) := inherits.child holds rfl ((mem_negatives ss a).mp inside)
      exact inherits.child negation rfl List.mem_cons_self
    · exact List.forall_mem_map.mpr fun t inside =>
        inherits.negate (positive t ((member_iff t).mpr (.inl inside)))
  | iff a b =>
    have left : P a := inherits.child holds rfl (by simp [children])
    have right : P b := inherits.child holds rfl (by simp [children])
    simp only [Sentence.parts, List.mem_cons, List.not_mem_nil, or_false] at member
    rcases member with rfl | rfl
    · simpa using ⟨left, right⟩
    · simpa using ⟨right, left⟩
  | implies a b =>
    have left : P a := inherits.child holds rfl (by simp [children])
    have right : P b := inherits.child holds rfl (by simp [children])
    obtain rfl := List.mem_singleton.mp member
    simpa using ⟨left, right⟩
  | forAll | forSome | weighted =>
    obtain rfl := List.mem_singleton.mp member
    exact ⟨by simp, inherits.child holds rfl List.mem_cons_self⟩
  | neg s =>
    cases s with
    | neg s =>
      obtain rfl := List.mem_singleton.mp member
      have inner : P (.neg s) := inherits.child holds rfl List.mem_cons_self
      exact ⟨by simp, inherits.child inner rfl List.mem_cons_self⟩
    | _ => simp [Sentence.parts] at member
  | _ => simp [Sentence.parts] at member

theorem denied {s denial : Sentence} (holds : P s) (found : s.denied? = some denial) : P denial := by
  cases s with
  | neg s =>
    simp only [denied?, Option.ite_none_left_eq_some, Option.some.injEq] at found
    exact found.2 ▸ inherits.child holds rfl List.mem_cons_self
  | disj ss =>
    simp only [denied?, Option.ite_none_right_eq_some, Option.some.injEq] at found
    rw [← found.2]
    refine inherits.conj fun t member => ?_
    have negation : P (.neg t) := inherits.child holds rfl ((mem_negatives ss t).mp member)
    exact inherits.child negation rfl List.mem_cons_self
  | _ => simp [denied?] at found

end Hereditary

/-- A property that passes from a sentence to its parts and to what it denies. -/
structure PassesOn (P : Sentence → Prop) : Prop where
  parts {s : Sentence} {part : Part} : P s → part ∈ s.parts →
    (∀ a ∈ part.premises, P a) ∧ P part.consequent
  denied {s denial : Sentence} : P s → s.denied? = some denial → P denial

theorem Hereditary.passesOn {P : Sentence → Prop} (inherits : Hereditary P) : PassesOn P :=
  ⟨fun holds member => inherits.parts holds _ member, inherits.denied⟩

theorem Hereditary.trivial : Hereditary fun _ => True where
  child _ _ _ := True.intro
  negation _ := True.intro
  conj _ := True.intro

/-- What holds of every part is inherited if it holds of negations and conjunctions as such. -/
theorem everywhere_hereditary {Q : Sentence → Prop} (negation : ∀ s, Q (.neg s))
    (conj : ∀ ss, Q (.conj ss)) : Hereditary (Everywhere Q) where
  child holds _ child := ((everywhere_iff Q _).mp holds).2 _ child
  negation holds := (everywhere_iff Q _).mpr ⟨negation _, List.forall_mem_singleton.mpr holds⟩
  conj each := (everywhere_iff Q _).mpr ⟨conj _, each⟩

theorem complete_hereditary : Hereditary Complete :=
  everywhere_hereditary (fun _ => rfl) fun _ => rfl

/-! ### Asserted variables -/

mutual

/-- The variables of the existential quantifiers that a sentence asserts, or that its negation
asserts if the polarity is `false`. The operands of a biconditional count with both polarities. -/
def asserted : Bool → Sentence → List Text
  | positive, .neg s => asserted (!positive) s
  | positive, .conj ss => assertedAll positive ss
  | positive, .disj ss => assertedAll positive ss
  | positive, .implies a b => asserted (!positive) a ++ asserted positive b
  | _, .iff a b => asserted true a ++ asserted false a ++ (asserted true b ++ asserted false b)
  | positive, .forAll _ s => asserted positive s
  | true, .forSome vars s => vars.map TypedName.name ++ asserted true s
  | false, .forSome _ s => asserted false s
  | positive, .weighted _ s => asserted positive s
  | positive, .evidence _ s => asserted positive s
  | _, .term .. => []
  | _, .var .. => []
  | _, .const _ => []
  | _, .missing => []

def assertedAll : Bool → List Sentence → List Text
  | _, [] => []
  | positive, s :: ss => asserted positive s ++ assertedAll positive ss

end

theorem mem_assertedAll (positive : Bool) (x : Text) (ss : List Sentence) :
    x ∈ assertedAll positive ss ↔ ∃ s ∈ ss, x ∈ asserted positive s := by
  induction ss with
  | nil => simp [assertedAll]
  | cons s ss ih => simp [assertedAll, ih]

theorem asserted_subset_of_mem (positive : Bool) (s : Sentence) (ss : List Sentence)
    (member : s ∈ ss) : asserted positive s ⊆ assertedAll positive ss :=
  fun x found => (mem_assertedAll positive x ss).mpr ⟨s, member, found⟩

/-- The variables of an existential quantifier that stands outermost. -/
def introduced : Sentence → List Text
  | .forSome vars _ => vars.map TypedName.name
  | _ => []

/-- What an outermost quantifier introduces, the sentence asserts to exist. -/
theorem introduced_subset (s : Sentence) : s.introduced ⊆ s.asserted true := by
  cases s with
  | forSome vars s => exact List.subset_append_left _ _
  | _ => exact List.nil_subset _

end Sentence

namespace Dialect

/-- How a sentence in a setting gives a clause, with the variables that are asserted to exist on the
way: by a quantifier that is passed, or by the negation of a premise or of what is denied. -/
inductive Gives (d : Dialect) : List Text → Sentence → Setting → Clause → Prop
  | fact (p : Text) (args : List Sentence) (c : Setting) :
      Gives d [] (.term p args) c (c.clause (some (.term p args)) [])
  | denied {s : Sentence} {c : Setting} {denial : Sentence} {b : Bodies} {body : List Sentence} :
      s.denied? = some denial → d.bodies denial true = .ok b → body ∈ b.alternatives →
      c.conditions ++ body ≠ [] → d.allowConstraints = true →
      Gives d (denial.asserted false) s c (c.clause none body)
  | part {s : Sentence} {c : Setting} {part : Part} {b : Bodies} {body : List Sentence}
      {inner : Setting} {clause : Clause} {names : List Text} :
      part ∈ s.parts → d.conjunction .unit part.premises = .ok b → body ∈ b.alternatives →
      inner.conditions = c.conditions ++ body → inner.weight = (c.within s).weight →
      (s.kind = .weighted → d.allowWeights = true) → Gives d names part.consequent inner clause →
      Gives d (s.introduced ++ (Sentence.assertedAll false part.premises ++ names)) s c clause

/-- Every clause found by flattening is given by the sentence. -/
theorem flatten_gives (d : Dialect) (s : Sentence) (c : Setting) (rules : Rules)
    (returned : d.flatten s c = .ok rules) (clause : Clause) (member : clause ∈ rules.clauses) :
    ∃ names, d.Gives names s c clause := by
  induction size : sizeOf s using Nat.strongRecOn generalizing s c rules with
  | ind n ih =>
    rcases d.flatten_cases s c rules returned with
      ⟨p, args, rfl, clauses⟩ | ⟨denial, kind, found, constraints⟩ | ⟨_, _, covered⟩
    · rw [clauses, List.mem_singleton] at member
      subst member
      exact ⟨_, .fact p args c⟩
    · obtain ⟨b, expanded, clauses, proper⟩ := d.constraint_clauses c kind denial rules constraints
      have nonempty := proper clause member
      rw [clauses] at member
      obtain ⟨body, inside, rfl⟩ := List.mem_map.mp member
      exact ⟨_, .denied found expanded inside nonempty
        (d.constraint_allowed c kind denial rules constraints)⟩
    · obtain ⟨piece, inside, b, expanded, body, inBody, inner, ⟨setting, same, weight, flattened⟩,
        inRules⟩ := covered.sound clause member
      -- The consequent of a part need not be an operand of the sentence, so the induction is on size.
      have smaller := Sentence.parts_smaller s piece inside
      obtain ⟨names, given⟩ := ih _ (size ▸ smaller) piece.consequent setting inner flattened inRules rfl
      rw [Setting.within_conditions] at same
      exact ⟨_, .part inside expanded inBody same weight (d.weighted_allowed s c rules returned) given⟩

end Dialect

end Clausal
