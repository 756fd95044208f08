import Clausal.Proofs.Bodies
import Clausal.Proofs.Flattening

/-!
# The meaning of parts

A sentence in head position means what its parts mean together, except that an existential
quantifier only gives its part at another point.
-/

namespace Clausal

universe u

open Sentence (Part)

namespace Sentence

theorem neg_of_positives_eq_nil (ss : List Sentence) (empty : positives ss = []) (s : Sentence)
    (member : s ∈ ss) : ∃ t, s = .neg t := by
  have negation : s.isNeg = true := by
    simpa using List.filter_eq_nil_iff.mp empty s member
  cases s <;> simp [isNeg] at negation
  exact ⟨_, rfl⟩

/-- Negation exchanges the two polarities. -/
theorem asserted_negate (positive : Bool) (s : Sentence) :
    asserted positive s.negate = asserted (!positive) s := by
  cases s <;> simp [negate, asserted]

theorem asserted_same (positive : Bool) (s t : Sentence) (equal : s.same t = true) :
    asserted positive s = asserted positive t := by
  induction s generalizing positive t with
  | term | var | const | missing => cases t <;> simp [same, asserted] at equal ⊢
  | neg s ih =>
    cases t <;> simp [same] at equal
    simp only [asserted, ih _ _ equal]
  | conj ss ih | disj ss ih =>
    cases t <;> simp [same, sameAll_iff] at equal
    simp only [asserted]
    induction equal with
    | nil => rfl
    | cons first _ rest =>
      rw [List.forall_mem_cons] at ih
      rw [assertedAll, assertedAll, ih.1 _ _ first, rest ih.2]
  | implies a b left right | iff a b left right =>
    cases t <;> simp [same] at equal
    simp only [asserted, left _ _ equal.1, right _ _ equal.2]
  | forAll vars s ih =>
    cases t <;> simp [same] at equal
    simp only [asserted, ih _ _ equal.2]
  | forSome vars s ih =>
    cases t <;> simp [same] at equal
    obtain ⟨rfl, equal⟩ := equal
    -- Only a quantifier in positive position asserts its variables.
    cases positive <;> simp only [asserted, ih _ _ equal]
  | weighted w s ih | evidence holds s ih =>
    cases t <;> simp [same] at equal
    simp only [asserted, ih _ _ equal.2]

/-- The second guard of a ladder asserts what the negation of the first does. -/
theorem asserted_otherwise (positive : Bool) (guard otherwise : Sentence)
    (opposite : isNegationOf otherwise guard = true) :
    asserted positive otherwise = asserted (!positive) guard := by
  simp only [isNegationOf, Bool.or_eq_true] at opposite
  rcases opposite with negated | negated
  · split at negated
    next inner => rw [asserted, asserted_same _ inner guard negated]
    · simp at negated
  · split at negated
    next inner => rw [asserted, Bool.not_not, asserted_same _ inner otherwise negated]
    · simp at negated

/-- What a branch of a ladder asserts is asserted by the ladder or by the negated earlier guards. -/
theorem IsRung.asserted {names : List Text} {earlier : List Sentence} {s : Sentence} {part : Part}
    (given : IsRung earlier s part) (guards : ∀ g ∈ earlier, asserted true g ⊆ names)
    (included : s.asserted true ⊆ names) :
    (∀ a ∈ part.premises, a.asserted false ⊆ names) ∧ part.consequent.asserted true ⊆ names := by
  -- A ladder asserts both its first guard and the negation of it.
  have operands {a b c d : Sentence} (opposite : isNegationOf c a = true)
      (included : (conj [.implies a b, .implies c d]).asserted true ⊆ names) :
      a.asserted false ⊆ names ∧ b.asserted true ⊆ names ∧ a.asserted true ⊆ names ∧
        d.asserted true ⊆ names := by
    simpa [Sentence.asserted, assertedAll, asserted_otherwise false a c opposite] using included
  have negated (gs : List Sentence) (each : ∀ g ∈ gs, g.asserted true ⊆ names) :
      ∀ a ∈ gs.map negate, a.asserted false ⊆ names := by
    rw [List.forall_mem_map]
    intro g inside
    rw [asserted_negate]
    exact each g inside
  induction given with
  | first opposite =>
    obtain ⟨guard, consequent, -⟩ := operands opposite included
    exact ⟨List.forall_mem_cons.mpr ⟨guard, negated _ guards⟩, consequent⟩
  | last opposite =>
    obtain ⟨-, -, guard, rest⟩ := operands opposite included
    refine ⟨List.forall_mem_cons.mpr ⟨?_, negated _ guards⟩, rest⟩
    rw [asserted_negate]
    exact guard
  | later opposite _ ih =>
    obtain ⟨-, -, guard, rest⟩ := operands opposite included
    exact ih (List.forall_mem_append.mpr ⟨guards, List.forall_mem_singleton.mpr guard⟩) rest

/-- The premises and the consequent of a part assert no more than the sentence. -/
theorem parts_asserted (names : List Text) (s : Sentence) (part : Part) (member : part ∈ s.parts)
    (included : asserted true s ⊆ names) :
    (∀ a ∈ part.premises, asserted false a ⊆ names) ∧ asserted true part.consequent ⊆ names := by
  cases s with
  | conj ss =>
    rw [parts] at member
    split at member
    next ladder => exact (isRung_of_mem member ladder).asserted (by simp) included
    · obtain ⟨t, inside, rfl⟩ := List.mem_map.mp member
      exact ⟨by simp, List.Subset.trans (asserted_subset_of_mem true t ss inside) included⟩
  | disj ss =>
    -- Premises are the operands of negations and the negations of the rest, so polarity is kept.
    obtain ⟨last, found, rfl⟩ := List.mem_map.mp member
    have member_iff := mem_positives_iff ss last (Option.mem_toList.mp found)
    have positive (t : Sentence) (inside : t ∈ positives ss) : asserted true t ⊆ names :=
      List.Subset.trans (asserted_subset_of_mem true t ss (positives_subset ss inside)) included
    refine ⟨List.forall_mem_append.mpr ⟨fun a inside => ?_, ?_⟩,
      positive last ((member_iff last).mpr (.inr rfl))⟩
    · have negation := asserted_subset_of_mem true (.neg a) ss ((mem_negatives ss a).mp inside)
      exact List.Subset.trans negation included
    · rw [List.forall_mem_map]
      intro t inside
      rw [asserted_negate]
      exact positive t ((member_iff t).mpr (.inl inside))
  | iff a b =>
    simp only [asserted, List.append_subset] at included
    simp only [parts, List.mem_cons, List.not_mem_nil, or_false] at member
    rcases member with rfl | rfl
    · simpa using ⟨included.1.2, included.2.1⟩
    · simpa using ⟨included.2.2, included.1.1⟩
  | implies a b =>
    simp only [asserted, List.append_subset] at included
    obtain rfl := List.mem_singleton.mp member
    simpa using included
  | forSome vars s =>
    simp only [asserted, List.append_subset] at included
    obtain rfl := List.mem_singleton.mp member
    exact ⟨by simp, included.2⟩
  | forAll | weighted =>
    obtain rfl := List.mem_singleton.mp member
    exact ⟨by simp, included⟩
  | neg s =>
    cases s with
    | neg s =>
      obtain rfl := List.mem_singleton.mp member
      exact ⟨by simp, by simpa [asserted] using included⟩
    | _ => simp [parts] at member
  | _ => simp [parts] at member

/-- What a sentence denies asserts nothing that the sentence does not assert. -/
theorem denied_asserted (names : List Text) (s denial : Sentence) (found : s.denied? = some denial)
    (included : asserted true s ⊆ names) : asserted false denial ⊆ names := by
  cases s with
  | neg s =>
    simp only [denied?, Option.ite_none_left_eq_some, Option.some.injEq] at found
    obtain ⟨_, rfl⟩ := found
    exact included
  | disj ss =>
    simp only [denied?, Option.ite_none_right_eq_some, Option.some.injEq] at found
    obtain ⟨_, rfl⟩ := found
    intro x inside
    obtain ⟨t, member, inside⟩ := (mem_assertedAll false x _).mp inside
    have negation := asserted_subset_of_mem true (.neg t) ss ((mem_negatives ss t).mp member)
    exact included (negation inside)
  | _ => simp [denied?] at found

theorem propositional_hereditary : Hereditary Propositional where
  child := by
    intro s c plain compound child
    cases plain with
    | term => exact absurd compound (by simp [isTerm])
    | neg plain =>
      obtain rfl := List.mem_singleton.mp child
      exact plain
    | conj plain | disj plain => exact plain c child
    | implies left right | iff left right =>
      simp only [children, List.mem_cons, List.not_mem_nil, or_false] at child
      rcases child with rfl | rfl
      · exact left
      · exact right
  negation := .neg
  conj := .conj

end Sentence

namespace Interpretation

variable (I : Interpretation.{u})

/-- Where a ladder holds once the earlier guards fail, each of its branches does. -/
theorem rung_sound (p : I.Point) {earlier : List Sentence} {s : Sentence} {part : Part}
    (given : Sentence.IsRung earlier s part)
    (holds : (∀ g ∈ earlier, ¬ I.Holds p g) → I.Holds p s)
    (premises : ∀ a ∈ part.premises, I.Holds p a) : I.Holds p part.consequent := by
  induction given with
  | @first earlier guard _ otherwise _ opposite =>
    -- A rung is reached where all earlier guards fail, which is what its premises say.
    simp only [List.forall_mem_cons, List.forall_mem_map, holds_negate] at premises
    simp only [Holds, HoldsAll, and_true, I.holds_otherwise p guard otherwise opposite] at holds
    exact (holds premises.2).1 premises.1
  | @last earlier guard _ otherwise _ opposite =>
    simp only [List.forall_mem_cons, List.forall_mem_map, holds_negate] at premises
    simp only [Holds, HoldsAll, and_true, I.holds_otherwise p guard otherwise opposite] at holds
    exact (holds premises.2).2 premises.1
  | @later earlier guard _ otherwise _ _ opposite _ ih =>
    simp only [Holds, HoldsAll, and_true, I.holds_otherwise p guard otherwise opposite] at holds
    refine ih (fun failed => ?_) premises
    simp only [List.forall_mem_append, List.mem_singleton, forall_eq] at failed
    exact (holds failed.1).2 failed.2

/-- A true sentence makes each of its parts true, at a point that differs at most in the variables
of a quantifier that is passed. -/
theorem parts_sound (names : List Text) (p : I.Point) (s : Sentence) (part : Part)
    (member : part ∈ s.parts) (included : s.introduced ⊆ names) (holds : I.Holds p s) :
    ∃ q, I.agree names p q ∧
      ((∀ a ∈ part.premises, I.Holds q a) → I.Holds q part.consequent) := by
  have here := I.agree_refl names p
  cases s with
  | conj ss =>
    refine ⟨p, here, ?_⟩
    rw [Sentence.parts] at member
    split at member
    next ladder => exact I.rung_sound p (Sentence.isRung_of_mem member ladder) fun _ => holds
    · obtain ⟨t, inside, rfl⟩ := List.mem_map.mp member
      exact fun _ => (I.holds_conj p ss).mp holds t inside
  | disj ss =>
    refine ⟨p, here, fun premises => ?_⟩
    obtain ⟨last, found, rfl⟩ := List.mem_map.mp member
    simp only [List.forall_mem_append, List.forall_mem_map, holds_negate] at premises
    obtain ⟨t, inside, holds⟩ := (I.holds_disj p ss).mp holds
    -- The true disjunct is no negation, and of the others only the last is not denied.
    by_cases positive : t ∈ Sentence.positives ss
    · rcases (Sentence.mem_positives_iff ss last (Option.mem_toList.mp found) t).mp positive with
        before | rfl
      · exact absurd holds (premises.2 t before)
      · exact holds
    · have negation : t.isNeg = true := by simpa [Sentence.positives, inside] using positive
      cases t <;> simp [Sentence.isNeg] at negation
      exact absurd (premises.1 _ ((Sentence.mem_negatives ss _).mpr inside)) holds
  | iff a b =>
    refine ⟨p, here, ?_⟩
    simp only [Sentence.parts, List.mem_cons, List.not_mem_nil, or_false] at member
    rcases member with rfl | rfl
    · simpa using holds.mp
    · simpa using holds.mpr
  | implies a b =>
    obtain rfl := List.mem_singleton.mp member
    exact ⟨p, here, fun premises => holds (premises a List.mem_cons_self)⟩
  | forAll vars s =>
    obtain rfl := List.mem_singleton.mp member
    exact ⟨p, here, fun _ => holds p (I.agree_refl _ p)⟩
  | forSome vars s =>
    obtain rfl := List.mem_singleton.mp member
    -- The example of the quantifier is the other point.
    obtain ⟨q, agree, holds⟩ := holds
    exact ⟨q, I.agree_mono _ names p q included agree, fun _ => holds⟩
  | weighted => exact holds.elim
  | neg s =>
    cases s with
    | neg s =>
      obtain rfl := List.mem_singleton.mp member
      exact ⟨p, here, fun _ => not_not.mp holds⟩
    | _ => simp [Sentence.parts] at member
  | _ => simp [Sentence.parts] at member

/-- Where all branches of a ladder hold, the ladder does. -/
theorem rungs_complete (p : I.Point) (earlier : List Sentence) (s : Sentence)
    (ladder : s.isLadderSentence = true) (failed : ∀ g ∈ earlier, ¬ I.Holds p g)
    (all : ∀ part ∈ Sentence.rungs earlier s,
      (∀ a ∈ part.premises, I.Holds p a) → I.Holds p part.consequent) : I.Holds p s := by
  induction earlier, s using Sentence.rungs.induct with
  | case1 earlier guard consequent otherwise rest ih =>
    have opposite := I.holds_otherwise p guard otherwise ladder
    simp only [Holds, HoldsAll, and_true, opposite]
    rw [Sentence.rungs, List.forall_mem_cons] at all
    simp only [List.forall_mem_cons, List.forall_mem_map, holds_negate] at all
    -- Here the earlier guards fail, so the premises of a branch come down to its own guard.
    refine ⟨fun holds => all.1 ⟨holds, failed⟩, fun fails => ?_⟩
    split at all
    next nested =>
      refine ih nested ?_ all.2
      simp only [List.forall_mem_append, List.mem_singleton, forall_eq]
      exact ⟨failed, fails⟩
    · simp only [List.mem_singleton, forall_eq, List.forall_mem_cons, List.forall_mem_map,
        holds_negate] at all
      exact all.2 ⟨fails, failed⟩
  | case2 s earlier other =>
    obtain ⟨_, _, _, _, rfl⟩ := Sentence.exists_of_isLadderSentence ladder
    exact (other _ _ _ _ rfl).elim

/-- A sentence without quantifiers is true where all its parts are. -/
theorem parts_complete (p : I.Point) (s : Sentence) (plain : s.Propositional)
    (compound : s.isTerm = false) (proper : s.denied? = none)
    (all : ∀ part ∈ s.parts, (∀ a ∈ part.premises, I.Holds p a) → I.Holds p part.consequent) :
    I.Holds p s := by
  cases plain with
  | term => simp [Sentence.isTerm] at compound
  | @neg s plain =>
    cases s with
    | neg s =>
      simp only [Sentence.parts, List.mem_singleton, forall_eq] at all
      exact not_not.mpr (all (by simp))
    | _ => simp [Sentence.denied?, Sentence.isNeg] at proper
  | @conj ss plain =>
    rw [Sentence.parts] at all
    split at all
    next ladder => exact I.rungs_complete p [] (.conj ss) ladder (by simp) all
    · rw [List.forall_mem_map] at all
      exact (I.holds_conj p ss).mpr fun s member => all s member (by simp)
  | @disj ss plain =>
    -- A disjunction of negations denies something, so there is a disjunct left over.
    have nonempty : Sentence.positives ss ≠ [] := by simpa [Sentence.denied?] using proper
    have found := List.getLast?_eq_some_getLast nonempty
    rw [Sentence.parts, found] at all
    simp only [Option.toList_some, List.map_cons, List.map_nil, List.mem_singleton, forall_eq,
      List.forall_mem_append, List.forall_mem_map, holds_negate] at all
    rw [holds_disj]
    -- If no other disjunct is true, the premises of the only part are.
    by_contra none
    have fails (t : Sentence) (member : t ∈ ss) : ¬ I.Holds p t := fun holds => none ⟨t, member, holds⟩
    have last := Sentence.positives_subset ss (List.getLast_mem nonempty)
    refine fails _ last (all ⟨fun a inside => ?_, fun t inside => ?_⟩)
    · exact not_not.mp (fails _ ((Sentence.mem_negatives ss a).mp inside))
    · exact fails t (Sentence.positives_subset ss (List.dropLast_subset _ inside))
  | implies => simpa [Sentence.parts, Holds] using all
  | iff =>
    simp only [Sentence.parts, List.forall_mem_cons, List.not_mem_nil, false_implies, implies_true,
      and_true] at all
    exact ⟨all.1, all.2⟩

/-- A sentence is true exactly where what it denies is not. -/
theorem holds_denied (p : I.Point) (s denial : Sentence) (found : s.denied? = some denial) :
    I.Holds p s ↔ ¬ I.Holds p denial := by
  cases s with
  | neg s =>
    simp only [Sentence.denied?, Option.ite_none_left_eq_some, Option.some.injEq] at found
    obtain ⟨_, rfl⟩ := found
    rfl
  | disj ss =>
    simp only [Sentence.denied?, Option.ite_none_right_eq_some, Option.some.injEq,
      List.isEmpty_iff] at found
    obtain ⟨empty, rfl⟩ := found
    simp only [holds_conj, Sentence.mem_negatives, holds_disj, not_forall]
    constructor
    · rintro ⟨t, member, holds⟩
      obtain ⟨inner, rfl⟩ := Sentence.neg_of_positives_eq_nil ss empty t member
      exact ⟨inner, member, holds⟩
    · rintro ⟨inner, member, fails⟩
      exact ⟨.neg inner, member, fails⟩
  | _ => simp [Sentence.denied?] at found

end Interpretation

end Clausal
