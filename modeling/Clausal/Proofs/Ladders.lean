import Clausal.Proofs.Normalization

/-!
# The branches of ladders

A ladder asks its guards one after the other. Each of its branches carries its own guard and the
negations of all earlier ones into the bodies of its clauses, so that the branches exclude each
other, and one of them is open whatever is true.

## Main results

`flatten_laddered`: ladders are numbered apart, a ladder inside another keeps the mark of the outer
one, and clauses on different branches of one ladder never have true bodies together.

`normalize_branches`: the same for the clauses of a normalized sentence, and for a ladder as a whole
that exactly one branch is open.
-/

namespace Clausal

universe u

open Sentence (Part)

/-! ### Rungs exclude each other and leave no gap -/

namespace Sentence

/-- Every rung has the negations of the guards before it among its premises. -/
theorem IsRung.denies {earlier : List Sentence} {s : Sentence} {part : Part}
    (given : IsRung earlier s part) (g : Sentence) (before : g ∈ earlier) :
    g.negate ∈ part.premises := by
  induction given with
  | first | last => exact List.mem_cons_of_mem _ (List.mem_map_of_mem before)
  | later _ _ ih => exact ih (List.mem_append_left _ before)

end Sentence

namespace Interpretation

variable (I : Interpretation.{u}) (p : I.Point)

/-- Of two branches at most one has true premises: the later one denies the guard of the earlier
one. -/
theorem rungs_exclusive (earlier : List Sentence) (s : Sentence) :
    (Sentence.rungs earlier s).Pairwise fun lower higher =>
      (∀ a ∈ lower.premises, I.Holds p a) → ¬ ∀ a ∈ higher.premises, I.Holds p a := by
  induction earlier, s using Sentence.rungs.induct with
  | case1 earlier guard consequent otherwise rest ih =>
    rw [Sentence.rungs, List.pairwise_cons]
    constructor
    · intro higher member first second
      have open_ : I.Holds p guard := first guard List.mem_cons_self
      -- Whether the rest is a ladder or the last branch, it denies this guard.
      have denied : guard.negate ∈ higher.premises := by
        split at member
        next nested => exact (Sentence.isRung_of_mem member nested).denies guard (by simp)
        · obtain rfl := List.mem_singleton.mp member
          exact List.mem_cons_self
      exact (I.holds_negate p guard).mp (second _ denied) open_
    · split
      · exact ih
      · exact List.pairwise_singleton _ _
  | case2 s earlier other =>
    rw [Sentence.rungs]
    · exact .nil
    · exact other

/-- Two rungs with true premises are the same. -/
theorem rungs_unique {earlier : List Sentence} {s : Sentence} {i j : Nat} {a b : Part}
    (first : (Sentence.rungs earlier s)[i]? = some a)
    (second : (Sentence.rungs earlier s)[j]? = some b) (left : ∀ t ∈ a.premises, I.Holds p t)
    (right : ∀ t ∈ b.premises, I.Holds p t) : i = j := by
  obtain ⟨inside, rfl⟩ := List.getElem?_eq_some_iff.mp first
  obtain ⟨within, rfl⟩ := List.getElem?_eq_some_iff.mp second
  have apart := List.pairwise_iff_getElem.mp (I.rungs_exclusive p earlier s)
  -- Being pairwise exclusive is one-sided, so the two orders are taken apart.
  rcases Nat.lt_trichotomy i j with less | equal | more
  · exact absurd right (apart i j inside within less left)
  · exact equal
  · exact absurd left (apart j i within inside more right)

/-- Where no earlier guard holds, some branch of the ladder has true premises. -/
theorem rungs_exhaustive (earlier : List Sentence) (s : Sentence)
    (ladder : s.isLadderSentence = true) (failed : ∀ g ∈ earlier, ¬ I.Holds p g) :
    ∃ part ∈ Sentence.rungs earlier s, ∀ a ∈ part.premises, I.Holds p a := by
  induction earlier, s using Sentence.rungs.induct with
  | case1 earlier guard consequent otherwise rest ih =>
    have denied : ∀ a ∈ earlier.map Sentence.negate, I.Holds p a :=
      List.forall_mem_map.mpr fun g inside => (I.holds_negate p g).mpr (failed g inside)
    rw [Sentence.rungs]
    -- A true guard opens this branch; a false one joins the earlier guards, all of them false.
    by_cases holds : I.Holds p guard
    · exact ⟨_, List.mem_cons_self, List.forall_mem_cons.mpr ⟨holds, denied⟩⟩
    · split
      next nested =>
        have all : ∀ g ∈ earlier ++ [guard], ¬ I.Holds p g :=
          List.forall_mem_append.mpr ⟨failed, List.forall_mem_singleton.mpr holds⟩
        obtain ⟨part, inside, premises⟩ := ih nested all
        exact ⟨part, List.mem_cons_of_mem _ inside, premises⟩
      · refine ⟨_, List.mem_cons_of_mem _ (List.mem_singleton_self _), ?_⟩
        exact List.forall_mem_cons.mpr ⟨(I.holds_negate p guard).mpr holds, denied⟩
  | case2 s earlier other =>
    obtain ⟨_, _, _, _, rfl⟩ := Sentence.exists_of_isLadderSentence ladder
    exact (other _ _ _ _ rfl).elim

end Interpretation

/-! ### Marks -/

/-- Whether a valuation makes the whole body of a clause true. -/
def Valuation.HoldsBody (v : Valuation) (c : Clause) : Prop := ∀ l ∈ c.body, v.Holds l

/-- Clauses with true bodies on one ladder are on the same branch of it. -/
def Exclusive (v : Valuation) (clauses : List Clause) : Prop :=
  ∀ a ∈ clauses, ∀ b ∈ clauses, ∀ ladder i j, a.rung = some ⟨ladder, i⟩ → b.rung = some ⟨ladder, j⟩ →
    v.HoldsBody a → v.HoldsBody b → i = j

/-- How the clauses found in a setting are marked: all with the branch they are in, or outside of
ladders with the numbers of ladders from `next` on. -/
structure Laddered (v : Valuation) (mark : Option Rung) (next : Nat) (rules : Rules) : Prop where
  kept : ∀ rung, mark = some rung → ∀ c ∈ rules.clauses, c.rung = some rung
  numbered : mark = none → ∀ c ∈ rules.clauses, ∀ rung, c.rung = some rung →
    next ≤ rung.ladder ∧ rung.ladder < next + rules.ladders
  exclusive : Exclusive v rules.clauses

namespace Laddered

variable {v : Valuation} {mark : Option Rung} {next : Nat} {x y : Rules}

theorem of_rung (same : ∀ c ∈ x.clauses, c.rung = mark) : Laddered v mark next x where
  kept rung marked c member := (same c member).trans marked
  numbered free c member rung found := by simp [same c member, free] at found
  exclusive := by
    intro a inA b inB ladder i j first second _ _
    rw [same a inA] at first
    rw [same b inB, first] at second
    exact (Rung.mk.inj (Option.some.inj second)).2

/-- Ladders that are numbered one after the other do not meet. -/
theorem append (first : Laddered v mark next x) (second : Laddered v mark (next + x.ladders) y) :
    Laddered v mark next (x.append y) := by
  -- Clauses of both cannot share a ladder, unless they are all on one and the same rung.
  have apart {a b : Clause} (inX : a ∈ x.clauses) (inY : b ∈ y.clauses) {ladder i j : Nat}
      (left : a.rung = some ⟨ladder, i⟩) (right : b.rung = some ⟨ladder, j⟩) : i = j := by
    cases marked : mark with
    | some rung =>
      rw [first.kept rung marked a inX] at left
      rw [second.kept rung marked b inY, left] at right
      exact (Rung.mk.inj (Option.some.inj right)).2
    | none =>
      have below := (first.numbered marked a inX _ left).2
      have above := (second.numbered marked b inY _ right).1
      simp only at below above
      omega
  constructor
  · intro rung marked
    exact List.forall_mem_append.mpr ⟨first.kept rung marked, second.kept rung marked⟩
  · intro free
    refine List.forall_mem_append.mpr ⟨fun c member rung found => ?_, fun c member rung found => ?_⟩
    · have range := first.numbered free c member rung found
      simp only [Rules.append]
      omega
    · have range := second.numbered free c member rung found
      simp only [Rules.append]
      omega
  · intro a inA b inB ladder i j left right trueA trueB
    rcases List.mem_append.mp inA with inA | inA <;> rcases List.mem_append.mp inB with inB | inB
    · exact first.exclusive a inA b inB ladder i j left right trueA trueB
    · exact apart inA inB left right
    · exact (apart inB inA right left).symm
    · exact second.exclusive a inA b inB ladder i j left right trueA trueB

theorem recording (given : Laddered v mark next x) (vars : List TypedName) :
    Laddered v mark next (x.recording vars) := ⟨given.kept, given.numbered, given.exclusive⟩

/-- The rules of a sentence under several conditions belong to one branch. -/
theorem forEach {c : Setting} {b : Bodies} {rules : Setting → Except Error Rules}
    (each : ∀ inner found, inner.rung = c.rung → rules inner = .ok found →
      Laddered v inner.rung inner.next found)
    (returned : c.forEach b rules = .ok x) : Laddered v c.rung c.next x := by
  -- The bodies are taken one by one, and each starts where the numbers of the one before end.
  have collected (bodies : List (List Sentence)) (next : Nat) (found : Rules)
      (returned : Rules.collect next (fun n literals => rules (c.under n literals)) bodies =
        .ok found) : Laddered v c.rung next found := by
    induction bodies generalizing next found with
    | nil =>
      obtain rfl := Except.ok.inj returned
      exact .of_rung (by simp [Rules.none])
    | cons body bodies ih =>
      simp only [Rules.collect, bind_ok_iff, pure_ok_iff] at returned
      obtain ⟨first, one, rest, others, rfl⟩ := returned
      exact (each (c.under next body) first rfl one).append (ih _ rest others)
  simp only [Setting.forEach, bind_ok_iff, pure_ok_iff] at returned
  obtain ⟨found, all, rfl⟩ := returned
  exact (collected _ _ found all).recording b.vars

end Laddered

namespace Dialect

/-- The bodies of some premises are true together with the premises, whatever these are: with a
single point no variable matters. -/
theorem conjunction_iff (d : Dialect) (v : Valuation) (premises : List Sentence) (b : Bodies)
    (returned : d.conjunction .unit premises = .ok b) :
    (∃ body ∈ b.alternatives, ∀ l ∈ body, v.Holds l) ↔ ∀ a ∈ premises, v.Holds a := by
  -- All asserted variables are listed, and no term depends on any of them at a single point.
  let names := Sentence.assertedAll false premises ++ Sentence.assertedAll true premises
  have steady (a : Sentence) : a.Terms (v.toInterpretation.Steady names) :=
    Sentence.terms_of_forall (fun _ _ _ _ _ => .rfl) a
  obtain ⟨splits, exhausts⟩ := premises_expand v.toInterpretation names d premises b returned
  constructor
  · rintro ⟨body, member, all⟩
    have made := conjunction_made (fun a _ => steady a) returned body member
    exact splits (List.subset_append_left _ _) body member made () all
  · intro all
    exact exhausts (List.subset_append_right _ _) (fun a _ => steady a) () all

/-! ### One branch after the other -/

/-- Whether the rules are those of a part that is a branch of an outermost ladder. -/
def Branch (d : Dialect) (conditions : List Sentence) (rung : Rung) (part : Part) (found : Rules) :
    Prop :=
  ∃ b, d.conjunction .unit part.premises = .ok b ∧ ∃ inner : Setting,
    inner.conditions = conditions ∧ inner.rung = some rung ∧
      inner.forEach b (d.flatten part.consequent) = .ok found

namespace Branch

variable {d : Dialect} {conditions : List Sentence} {rung : Rung} {part : Part} {found : Rules}

/-- A branch is only taken where its premises are true. -/
theorem premises_of_body (given : d.Branch conditions rung part found) (v : Valuation) (c : Clause)
    (member : c ∈ found.clauses) (body : v.HoldsBody c) : ∀ a ∈ part.premises, v.Holds a := by
  obtain ⟨b, expanded, inner, -, -, returned⟩ := given
  have covered := d.forEach_covers _ _ _ _ _ _ expanded (fun _ => rfl) returned
  obtain ⟨_, rfl, b', same, literals, inside, rules, ⟨setting, under, -, flattened⟩, inRules⟩ := by
    simpa only [List.mem_singleton] using covered.sound c member
  -- `forEach` was run on the bodies already at hand.
  obtain rfl := Except.ok.inj (expanded.symm.trans same)
  -- The conditions under which the consequent stands are part of the body.
  obtain ⟨_, gives⟩ := d.flatten_gives _ _ rules flattened c inRules
  have kept := gives.conditions_subset
  rw [under, List.append_subset] at kept
  exact (d.conjunction_iff v _ b expanded).mp
    ⟨literals, inside, fun l inLiterals => body l (kept.2 inLiterals)⟩

/-- Where the premises are true, a term at the end of the branch is a head with a true body. -/
theorem exists_body (given : d.Branch [] rung part found) (v : Valuation) {p : Text}
    {args : List Sentence} (isTerm : part.consequent = .term p args)
    (premises : ∀ a ∈ part.premises, v.Holds a) : ∃ c ∈ found.clauses, v.HoldsBody c := by
  obtain ⟨b, expanded, inner, none, -, returned⟩ := given
  have covered := d.forEach_covers _ _ _ _ _ _ expanded (fun _ => rfl) returned
  obtain ⟨literals, inside, all⟩ := (d.conjunction_iff v _ b expanded).mpr premises
  obtain ⟨b', same, complete⟩ := covered.complete _ (List.mem_singleton_self _)
  obtain rfl := Except.ok.inj (expanded.symm.trans same)
  obtain ⟨rules, ⟨setting, under, -, flattened⟩, included⟩ := complete literals inside
  simp only [isTerm, flatten] at flattened
  obtain rfl := Except.ok.inj flattened
  refine ⟨_, included (List.mem_singleton_self _), ?_⟩
  simpa [Valuation.HoldsBody, Setting.clause, under, none] using all

end Branch

/-- Whether some clauses are those of the branches of an outermost ladder from number `branch` on. -/
structure Climbs (d : Dialect) (conditions : List Sentence) (ladder branch : Nat)
    (parts : List Part) (clauses : List Clause) : Prop where
  sound : ∀ c ∈ clauses, ∃ k part, parts[k]? = some part ∧
    ∃ found, d.Branch conditions ⟨ladder, branch + k⟩ part found ∧ c ∈ found.clauses
  complete : ∀ k part, parts[k]? = some part →
    ∃ found, d.Branch conditions ⟨ladder, branch + k⟩ part found ∧ found.clauses ⊆ clauses

/-- The branches of an outermost ladder are numbered from zero on, and each has its own clauses. -/
theorem flattenRungs_climbs (d : Dialect) (ladder : Nat) (parts : List Part) (branch : Nat)
    (c : Setting) (rules : Rules) (outermost : c.rung = none)
    (returned : d.flattenRungs ladder parts branch c = .ok rules) :
    d.Climbs c.conditions ladder branch parts rules.clauses := by
  induction parts generalizing branch c rules with
  | nil =>
    obtain rfl := Except.ok.inj returned
    exact ⟨by simp [Rules.none], by simp⟩
  | cons part parts ih =>
    simp only [flattenRungs, bind_ok_iff, pure_ok_iff] at returned
    obtain ⟨b, expanded, first, flattened, rest, others, rfl⟩ := returned
    -- Outside of ladders the setting takes the mark of the branch.
    have here : d.Branch c.conditions ⟨ladder, branch⟩ part first :=
      ⟨b, expanded, c.onRung ladder branch, by simp, by simp [Setting.onRung, outermost], flattened⟩
    -- The rest of the ladder goes on from the next branch, with the numbers left by this one.
    have further := ih (branch + 1) (c.under (c.next + first.ladders) []) rest outermost others
    simp only [Setting.under_conditions, List.append_nil] at further
    constructor
    · intro clause member
      rcases List.mem_append.mp member with member | member
      · exact ⟨0, part, rfl, first, here, member⟩
      · obtain ⟨k, other, found, rules, given, inside⟩ := further.sound clause member
        rw [Nat.add_right_comm] at given
        exact ⟨k + 1, other, found, rules, given, inside⟩
    · rintro (_ | k) other found
      · obtain rfl := Option.some.inj found
        exact ⟨first, here, List.subset_append_left _ _⟩
      · obtain ⟨rules, given, included⟩ := further.complete k other found
        rw [Nat.add_right_comm] at given
        exact ⟨rules, given, List.subset_append_of_subset_right _ included⟩

/-- On a rung already, the branches of a ladder leave no mark of their own. -/
theorem flattenRungs_kept (d : Dialect) (v : Valuation) (ladder : Nat) (rung : Rung)
    (parts : List Part)
    (each : ∀ part ∈ parts, ∀ c found, d.flatten part.consequent c = .ok found →
      Laddered v c.rung c.next found)
    (branch : Nat) (c : Setting) (rules : Rules) (on : c.rung = some rung)
    (returned : d.flattenRungs ladder parts branch c = .ok rules) :
    Laddered v c.rung c.next rules := by
  induction parts generalizing branch c rules with
  | nil =>
    obtain rfl := Except.ok.inj returned
    exact .of_rung (by simp [Rules.none])
  | cons part parts ih =>
    simp only [flattenRungs, bind_ok_iff, pure_ok_iff] at returned
    obtain ⟨b, -, first, flattened, rest, others, rfl⟩ := returned
    rw [List.forall_mem_cons] at each
    -- The mark of the outer branch stays.
    have same : c.onRung ladder branch = c := by simp [Setting.onRung, on]
    rw [same] at flattened
    have own := Laddered.forEach (fun inner found _ => each.1 inner found) flattened
    exact own.append (ih each.2 (branch + 1) (c.under (c.next + first.ladders) []) rest on others)

/-- A clause of an outermost ladder is marked with its branch, and where its body is true the
premises of the branch are. -/
theorem Climbs.located {d : Dialect} {conditions : List Sentence} {ladder : Nat} {parts : List Part}
    {clauses : List Clause} (climbs : d.Climbs conditions ladder 0 parts clauses) (v : Valuation)
    (each : ∀ part ∈ parts, ∀ c found, d.flatten part.consequent c = .ok found →
      Laddered v c.rung c.next found) (c : Clause) (member : c ∈ clauses) :
    ∃ k part, parts[k]? = some part ∧ c.rung = some ⟨ladder, k⟩ ∧
      (v.HoldsBody c → ∀ a ∈ part.premises, v.Holds a) := by
  obtain ⟨k, part, found, rules, given, inside⟩ := climbs.sound c member
  rw [Nat.zero_add] at given
  have premises := given.premises_of_body v c inside
  obtain ⟨b, _, inner, _, marked, returned⟩ := given
  have own := Laddered.forEach (fun inner rules _ => each part (List.mem_of_getElem? found) inner rules)
    returned
  exact ⟨k, part, found, own.kept _ marked c inside, premises⟩

/-- The branches of an outermost ladder exclude each other. -/
theorem Climbs.exclusive {d : Dialect} {conditions : List Sentence} {ladder : Nat} {s : Sentence}
    {clauses : List Clause} (climbs : d.Climbs conditions ladder 0 (Sentence.rungs [] s) clauses)
    (v : Valuation)
    (each : ∀ part ∈ Sentence.rungs [] s, ∀ c found, d.flatten part.consequent c = .ok found →
      Laddered v c.rung c.next found) : Exclusive v clauses := by
  intro a inA b inB number i j left right trueA trueB
  obtain ⟨k, first, atK, marked, premises⟩ := climbs.located v each a inA
  obtain ⟨m, second, atM, markedToo, premisesToo⟩ := climbs.located v each b inB
  obtain rfl : k = i := (Rung.mk.inj (Option.some.inj (marked.symm.trans left))).2
  obtain rfl : m = j := (Rung.mk.inj (Option.some.inj (markedToo.symm.trans right))).2
  exact v.toInterpretation.rungs_unique () atK atM (premises trueA) (premisesToo trueB)

/-! ### Whole sentences -/

/-- A conjunction numbers the ladders of its members one after another. -/
theorem flattenAll_laddered (d : Dialect) (v : Valuation) (ss : List Sentence)
    (each : ∀ s ∈ ss, ∀ c found, d.flatten s c = .ok found → Laddered v c.rung c.next found)
    (c : Setting) (rules : Rules) (returned : d.flattenAll ss c = .ok rules) :
    Laddered v c.rung c.next rules := by
  induction ss generalizing c rules with
  | nil =>
    obtain rfl := Except.ok.inj returned
    exact .of_rung (by simp [Rules.none])
  | cons s ss ih =>
    rw [List.forall_mem_cons] at each
    simp only [flattenAll, bind_ok_iff, pure_ok_iff] at returned
    obtain ⟨first, one, rest, others, rfl⟩ := returned
    exact (each.1 c first one).append
      (ih each.2 (c.under (c.next + first.ladders) []) rest others)

theorem constraint_laddered (d : Dialect) (v : Valuation) (c : Setting) (kind : ErrorKind)
    (body : Sentence) (rules : Rules) (returned : d.constraint c kind body = .ok rules) :
    Laddered v c.rung c.next rules := by
  obtain ⟨b, -, clauses, -⟩ := d.constraint_clauses c kind body rules returned
  refine .of_rung ?_
  rw [clauses]
  exact List.forall_mem_map.mpr fun _ _ => rfl

/-- A ladder takes one number for itself, unless it is part of another. -/
theorem flattenLadder_laddered (d : Dialect) (v : Valuation) (ss : List Sentence) (c : Setting)
    (rules : Rules) (isLadder : Sentence.isLadder ss = true)
    (each : ∀ part ∈ Sentence.rungs [] (.conj ss), ∀ c found,
      d.flatten part.consequent c = .ok found → Laddered v c.rung c.next found)
    (returned : d.flattenLadder ss c.next 0 [] (c.under (c.next + 1) []) = .ok rules) :
    Laddered v c.rung c.next { rules with ladders := rules.ladders + 1 } := by
  rw [d.flattenLadder_eq ss _ _ _ _ isLadder] at returned
  -- Inside another ladder its mark stands; outside, the clauses carry the number taken here.
  cases on : c.rung with
  | some rung =>
    have given := d.flattenRungs_kept v c.next rung _ each 0 (c.under (c.next + 1) []) rules on
      returned
    refine ⟨fun other marked => given.kept other (on.trans marked), fun free => ?_, given.exclusive⟩
    cases free
  | none =>
    have climbs := d.flattenRungs_climbs c.next _ 0 (c.under (c.next + 1) []) rules on returned
    refine ⟨fun rung marked => ?_, fun _ clause member rung found => ?_, climbs.exclusive v each⟩
    · cases marked
    obtain ⟨k, part, -, marked, -⟩ := climbs.located v each clause member
    obtain rfl := Option.some.inj (marked.symm.trans found)
    simp only
    omega

/-- Whatever is flattened, the clauses of one ladder exclude each other across its branches. -/
theorem flatten_laddered (d : Dialect) (v : Valuation) (s : Sentence) (c : Setting) (rules : Rules)
    (returned : d.flatten s c = .ok rules) : Laddered v c.rung c.next rules := by
  -- The branches of a ladder are not its children, hence the induction on size.
  induction size : sizeOf s using Nat.strongRecOn generalizing s c rules with
  | ind n ih =>
    have smaller (t : Sentence) (less : sizeOf t < sizeOf s) (c : Setting) (found : Rules)
        (flattened : d.flatten t c = .ok found) : Laddered v c.rung c.next found :=
      ih _ (size ▸ less) t c found flattened rfl
    have child (t : Sentence) (member : t ∈ s.children) := smaller t (s.children_smaller t member)
    cases s with
    | term p args =>
      obtain rfl := Except.ok.inj returned
      exact .of_rung (by simp [Setting.clause])
    | forAll vars s | forSome vars s =>
      simp only [flatten, bind_ok_iff, pure_ok_iff] at returned
      obtain ⟨inner, flattened, rfl⟩ := returned
      exact (child s List.mem_cons_self c inner flattened).recording vars
    | implies a b =>
      simp only [flatten, bind_ok_iff] at returned
      obtain ⟨bodies, -, returned⟩ := returned
      exact .forEach (fun inner found _ => child b (by simp [Sentence.children]) inner found) returned
    | iff a b =>
      simp only [flatten] at returned
      split at returned
      · simp [bind, Except.bind] at returned
      · simp only [bind_ok_iff, pure_ok_iff] at returned
        obtain ⟨x, -, first, forward, y, -, second, backward, rfl⟩ := returned
        have left := Laddered.forEach
          (fun inner found _ => child b (by simp [Sentence.children]) inner found) forward
        have right := Laddered.forEach
          (fun inner found _ => child a (by simp [Sentence.children]) inner found) backward
        exact left.append right
    | conj ss =>
      rw [flatten] at returned
      split at returned
      next isLadder =>
        simp only [bind_ok_iff, pure_ok_iff] at returned
        obtain ⟨inner, flattened, rfl⟩ := returned
        -- The consequents of the branches lie deeper, but are smaller all the same.
        have consequents : ∀ part ∈ Sentence.rungs [] (.conj ss), ∀ c found,
            d.flatten part.consequent c = .ok found → Laddered v c.rung c.next found :=
          fun part member => smaller _ (Sentence.isRung_of_mem member isLadder).smaller
        exact d.flattenLadder_laddered v ss c inner isLadder consequents flattened
      next => exact d.flattenAll_laddered v ss child c rules returned
    | neg s =>
      cases s with
      | neg s =>
        rw [flatten] at returned
        simp only [Sentence.neg.sizeOf_spec] at smaller
        exact smaller s (by omega) c rules returned
      | _ => exact d.constraint_laddered v c _ _ rules returned
    | disj ss =>
      rw [flatten] at returned
      split at returned
      · simp at returned
      · split at returned
        · exact d.constraint_laddered v c _ _ rules returned
        next more =>
          simp only [bind_ok_iff] at returned
          obtain ⟨b, -, returned⟩ := returned
          have nonempty : Sentence.positives ss ≠ [] := by simpa using more
          have found := List.getLast?_eq_some_getLast nonempty
          have last := Sentence.positives_subset ss (List.getLast_mem nonempty)
          refine .forEach (fun inner rules _ flattened => ?_) returned
          rw [d.flattenLast_eq ss _ inner found] at flattened
          exact child _ last inner rules flattened
    | weighted w s =>
      rw [flatten] at returned
      split at returned
      · simp at returned
      · split at returned
        · simp at returned
        · exact child s List.mem_cons_self { c with weight := some w } rules returned
    | var | const | evidence | missing => simp [flatten] at returned

end Dialect

/-- Ladders with a number of branches, each of which ends in a term. -/
inductive Sentence.Ladder : Nat → Sentence → Prop where
  | last {guard otherwise : Sentence} {p q : Text} {args others : List Sentence}
      (opposite : isNegationOf otherwise guard = true) :
      Ladder 2 (.conj [.implies guard (.term p args), .implies otherwise (.term q others)])
  | step {n : Nat} {guard otherwise rest : Sentence} {p : Text} {args : List Sentence}
      (opposite : isNegationOf otherwise guard = true) (above : Ladder n rest) :
      Ladder (n + 1) (.conj [.implies guard (.term p args), .implies otherwise rest])

namespace Sentence.Ladder

variable {n : Nat} {s : Sentence}

theorem isLadderSentence (given : s.Ladder n) : s.isLadderSentence = true := by
  cases given with
  | last opposite => exact opposite
  | step opposite _ => exact opposite

theorem length_rungs (given : s.Ladder n) (earlier : List Sentence) :
    (rungs earlier s).length = n := by
  induction given generalizing earlier with
  | last => rfl
  | step _ above ih => simp [rungs, above.isLadderSentence, ih]

theorem consequent_term (given : s.Ladder n) (earlier : List Sentence) :
    ∀ part ∈ rungs earlier s, ∃ p args, part.consequent = .term p args := by
  induction given generalizing earlier with
  | last => simp [rungs, Sentence.isLadderSentence]
  | step _ above ih =>
    simp only [rungs, above.isLadderSentence, if_true, List.forall_mem_cons]
    exact ⟨⟨_, _, rfl⟩, ih _⟩

end Sentence.Ladder

namespace Dialect

/-- Nothing but the branches of a ladder comes out of it. -/
theorem flatten_ladder (d : Dialect) (s : Sentence) (n : Nat) (rules : Rules) (ladder : s.Ladder n)
    (returned : d.flatten s .outermost = .ok rules) :
    d.Climbs [] 0 0 (Sentence.rungs [] s) rules.clauses := by
  have isLadder := ladder.isLadderSentence
  cases s with
  | conj ss =>
    have found : Sentence.isLadder ss = true := isLadder
    simp only [flatten, found, if_true, bind_ok_iff, pure_ok_iff] at returned
    obtain ⟨inner, flattened, rfl⟩ := returned
    rw [d.flattenLadder_eq ss _ _ _ _ isLadder] at flattened
    exact d.flattenRungs_climbs 0 _ 0 (Setting.outermost.under 1 []) inner rfl flattened
  | _ => simp [Sentence.isLadderSentence] at isLadder

/-- Whatever is true, exactly one branch of a ladder is open. -/
theorem Climbs.existsUnique {d : Dialect} {s : Sentence} {n : Nat} {clauses : List Clause}
    (climbs : d.Climbs [] 0 0 (Sentence.rungs [] s) clauses) (ladder : s.Ladder n) (v : Valuation) :
    ∃! i, i < n ∧ ∃ c ∈ clauses, c.rung = some ⟨0, i⟩ ∧ v.HoldsBody c := by
  have each (part : Part) (_ : part ∈ Sentence.rungs [] s) (c : Setting) (found : Rules) :
      d.flatten part.consequent c = .ok found → Laddered v c.rung c.next found :=
    d.flatten_laddered v part.consequent c found
  -- Some rung has true premises; its clauses are among those given.
  obtain ⟨part, member, premises⟩ := v.toInterpretation.rungs_exhaustive () [] s
    ladder.isLadderSentence (by simp)
  obtain ⟨i, inside, rfl⟩ := List.mem_iff_getElem.mp member
  obtain ⟨p, args, isTerm⟩ := ladder.consequent_term [] _ member
  obtain ⟨found, given, included⟩ := climbs.complete i _ (List.getElem?_eq_getElem inside)
  obtain ⟨c, inFound, body⟩ := given.exists_body v isTerm premises
  -- The clause found is on branch `i`, and any other with a true body has to be as well.
  have marked : c.rung = some ⟨0, i⟩ := by
    obtain ⟨b, -, inner, -, marked, returned⟩ := given
    have own := Laddered.forEach (fun inner rules _ => each _ member inner rules) returned
    simpa using own.kept _ marked c inFound
  refine ⟨i, ⟨ladder.length_rungs [] ▸ inside, c, included inFound, marked, body⟩, ?_⟩
  rintro j ⟨-, other, inClauses, markedToo, bodyToo⟩
  exact climbs.exclusive v each other inClauses c (included inFound) 0 j i markedToo marked bodyToo
    body

/-- Branches of ladders exclude each other: clauses on different branches of one ladder never have
true bodies together. Of a ladder of `n` branches that is normalized without a report, exactly one
branch has a clause with a true body. -/
theorem normalize_branches (d : Dialect) (r : Option Registry) (v : Valuation) :
    (∀ s : Sentence, ∀ a ∈ (d.normalize r s).clauses, ∀ b ∈ (d.normalize r s).clauses,
      ∀ ladder i j, a.rung = some ⟨ladder, i⟩ → b.rung = some ⟨ladder, j⟩ → i ≠ j →
        ¬ (v.HoldsBody a ∧ v.HoldsBody b)) ∧
    ∀ (blocks : List (List TypedName)) (matrix : Sentence) (n : Nat), matrix.Ladder n →
      (d.normalize r (.quantified blocks matrix)).diagnostics = [] →
        (∀ c ∈ (d.normalize r (.quantified blocks matrix)).clauses, ∃ i < n, c.rung = some ⟨0, i⟩) ∧
        ∃! i, i < n ∧ ∃ c ∈ (d.normalize r (.quantified blocks matrix)).clauses,
          c.rung = some ⟨0, i⟩ ∧ v.HoldsBody c := by
  constructor
  · intro s a inA b inB ladder i j left right different ⟨trueA, trueB⟩
    obtain ⟨rules, returned, first, inRules, rfl, -⟩ := (d.mem_normalize r s a).mp inA
    obtain ⟨same, returnedToo, second, inSame, rfl, -⟩ := (d.mem_normalize r s b).mp inB
    obtain rfl := Except.ok.inj (returned.symm.trans returnedToo)
    have exclusive := (d.flatten_laddered v s .outermost rules returned).exclusive
    exact different
      (exclusive first inRules second inSame ladder i j left right trueA trueB)
  · intro blocks matrix n ladder silent
    unfold normalize at silent ⊢
    split at silent
    · simp at silent
    next rules returned =>
      -- The quantifiers in front change neither clauses nor marks.
      obtain ⟨inner, flattened, same⟩ := d.flatten_quantified blocks matrix _ rules returned
      have climbs := d.flatten_ladder matrix n inner ladder flattened
      rw [same] at climbs
      simp only [checkClauses_silent r _ _ silent, List.mem_map, exists_exists_and_eq_and]
      refine ⟨?_, climbs.existsUnique ladder v⟩
      rintro _ ⟨c, member, rfl⟩
      obtain ⟨k, part, found, marked, -⟩ := climbs.located v
        (fun part _ c found => d.flatten_laddered v part.consequent c found) c member
      obtain ⟨inside, -⟩ := List.getElem?_eq_some_iff.mp found
      exact ⟨k, ladder.length_rungs [] ▸ inside, marked⟩

/-- A ladder whose first guard splits into two bodies and whose second guard is a negation. -/
private def tariff : Sentence :=
  let child : Sentence := .term "child" []
  let senior : Sentence := .term "senior" []
  let resident : Sentence := .term "resident" []
  .conj [.implies (.disj [child, senior]) (.term "reduced" []),
    .implies (.neg (.disj [child, senior]))
      (.conj [.implies (.neg resident) (.term "full" []), .implies resident (.term "local" [])])]

private def everything : Dialect := ⟨true, true, true, true⟩

private def tariffRules : Normalized := everything.normalize none (.quantified [[]] tariff)

/-- The term `senior` is true, and no other. -/
private def onlySenior : Valuation := ⟨fun predicate _ => predicate = "senior", fun _ _ _ _ => .rfl⟩

theorem normalize_branches_tariff :
    tariff.Ladder 3 ∧ tariffRules.diagnostics = [] ∧
      tariffRules.clauses.map Clause.rung = [some ⟨0, 0⟩, some ⟨0, 0⟩, some ⟨0, 1⟩, some ⟨0, 2⟩] ∧
      (∀ a ∈ tariffRules.clauses, ∀ b ∈ tariffRules.clauses, a.rung = some ⟨0, 0⟩ →
        b.rung = some ⟨0, 1⟩ → ¬ (onlySenior.HoldsBody a ∧ onlySenior.HoldsBody b)) ∧
      ∃! i, i < 3 ∧ ∃ c ∈ tariffRules.clauses, c.rung = some ⟨0, i⟩ ∧ onlySenior.HoldsBody c := by
  have ladder : tariff.Ladder 3 := .step (by decide) (.last (by decide))
  have silent : tariffRules.diagnostics = [] := by decide
  obtain ⟨exclusive, whole⟩ := everything.normalize_branches none onlySenior
  refine ⟨ladder, silent, by decide, fun a inA b inB left right => ?_,
    (whole [[]] tariff 3 ladder silent).2⟩
  exact exclusive _ a inA b inB 0 0 1 left right (by decide)

end Dialect

end Clausal
