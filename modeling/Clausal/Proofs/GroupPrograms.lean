import Clausal.Proofs.SouffleAccounting

/-!
# Programs of single groups

A rule that is unstratified among some rules is so among more of them, because paths between
predicates stay where rules are added. So the program of a theory drops every rule of a group that the
program of the group drops, and reports on it in the same words.

Main result: `compileGroup_agrees`.
-/

namespace Clausal

/-! ### More rules -/

theorem PathFrom.mono {α : Type} {edges more : List (Edge α)} (included : edges ⊆ more) {x y : α}
    (path : PathFrom edges x y) : PathFrom more x y :=
  Relation.ReflTransGen.mono (fun _ _ edge => included edge) x y path

/-- What is unstratified among some rules is so among more of them. -/
theorem Clause.isUnstratified_mono {clauses more : List Clause} (included : clauses ⊆ more)
    (c : Clause) (unstratified : c.isUnstratified (dependencyComponents clauses) = true) :
    c.isUnstratified (dependencyComponents more) = true := by
  have edges : clauses.flatMap dependencies ⊆ more.flatMap dependencies := by
    intro edge found
    obtain ⟨d, member, edge⟩ := List.mem_flatMap.mp found
    exact List.mem_flatMap.mpr ⟨d, included member, edge⟩
  rw [dependencyComponents, isUnstratified_iff] at unstratified ⊢
  -- Head and literal are in one component if there are paths both ways, and these stay.
  obtain ⟨h, args, p, others, head, literal, plain, back, forth⟩ := unstratified
  exact ⟨h, args, p, others, head, literal, plain, back.mono edges, forth.mono edges⟩

/-- A rule that is found among some rules is found wherever it stands among more. -/
theorem mem_unstratifiedRules_mono {clauses more : List Clause} (place : Nat → Nat)
    (listed : ∀ i c, clauses[i]? = some c → more[place i]? = some c) (i : Nat)
    (found : i ∈ unstratifiedRules clauses) : place i ∈ unstratifiedRules more := by
  rw [mem_unstratifiedRules] at found ⊢
  obtain ⟨c, here, unstratified⟩ := found
  refine ⟨c, listed i c here, c.isUnstratified_mono ?_ unstratified⟩
  intro d member
  obtain ⟨j, there⟩ := List.mem_iff_getElem?.mp member
  exact List.mem_of_getElem? (listed j d there)

namespace Souffle

/-! ### One section of many -/

/-- What is kept of a section where the rules of some sections stand together. -/
def Section.among (sections : List Section) (s : Section) : Section :=
  { s with
    entries := s.entries.filter fun e => !e.clause.isUnstratified (sectionComponents sections) }

theorem dropUnstratified_fst (sections : List Section) :
    (dropUnstratified sections).1 = sections.map (Section.among sections) := rfl

theorem sublist_flatMap_of_mem {α β : Type} (f : α → List β) {x : α} {xs : List α} (member : x ∈ xs) :
    (f x).Sublist (xs.flatMap f) :=
  (List.infix_of_mem_flatten (List.mem_map_of_mem member)).sublist

section Drop

variable {sections : List Section} {own : Section} (member : own ∈ sections)

include member

/-- A rule that is dropped from a group alone is dropped from the whole program as well. -/
theorem isUnstratified_among (e : Entry)
    (unstratified : e.clause.isUnstratified (sectionComponents [own]) = true) :
    e.clause.isUnstratified (sectionComponents sections) = true := by
  refine e.clause.isUnstratified_mono (List.map_subset _ ?_) unstratified
  intro other inside
  exact List.mem_flatMap.mpr ⟨own, member, by simpa using inside⟩

/-- What is kept of a section among others is kept of it alone. -/
theorem kept_among : (own.among sections).entries.Sublist (own.among [own]).entries := by
  refine List.monotone_filter_right _ fun e kept => ?_
  rw [Bool.not_eq_true'] at kept ⊢
  by_contra dropped
  rw [Bool.not_eq_false] at dropped
  simp [isUnstratified_among member e dropped] at kept

/-- What is reported on a section alone is reported on it among others. -/
theorem reported_among : (dropUnstratified [own]).2.Sublist (dropUnstratified sections).2 := by
  have entries : own.entries.Sublist (sections.flatMap Section.entries) :=
    sublist_flatMap_of_mem Section.entries member
  refine List.Sublist.map _ ?_
  rw [List.flatMap_singleton]
  exact (List.monotone_filter_right _ (isUnstratified_among member)).trans (entries.filter _)

end Drop

/-! ### The two programs -/

/-- The sections of the program of a theory, those of its groups first, with the rules it keeps. -/
def keptSections (t : Theory) : Except TargetFault (List Section) := do
  let (collected, _) ← collect t
  return (dropUnstratified collected).1

/-- The sections of the program of a group, which has only one, with the rules it keeps. -/
def keptAlone (r : Registry) (g : SentenceGroup) : Except TargetFault (List Section) := do
  let (own, _) ← groupSection r g
  return (dropUnstratified [own]).1

/-- A program is made of the sections of its groups and of the facts, without the rules that are
dropped. -/
theorem compile_sections {choices : Choices} {t : Theory} {whole : Compiled}
    (returned : compile choices t = .ok whole) :
    ∃ groups facts, t.groups.mapM (groupSection t.registry) = .ok groups ∧
      keptSections t = .ok (dropUnstratified (groups.map Prod.fst ++ [facts])).1 ∧
      whole.text = programText choices t.registry
        (dropUnstratified (groups.map Prod.fst ++ [facts])).1 ∧
      whole.diagnostics = (header choices t.registry).2 ++ groups.flatMap Prod.snd ++
        (dropUnstratified (groups.map Prod.fst ++ [facts])).2 := by
  simp only [compile, bind_ok_iff, pure_ok_iff] at returned
  obtain ⟨⟨collected, reports⟩, found, rfl⟩ := returned
  have kept : keptSections t = .ok (dropUnstratified collected).1 := by
    rw [keptSections, found]
    rfl
  simp only [collect, bind_ok_iff, pure_ok_iff, Prod.mk.injEq] at found
  obtain ⟨groups, grouped, facts, -, rfl, rfl⟩ := found
  exact ⟨groups, facts, grouped, kept, rfl, rfl⟩

/-- The program of a group has a single section, which is stratified by itself. -/
theorem compileGroup_section {r : Registry} {g : SentenceGroup} {own : Section}
    {reports : List Diagnostic} (sectioned : groupSection r g = .ok (own, reports)) :
    keptAlone r g = .ok [own.among [own]] ∧ compileGroup r g =
      .ok ⟨[own.among [own]].flatMap sectionText, reports ++ (dropUnstratified [own]).2⟩ := by
  rw [keptAlone, compileGroup, sectioned]
  exact ⟨rfl, rfl⟩

/-- A rule that is unstratified among some rules is so wherever it stands among more. Hence where a
theory is compiled each of its groups is, the rules that the program of the theory keeps of a group
are among those that the program of the group keeps, and whatever the group's compilation reports is
reported with the theory, in the same order. Every theory that a document can hold is compiled. -/
theorem compileGroup_agrees :
    (∀ (clauses more : List Clause) (place : Nat → Nat),
      (∀ i c, clauses[i]? = some c → more[place i]? = some c) →
      ∀ i ∈ unstratifiedRules clauses, place i ∈ unstratifiedRules more) ∧
    (∀ (choices : Choices) (t : Theory) (whole : Compiled), compile choices t = .ok whole →
      ∃ kept, keptSections t = .ok kept ∧ whole.text = programText choices t.registry kept ∧
        ∀ (k : Nat) (g : SentenceGroup), t.groups[k]? = some g →
          ∃ here alone part, kept[k]? = some here ∧ keptAlone t.registry g = .ok [alone] ∧
            compileGroup t.registry g = .ok part ∧ part.text = [alone].flatMap sectionText ∧
            here.name = alone.name ∧ here.entries.Sublist alone.entries ∧
            part.diagnostics.Sublist whole.diagnostics) ∧
    ∀ (choices : Choices) (t : Theory),
      (∀ g ∈ t.groups, ∀ s ∈ g.sentences, s.isExpressible false = true) →
      (∀ fact ∈ t.facts, fact.isTerm = true ∧ fact.isExpressible false = true) →
      ∃ whole, compile choices t = .ok whole := by
  refine ⟨fun clauses more place listed => mem_unstratifiedRules_mono place listed, ?_,
    fun choices t expressible facts => (compile_returns choices t expressible
      (fun fact member => (facts fact member).1) fun fact member => (facts fact member).2).returns⟩
  intro choices t whole returned
  obtain ⟨groups, facts, grouped, kept, text, diagnostics⟩ := compile_sections returned
  refine ⟨_, kept, text, fun k g listed => ?_⟩
  obtain ⟨⟨own, reports⟩, found, sectioned⟩ := ok_at_of_mapM grouped listed
  -- The group compiled alone starts from the very section that stands among those of the theory.
  obtain ⟨alone, compiled⟩ := compileGroup_section sectioned
  have placed : (groups.map Prod.fst ++ [facts])[k]? = some own := by
    rw [List.getElem?_append_left, List.getElem?_map, found]
    · rfl
    · rw [List.length_map]
      exact (List.getElem?_eq_some_iff.mp found).1
  have member : own ∈ groups.map Prod.fst ++ [facts] := List.mem_of_getElem? placed
  refine ⟨own.among (groups.map Prod.fst ++ [facts]), own.among [own], _, ?_, alone, compiled, rfl,
    rfl, kept_among member, ?_⟩
  · rw [dropUnstratified_fst, List.getElem?_map, placed]
    rfl
  · -- The reports on the group come before those on dropped rules, here as there.
    have before : reports.Sublist (groups.flatMap Prod.snd) :=
      sublist_flatMap_of_mem Prod.snd (List.mem_of_getElem? found)
    rw [diagnostics]
    exact (before.trans (List.sublist_append_right _ _)).append (reported_among member)

private def moves : Clause :=
  ⟨some (.term "win" [.var "x" []]), [.term "move" [.var "x" [], .var "y" []],
    .neg (.term "win" [.var "y" []])], [], none, none, 0⟩

/-- A position is won by a move to one that is lost. What is not won is lost: a rule of another group
makes this circular. -/
private def positions : Theory :=
  let x : Sentence := .var "x" []
  let y : Sentence := .var "y" []
  { name := "positions"
    registry := .empty
    groups := [
      ⟨"wins", .plain, [],
        [.implies (.conj [.term "move" [x, y], .term "lost" [y]]) (.term "win" [x])]⟩,
      ⟨"losses", .plain, [],
        [.implies (.conj [.term "position" [x], .neg (.term "win" [x])]) (.term "lost" [x])]⟩]
    facts := [.term "move" [.const (.string "a"), .const (.string "b")]]
    notes := [] }

theorem compileGroup_agrees_positions :
    (0 ∈ unstratifiedRules [moves] ∧ 2 ∈ unstratifiedRules [default, default, moves]) ∧
      ∃ whole part, compile .full positions = .ok whole ∧
        compileGroup positions.registry positions.groups[1] = .ok part ∧
        part.diagnostics.Sublist whole.diagnostics := by
  obtain ⟨more, agrees, compiles⟩ := compileGroup_agrees
  have found : 0 ∈ unstratifiedRules [moves] := by
    refine (mem_unstratifiedRules _ 0).mpr ⟨moves, rfl, (moves.isUnstratified_iff _).mpr ?_⟩
    exact ⟨"win", _, "win", [.var "y" []], rfl, by simp [moves], by decide, .refl, .refl⟩
  refine ⟨⟨found, ?_⟩, ?_⟩
  · refine more [moves] _ (· + 2) (fun i c listed => ?_) 0 found
    simpa using listed
  · obtain ⟨whole, returned⟩ := compiles .full positions (by decide) (by decide)
    obtain ⟨_, -, -, groups⟩ := agrees .full positions whole returned
    obtain ⟨_, _, part, -, -, compiled, -, -, -, reports⟩ := groups 1 _ rfl
    exact ⟨whole, part, returned, compiled, reports⟩

end Souffle

end Clausal
