import Clausal.Graph
import Mathlib.Data.List.Basic
import Mathlib.Logic.Relation

/-!
# The search finds what is reachable

A search from a node finds exactly the nodes to which a path leads. It never leaves the reachable
nodes, everything seen leads only to what is seen or still waits in the frontier, and the steps
suffice because each node enters the frontier at most once.
-/

namespace Clausal

def Leads {α : Type} (edges : List (Edge α)) (x y : α) : Prop := ⟨x, y⟩ ∈ edges

abbrev PathFrom {α : Type} (edges : List (Edge α)) : α → α → Prop :=
  Relation.ReflTransGen (Leads edges)

/-- A property that fails where a weaker one holds counts strictly less. -/
theorem countP_lt_countP {α : Type} {p q : α → Bool} (weaker : ∀ x, p x = true → q x = true)
    {xs : List α} {x : α} (member : x ∈ xs) (holds : q x = true) (fails : p x = false) :
    xs.countP p < xs.countP q := by
  have sublist := List.monotone_filter_right xs weaker
  rw [List.countP_eq_length_filter, List.countP_eq_length_filter]
  refine Nat.lt_of_le_of_ne sublist.length_le fun same => ?_
  have inside : x ∈ xs.filter p := by
    rw [sublist.eq_of_length same]
    exact List.mem_filter.mpr ⟨member, holds⟩
  simp [List.mem_filter, fails] at inside

namespace Graph

variable {α : Type} [BEq α] [Hashable α] [LawfulBEq α]

theorem mem_successors (edges : List (Edge α)) (x y : α) :
    y ∈ (ofEdges edges).successors x ↔ Leads edges x y := by
  unfold Leads
  induction edges with
  | nil => simp [successors, ofEdges, targetsOf]
  | cons edge edges ih =>
    simp only [successors, ofEdges, targetsOf, List.foldr_cons, Std.HashMap.getD_insert] at ih ⊢
    by_cases same : edge.source = x
    · subst same
      have first : (⟨edge.source, y⟩ : Edge α) = edge ↔ y = edge.target := by
        cases edge
        simp
      rw [if_pos (by simp), List.mem_cons, ih, List.mem_cons, first]
    · have other : (⟨x, y⟩ : Edge α) ≠ edge := fun equal => same (equal ▸ rfl)
      rw [if_neg (by simp [same]), ih, List.mem_cons, or_iff_right other]

theorem mem_seen_fresh (seen : Std.HashSet α) (candidates : List α) (x : α) :
    x ∈ (fresh seen candidates).2 ↔ x ∈ seen ∨ x ∈ candidates := by
  induction candidates generalizing seen with
  | nil => simp [fresh]
  | cons node rest ih =>
    rw [fresh]
    split
    next known =>
      rw [ih, List.mem_cons]
      constructor
      · exact fun h => h.imp_right .inr
      · rintro (inSeen | rfl | inRest)
        · exact .inl inSeen
        · exact .inl (Std.HashSet.contains_iff_mem.mp known)
        · exact .inr inRest
    next =>
      rw [ih, Std.HashSet.mem_insert, List.mem_cons, beq_iff_eq]
      tauto

/-- Exactly the candidates that have not been seen are found. -/
theorem mem_found_fresh (seen : Std.HashSet α) (candidates : List α) (x : α) :
    x ∈ (fresh seen candidates).1 ↔ x ∈ candidates ∧ x ∉ seen := by
  induction candidates generalizing seen with
  | nil => simp [fresh]
  | cons node rest ih =>
    rw [fresh]
    split
    next known =>
      rw [Std.HashSet.contains_iff_mem] at known
      rw [ih, List.mem_cons]
      constructor
      · exact fun ⟨inRest, new⟩ => ⟨.inr inRest, new⟩
      · rintro ⟨rfl | inRest, new⟩
        · exact absurd known new
        · exact ⟨inRest, new⟩
    next unknown =>
      rw [Std.HashSet.contains_iff_mem] at unknown
      rw [List.mem_cons, ih, List.mem_cons, Std.HashSet.mem_insert, beq_iff_eq]
      constructor
      · rintro (rfl | ⟨inRest, new⟩)
        · exact ⟨.inl rfl, unknown⟩
        · exact ⟨.inr inRest, fun inSeen => new (.inr inSeen)⟩
      · rintro ⟨rfl | inRest, new⟩
        · exact .inl rfl
        -- A later copy of the node itself is not new any more.
        · by_cases same : x = node
          · exact .inl same
          · exact .inr ⟨inRest, fun h => h.elim (fun equal => same equal.symm) new⟩

def unseen (nodes : List α) (seen : Std.HashSet α) : Nat :=
  nodes.countP fun node => !seen.contains node

theorem unseen_insert_lt (nodes : List α) (seen : Std.HashSet α) (node : α) (member : node ∈ nodes)
    (new : node ∉ seen) : unseen nodes (seen.insert node) < unseen nodes seen := by
  apply countP_lt_countP _ member
  · rwa [Bool.not_eq_true', ← Bool.not_eq_true, Std.HashSet.contains_iff_mem]
  · simp
  · intro x still
    simp only [Std.HashSet.contains_insert, Bool.not_eq_true', Bool.or_eq_false_iff] at still ⊢
    exact still.2

/-- What is found is no longer unseen, so that the search ends. -/
theorem unseen_fresh (nodes : List α) (seen : Std.HashSet α) (candidates : List α)
    (included : candidates ⊆ nodes) :
    (fresh seen candidates).1.length + unseen nodes (fresh seen candidates).2 ≤
      unseen nodes seen := by
  induction candidates generalizing seen with
  | nil => simp [fresh]
  | cons node rest ih =>
    rw [List.cons_subset] at included
    rw [fresh]
    split
    · exact ih seen included.2
    next unknown =>
      rw [Std.HashSet.contains_iff_mem] at unknown
      -- What enters the frontier is paid for by what is no longer unseen.
      have fewer := unseen_insert_lt nodes seen node included.1 unknown
      have further := ih (seen.insert node) included.2
      simp only [List.length_cons]
      omega

/-- The state of a search: what has been seen is reachable, and leads to nothing new except where it
still waits in the frontier. -/
structure Searching (edges : List (Edge α)) (start : α) (frontier : List α) (seen : Std.HashSet α) :
    Prop where
  started : start ∈ seen
  pending : ∀ x ∈ frontier, x ∈ seen
  reached : ∀ x ∈ seen, PathFrom edges start x
  closed : ∀ x ∈ seen, x ∉ frontier → ∀ y, Leads edges x y → y ∈ seen

variable {edges : List (Edge α)} {start : α}

/-- Visiting a node keeps the state of the search. -/
theorem Searching.visit {node : α} {frontier : List α} {seen : Std.HashSet α}
    (state : Searching edges start (node :: frontier) seen) :
    Searching edges start ((fresh seen ((ofEdges edges).successors node)).1 ++ frontier)
      (fresh seen ((ofEdges edges).successors node)).2 where
  started := (mem_seen_fresh seen _ start).mpr (.inl state.started)
  pending := by
    intro x waits
    rw [mem_seen_fresh]
    rcases List.mem_append.mp waits with found | waited
    · exact .inr ((mem_found_fresh seen _ x).mp found).1
    · exact .inl (state.pending x (List.mem_cons_of_mem node waited))
  reached := by
    intro x found
    rcases (mem_seen_fresh seen _ x).mp found with inSeen | next
    · exact state.reached x inSeen
    · have path := state.reached node (state.pending node List.mem_cons_self)
      exact path.tail ((mem_successors edges node x).mp next)
  closed := by
    intro x found visited y edge
    rw [List.mem_append, not_or] at visited
    rw [mem_seen_fresh] at found ⊢
    -- What was just found waits in the frontier, so a visited node was seen before.
    have inSeen : x ∈ seen := by
      rcases found with inSeen | next
      · exact inSeen
      · by_contra new
        exact visited.1 ((mem_found_fresh seen _ x).mpr ⟨next, new⟩)
    -- The visited node leads to what was found, the others led to nothing new before.
    by_cases same : x = node
    · subst same
      exact .inr ((mem_successors edges x y).mpr edge)
    · have passed : x ∉ node :: frontier := by simp [same, visited.2]
      exact .inl (state.closed x inSeen passed y edge)

/-- With enough steps the search ends with an empty frontier. -/
theorem Searching.explore {steps : Nat} {frontier : List α} {seen : Std.HashSet α}
    (state : Searching edges start frontier seen)
    (enough : frontier.length + unseen (edges.map Edge.target) seen ≤ steps) :
    Searching edges start [] ((ofEdges edges).explore steps frontier seen) := by
  induction steps generalizing frontier seen with
  | zero =>
    have empty : frontier = [] := List.eq_nil_of_length_eq_zero (by omega)
    rw [Graph.explore]
    exact empty ▸ state
  | succ steps ih =>
    cases frontier with
    | nil => exact state
    | cons node frontier =>
      rw [Graph.explore]
      apply ih state.visit
      have targets : (ofEdges edges).successors node ⊆ edges.map Edge.target := by
        intro x next
        have edge := (mem_successors edges node x).mp next
        exact List.mem_map.mpr ⟨_, edge, rfl⟩
      -- A step takes one node from the frontier and adds no more than leaves the unseen ones.
      have fewer := unseen_fresh (edges.map Edge.target) seen _ targets
      rw [List.length_append]
      rw [List.length_cons] at enough
      omega

/-- The search answers whether a path leads from one node to another. -/
theorem reaches_iff (edges : List (Edge α)) (source target : α) :
    (ofEdges edges).reaches source target = true ↔ PathFrom edges source target := by
  have only (x : α) : x ∈ (Std.HashSet.emptyWithCapacity.insert source : Std.HashSet α) ↔
      source = x := by simp
  have initial : Searching edges source [source] (Std.HashSet.emptyWithCapacity.insert source) := by
    constructor
    · exact (only source).mpr rfl
    · simp
    · intro x found
      rw [(only x).mp found]
    · intro x found outside
      simp [(only x).mp found] at outside
  have final : Searching edges source [] ((ofEdges edges).reachable source) := by
    -- One step is for the start, and one for each target that has not been seen.
    apply initial.explore
    have bound : unseen (edges.map Edge.target) (Std.HashSet.emptyWithCapacity.insert source) ≤
        (edges.map Edge.target).length := List.countP_le_length
    rw [List.length_map] at bound
    simp only [List.length_singleton, ofEdges]
    omega
  unfold reaches
  rw [Std.HashSet.contains_iff_mem]
  constructor
  · exact final.reached target
  · intro path
    induction path with
    | refl => exact final.started
    | tail _ edge ih => exact final.closed _ ih List.not_mem_nil _ edge

end Graph

end Clausal
