import Clausal.Graph.Components
import Clausal.Proofs.Reachability

/-!
# The search finds the components

The search for components keeps a picture of the graph as far as it was entered. The nodes on the
stack lead to all later ones, and back to a node that is still being visited. No edge leaves the
complete components, and they are strongly connected. Visiting a node keeps all this, which is shown
edge by edge.

## Main results

`Components.together_iff`: two nodes are found to be in the same component exactly if paths lead
from each to the other.
-/

namespace Clausal

variable {α : Type} [BEq α] [Hashable α]

namespace ComponentSearch

def numberOf (search : ComponentSearch α) (x : α) : Nat := search.number.getD x 0

/-- What holds during a search while the nodes of `path` are being visited. -/
structure Tracks (edges : List (Edge α)) (path : List α) (search : ComponentSearch α) : Prop where
  rooted : ∀ x ∈ search.root, x ∈ search.number
  stacked : ∀ x, x ∈ search.stack ↔ x ∈ search.number ∧ x ∉ search.root
  ordered : search.stack.Pairwise fun x y => search.numberOf y < search.numberOf x
  numbered : ∀ x ∈ search.number, search.numberOf x < search.entered
  visited : ∀ x ∈ path, x ∈ search.stack
  /-- All edges of a node have been followed when its visit ends. -/
  explored : ∀ x ∈ search.number, x ∉ path → ∀ y, Leads edges x y → y ∈ search.number
  /-- What is on the stack leads to everything above it. -/
  forward : ∀ x ∈ search.stack, ∀ y ∈ search.stack, search.numberOf x ≤ search.numberOf y →
    PathFrom edges x y
  /-- What is on the stack leads back to a node that is still being visited. -/
  backward : ∀ y ∈ search.stack, ∃ x ∈ path, search.numberOf x ≤ search.numberOf y ∧
    PathFrom edges y x
  closed : ∀ x ∈ search.root, ∀ y, Leads edges x y → y ∈ search.root
  joined : ∀ x r, search.root[x]? = some r → PathFrom edges x r ∧ PathFrom edges r x
  whole : ∀ x r, search.root[x]? = some r → ∀ y, PathFrom edges x y → PathFrom edges y x →
    search.root[y]? = some r

/-- What a search keeps of an earlier state: entered nodes keep their numbers, and the stack only
grows by new nodes. -/
structure Extends (before after : ComponentSearch α) : Prop where
  known : ∀ x ∈ before.number, x ∈ after.number
  number : ∀ x ∈ before.number, after.numberOf x = before.numberOf x
  stack : ∃ new, after.stack = new ++ before.stack ∧ ∀ x ∈ new, x ∉ before.number

theorem Extends.refl (search : ComponentSearch α) : Extends search search where
  known := fun _ known => known
  number := fun _ _ => rfl
  stack := ⟨[], rfl, fun _ member => absurd member List.not_mem_nil⟩

theorem Extends.trans {a b c : ComponentSearch α} (first : Extends a b) (second : Extends b c) :
    Extends a c where
  known := fun x known => second.known x (first.known x known)
  number := fun x known => (second.number x (first.known x known)).trans (first.number x known)
  stack := by
    obtain ⟨new, longer, fresh⟩ := first.stack
    obtain ⟨newer, longest, fresher⟩ := second.stack
    refine ⟨newer ++ new, by rw [longest, longer, List.append_assoc], ?_⟩
    intro x member known
    rcases List.mem_append.mp member with late | early
    · exact fresher x late (first.known x known)
    · exact fresh x early known

theorem Extends.mem_stack {before after : ComponentSearch α} (grown : Extends before after)
    {x : α} (member : x ∈ before.stack) : x ∈ after.stack := by
  obtain ⟨new, longer, -⟩ := grown.stack
  rw [longer]
  exact List.mem_append_right new member

/-- What was on the stack before is what is there and had been entered before. -/
theorem Extends.mem_stack_of_known {before after : ComponentSearch α}
    (grown : Extends before after) {x : α} (member : x ∈ after.stack)
    (known : x ∈ before.number) : x ∈ before.stack := by
  obtain ⟨new, longer, fresh⟩ := grown.stack
  rw [longer] at member
  rcases List.mem_append.mp member with late | early
  · exact absurd known (fresh x late)
  · exact early

/-- Whether a node is on the stack above what was there before. -/
abbrev Above (before after : ComponentSearch α) (x : α) : Prop :=
  x ∈ after.stack ∧ x ∉ before.number

/-- How many nodes of a list have not been entered. -/
def remaining (nodes : List α) (search : ComponentSearch α) : Nat :=
  nodes.countP fun node => !search.number.contains node

theorem Extends.remaining_le {before after : ComponentSearch α} (grown : Extends before after)
    (nodes : List α) : remaining nodes after ≤ remaining nodes before := by
  apply List.countP_mono_left
  intro x _ new
  rw [Bool.not_eq_true', ← Bool.not_eq_true, Std.HashMap.contains_iff_mem] at new ⊢
  exact fun known => new (grown.known x known)

/-- What a visit of a node does. It gives the least number of a node on the stack to which an edge
leads from the nodes above, if that is lower than the number of the node itself. -/
structure Visited (edges : List (Edge α)) (path : List α) (before : ComponentSearch α) (node : α)
    (result : Nat × ComponentSearch α) : Prop where
  tracks : Tracks edges path result.2
  grown : Extends before result.2
  entered : node ∈ result.2.number
  atMost : result.1 ≤ before.entered
  least : result.1 < before.entered →
    ∃ y ∈ result.2.stack, result.2.numberOf y = result.1 ∧ PathFrom edges node y
  bounded : ∀ x, Above before result.2 x → ∀ y ∈ before.stack, Leads edges x y →
    result.1 ≤ before.numberOf y

/-- The state of a visit to a new node after some of its edges have been followed. -/
structure Following (edges : List (Edge α)) (path : List α) (before : ComponentSearch α) (node : α)
    (followed : List α) (state : Nat × ComponentSearch α) : Prop where
  started : Tracks edges path before
  new : node ∉ before.number
  tracks : Tracks edges (node :: path) state.2
  grown : Extends (before.enter node) state.2
  atMost : state.1 ≤ before.entered
  least : ∃ y ∈ state.2.stack, state.2.numberOf y = state.1 ∧ PathFrom edges node y
  entered : ∀ y ∈ followed, y ∈ state.2.number
  bounded : ∀ x, Above before state.2 x → x ≠ node → ∀ y ∈ before.stack, Leads edges x y →
    state.1 ≤ before.numberOf y
  boundedOwn : ∀ y ∈ followed, y ∈ before.stack → state.1 ≤ before.numberOf y

variable {edges : List (Edge α)} {path followed : List α} {search before : ComponentSearch α}
  {node next : α} {state : Nat × ComponentSearch α}

/-- When no node is being visited, all components are complete. -/
theorem Tracks.mem_root (tracks : Tracks edges [] search) {x : α} (known : x ∈ search.number) :
    x ∈ search.root := by
  by_contra isOpen
  obtain ⟨_, inPath, -⟩ := tracks.backward x ((tracks.stacked x).mpr ⟨known, isOpen⟩)
  exact absurd inPath List.not_mem_nil

/-- A completed component is closed: no path leads from it to a node that has no component yet. -/
theorem Tracks.closed_path (tracks : Tracks edges path search) {x y : α} (rooted : x ∈ search.root)
    (reached : PathFrom edges x y) : y ∈ search.root := by
  induction reached with
  | refl => exact rooted
  | tail _ edge ih => exact tracks.closed _ ih _ edge

namespace Following

theorem known_of_stack (following : Following edges path before node followed state) {x : α}
    (member : x ∈ before.stack) : x ∈ before.number :=
  ((following.started.stacked x).mp member).1

/-- After all edges of a node have been followed, what it leads to has been entered. -/
theorem explored (following : Following edges path before node followed state)
    (all : ∀ y, Leads edges node y → y ∈ followed) :
    ∀ x ∈ state.2.number, x ∉ path → ∀ y, Leads edges x y → y ∈ state.2.number := by
  intro x known outside y edge
  by_cases same : x = node
  · subst same
    exact following.entered y (all y edge)
  · have notVisited : x ∉ node :: path := by simp [same, outside]
    exact following.tracks.explored x known notVisited y edge

/-- The least number bounds what the nodes above lead to on the old stack. -/
theorem bounded_all (following : Following edges path before node followed state)
    (all : ∀ y, Leads edges node y → y ∈ followed) :
    ∀ x, Above before state.2 x → ∀ y ∈ before.stack, Leads edges x y →
      state.1 ≤ before.numberOf y := by
  intro x above y early edge
  by_cases same : x = node
  · subst same
    exact following.boundedOwn y (all y edge) early
  · exact following.bounded x above same y early edge

end Following

variable [LawfulBEq α]

/-! ### Entering a node -/

theorem mem_number_enter (x : α) :
    x ∈ (search.enter node).number ↔ node = x ∨ x ∈ search.number := by
  simp [enter, Std.HashMap.mem_insert]

theorem numberOf_enter_self : (search.enter node).numberOf node = search.entered := by
  simp [enter, numberOf]

theorem numberOf_enter {x : α} (different : node ≠ x) :
    (search.enter node).numberOf x = search.numberOf x := by
  simp [enter, numberOf, Std.HashMap.getD_insert, different]

theorem Extends.enter (new : node ∉ search.number) : Extends search (search.enter node) where
  known := fun x known => (mem_number_enter x).mpr (.inr known)
  number := by
    intro x known
    apply numberOf_enter
    rintro rfl
    exact new known
  stack := ⟨[node], rfl, List.forall_mem_singleton.mpr new⟩

/-- Entering a node puts it on the path, and the invariant goes on to hold. -/
theorem Tracks.enter (tracks : Tracks edges path search) (new : node ∉ search.number)
    (reached : ∀ x ∈ path, PathFrom edges x node) :
    Tracks edges (node :: path) (search.enter node) := by
  have grown := Extends.enter new
  have notRooted : node ∉ search.root := fun rooted => new (tracks.rooted node rooted)
  have onStack (x : α) (member : x ∈ search.stack) : x ∈ search.number :=
    ((tracks.stacked x).mp member).1
  have kept (x : α) (member : x ∈ search.stack) :
      (search.enter node).numberOf x = search.numberOf x := grown.number x (onStack x member)
  have less (x : α) (member : x ∈ search.stack) :
      (search.enter node).numberOf x < (search.enter node).numberOf node := by
    rw [kept x member, numberOf_enter_self]
    exact tracks.numbered x (onStack x member)
  -- Everything on the stack leads to a node of the path, and from there to the new node.
  have leads (x : α) (member : x ∈ search.stack) : PathFrom edges x node := by
    obtain ⟨y, inPath, -, back⟩ := tracks.backward x member
    exact back.trans (reached y inPath)
  constructor
  case rooted => exact fun x rooted => grown.known x (tracks.rooted x rooted)
  case stacked =>
    intro x
    show x ∈ node :: search.stack ↔ _ ∧ x ∉ search.root
    rw [List.mem_cons, mem_number_enter, tracks.stacked]
    constructor
    · rintro (rfl | ⟨known, open_⟩)
      · exact ⟨.inl rfl, notRooted⟩
      · exact ⟨.inr known, open_⟩
    · rintro ⟨rfl | known, open_⟩
      · exact .inl rfl
      · exact .inr ⟨known, open_⟩
  case ordered =>
    refine List.pairwise_cons.mpr ⟨less, ?_⟩
    refine tracks.ordered.imp_of_mem fun first second ordered => ?_
    rw [kept _ first, kept _ second]
    exact ordered
  case numbered =>
    intro x known
    rcases (mem_number_enter x).mp known with rfl | old
    · rw [numberOf_enter_self]
      exact Nat.lt_succ_self _
    · rw [grown.number x old]
      exact Nat.lt_succ_of_lt (tracks.numbered x old)
  case visited =>
    rw [List.forall_mem_cons]
    exact ⟨List.mem_cons_self, fun x inPath => List.mem_cons_of_mem _ (tracks.visited x inPath)⟩
  case explored =>
    intro x known outside y edge
    rw [List.mem_cons, not_or] at outside
    rcases (mem_number_enter x).mp known with rfl | old
    · exact absurd rfl outside.1
    · exact grown.known y (tracks.explored x old outside.2 y edge)
  case forward =>
    intro x first y second ordered
    rcases List.mem_cons.mp first with rfl | older
    · rcases List.mem_cons.mp second with rfl | member
      · exact .refl
      · exact absurd ordered (Nat.not_le.mpr (less y member))
    · rcases List.mem_cons.mp second with rfl | member
      · exact leads x older
      · rw [kept x older, kept y member] at ordered
        exact tracks.forward x older y member ordered
  case backward =>
    intro y member
    rcases List.mem_cons.mp member with rfl | member
    · exact ⟨y, List.mem_cons_self, Nat.le_refl _, .refl⟩
    · obtain ⟨x, inPath, ordered, back⟩ := tracks.backward y member
      refine ⟨x, List.mem_cons_of_mem _ inPath, ?_, back⟩
      rw [kept x (tracks.visited x inPath), kept y member]
      exact ordered
  case closed => exact tracks.closed
  case joined => exact tracks.joined
  case whole => exact tracks.whole

theorem Following.start (tracks : Tracks edges path before) (new : node ∉ before.number)
    (reached : ∀ x ∈ path, PathFrom edges x node) :
    Following edges path before node [] (before.entered, before.enter node) where
  started := tracks
  new := new
  tracks := tracks.enter new reached
  grown := .refl _
  atMost := Nat.le_refl _
  least := ⟨node, List.mem_cons_self, numberOf_enter_self, .refl⟩
  entered := fun _ member => absurd member List.not_mem_nil
  bounded := by
    intro x above different
    rcases List.mem_cons.mp above.1 with rfl | old
    · exact absurd rfl different
    · exact absurd ((tracks.stacked x).mp old).1 above.2
  boundedOwn := fun _ member => absurd member List.not_mem_nil

/-! ### Following an edge -/

namespace Following

theorem grown_before (following : Following edges path before node followed state) :
    Extends before state.2 :=
  (Extends.enter following.new).trans following.grown

theorem number_node (following : Following edges path before node followed state) :
    node ∈ state.2.number ∧ state.2.numberOf node = before.entered := by
  have known : node ∈ (before.enter node).number := (mem_number_enter node).mpr (.inl rfl)
  exact ⟨following.grown.known node known,
    (following.grown.number node known).trans numberOf_enter_self⟩

theorem entered_lt (following : Following edges path before node followed state) :
    before.entered < state.2.entered := by
  obtain ⟨known, number⟩ := following.number_node
  rw [← number]
  exact following.tracks.numbered node known

/-- Following an edge to a new node, which is visited. -/
theorem follow_new (following : Following edges path before node followed state)
    (edge : Leads edges node next) (unknown : next ∉ state.2.number)
    {result : Nat × ComponentSearch α}
    (visited : Visited edges (node :: path) state.2 next result) :
    Following edges path before node (next :: followed) (min state.1 result.1, result.2) := by
  refine { following with
    tracks := visited.tracks
    grown := following.grown.trans visited.grown
    atMost := Nat.le_trans (Nat.min_le_left _ _) following.atMost
    least := ?_, entered := ?_, bounded := ?_, boundedOwn := ?_ }
  · by_cases lower : result.1 < state.1
    · rw [Nat.min_eq_right (Nat.le_of_lt lower)]
      -- A lower number than that of the visited node itself belongs to a node on the stack.
      have below : result.1 < state.2.entered := by
        have atMost := following.atMost
        have entered := following.entered_lt
        omega
      obtain ⟨y, member, number, reached⟩ := visited.least below
      exact ⟨y, member, number, reached.head edge⟩
    · rw [Nat.min_eq_left (Nat.le_of_not_lt lower)]
      obtain ⟨y, member, number, reached⟩ := following.least
      have known := ((following.tracks.stacked y).mp member).1
      exact ⟨y, visited.grown.mem_stack member, (visited.grown.number y known).trans number,
        reached⟩
  · rw [List.forall_mem_cons]
    exact ⟨visited.entered, fun y member => visited.grown.known y (following.entered y member)⟩
  · intro x above different y early leads
    by_cases known : x ∈ state.2.number
    · have older := visited.grown.mem_stack_of_known above.1 known
      exact Nat.le_trans (Nat.min_le_left _ _)
        (following.bounded x ⟨older, above.2⟩ different y early leads)
    · have bound :=
        visited.bounded x ⟨above.1, known⟩ y (following.grown_before.mem_stack early) leads
      rw [following.grown_before.number y (following.known_of_stack early)] at bound
      exact Nat.le_trans (Nat.min_le_right _ _) bound
  · rw [List.forall_mem_cons]
    constructor
    · intro early
      exact absurd (following.grown_before.known next (following.known_of_stack early)) unknown
    · exact fun y member early =>
        Nat.le_trans (Nat.min_le_left _ _) (following.boundedOwn y member early)

/-- Following an edge to a node of a complete component changes nothing. -/
theorem follow_rooted (following : Following edges path before node followed state)
    (rooted : next ∈ state.2.root) :
    Following edges path before node (next :: followed) state := by
  refine { following with entered := ?_, boundedOwn := ?_ }
  · rw [List.forall_mem_cons]
    exact ⟨following.tracks.rooted next rooted, following.entered⟩
  · rw [List.forall_mem_cons]
    refine ⟨fun early => ?_, following.boundedOwn⟩
    have member := following.grown_before.mem_stack early
    exact absurd rooted ((following.tracks.stacked next).mp member).2

/-- Following an edge to a node on the stack takes its number into account. -/
theorem follow_stacked (following : Following edges path before node followed state)
    (edge : Leads edges node next) (member : next ∈ state.2.stack) :
    Following edges path before node (next :: followed)
      (min state.1 (state.2.numberOf next), state.2) := by
  refine { following with
    atMost := Nat.le_trans (Nat.min_le_left _ _) following.atMost
    least := ?_, entered := ?_, bounded := ?_, boundedOwn := ?_ }
  · by_cases lower : state.2.numberOf next < state.1
    · rw [Nat.min_eq_right (Nat.le_of_lt lower)]
      exact ⟨next, member, rfl, .single edge⟩
    · rw [Nat.min_eq_left (Nat.le_of_not_lt lower)]
      exact following.least
  · rw [List.forall_mem_cons]
    exact ⟨((following.tracks.stacked next).mp member).1, following.entered⟩
  · intro x above different y early leads
    exact Nat.le_trans (Nat.min_le_left _ _)
      (following.bounded x above different y early leads)
  · rw [List.forall_mem_cons]
    constructor
    · intro early
      rw [← following.grown_before.number next (following.known_of_stack early)]
      exact Nat.min_le_right _ _
    · exact fun y inside early =>
        Nat.le_trans (Nat.min_le_left _ _) (following.boundedOwn y inside early)

/-- One more edge is followed, whether its target is new, on the stack or in a component. -/
theorem follow (following : Following edges path before node followed state)
    (edge : Leads edges node next) (visit : ComponentSearch α → α → Nat × ComponentSearch α)
    (visits : next ∉ state.2.number →
      Visited edges (node :: path) state.2 next (visit state.2 next)) :
    Following edges path before node (next :: followed) (follow visit state next) := by
  unfold ComponentSearch.follow
  split
  next unknown =>
    have unknown : next ∉ state.2.number := by
      rw [Std.HashMap.mem_iff_isSome_getElem?, unknown]
      exact Bool.false_ne_true
    exact following.follow_new edge unknown (visits unknown)
  next number found =>
    have known : next ∈ state.2.number := by
      rw [Std.HashMap.mem_iff_isSome_getElem?, found]
      rfl
    have numberOf : state.2.numberOf next = number := by
      rw [ComponentSearch.numberOf, Std.HashMap.getD_eq_getD_getElem?, found, Option.getD_some]
    split
    next rooted => exact following.follow_rooted (Std.HashMap.contains_iff_mem.mp rooted)
    next isOpen =>
      rw [Std.HashMap.contains_iff_mem] at isOpen
      rw [← numberOf]
      exact following.follow_stacked edge ((following.tracks.stacked next).mpr ⟨known, isOpen⟩)

end Following

/-! ### Completing a component -/

/-- Taking a component empties the stack down to its root, and gives the root to each node on the
way and to no other. -/
theorem takeComponent_eq (root : α) (above rest : List α) (roots : Std.HashMap α α)
    (outside : root ∉ above) :
    ∃ more, takeComponent root (above ++ root :: rest) roots = (rest, more) ∧
      ∀ x, (x ∈ above ++ [root] → more[x]? = some root) ∧
        (x ∉ above ++ [root] → more[x]? = roots[x]?) := by
  induction above generalizing roots with
  | nil =>
    refine ⟨roots.insert root root, by simp [takeComponent], fun x => ⟨?_, ?_⟩⟩
    · intro member
      obtain rfl := List.mem_singleton.mp member
      exact Std.HashMap.getElem?_insert_self
    · intro unrelated
      have different : (root == x) = false :=
        beq_eq_false_iff_ne.mpr fun equal => unrelated (List.mem_singleton.mpr equal.symm)
      rw [Std.HashMap.getElem?_insert, different]
      rfl
  | cons node above ih =>
    rw [List.mem_cons, not_or] at outside
    have different : (node == root) = false :=
      beq_eq_false_iff_ne.mpr fun equal => outside.1 equal.symm
    obtain ⟨more, taken, found⟩ := ih (roots.insert node root) outside.2
    refine ⟨more, ?_, fun x => ⟨?_, ?_⟩⟩
    · rw [List.cons_append, takeComponent, different]
      exact taken
    · intro member
      by_cases later : x ∈ above ++ [root]
      · exact (found x).1 later
      · -- The node may not occur again, so that it keeps this root.
        obtain rfl : x = node := (List.mem_cons.mp member).resolve_right later
        rw [(found x).2 later]
        exact Std.HashMap.getElem?_insert_self
    · intro unrelated
      rw [List.cons_append, List.mem_cons, not_or] at unrelated
      have other : (node == x) = false :=
        beq_eq_false_iff_ne.mpr fun equal => unrelated.1 equal.symm
      rw [(found x).2 unrelated.2, Std.HashMap.getElem?_insert, other]
      rfl

namespace Following

/-- If a node leads to an earlier one on the stack, its component is still open after the visit. -/
theorem keep (following : Following edges path before node followed state)
    (all : ∀ y, Leads edges node y → y ∈ followed) (lower : state.1 < before.entered) :
    Visited edges path before node state := by
  have tracks : Tracks edges path state.2 := by
    refine { following.tracks with
      visited := ?_, explored := following.explored all, backward := ?_ }
    · exact fun x inPath => following.tracks.visited x (List.mem_cons_of_mem _ inPath)
    · intro y member
      obtain ⟨x, inPath, ordered, back⟩ := following.tracks.backward y member
      rcases List.mem_cons.mp inPath with rfl | earlier
      · -- What leads back to the node leads on to an earlier one that is still being visited.
        obtain ⟨z, stacked, number, reached⟩ := following.least
        obtain ⟨w, visited, below, further⟩ := following.tracks.backward z stacked
        have own := following.number_node.2
        have different : w ≠ x := by
          rintro rfl
          omega
        refine ⟨w, (List.mem_cons.mp visited).resolve_left different, by omega, ?_⟩
        exact back.trans (reached.trans further)
      · exact ⟨x, earlier, ordered, back⟩
  exact
    { tracks
      grown := following.grown_before
      entered := following.number_node.1
      atMost := following.atMost
      least := fun _ => following.least
      bounded := following.bounded_all all }

/-- The stack after a visit: what was entered since lies above, and the node below it. -/
theorem stack_eq (following : Following edges path before node followed state) :
    ∃ above, state.2.stack = above ++ node :: before.stack ∧ node ∉ above ∧
      ∀ x, x ∈ above ++ [node] ↔ Above before state.2 x := by
  obtain ⟨above, longer, fresh⟩ := following.grown.stack
  refine ⟨above, longer, fun member => ?_, fun x => ?_⟩
  · exact fresh node member ((mem_number_enter node).mpr (.inl rfl))
  · have split : state.2.stack = (above ++ [node]) ++ before.stack := by
      rw [longer, List.append_assoc]
      rfl
    constructor
    · intro member
      refine ⟨split ▸ List.mem_append_left _ member, fun known => ?_⟩
      rcases List.mem_append.mp member with above | last
      · exact fresh x above ((mem_number_enter x).mpr (.inr known))
      · exact following.new (List.mem_singleton.mp last ▸ known)
    · rintro ⟨member, isNew⟩
      rw [split] at member
      exact (List.mem_append.mp member).resolve_right fun early =>
        isNew (following.known_of_stack early)

/-- No edge leaves a component that is complete, except to other complete ones. -/
theorem component_closed (following : Following edges path before node followed state)
    (all : ∀ y, Leads edges node y → y ∈ followed) (own : state.1 = before.entered) {x y : α}
    (above : Above before state.2 x) (edge : Leads edges x y) :
    y ∈ state.2.root ∨ Above before state.2 y := by
  have outside : x ∉ path := fun inPath =>
    above.2 (following.known_of_stack (following.started.visited x inPath))
  have known := ((following.tracks.stacked x).mp above.1).1
  have entered := following.explored all x known outside y edge
  by_cases rooted : y ∈ state.2.root
  · exact .inl rooted
  · have stacked := (following.tracks.stacked y).mpr ⟨entered, rooted⟩
    refine .inr ⟨stacked, fun early => ?_⟩
    -- An edge to an older node on the stack would have given a lower number.
    have older := following.grown_before.mem_stack_of_known stacked early
    have bound := following.bounded_all all x above y older edge
    have below := following.started.numbered y early
    omega

/-- From a component that is complete in itself, paths lead to completed components or stay
inside. -/
theorem component_reaches (following : Following edges path before node followed state)
    (all : ∀ y, Leads edges node y → y ∈ followed) (own : state.1 = before.entered) {x y : α}
    (above : Above before state.2 x) (reached : PathFrom edges x y) :
    y ∈ state.2.root ∨ Above before state.2 y := by
  induction reached with
  | refl => exact .inr above
  | tail _ edge ih =>
    rcases ih with rooted | above
    · exact .inl (following.tracks.closed _ rooted _ edge)
    · exact following.component_closed all own above edge

/-- The nodes of a component lead to its root. -/
theorem component_back (following : Following edges path before node followed state)
    (all : ∀ y, Leads edges node y → y ∈ followed) (own : state.1 = before.entered) {x : α}
    (above : Above before state.2 x) : PathFrom edges x node := by
  obtain ⟨y, inPath, -, back⟩ := following.tracks.backward x above.1
  rcases List.mem_cons.mp inPath with rfl | earlier
  · exact back
  · -- A path to an earlier node would leave the component.
    have older := following.started.visited y earlier
    have stacked := following.grown_before.mem_stack older
    rcases following.component_reaches all own above back with rooted | inside
    · exact absurd rooted ((following.tracks.stacked y).mp stacked).2
    · exact absurd (following.known_of_stack older) inside.2

/-- The root of a component leads to its nodes. -/
theorem component_forward (following : Following edges path before node followed state) {x : α}
    (above : Above before state.2 x) : PathFrom edges node x := by
  obtain ⟨later, longer, -, component⟩ := following.stack_eq
  have ordered := following.tracks.ordered
  rw [longer, List.pairwise_append] at ordered
  apply following.tracks.forward node _ x above.1
  · rcases List.mem_append.mp ((component x).mpr above) with inside | last
    · exact Nat.le_of_lt (ordered.2.2 x inside node List.mem_cons_self)
    · exact Nat.le_of_eq (congrArg state.2.numberOf (List.mem_singleton.mp last).symm)
  · exact following.tracks.visited node List.mem_cons_self

/-- What completing the component of a node does: its nodes leave the stack and get the node as
their root. -/
theorem complete_eq (following : Following edges path before node followed state) :
    ∃ more, state.2.complete node = { state.2 with stack := before.stack, root := more } ∧
      ∀ x, (Above before state.2 x → more[x]? = some node) ∧
        (¬ Above before state.2 x → more[x]? = state.2.root[x]?) := by
  obtain ⟨above, longer, outside, component⟩ := following.stack_eq
  obtain ⟨more, taken, found⟩ := takeComponent_eq node above before.stack state.2.root outside
  refine ⟨more, ?_, fun x => ?_⟩
  · rw [ComponentSearch.complete, longer, taken]
  · rw [← component x]
    exact found x

/-- The picture of the graph after the component of a node has been completed. -/
theorem tracks_complete (following : Following edges path before node followed state)
    (all : ∀ y, Leads edges node y → y ∈ followed) (own : state.1 = before.entered)
    (more : Std.HashMap α α)
    (found : ∀ x, (Above before state.2 x → more[x]? = some node) ∧
      (¬ Above before state.2 x → more[x]? = state.2.root[x]?)) :
    Tracks edges path { state.2 with stack := before.stack, root := more } := by
  have tracks := following.tracks
  have grown := following.grown_before
  have mem_more (x : α) : x ∈ more ↔ x ∈ state.2.root ∨ Above before state.2 x := by
    rw [Std.HashMap.mem_iff_isSome_getElem?, Std.HashMap.mem_iff_isSome_getElem?]
    by_cases above : Above before state.2 x
    · rw [(found x).1 above]
      exact iff_of_true rfl (.inr above)
    · rw [(found x).2 above, or_iff_left above]
  constructor
  case rooted =>
    intro x rooted
    rcases (mem_more x).mp rooted with old | above
    · exact tracks.rooted x old
    · exact ((tracks.stacked x).mp above.1).1
  case stacked =>
    intro x
    show x ∈ before.stack ↔ x ∈ state.2.number ∧ x ∉ more
    rw [mem_more, not_or]
    constructor
    · intro early
      have stacked := (tracks.stacked x).mp (grown.mem_stack early)
      exact ⟨stacked.1, stacked.2, fun above => above.2 (following.known_of_stack early)⟩
    · rintro ⟨known, isOpen, outside⟩
      have stacked := (tracks.stacked x).mpr ⟨known, isOpen⟩
      by_contra late
      exact outside ⟨stacked, fun early => late (grown.mem_stack_of_known stacked early)⟩
  case ordered =>
    obtain ⟨above, longer, -⟩ := grown.stack
    have ordered := tracks.ordered
    rw [longer] at ordered
    exact (List.pairwise_append.mp ordered).2.1
  case numbered => exact tracks.numbered
  case visited => exact following.started.visited
  case explored => exact following.explored all
  case forward =>
    intro x first y second
    exact tracks.forward x (grown.mem_stack first) y (grown.mem_stack second)
  case backward =>
    intro y early
    obtain ⟨x, inPath, ordered, back⟩ := following.started.backward y early
    have known := following.known_of_stack (following.started.visited x inPath)
    refine ⟨x, inPath, ?_, back⟩
    show state.2.numberOf x ≤ state.2.numberOf y
    rw [grown.number x known, grown.number y (following.known_of_stack early)]
    exact ordered
  case closed =>
    intro x rooted y edge
    rw [mem_more] at rooted ⊢
    rcases rooted with old | above
    · exact .inl (tracks.closed x old y edge)
    · exact following.component_closed all own above edge
  case joined =>
    intro x r root
    by_cases above : Above before state.2 x
    · obtain rfl := Option.some.inj (((found x).1 above).symm.trans root)
      exact ⟨following.component_back all own above, following.component_forward above⟩
    · exact tracks.joined x r (((found x).2 above).symm.trans root)
  case whole =>
    intro x r root y reached back
    by_cases above : Above before state.2 x
    · obtain rfl := Option.some.inj (((found x).1 above).symm.trans root)
      -- A component that was complete before would contain both nodes.
      rcases following.component_reaches all own above reached with old | inside
      · exact absurd (tracks.closed_path old back) ((tracks.stacked x).mp above.1).2
      · exact (found y).1 inside
    · have old := tracks.whole x r (((found x).2 above).symm.trans root) y reached back
      have rooted : y ∈ state.2.root := by
        rw [Std.HashMap.mem_iff_isSome_getElem?, old]
        rfl
      refine ((found y).2 fun inside => ?_).trans old
      exact ((tracks.stacked y).mp inside.1).2 rooted

/-- If a node leads to no earlier one on the stack, its component is complete after the visit. -/
theorem complete (following : Following edges path before node followed state)
    (all : ∀ y, Leads edges node y → y ∈ followed) (own : state.1 = before.entered) :
    Visited edges path before node (state.1, state.2.complete node) := by
  obtain ⟨more, completed, found⟩ := following.complete_eq
  have grown := following.grown_before
  rw [completed]
  exact
    { tracks := following.tracks_complete all own more found
      grown := ⟨grown.known, grown.number, [], rfl, fun _ member => absurd member List.not_mem_nil⟩
      entered := following.number_node.1
      atMost := following.atMost
      least := fun lower => absurd own (Nat.ne_of_lt lower)
      bounded := fun x above => absurd (following.known_of_stack above.1) above.2 }

end Following

/-! ### Visiting a node -/

/-- Entering a new node leaves one less to enter, which bounds the depth of the search. -/
theorem remaining_enter_lt {nodes : List α} (member : node ∈ nodes) (new : node ∉ search.number) :
    remaining nodes (search.enter node) < remaining nodes search := by
  apply countP_lt_countP _ member
  · rwa [Bool.not_eq_true', ← Bool.not_eq_true, Std.HashMap.contains_iff_mem]
  · rw [Bool.not_eq_false', Std.HashMap.contains_iff_mem, mem_number_enter]
    exact .inl rfl
  · intro x new
    rw [Bool.not_eq_true', ← Bool.not_eq_true, Std.HashMap.contains_iff_mem] at new ⊢
    exact fun known => new ((mem_number_enter x).mpr (.inr known))

theorem Following.foldl (following : Following edges path before node followed state)
    (visit : ComponentSearch α → α → Nat × ComponentSearch α) (nexts : List α)
    (leads : ∀ y ∈ nexts, Leads edges node y)
    (visits : ∀ search next, Tracks edges (node :: path) search →
      Extends (before.enter node) search → Leads edges node next → next ∉ search.number →
        Visited edges (node :: path) search next (visit search next)) :
    Following edges path before node (nexts.reverse ++ followed)
      (nexts.foldl (ComponentSearch.follow visit) state) := by
  induction nexts generalizing followed state with
  | nil => exact following
  | cons next nexts ih =>
    rw [List.forall_mem_cons] at leads
    have step := following.follow leads.1 visit
      (visits state.2 next following.tracks following.grown leads.1)
    rw [List.reverse_cons, List.append_assoc]
    exact ih step leads.2

/-- A visit does what it should if its depth is not bounded too early. -/
theorem visit_visited (nodes : List α) (targets : ∀ x y, Leads edges x y → y ∈ nodes) (depth : Nat)
    (tracks : Tracks edges path search) (new : node ∉ search.number)
    (reached : ∀ x ∈ path, PathFrom edges x node) (member : node ∈ nodes)
    (enough : remaining nodes search ≤ depth) :
    Visited edges path search node (visit (.ofEdges edges) depth search node) := by
  induction depth generalizing path search node with
  | zero =>
    have fewer := remaining_enter_lt member new
    omega
  | succ depth ih =>
    have fewer := remaining_enter_lt member new
    have following := (Following.start tracks new reached).foldl
      (visit (.ofEdges edges) depth) ((Graph.ofEdges edges).successors node)
      (fun y next => (Graph.mem_successors edges node y).mp next)
      fun later next laterTracks grown edge unknown => by
        refine ih laterTracks unknown ?_ (targets node next edge) ?_
        · rw [List.forall_mem_cons]
          exact ⟨.single edge, fun x inPath => (reached x inPath).tail edge⟩
        · have same := grown.remaining_le nodes
          omega
    have all (y : α) (edge : Leads edges node y) :
        y ∈ ((Graph.ofEdges edges).successors node).reverse ++ [] := by
      rw [List.append_nil, List.mem_reverse, Graph.mem_successors]
      exact edge
    rw [visit]
    dsimp only
    split
    next own => exact following.complete all own
    next lower => exact following.keep all (Nat.lt_of_le_of_ne following.atMost lower)

theorem tracks_empty (edges : List (Edge α)) : Tracks edges [] (empty : ComponentSearch α) where
  rooted := fun _ rooted => absurd rooted Std.HashMap.not_mem_empty
  stacked := fun _ => ⟨fun member => absurd member List.not_mem_nil,
    fun known => absurd known.1 Std.HashMap.not_mem_empty⟩
  ordered := .nil
  numbered := fun _ known => absurd known Std.HashMap.not_mem_empty
  visited := fun _ member => absurd member List.not_mem_nil
  explored := fun _ known => absurd known Std.HashMap.not_mem_empty
  forward := fun _ member => absurd member List.not_mem_nil
  backward := fun _ member => absurd member List.not_mem_nil
  closed := fun _ rooted => absurd rooted Std.HashMap.not_mem_empty
  joined := by simp [empty]
  whole := by simp [empty]

/-- Visiting nodes one after another enters all of them. -/
theorem foldl_visitNew (nodes : List α) (targets : ∀ x y, Leads edges x y → y ∈ nodes)
    (starts : List α) (included : starts ⊆ nodes) (tracks : Tracks edges [] search) :
    let final := starts.foldl (visitNew (.ofEdges edges) nodes.length) search
    Tracks edges [] final ∧ (∀ x ∈ search.number, x ∈ final.number) ∧
      ∀ x ∈ starts, x ∈ final.number := by
  induction starts generalizing search with
  | nil => exact ⟨tracks, fun _ known => known, fun _ member => absurd member List.not_mem_nil⟩
  | cons node starts ih =>
    rw [List.cons_subset] at included
    have step : Tracks edges [] (visitNew (.ofEdges edges) nodes.length search node) ∧
        (∀ x ∈ search.number, x ∈ (visitNew (.ofEdges edges) nodes.length search node).number) ∧
        node ∈ (visitNew (.ofEdges edges) nodes.length search node).number := by
      unfold visitNew
      split
      next known =>
        exact ⟨tracks, fun _ known => known, Std.HashMap.contains_iff_mem.mp known⟩
      next unknown =>
        rw [Std.HashMap.contains_iff_mem] at unknown
        have visited := visit_visited nodes targets nodes.length tracks unknown
          (fun _ member => absurd member List.not_mem_nil) included.1 List.countP_le_length
        exact ⟨visited.tracks, visited.grown.known, visited.entered⟩
    obtain ⟨final, known, entered⟩ := ih included.2 step.1
    refine ⟨final, fun x old => known x (step.2.1 x old), ?_⟩
    rw [List.forall_mem_cons]
    exact ⟨known node step.2.2, entered⟩

end ComponentSearch

namespace Components

variable [LawfulBEq α] (edges : List (Edge α))

/-- The search has completed all components at its end. -/
theorem tracks_ofEdges : ∃ search : ComponentSearch α, (ofEdges edges).root = search.root ∧
    ComponentSearch.Tracks edges [] search ∧ ∀ x y, Leads edges x y → x ∈ search.root := by
  let nodes := edges.flatMap fun edge => [edge.source, edge.target]
  have isNode (x y : α) (edge : Leads edges x y) : x ∈ nodes ∧ y ∈ nodes := by
    constructor
    · exact List.mem_flatMap.mpr ⟨_, edge, List.mem_cons_self⟩
    · exact List.mem_flatMap.mpr ⟨_, edge, List.mem_cons_of_mem _ List.mem_cons_self⟩
  obtain ⟨tracks, -, entered⟩ := ComponentSearch.foldl_visitNew nodes
    (fun x y edge => (isNode x y edge).2) nodes (List.Subset.refl nodes)
    (ComponentSearch.tracks_empty edges)
  exact ⟨_, rfl, tracks, fun x y edge => tracks.mem_root (entered x (isNode x y edge).1)⟩

/-- A node and the root of its component lead to each other. -/
theorem path_rootOf (x : α) : PathFrom edges x ((ofEdges edges).rootOf x) ∧
    PathFrom edges ((ofEdges edges).rootOf x) x := by
  obtain ⟨search, result, tracks, -⟩ := tracks_ofEdges edges
  rw [rootOf, result, Std.HashMap.getD_eq_getD_getElem?]
  cases found : search.root[x]? with
  | none => exact ⟨.refl, .refl⟩
  | some r => exact tracks.joined x r found

/-- Nodes that lead to each other have the same root. -/
theorem rootOf_eq (x y : α) (reached : PathFrom edges x y) (back : PathFrom edges y x) :
    (ofEdges edges).rootOf x = (ofEdges edges).rootOf y := by
  obtain ⟨search, result, tracks, complete⟩ := tracks_ofEdges edges
  simp only [rootOf, result, Std.HashMap.getD_eq_getD_getElem?]
  cases found : search.root[x]? with
  | some r => rw [tracks.whole x r found y reached back, Option.getD_some, Option.getD_some]
  | none =>
    -- A node without a component has no edges, so that no path leads away from it.
    rcases reached.cases_head with rfl | ⟨z, edge, -⟩
    · rw [found]
    · have rooted := complete x z edge
      rw [Std.HashMap.mem_iff_isSome_getElem?, found] at rooted
      exact absurd rooted Bool.false_ne_true

/-- Two nodes are in the same component exactly if paths lead from each to the other. -/
theorem together_iff (x y : α) : (ofEdges edges).together x y = true ↔
    PathFrom edges x y ∧ PathFrom edges y x := by
  rw [together, beq_iff_eq]
  constructor
  · intro same
    have first := path_rootOf edges x
    have second := path_rootOf edges y
    rw [← same] at second
    exact ⟨first.1.trans second.2, second.1.trans first.2⟩
  · rintro ⟨reached, back⟩
    exact rootOf_eq edges x y reached back

end Components

end Clausal
