import Clausal.Graph

/-!
# Strongly connected components

Two nodes of a graph belong to one component if paths lead from each to the other. One depth-first
search finds all components. It numbers the nodes as it enters them and keeps them on a stack until
their component is complete. A node from which no edge was found to lead to an earlier node of the
stack is the first one of its component, which then lies above it on the stack.
-/

namespace Clausal

variable {α : Type} [BEq α] [Hashable α]

/-- How far a search for components has come. -/
structure ComponentSearch (α : Type) [BEq α] [Hashable α] where
  /-- How many nodes have been entered. -/
  entered : Nat
  /-- The number of each node that has been entered. -/
  number : Std.HashMap α Nat
  /-- The nodes whose component is not complete, the latest first. -/
  stack : List α
  /-- The first node of its component, for each node of a complete component. -/
  root : Std.HashMap α α

namespace ComponentSearch

def empty : ComponentSearch α := ⟨0, ∅, [], ∅⟩

/-- Numbers a node and puts it on the stack. -/
def enter (search : ComponentSearch α) (node : α) : ComponentSearch α :=
  { search with
    entered := search.entered + 1
    number := search.number.insert node search.entered
    stack := node :: search.stack }

/-- Takes nodes from a stack up to the root of their component. -/
def takeComponent (root : α) : List α → Std.HashMap α α → List α × Std.HashMap α α
  | [], roots => ([], roots)
  | node :: stack, roots =>
    if node == root then (stack, roots.insert node root)
    else takeComponent root stack (roots.insert node root)

def complete (search : ComponentSearch α) (root : α) : ComponentSearch α :=
  let (stack, roots) := takeComponent root search.stack search.root
  { search with stack, root := roots }

/-- Follows an edge to a node, which is visited unless it has been entered already. The least number
is that of the nodes on the stack to which edges were found to lead. -/
def follow (visit : ComponentSearch α → α → Nat × ComponentSearch α)
    (state : Nat × ComponentSearch α) (next : α) : Nat × ComponentSearch α :=
  match state.2.number[next]? with
  | none =>
    let (least, search) := visit state.2 next
    (min state.1 least, search)
  | some number => if state.2.root.contains next then state else (min state.1 number, state.2)

/-- Visits a node that has not been entered, and everything that can be entered from there. The
first argument bounds the depth of the search. -/
def visit (graph : Graph α) : Nat → ComponentSearch α → α → Nat × ComponentSearch α
  | 0, search, _ => (search.entered, search)
  | depth + 1, search, node =>
    let own := search.entered
    let (least, search) :=
      (graph.successors node).foldl (follow (visit graph depth)) (own, search.enter node)
    (least, if least = own then search.complete node else search)

/-- Visits a node unless it has been entered already. -/
def visitNew (graph : Graph α) (depth : Nat) (search : ComponentSearch α) (node : α) :
    ComponentSearch α :=
  if search.number.contains node then search else (visit graph depth search node).2

end ComponentSearch

/-- The components of a graph: the root of the component of each node with an edge. -/
structure Components (α : Type) [BEq α] [Hashable α] where
  root : Std.HashMap α α

namespace Components

def ofEdges (edges : List (Edge α)) : Components α :=
  let nodes := edges.flatMap fun edge => [edge.source, edge.target]
  ⟨(nodes.foldl (ComponentSearch.visitNew (.ofEdges edges) nodes.length) .empty).root⟩

/-- The node that stands for the component of a node. One without edges stands for itself. -/
def rootOf (components : Components α) (node : α) : α := components.root.getD node node

def together (components : Components α) (x y : α) : Bool :=
  components.rootOf x == components.rootOf y

end Components

end Clausal
