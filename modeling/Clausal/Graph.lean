import Std.Data.HashMap
import Std.Data.HashSet

/-!
# Reachability in finite graphs

A graph is built from a list of directed edges. The nodes reachable from a node are found by a
search that enters each node at most once. Only the target of an edge can be entered, so one step
more than there are edges always suffices.
-/

namespace Clausal

structure Edge (α : Type) where
  source : α
  target : α
deriving DecidableEq

/-- A directed graph: the targets of the edges that leave each node, and the number of edges. -/
structure Graph (α : Type) [BEq α] [Hashable α] where
  targets : Std.HashMap α (List α)
  size : Nat

namespace Graph

variable {α : Type} [BEq α] [Hashable α]

/-- The targets of edges by their sources, in the order of the edges. -/
def targetsOf (edges : List (Edge α)) : Std.HashMap α (List α) :=
  edges.foldr (fun edge targets =>
    targets.insert edge.source (edge.target :: targets.getD edge.source [])) ∅

def ofEdges (edges : List (Edge α)) : Graph α := ⟨targetsOf edges, edges.length⟩

/-- The targets of the edges that leave a node. -/
def successors (graph : Graph α) (node : α) : List α := graph.targets.getD node []

/-- The candidates that are not in `seen`, each once, and what is seen with them. -/
def fresh (seen : Std.HashSet α) : List α → List α × Std.HashSet α
  | [] => ([], seen)
  | node :: rest =>
    if seen.contains node then fresh seen rest
    else
      let (found, seen) := fresh (seen.insert node) rest
      (node :: found, seen)

/-- Visits the nodes of the frontier one after another and collects what they lead to. -/
def explore (graph : Graph α) : Nat → List α → Std.HashSet α → Std.HashSet α
  | 0, _, seen => seen
  | _ + 1, [], seen => seen
  | steps + 1, node :: frontier, seen =>
    let (found, seen) := fresh seen (graph.successors node)
    explore graph steps (found ++ frontier) seen

/-- The nodes reachable from a node, itself included. -/
def reachable (graph : Graph α) (node : α) : Std.HashSet α :=
  explore graph (graph.size + 1) [node] (Std.HashSet.emptyWithCapacity.insert node)

def reaches (graph : Graph α) (source target : α) : Bool :=
  (graph.reachable source).contains target

end Graph

end Clausal
