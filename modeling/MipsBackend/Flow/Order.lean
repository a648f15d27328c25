import MipsBackend.Flow.Graph

/-!
The order in which liveness visits the nodes of a flow graph: depth first along the edges to
predecessors, from the last node down, so that a node tends to come after its successors.
-/

namespace MipsBackend.FlowGraph

theorem mem_of_dropWhile_eq_cons {unseen : Std.ExtTreeSet Nat} {stack rest : List Nat} {node : Nat}
    (found : stack.dropWhile (· ∉ unseen) = node :: rest) : node ∈ unseen := by
  have kept := List.head?_dropWhile_not (· ∉ unseen) stack
  simp only [found, List.head?_cons] at kept
  simpa using kept

theorem size_erase_lt {unseen : Std.ExtTreeSet Nat} {node : Nat} (member : node ∈ unseen) :
    (unseen.erase node).size < unseen.size := by
  have nonempty : unseen.size ≠ 0 := by
    intro none
    rw [← Std.ExtTreeSet.eq_empty_iff_size_eq_zero] at none
    simp [none] at member
  rw [Std.ExtTreeSet.size_erase, if_pos (by simpa using member)]
  omega

/-- Visits the nodes on the stack that are still unseen, each followed by its predecessors. -/
def explore (graph : FlowGraph) (unseen : Std.ExtTreeSet Nat) (stack : List Nat) : List Nat :=
  match _found : stack.dropWhile (· ∉ unseen) with
  | [] => []
  | node :: rest => node :: graph.explore (unseen.erase node) (graph.preds node ++ rest)
termination_by unseen.size
decreasing_by exact size_erase_lt (mem_of_dropWhile_eq_cons (by assumption))

def backwardOrder (graph : FlowGraph) : List Nat :=
  graph.explore (.ofList (List.range graph.size)) (List.range graph.size).reverse

end MipsBackend.FlowGraph
