import Mathlib.Combinatorics.Enumerative.DoubleCounting
import MipsBackend.Proofs.Flow.Construction
import MipsBackend.Proofs.Flow.Liveness

/-!
# The order of the visits

Liveness visits the nodes in the order of a walk with a stack. An empty stack gets the next root, a
node that was visited already is dropped from it, and a new one makes room for its predecessors
(`FlowGraph.turn`). A node may be pushed once for each edge, but every visit uses up the edges to the
node, so the walk ends (`FlowGraph.work`). What waits on the stack has a successor that was visited,
unless it is a root, and then all that is higher and was not visited waits above it (`Waiting`).
-/

namespace MipsBackend

namespace FlowGraph

variable {graph : FlowGraph} {unseen : Std.ExtTreeSet Nat} {stack : List Nat} {node : Nat}

/-! ## Exploring -/

theorem mem_erase_iff {other : Nat} :
    other ∈ unseen.erase node ↔ other ≠ node ∧ other ∈ unseen := by
  rw [Std.ExtTreeSet.mem_erase, ne_eq, Nat.compare_eq_eq, ne_comm]

theorem explore_of_seen (seen : ∀ other ∈ stack, other ∉ unseen) :
    graph.explore unseen stack = [] := by
  have skipped : stack.dropWhile (· ∉ unseen) = [] := by
    rw [List.dropWhile_eq_nil_iff]
    simpa using seen
  rw [explore]
  split
  · rfl
  · next found => cases skipped.symm.trans found

theorem explore_of_new {skipped rest : List Nat} (seen : ∀ other ∈ skipped, other ∉ unseen)
    (new : node ∈ unseen) :
    graph.explore unseen (skipped ++ node :: rest) =
      node :: graph.explore (unseen.erase node) (graph.preds node ++ rest) := by
  have kept : (skipped ++ node :: rest).dropWhile (· ∉ unseen) = node :: rest := by
    rw [List.dropWhile_append_of_pos (by simpa using seen), List.dropWhile_cons_of_neg (by simpa)]
  rw [explore]
  split
  · next found => cases kept.symm.trans found
  · next found =>
    cases kept.symm.trans found
    rfl

/-- What holds if all on the stack was visited, and if it holds behind the first node on the stack
that was not, holds always. -/
theorem explore_induction (graph : FlowGraph) {motive : Std.ExtTreeSet Nat → List Nat → Prop}
    (done : ∀ unseen stack, (∀ other ∈ stack, other ∉ unseen) → motive unseen stack)
    (visit : ∀ unseen skipped node rest, (∀ other ∈ skipped, other ∉ unseen) → node ∈ unseen →
      motive (unseen.erase node) (graph.preds node ++ rest) →
        motive unseen (skipped ++ node :: rest)) (unseen : Std.ExtTreeSet Nat) (stack : List Nat) :
    motive unseen stack := by
  fun_induction explore graph unseen stack with
  | case1 unseen stack found =>
    exact done unseen stack (by simpa using List.dropWhile_eq_nil_iff.1 found)
  | case2 unseen stack node rest found ih =>
    rw [← List.takeWhile_append_dropWhile (p := (· ∉ unseen)) (l := stack), found]
    refine visit unseen _ node rest (fun other skipped => ?_) (mem_of_dropWhile_eq_cons found) ih
    simpa using List.mem_takeWhile_imp skipped

theorem mem_of_explore (visited : node ∈ graph.explore unseen stack) : node ∈ unseen := by
  induction unseen, stack using explore_induction graph with
  | done unseen stack seen =>
    rw [explore_of_seen seen] at visited
    cases visited
  | visit unseen skipped first rest seen new ih =>
    rw [explore_of_new seen new] at visited
    rcases List.mem_cons.1 visited with rfl | later
    · exact new
    · exact (mem_erase_iff.1 (ih later)).2

theorem explore_nodup (graph : FlowGraph) (unseen : Std.ExtTreeSet Nat) (stack : List Nat) :
    (graph.explore unseen stack).Nodup := by
  induction unseen, stack using explore_induction graph with
  | done unseen stack seen =>
    rw [explore_of_seen seen]
    exact List.nodup_nil
  | visit unseen skipped node rest seen new ih =>
    rw [explore_of_new seen new]
    exact List.nodup_cons.2 ⟨fun again => (mem_erase_iff.1 (mem_of_explore again)).1 rfl, ih⟩

theorem filter_erase (unseen : Std.ExtTreeSet Nat) (node : Nat) (stack : List Nat) :
    stack.filter (· ∈ unseen.erase node) = (stack.filter (· ∈ unseen)).filter (· ≠ node) := by
  rw [List.filter_filter]
  refine List.filter_congr fun other _ => ?_
  rw [Bool.eq_iff_iff]
  simp only [decide_eq_true_eq, Bool.and_eq_true, mem_erase_iff]

/-- Nodes on the stack that were visited make no difference. -/
theorem explore_congr {other : List Nat}
    (same : stack.filter (· ∈ unseen) = other.filter (· ∈ unseen)) :
    graph.explore unseen stack = graph.explore unseen other := by
  induction unseen, stack using explore_induction graph generalizing other with
  | done unseen stack seen =>
    rw [List.filter_eq_nil_iff.2 (by simpa using seen), eq_comm, List.filter_eq_nil_iff] at same
    rw [explore_of_seen seen, explore_of_seen (by simpa using same)]
  | visit unseen skipped node rest seen new ih =>
    rw [List.filter_append, List.filter_eq_nil_iff.2 (by simpa using seen), List.nil_append,
      List.filter_cons_of_pos (by simpa using new), eq_comm, List.filter_eq_cons_iff] at same
    obtain ⟨dropped, below, rfl, gone, -, below_same⟩ := same
    rw [explore_of_new seen new, explore_of_new (by simpa using gone) new]
    congr 1
    apply ih
    rw [List.filter_append, List.filter_append, filter_erase _ _ rest, filter_erase _ _ below,
      below_same]

/-! ## The walk -/

/-- The roots below a number are still to come. -/
structure Walk where
  roots : Nat
  stack : List Nat
  unseen : Std.ExtTreeSet Nat
  order : List Nat

namespace Walk

def Done (walk : Walk) : Prop := walk.roots = 0 ∧ walk.stack = []

/-- All nodes in the order of their visits, if the walk goes on to its end. -/
def visits (graph : FlowGraph) (walk : Walk) : List Nat :=
  walk.order ++ graph.explore walk.unseen (walk.stack ++ (List.range walk.roots).reverse)

end Walk

def start (graph : FlowGraph) : Walk :=
  { roots := graph.size, stack := [], unseen := .ofList (List.range graph.size), order := [] }

/-- One turn of the walk. Nothing changes once it is done. -/
def turn (graph : FlowGraph) (walk : Walk) : Walk :=
  match walk.stack, walk.roots with
  | [], 0 => walk
  | [], root + 1 => { walk with roots := root, stack := [root] }
  | node :: rest, _ =>
    if node ∈ walk.unseen then
      let unseen := walk.unseen.erase node
      { walk with
        stack := (graph.preds node).filter (· ∈ unseen) ++ rest
        unseen
        order := walk.order ++ [node] }
    else { walk with stack := rest }

/-- The edges to nodes that were not visited. -/
def pending (graph : FlowGraph) (unseen : Std.ExtTreeSet Nat) : Nat :=
  ∑ node ∈ (Finset.range graph.size).filter (· ∈ unseen), (graph.preds node).length

/-- How many turns may still come. -/
def work (graph : FlowGraph) (walk : Walk) : Nat :=
  2 * walk.roots + walk.stack.length + graph.pending walk.unseen

theorem pending_erase (new : node ∈ unseen) :
    graph.pending (unseen.erase node) + (graph.preds node).length = graph.pending unseen := by
  have left : (Finset.range graph.size).filter (· ∈ unseen.erase node) =
      ((Finset.range graph.size).filter (· ∈ unseen)).erase node := by
    ext other
    simp only [Finset.mem_filter, Finset.mem_erase, mem_erase_iff]
    tauto
  rw [pending, left]
  by_cases inside : node < graph.size
  · exact Finset.sum_erase_add _ _ (Finset.mem_filter.2 ⟨Finset.mem_range.2 inside, new⟩)
  · have none : graph.preds node = [] := by
      rw [preds, Array.getElem?_eq_none (Nat.le_of_not_lt inside)]
      rfl
    rw [Finset.erase_eq_of_notMem (by simp [inside]), none, List.length_nil, Nat.add_zero, pending]

theorem work_turn {walk : Walk} (going : ¬ walk.Done) :
    graph.work (graph.turn walk) < graph.work walk := by
  obtain ⟨roots, stack, unseen, order⟩ := walk
  match stack, roots with
  | [], 0 => exact absurd ⟨rfl, rfl⟩ going
  | [], root + 1 =>
    simp only [turn, work, List.length_cons, List.length_nil]
    omega
  | node :: rest, roots =>
    unfold turn
    dsimp only
    split
    · next new =>
      have pushed := List.length_filter_le (· ∈ unseen.erase node) (graph.preds node)
      have spent := @pending_erase graph unseen node new
      simp only [work, List.length_append, List.length_cons]
      omega
    · simp only [work, List.length_cons]
      omega

theorem visits_turn (walk : Walk) : (graph.turn walk).visits graph = walk.visits graph := by
  obtain ⟨roots, stack, unseen, order⟩ := walk
  match stack, roots with
  | [], 0 => rfl
  | [], root + 1 => simp [turn, Walk.visits, List.range_succ]
  | node :: rest, roots =>
    unfold turn
    dsimp only
    split
    · next new =>
      have seen : ∀ other ∈ ([] : List Nat), other ∉ unseen := fun _ member => nomatch member
      have first := @explore_of_new graph unseen node [] (rest ++ (List.range roots).reverse) seen new
      simp only [Walk.visits, List.append_assoc, List.cons_append, List.nil_append] at first ⊢
      rw [first]
      congr 2
      apply explore_congr
      simp
    · next old =>
      simp only [Walk.visits, List.cons_append]
      congr 1
      apply explore_congr
      rw [List.filter_cons_of_neg (by simpa using old)]

/-- The walk ends, and by then has visited the nodes that it was to visit. -/
theorem walk_ends (graph : FlowGraph) (walk : Walk) : ∃ turns ≤ graph.work walk,
    (graph.turn^[turns] walk).Done ∧ (graph.turn^[turns] walk).order = walk.visits graph := by
  induction left : graph.work walk using Nat.strongRecOn generalizing walk with
  | ind bound ih =>
    subst left
    by_cases done : walk.Done
    · refine ⟨0, Nat.zero_le _, done, ?_⟩
      rw [Walk.visits, done.1, done.2, explore_of_seen (by simp), List.append_nil]
      rfl
    · have fewer := @work_turn graph walk done
      obtain ⟨turns, enough, done, order⟩ := ih _ fewer (graph.turn walk) rfl
      exact ⟨turns + 1, by omega, done, order.trans (visits_turn walk)⟩

/-! ## Why a node is visited -/

/-- Each node on the stack has a successor among those that were visited, or all that is higher and
was not visited waits above it. -/
def Waiting (graph : FlowGraph) (visited stack : List Nat) (unseen : Std.ExtTreeSet Nat) : Prop :=
  ∀ above node below, stack = above ++ node :: below →
    (∃ next ∈ visited, next ∈ graph.succs node) ∨ ∀ other ∈ unseen, other ∈ above ∨ other ≤ node

theorem waiting_roots (graph : FlowGraph) (size : Nat) :
    graph.Waiting [] (List.range size).reverse (.ofList (List.range size)) := by
  intro above node below split
  refine .inr fun other listed => ?_
  have falling : (List.range size).reverse.Pairwise (· > ·) :=
    List.pairwise_reverse.2 List.pairwise_lt_range
  have member : other ∈ (List.range size).reverse := by
    rw [List.mem_reverse]
    simpa using listed
  rw [split] at falling member
  rcases List.mem_append.1 member with before | behind
  · exact .inl before
  · rcases List.mem_cons.1 behind with rfl | later
    · exact .inr (Nat.le_refl _)
    · have lower := List.rel_of_pairwise_cons (List.pairwise_append.1 falling).2.1 later
      exact .inr (Nat.le_of_lt lower)

variable {visited skipped rest : List Nat}

theorem Waiting.first (waiting : graph.Waiting visited (skipped ++ node :: rest) unseen)
    (seen : ∀ other ∈ skipped, other ∉ unseen) :
    (∃ next ∈ visited, next ∈ graph.succs node) ∨ ∀ other ∈ unseen, other ≤ node :=
  (waiting skipped node rest rfl).imp_right fun highest other listed =>
    (highest other listed).resolve_left fun above => seen other above listed

theorem Waiting.visit (waiting : graph.Waiting visited (skipped ++ node :: rest) unseen)
    (seen : ∀ other ∈ skipped, other ∉ unseen)
    (inverse : ∀ other ∈ graph.preds node, node ∈ graph.succs other) :
    graph.Waiting (visited ++ [node]) (graph.preds node ++ rest) (unseen.erase node) := by
  intro above waits below split
  -- What waits below the predecessors waited before, and what was above it there still is.
  have behind : ∀ between, rest = between ++ waits :: below → above = graph.preds node ++ between →
      (∃ next ∈ visited ++ [node], next ∈ graph.succs waits) ∨
        ∀ other ∈ unseen.erase node, other ∈ above ∨ other ≤ waits := by
    rintro between rfl rfl
    rcases waiting (skipped ++ node :: between) waits below (by simp) with
      ⟨next, listed, edge⟩ | highest
    · exact .inl ⟨next, List.mem_append_left _ listed, edge⟩
    · refine .inr fun other left => ?_
      obtain ⟨differs, new⟩ := mem_erase_iff.1 left
      refine (highest other new).imp_left fun member => ?_
      rcases List.mem_append.1 member with dropped | under
      · exact absurd new (seen other dropped)
      · exact List.mem_append_right _ ((List.mem_cons.1 under).resolve_left differs)
  rcases List.append_eq_append_iff.1 split with ⟨between, same, tail⟩ | ⟨between, same, tail⟩
  · exact behind between tail same
  · cases between with
    | nil => exact behind [] tail.symm (by simpa using same.symm)
    | cons first between =>
      cases tail
      have pushed : waits ∈ graph.preds node := same ▸ List.mem_append_right _ List.mem_cons_self
      exact .inl ⟨node, List.mem_append_right _ List.mem_cons_self, inverse waits pushed⟩

theorem explore_due (mirrored : graph.Mirrored) (waiting : graph.Waiting visited stack unseen) :
    ∀ before node after, graph.explore unseen stack = before ++ node :: after →
      (∃ next ∈ visited ++ before, next ∈ graph.succs node) ∨
        ∀ other ∈ unseen, other ∉ before → other ≤ node := by
  induction unseen, stack using explore_induction graph generalizing visited with
  | done unseen stack seen =>
    intro before node after split
    rw [explore_of_seen seen] at split
    cases before <;> cases split
  | visit unseen skipped first rest seen new ih =>
    intro before node after split
    rw [explore_of_new seen new] at split
    cases before with
    | nil =>
      cases split
      rw [List.append_nil]
      exact (waiting.first seen).imp_right fun highest other listed _ => highest other listed
    | cons head before =>
      obtain ⟨rfl, later⟩ := List.cons.inj split
      have next := waiting.visit seen fun other => (mirrored.inverse other first).2
      rcases ih next before node after later with ⟨succ, listed, edge⟩ | highest
      · exact .inl ⟨succ, by simpa using listed, edge⟩
      · refine .inr fun other unvisited outside => ?_
        obtain ⟨differs, absent⟩ := not_or.1 (mt List.mem_cons.2 outside)
        exact highest other (mem_erase_iff.2 ⟨differs, unvisited⟩) absent

/-! ## Each node once -/

theorem mem_unseen_start : node ∈ graph.start.unseen ↔ node < graph.size := by
  simp [start]

theorem visits_start (graph : FlowGraph) : graph.start.visits graph = graph.backwardOrder := rfl

theorem backwardOrder_perm (graph : FlowGraph) :
    graph.backwardOrder.Perm (List.range graph.size) := by
  refine (List.perm_ext_iff_of_nodup (graph.explore_nodup _ _) List.nodup_range).2 fun node => ?_
  rw [List.mem_range]
  exact ⟨fun visited => mem_unseen_start.1 (mem_of_explore visited), mem_backwardOrder⟩

theorem mem_preds_bound {succ : Nat} (listed : node ∈ graph.preds succ) : succ < graph.size := by
  by_contra outside
  rw [preds, Array.getElem?_eq_none (Nat.le_of_not_lt outside)] at listed
  cases listed

theorem mem_succs_bound {succ : Nat} (listed : succ ∈ graph.succs node) : node < graph.size := by
  by_contra outside
  rw [succs, Array.getElem?_eq_none (Nat.le_of_not_lt outside)] at listed
  cases listed

theorem edgeCount_eq (graph : FlowGraph) :
    graph.edgeCount = ∑ node ∈ Finset.range graph.size, (graph.succs node).length := by
  have listed : graph.nodes.toList.map (fun node => node.succs.length) =
      (List.range graph.size).map fun node => (graph.succs node).length := by
    apply List.ext_getElem (by simp [size])
    intro node here _
    simp [succs, Array.getElem?_eq_getElem (by simpa using here)]
  rw [edgeCount, List.length_flatMap, listed]
  rfl

/-- Each edge is pushed once, from the node that it leads to. -/
theorem Mirrored.pending_start (mirrored : graph.Mirrored) :
    graph.pending graph.start.unseen = graph.edgeCount := by
  let edge (source succ : Nat) : Prop := succ ∈ graph.succs source
  have all : (Finset.range graph.size).filter (· ∈ graph.start.unseen) = Finset.range graph.size :=
    Finset.filter_true_of_mem fun node listed => mem_unseen_start.2 (Finset.mem_range.1 listed)
  have sources : ∀ node, (graph.preds node).length =
      ((Finset.range graph.size).bipartiteBelow edge node).card := by
    intro node
    rw [← List.toFinset_card_of_nodup (mirrored.preds_nodup node)]
    congr 1
    ext source
    rw [List.mem_toFinset, Finset.mem_bipartiteBelow, ← mirrored.inverse, Finset.mem_range]
    exact ⟨fun listed => ⟨mem_succs_bound listed, listed⟩, And.right⟩
  have targets : ∀ node, (graph.succs node).length =
      ((Finset.range graph.size).bipartiteAbove edge node).card := by
    intro node
    rw [← List.toFinset_card_of_nodup (mirrored.succs_nodup node)]
    congr 1
    ext succ
    rw [List.mem_toFinset, Finset.mem_bipartiteAbove, Finset.mem_range]
    have bound := fun listed => mem_preds_bound ((mirrored.inverse node succ).1 listed)
    exact ⟨fun listed => ⟨bound listed, listed⟩, And.right⟩
  rw [pending, all, edgeCount_eq]
  simp only [sources, targets]
  exact (Finset.sum_card_bipartiteAbove_eq_sum_card_bipartiteBelow edge).symm

/-- What the order of the visits is, and how the walk comes to it. -/
structure OrderExact (graph : FlowGraph) : Prop where
  once : graph.backwardOrder.Perm (List.range graph.size)
  first : ∀ node rest, graph.backwardOrder = node :: rest → node + 1 = graph.size
  /-- Behind the first one, a node follows one of its successors, or is the highest that is left. -/
  later : ∀ before node after, graph.backwardOrder = before ++ node :: after → before ≠ [] →
    (∃ next ∈ before, next ∈ graph.succs node) ∨
      ∀ other < graph.size, other ∉ before → other ≤ node
  ends : ∃ turns ≤ 2 * graph.size + graph.edgeCount,
    (graph.turn^[turns] graph.start).Done ∧
      (graph.turn^[turns] graph.start).order = graph.backwardOrder

theorem Mirrored.orderExact (mirrored : graph.Mirrored) : graph.OrderExact := by
  have due := explore_due mirrored (graph.waiting_roots graph.size)
  have bound := graph.backwardOrder_perm
  have left : ∀ other, other ∈ Std.ExtTreeSet.ofList (List.range graph.size) ↔ other < graph.size :=
    fun other => mem_unseen_start
  simp only [List.nil_append, left] at due
  refine ⟨bound, fun node rest split => ?_, fun before node after split _ =>
    due before node after split, ?_⟩
  · have inside : node < graph.size :=
      List.mem_range.1 (bound.mem_iff.1 (split ▸ List.mem_cons_self))
    rcases due [] node rest split with ⟨_, none, -⟩ | highest
    · cases none
    · have last := highest (graph.size - 1) (by omega) List.not_mem_nil
      omega
  · obtain ⟨turns, enough, done, order⟩ := graph.walk_ends graph.start
    rw [work, mirrored.pending_start] at enough
    exact ⟨turns, enough, done, order.trans graph.visits_start⟩

end FlowGraph

namespace Section

/-- The nodes of every flow graph of a section, and of every extension of it by edges between its
nodes, are visited once each, the last one first. Any other one follows a node that it leads to, or
is the highest of those that are left. The walk ends after at most two turns for each node and one
for each edge. -/
theorem visited_once {code : Section} {graph : FlowGraph} (built : code.flowGraph = .ok graph)
    {edges : List (Nat × Nat)}
    (inside : ∀ edge ∈ edges, edge.1 < graph.size ∧ edge.2 < graph.size) :
    (graph.addEdges edges).OrderExact :=
  ((mirrored_flowGraph built).addEdges inside).orderExact

/-- A loop into which a jump from code that nothing reaches leads, and an instruction that jumps to
itself. -/
def entangled : Section :=
  { items :=
      [ .instr (.loadImm (.virt 0) 3), .label ⟨"loop"⟩,
        .instr (.arithImm .addi (.virt 0) (.virt 0) (-1)),
        .instr (.branchZero .bnez (.virt 0) ⟨"loop"⟩), .instr (.jumpReg .ra),
        .instr (.jump ⟨"loop"⟩), .label ⟨"self"⟩, .instr (.jump ⟨"self"⟩) ] }

theorem visited_once_entangled : ∃ graph, entangled.flowGraph = .ok graph ∧
    (∀ edge ∈ [(3, 4), (5, 0), (0, 0)], edge.1 < graph.size ∧ edge.2 < graph.size) ∧
    (graph.addEdges [(3, 4), (5, 0), (0, 0)]).OrderExact := by
  obtain ⟨graph, built⟩ : ∃ graph, entangled.flowGraph = .ok graph :=
    flowGraph_eq_ok_iff.2 (by decide +kernel)
  have inside : ∀ edge ∈ [(3, 4), (5, 0), (0, 0)], edge.1 < graph.size ∧ edge.2 < graph.size := by
    rw [size_flowGraph built]
    decide
  exact ⟨graph, built, inside, visited_once built inside⟩

end Section

end MipsBackend
