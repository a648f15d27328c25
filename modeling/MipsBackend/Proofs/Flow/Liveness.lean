import Mathlib.Data.List.TakeWhile
import MipsBackend.Proofs.Flow.Fixpoint

/-!
# What liveness computes

The sets satisfy the equations of liveness at every node (`live_sets`, `mem_liveOut_iff`), because
every node is visited in each pass. Hence a register that some path reads before it writes
it is in the set before the node where the path starts.
-/

namespace MipsBackend

namespace FlowGraph

/-- Some path from the node reads the register before any node on it writes the register. -/
inductive LiveBefore (graph : FlowGraph) (reg : VReg) : Nat → Prop
  | read {node : Nat} {instr : Instr} (here : graph.instr? node = some instr)
      (used : reg ∈ instr.virtualUses) : LiveBefore graph reg node
  | later {node succ : Nat} {instr : Instr} (here : graph.instr? node = some instr)
      (edge : succ ∈ graph.succs node) (kept : instr.virtualDef? ≠ some reg)
      (next : LiveBefore graph reg succ) : LiveBefore graph reg node

/-! ## Every node is visited -/

theorem mem_explore {graph : FlowGraph} {unseen : Std.ExtTreeSet Nat} {stack : List Nat}
    {node : Nat} (waiting : node ∈ stack) (new : node ∈ unseen) :
    node ∈ graph.explore unseen stack := by
  fun_induction explore graph unseen stack with
  | case1 unseen stack found =>
    have seen := List.dropWhile_eq_nil_iff.1 found node waiting
    simp [new] at seen
  | case2 unseen stack first rest found ih =>
    rw [← List.takeWhile_append_dropWhile (p := (· ∉ unseen)) (l := stack), found,
      List.mem_append] at waiting
    rcases waiting with skipped | kept
    · have seen := List.mem_takeWhile_imp skipped
      simp [new] at seen
    · by_cases same : node = first
      · exact same ▸ List.mem_cons_self
      · have waits : node ∈ rest := (List.mem_cons.1 kept).resolve_left same
        refine List.mem_cons_of_mem first (ih (List.mem_append_right _ waits) ?_)
        rw [Std.ExtTreeSet.mem_erase, ne_eq, Nat.compare_eq_eq]
        exact ⟨Ne.symm same, new⟩

theorem mem_backwardOrder {graph : FlowGraph} {node : Nat} (bound : node < graph.size) :
    node ∈ graph.backwardOrder := by
  apply mem_explore
  · rw [List.mem_reverse]
    exact List.mem_range.2 bound
  · rw [Std.ExtTreeSet.mem_ofList, List.contains_iff_mem]
    exact List.mem_range.2 bound

/-! ## The equations -/

/-- The sets after the last pass, before written registers are added. -/
def settled (graph : FlowGraph) : LiveMap :=
  (graph.livePasses graph.backwardOrder graph.passLimit graph.noneLive).2

theorem settles (graph : FlowGraph) :
    graph.Settles graph.backwardOrder graph.noneLive graph.liveness.passes graph.settled :=
  livePasses_settles _ graph.rising_noneLive graph.within_noneLive (Nat.le_add_right _ _)

theorem settled_stable (graph : FlowGraph) :
    graph.Rising graph.settled ∧
      graph.livePass graph.backwardOrder graph.settled = graph.settled :=
  graph.settles.stable graph.rising_noneLive

theorem settled_eq {graph : FlowGraph} {node : Nat} {instr : Instr}
    (here : graph.instr? node = some instr) :
    graph.settled.liveIn node = instr.liveBefore (graph.liveAfter graph.settled node) ∧
      graph.settled.liveOut node = graph.liveAfter graph.settled node := by
  obtain ⟨rising, same⟩ := graph.settled_stable
  have bound := lt_size_iff.2 ⟨instr, here⟩
  have inside : node < graph.settled.size := rising.size_eq ▸ bound
  have still := rising.update_eq_of_pass_eq same (mem_backwardOrder bound)
  rw [updateLive_eq here] at still
  constructor
  · calc graph.settled.liveIn node
        = LiveMap.liveIn (graph.settled.setIfInBounds node _) node := by rw [still]
      _ = instr.liveBefore (graph.liveAfter graph.settled node) := by
        rw [LiveMap.liveIn_set, if_pos ⟨rfl, inside⟩]
  · calc graph.settled.liveOut node
        = LiveMap.liveOut (graph.settled.setIfInBounds node _) node := by rw [still]
      _ = graph.liveAfter graph.settled node := by
        rw [LiveMap.liveOut_set, if_pos ⟨rfl, inside⟩]

theorem getElem?_live {graph : FlowGraph} (node : Nat) :
    graph.liveness.live[node]? =
      (graph.instr? node).bind fun instr =>
        (graph.settled[node]?).map fun sets => addWritten instr sets := by
  unfold liveness instr? settled
  simp only [Array.getElem?_zipWith]
  cases graph.nodes[node]? with
  | none => rfl
  | some found =>
    simp only [Option.map_some, Option.bind_some]
    cases (graph.livePasses graph.backwardOrder graph.passLimit graph.noneLive).2[node]? <;> rfl

theorem size_live (graph : FlowGraph) : graph.liveness.live.size = graph.size := by
  have settledSize : graph.settled.size = graph.nodes.size := graph.settled_stable.1.size_eq
  unfold settled at settledSize
  simp only [liveness, Array.size_zipWith, settledSize, Nat.min_self, size]

theorem live_sets {graph : FlowGraph} {node : Nat} {instr : Instr}
    (here : graph.instr? node = some instr) :
    graph.liveness.live.liveIn node = graph.settled.liveIn node ∧
      graph.liveness.live.liveOut node =
        instr.virtualDef?.elim (graph.settled.liveOut node) (graph.settled.liveOut node).insert := by
  have inside : node < graph.settled.size :=
    graph.settled_stable.1.size_eq ▸ lt_size_iff.2 ⟨instr, here⟩
  have found := @getElem?_live graph node
  rw [here, Option.bind_some, Array.getElem?_eq_getElem inside, Option.map_some] at found
  unfold LiveMap.liveIn LiveMap.liveOut
  rw [found, Array.getElem?_eq_getElem inside]
  exact ⟨rfl, rfl⟩

theorem mem_liveOut_iff {graph : FlowGraph} {node : Nat} {instr : Instr} {reg : VReg}
    (here : graph.instr? node = some instr) :
    reg ∈ graph.liveness.live.liveOut node ↔
      (∃ succ ∈ graph.succs node, reg ∈ graph.settled.liveIn succ) ∨
        instr.virtualDef? = some reg := by
  rw [(live_sets here).2, (settled_eq here).2]
  cases instr.virtualDef? with
  | none => simp [mem_liveAfter]
  | some written =>
    simp only [Option.elim_some, Std.ExtTreeSet.mem_insert, Nat.compare_eq_eq, mem_liveAfter,
      Option.some.injEq]
    exact or_comm

/-! ## Paths -/

theorem LiveBefore.mem_settled {graph : FlowGraph} {reg : VReg} {node : Nat}
    (live : graph.LiveBefore reg node) : reg ∈ graph.settled.liveIn node := by
  induction live with
  | read here used =>
    rw [(settled_eq here).1]
    exact Instr.mem_liveBefore.2 (.inl used)
  | later here edge kept next ih =>
    rw [(settled_eq here).1]
    exact Instr.mem_liveBefore.2 (.inr ⟨mem_liveAfter.2 ⟨_, edge, ih⟩, kept⟩)

theorem LiveBefore.mem_liveOut {graph : FlowGraph} {reg : VReg} {node succ : Nat} {instr : Instr}
    (live : graph.LiveBefore reg succ) (here : graph.instr? node = some instr)
    (edge : succ ∈ graph.succs node) : reg ∈ graph.liveness.live.liveOut node :=
  (mem_liveOut_iff here).2 (.inl ⟨succ, edge, live.mem_settled⟩)

theorem LiveBefore.mentioned {graph : FlowGraph} {reg : VReg} {node : Nat}
    (live : graph.LiveBefore reg node) :
    ∃ reader instr, graph.instr? reader = some instr ∧ reg ∈ instr.virtualUses := by
  induction live with
  | read here used => exact ⟨_, _, here, used⟩
  | later _ _ _ _ ih => exact ih

end FlowGraph

end MipsBackend
