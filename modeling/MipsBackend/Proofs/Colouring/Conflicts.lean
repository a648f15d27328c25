import MipsBackend.Allocator
import MipsBackend.Proofs.Colouring.Graph
import MipsBackend.Proofs.Flow.Edges
import MipsBackend.Proofs.Flow.Liveness

/-!
# Conflicts between registers

The interference graph of a section joins two registers exactly if they are live together before or
after some instruction. In particular a written register is joined with everything that is live
after the write, whether its own value is ever read or not.
-/

namespace MipsBackend

namespace InterferenceGraph

/-! ## Cliques -/

theorem contains_addRegisters {graph : InterferenceGraph} {regs : List VReg} {reg : VReg} :
    (graph.addRegisters regs).contains reg = true ↔ graph.contains reg = true ∨ reg ∈ regs := by
  unfold addRegisters
  induction regs generalizing graph with
  | nil => simp
  | cons first rest ih => rw [List.foldl_cons, ih, contains_addRegister, List.mem_cons, or_assoc]

theorem joined_addRegisters {graph : InterferenceGraph} {regs : List VReg} {a b : VReg} :
    (graph.addRegisters regs).Joined a b ↔ graph.Joined a b := by
  unfold addRegisters
  induction regs generalizing graph with
  | nil => rfl
  | cons first rest ih => rw [List.foldl_cons, ih, joined_addRegister]

theorem WellFormed.addRegisters {graph : InterferenceGraph} (formed : graph.WellFormed)
    (regs : List VReg) : (graph.addRegisters regs).WellFormed := by
  unfold InterferenceGraph.addRegisters
  induction regs generalizing graph with
  | nil => exact formed
  | cons first rest ih => exact ih (formed.addRegister first)

theorem star {graph : InterferenceGraph} (hub : VReg) (regs : List VReg) :
    (∀ reg, (regs.foldl (·.addEdge hub ·) graph).contains reg = true ↔
      graph.contains reg = true ∨ (regs ≠ [] ∧ reg = hub) ∨ reg ∈ regs) ∧
    (∀ a b, (regs.foldl (·.addEdge hub ·) graph).Joined a b ↔
      graph.Joined a b ∨ (a ≠ b ∧ ((a = hub ∧ b ∈ regs) ∨ (b = hub ∧ a ∈ regs)))) ∧
    (graph.WellFormed → (regs.foldl (·.addEdge hub ·) graph).WellFormed) := by
  induction regs generalizing graph with
  | nil => simp
  | cons first rest ih =>
    obtain ⟨registers, edges, formed⟩ := @ih (graph.addEdge hub first)
    refine ⟨fun reg => ?_, fun a b => ?_, fun old => formed (old.addEdge hub first)⟩
    · rw [List.foldl_cons, registers, contains_addEdge]
      grind
    · rw [List.foldl_cons, edges, joined_addEdge]
      grind

theorem contains_addClique {graph : InterferenceGraph} {regs : List VReg} {reg : VReg} :
    (graph.addClique regs).contains reg = true ↔ graph.contains reg = true ∨ reg ∈ regs := by
  induction regs generalizing graph with
  | nil => simp [addClique]
  | cons first rest ih =>
    rw [addClique, ih, (star first rest).1, contains_addRegister]
    grind

theorem joined_addClique {graph : InterferenceGraph} {regs : List VReg} {a b : VReg} :
    (graph.addClique regs).Joined a b ↔
      graph.Joined a b ∨ (a ≠ b ∧ a ∈ regs ∧ b ∈ regs) := by
  induction regs generalizing graph with
  | nil => simp [addClique]
  | cons first rest ih =>
    rw [addClique, ih, (star first rest).2.1, joined_addRegister]
    grind

theorem WellFormed.addClique {graph : InterferenceGraph} (formed : graph.WellFormed)
    (regs : List VReg) : (graph.addClique regs).WellFormed := by
  induction regs generalizing graph with
  | nil => exact formed
  | cons first rest ih => exact ih ((star first rest).2.2 (formed.addRegister first))

/-! ## Nodes -/

theorem contains_addNode {graph : InterferenceGraph} {instr : Instr} {live : LiveSets}
    {reg : VReg} :
    (graph.addNode instr live).contains reg = true ↔ graph.contains reg = true ∨
      reg ∈ instr.virtualOperands ∨ reg ∈ live.liveIn ∨ reg ∈ live.liveOut := by
  simp only [addNode, contains_addClique, contains_addRegisters, Std.ExtTreeSet.mem_toList,
    or_assoc]

theorem joined_addNode {graph : InterferenceGraph} {instr : Instr} {live : LiveSets}
    {a b : VReg} :
    (graph.addNode instr live).Joined a b ↔ graph.Joined a b ∨
      (a ≠ b ∧ a ∈ live.liveIn ∧ b ∈ live.liveIn) ∨
      (a ≠ b ∧ a ∈ live.liveOut ∧ b ∈ live.liveOut) := by
  simp only [addNode, joined_addClique, joined_addRegisters, Std.ExtTreeSet.mem_toList, or_assoc]

theorem WellFormed.addNode {graph : InterferenceGraph} (formed : graph.WellFormed)
    (instr : Instr) (live : LiveSets) : (graph.addNode instr live).WellFormed :=
  ((formed.addRegisters _).addClique _).addClique _

theorem wellFormed_fold (nodes : List (FlowNode × LiveSets)) {graph : InterferenceGraph}
    (formed : graph.WellFormed) :
    (nodes.foldl (fun graph (node, sets) => graph.addNode node.instr sets) graph).WellFormed := by
  induction nodes generalizing graph with
  | nil => exact formed
  | cons first rest ih => exact ih (formed.addNode first.1.instr first.2)

theorem contains_fold (nodes : List (FlowNode × LiveSets)) {graph : InterferenceGraph}
    {reg : VReg} :
    (nodes.foldl (fun graph (node, sets) => graph.addNode node.instr sets) graph).contains reg =
        true ↔ graph.contains reg = true ∨
      ∃ pair ∈ nodes, reg ∈ pair.1.instr.virtualOperands ∨ reg ∈ pair.2.liveIn ∨
        reg ∈ pair.2.liveOut := by
  induction nodes generalizing graph with
  | nil => simp
  | cons first rest ih =>
    rw [List.foldl_cons, ih, contains_addNode, List.exists_mem_cons_iff, or_assoc]

theorem joined_fold (nodes : List (FlowNode × LiveSets)) {graph : InterferenceGraph}
    {a b : VReg} :
    (nodes.foldl (fun graph (node, sets) => graph.addNode node.instr sets) graph).Joined a b ↔
      graph.Joined a b ∨ ∃ pair ∈ nodes, (a ≠ b ∧ a ∈ pair.2.liveIn ∧ b ∈ pair.2.liveIn) ∨
        (a ≠ b ∧ a ∈ pair.2.liveOut ∧ b ∈ pair.2.liveOut) := by
  induction nodes generalizing graph with
  | nil => simp
  | cons first rest ih =>
    rw [List.foldl_cons, ih, joined_addNode, List.exists_mem_cons_iff, or_assoc]

end InterferenceGraph

/-! ## Sections -/

namespace FlowGraph

theorem mem_zip_live {graph : FlowGraph} {node : Nat} {instr : Instr}
    (here : graph.instr? node = some instr) :
    ∃ pair ∈ graph.nodes.toList.zip graph.liveness.live.toList, pair.1.instr = instr ∧
      pair.2.liveIn = graph.liveness.live.liveIn node ∧
      pair.2.liveOut = graph.liveness.live.liveOut node := by
  have inside : node < graph.liveness.live.size := by
    rw [size_live]
    exact lt_size_iff.2 ⟨instr, here⟩
  unfold instr? at here
  obtain ⟨found, known, rfl⟩ := Option.map_eq_some_iff.1 here
  refine ⟨(found, graph.liveness.live[node]), ?_, rfl, ?_⟩
  · apply List.mem_of_getElem? (i := node)
    rw [List.getElem?_zip_eq_some]
    simp [known, Array.getElem?_eq_getElem inside]
  · unfold LiveMap.liveIn LiveMap.liveOut
    simp [Array.getElem?_eq_getElem inside]

theorem interference_wellFormed (graph : FlowGraph) (live : LiveMap) :
    (graph.interference live).WellFormed :=
  InterferenceGraph.wellFormed_fold _ InterferenceGraph.wellFormed_empty

theorem contains_interference {graph : FlowGraph} {node : Nat} {instr : Instr} {reg : VReg}
    (here : graph.instr? node = some instr) (mentioned : reg ∈ instr.virtualOperands) :
    (graph.interference graph.liveness.live).contains reg = true := by
  obtain ⟨pair, member, same, -⟩ := mem_zip_live here
  exact (InterferenceGraph.contains_fold _).2 (.inr ⟨pair, member, .inl (same ▸ mentioned)⟩)

/-- A written register conflicts with what some path from behind the write still reads. -/
theorem written_joined {graph : FlowGraph} {node succ : Nat} {instr : Instr} {written reg : VReg}
    (here : graph.instr? node = some instr) (writes : instr.virtualDef? = some written)
    (edge : succ ∈ graph.succs node) (live : graph.LiveBefore reg succ)
    (distinct : written ≠ reg) :
    (graph.interference graph.liveness.live).Joined written reg := by
  obtain ⟨pair, member, -, -, out⟩ := mem_zip_live here
  refine (InterferenceGraph.joined_fold _).2 (.inr ⟨pair, member, .inr ⟨distinct, ?_, ?_⟩⟩)
  · exact out ▸ (mem_liveOut_iff here).2 (.inr writes)
  · exact out ▸ live.mem_liveOut here edge

end FlowGraph

namespace Section

theorem colour_eq_ok_iff {code : Section} {k : Nat} {heuristic : SpillHeuristic}
    {colouring : Colouring} :
    code.colour k heuristic = .ok colouring ↔ ∃ graph, code.flowGraph = .ok graph ∧
      colouring =
        (graph.interference graph.liveness.live).colour (colourCount k) heuristic := by
  constructor
  · intro coloured
    obtain ⟨conflicts, found, answers⟩ := bind_eq_ok.1 coloured
    obtain ⟨graph, built, same⟩ := bind_eq_ok.1 found
    cases same
    exact ⟨graph, built, (Except.ok.inj answers).symm⟩
  · rintro ⟨graph, built, rfl⟩
    exact bind_eq_ok.2 ⟨_, bind_eq_ok.2 ⟨graph, built, rfl⟩, rfl⟩

end Section

end MipsBackend
