import MipsBackend.Proofs.Colouring.Conflicts
import MipsBackend.Proofs.Flow.Exactness

/-!
# Interference is exact

The graph of a section has no edge too few and none too many: two registers are joined exactly if
some instruction finds both live before it, or leaves both live behind it, or writes one of them
while the other is live behind it. What a register that nothing reads is joined with follows from
the last case alone.
-/

namespace MipsBackend

namespace FlowGraph

variable {graph : FlowGraph}

/-- Some path that begins behind the node reads the register before any node on it writes the
register. -/
def LiveAfter (graph : FlowGraph) (reg : VReg) (node : Nat) : Prop :=
  ∃ succ ∈ graph.succs node, graph.LiveBefore reg succ

theorem mem_liveIn_iff {node : Nat} {reg : VReg} :
    reg ∈ graph.liveness.live.liveIn node ↔ graph.LiveBefore reg node := by
  rw [liveIn_live, mem_settled_iff]

theorem mem_liveOut_iff_liveAfter {node : Nat} {instr : Instr} {reg : VReg}
    (here : graph.instr? node = some instr) :
    reg ∈ graph.liveness.live.liveOut node ↔
      graph.LiveAfter reg node ∨ instr.virtualDef? = some reg := by
  simp only [mem_liveOut_iff here, mem_settled_iff, LiveAfter]

theorem LiveAfter.mentioned {node : Nat} {reg : VReg} (live : graph.LiveAfter reg node) :
    ∃ reader instr, graph.instr? reader = some instr ∧ reg ∈ instr.virtualUses := by
  obtain ⟨succ, -, later⟩ := live
  exact later.mentioned

theorem node_of_mem_zip {live : LiveMap} {pair : FlowNode × LiveSets}
    (listed : pair ∈ graph.nodes.toList.zip live.toList) :
    ∃ node, graph.instr? node = some pair.1.instr ∧ live.liveIn node = pair.2.liveIn ∧
      live.liveOut node = pair.2.liveOut := by
  obtain ⟨node, position⟩ := List.getElem?_of_mem listed
  rw [List.getElem?_zip_eq_some] at position
  simp only [Array.getElem?_toList] at position
  exact ⟨node, by simp [instr?, position.1], by simp [LiveMap.liveIn, position.2],
    by simp [LiveMap.liveOut, position.2]⟩

/-- The registers of the interference graph are those of the instructions. -/
theorem contains_interference_iff {reg : VReg} :
    (graph.interference graph.liveness.live).contains reg = true ↔
      ∃ node instr, graph.instr? node = some instr ∧ reg ∈ instr.virtualOperands := by
  refine ⟨fun member => ?_, fun ⟨node, instr, here, mentioned⟩ =>
    contains_interference here mentioned⟩
  have read : (∃ reader instr, graph.instr? reader = some instr ∧ reg ∈ instr.virtualUses) →
      ∃ node instr, graph.instr? node = some instr ∧ reg ∈ instr.virtualOperands := by
    rintro ⟨reader, instr, here, used⟩
    exact ⟨reader, instr, here, List.mem_append_left _ used⟩
  obtain empty | ⟨pair, listed, found⟩ := (InterferenceGraph.contains_fold _).1 member
  · simp [InterferenceGraph.contains, InterferenceGraph.empty] at empty
  obtain ⟨node, here, liveIn, liveOut⟩ := node_of_mem_zip listed
  rw [← liveIn, ← liveOut, mem_liveIn_iff, mem_liveOut_iff_liveAfter here] at found
  rcases found with own | before | after | written
  · exact ⟨node, _, here, own⟩
  · exact read before.mentioned
  · exact read after.mentioned
  · exact ⟨node, _, here, List.mem_append_right _ (by simp [written])⟩

theorem joined_interference_iff {a b : VReg} (distinct : a ≠ b) :
    (graph.interference graph.liveness.live).Joined a b ↔
      ∃ node instr, graph.instr? node = some instr ∧
        (graph.LiveBefore a node ∧ graph.LiveBefore b node ∨
          graph.LiveAfter a node ∧ graph.LiveAfter b node ∨
          instr.virtualDef? = some a ∧ graph.LiveAfter b node ∨
          instr.virtualDef? = some b ∧ graph.LiveAfter a node) := by
  -- A node writes one register, so two distinct ones are not both its definition.
  have sets : ∀ {node instr}, graph.instr? node = some instr →
      ((a ∈ graph.liveness.live.liveOut node ∧ b ∈ graph.liveness.live.liveOut node) ↔
        (graph.LiveAfter a node ∧ graph.LiveAfter b node ∨
          instr.virtualDef? = some a ∧ graph.LiveAfter b node ∨
          instr.virtualDef? = some b ∧ graph.LiveAfter a node)) := by
    intro node instr here
    rw [mem_liveOut_iff_liveAfter here, mem_liveOut_iff_liveAfter here]
    constructor
    · rintro ⟨first | writes, second | again⟩
      · exact .inl ⟨first, second⟩
      · exact .inr (.inr ⟨again, first⟩)
      · exact .inr (.inl ⟨writes, second⟩)
      · exact absurd (Option.some.inj (writes.symm.trans again)) distinct
    · rintro (⟨first, second⟩ | ⟨writes, second⟩ | ⟨writes, first⟩)
      · exact ⟨.inl first, .inl second⟩
      · exact ⟨.inr writes, .inl second⟩
      · exact ⟨.inl first, .inr writes⟩
  constructor
  · intro joined
    obtain empty | ⟨pair, listed, together⟩ := (InterferenceGraph.joined_fold _).1 joined
    · exact absurd empty (InterferenceGraph.joined_empty a b)
    obtain ⟨node, here, liveIn, liveOut⟩ := node_of_mem_zip listed
    refine ⟨node, _, here, ?_⟩
    rw [← liveIn, ← liveOut, mem_liveIn_iff, mem_liveIn_iff, sets here] at together
    exact together.imp And.right And.right
  · rintro ⟨node, instr, here, together⟩
    obtain ⟨pair, listed, -, liveIn, liveOut⟩ := mem_zip_live here
    refine (InterferenceGraph.joined_fold _).2 (.inr ⟨pair, listed, ?_⟩)
    rw [liveIn, liveOut, mem_liveIn_iff, mem_liveIn_iff, sets here]
    exact together.imp (And.intro distinct) (And.intro distinct)

end FlowGraph

/-- What the interference graph of a section has to be, in terms of paths through the section. -/
structure InterferenceGraph.ExactFor (conflicts : InterferenceGraph) (code : Section)
    (graph : FlowGraph) : Prop where
  registers : ∀ reg, reg ∈ conflicts.registers ↔ reg ∈ code.registers
  joined : ∀ a b, a ≠ b → (conflicts.interferes a b = true ↔
    ∃ node instr, code.instructions[node]? = some instr ∧
      (graph.LiveBefore a node ∧ graph.LiveBefore b node ∨
        graph.LiveAfter a node ∧ graph.LiveAfter b node ∨
        instr.virtualDef? = some a ∧ graph.LiveAfter b node ∨
        instr.virtualDef? = some b ∧ graph.LiveAfter a node))
  symm : ∀ a b, conflicts.interferes a b = conflicts.interferes b a
  irrefl : ∀ reg, conflicts.interferes reg reg = false

namespace Section

theorem interference_exact {code : Section} {graph : FlowGraph}
    (built : code.flowGraph = .ok graph) :
    ∃ conflicts, code.interference = .ok conflicts ∧ conflicts.ExactFor code graph := by
  refine ⟨_, bind_eq_ok.2 ⟨graph, built, rfl⟩, ?_⟩
  have formed := graph.interference_wellFormed graph.liveness.live
  refine ⟨fun reg => ?_, fun a b distinct => ?_, fun a b => ?_, fun reg => ?_⟩
  · rw [InterferenceGraph.mem_registers, FlowGraph.contains_interference_iff, mem_registers]
    simp only [instr?_flowGraph built, List.mem_iff_getElem?]
    exact ⟨fun ⟨node, instr, here, used⟩ => ⟨instr, ⟨node, here⟩, used⟩,
      fun ⟨instr, ⟨node, here⟩, used⟩ => ⟨node, instr, here, used⟩⟩
  · rw [InterferenceGraph.interferes_iff, FlowGraph.joined_interference_iff distinct]
    simp only [instr?_flowGraph built]
  · rw [Bool.eq_iff_iff, InterferenceGraph.interferes_iff, InterferenceGraph.interferes_iff]
    exact ⟨formed.symm, formed.symm⟩
  · rw [Bool.eq_false_iff, ne_eq, InterferenceGraph.interferes_iff]
    exact formed.irrefl

/-- A loop that also writes a register which nothing reads, with an instruction behind it that
nothing reaches. -/
def wasteful : Section :=
  { items :=
      [ .instr (.loadImm (.virt 0) 3), .instr (.loadImm (.virt 1) 0), .label ⟨"loop"⟩,
        .instr (.loadImm (.virt 2) 7), .instr (.arith .add (.virt 1) (.virt 1) (.virt 0)),
        .instr (.arithImm .addi (.virt 0) (.virt 0) (-1)),
        .instr (.branchZero .bnez (.virt 0) ⟨"loop"⟩), .instr (.move .v0 (.virt 1)),
        .instr (.jumpReg .ra), .instr (.loadImm (.virt 3) 1) ] }

theorem interference_exact_wasteful :
    ∃ graph, wasteful.flowGraph = .ok graph ∧
      ∃ conflicts, wasteful.interference = .ok conflicts ∧ conflicts.ExactFor wasteful graph := by
  obtain ⟨graph, built⟩ : ∃ graph, wasteful.flowGraph = .ok graph :=
    flowGraph_eq_ok_iff.2 (by decide +kernel)
  exact ⟨graph, built, interference_exact built⟩

end Section

end MipsBackend
