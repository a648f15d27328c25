import MipsBackend.Proofs.Flow.Edges
import MipsBackend.Proofs.Machine.Placement

/-!
# How flow graphs are built

The flow graph of a section says what the section says about control, and no more
(`flowGraph_exact`): its nodes are the instructions, its edges lead to the next instruction and to
the target of a branch, and each edge stands once in the list of its source and once in that of its
target. Later edges keep the two kinds of lists in step, because an edge is added to both or to
neither.
-/

namespace MipsBackend

/-! ## What a label stands for -/

/-- The label stands for the instruction with the number: the first one behind the last place of the
label that an instruction follows. -/
def Binds (label : Label) (items : List TextItem) (node : Nat) : Prop :=
  ∃ before after, items = before ++ .label label :: after ∧ instrCount before = node ∧
    0 < instrCount after ∧
    ∀ middle behind, after = middle ++ .label label :: behind → instrCount behind = 0

theorem any_instr?_iff {items : List TextItem} :
    items.any (·.instr?.isSome) = true ↔ 0 < instrCount items := by
  induction items with
  | nil => simp
  | cons item rest ih => cases item <;> simp_all [TextItem.instr?]

theorem labelledNode?_eq_none_iff {label : Label} {items : List TextItem} {start : Nat} :
    labelledNode? label start items = none ↔
      ∀ before after, items = before ++ .label label :: after → instrCount after = 0 := by
  rw [← Option.not_isSome_iff_eq_none, labelledNode?_isSome_iff]
  simp only [any_instr?_iff, not_exists, not_and, Nat.not_lt, Nat.le_zero]

theorem binds_cons {label : Label} {item : TextItem} {rest : List TextItem} {node : Nat} :
    Binds label (item :: rest) node ↔
      (∃ position, Binds label rest position ∧ instrCount [item] + position = node) ∨
        (item = .label label ∧ node = 0 ∧ 0 < instrCount rest ∧
          ∀ middle behind, rest = middle ++ .label label :: behind → instrCount behind = 0) := by
  constructor
  · rintro ⟨before, after, split, rfl, follows, last⟩
    cases before with
    | nil =>
      cases split
      exact .inr ⟨rfl, rfl, follows, last⟩
    | cons first before =>
      cases split
      exact .inl ⟨_, ⟨before, after, rfl, rfl, follows, last⟩, (instrCount_append [item] _).symm⟩
  · rintro (⟨_, ⟨before, after, rfl, rfl, follows, last⟩, rfl⟩ | ⟨rfl, rfl, follows, last⟩)
    · exact ⟨item :: before, after, rfl, instrCount_append [item] _, follows, last⟩
    · exact ⟨[], rest, rfl, rfl, follows, last⟩

theorem labelledNode?_eq_some_iff {label : Label} {items : List TextItem} {start node : Nat} :
    labelledNode? label start items = some node ↔
      ∃ position, Binds label items position ∧ start + position = node := by
  induction items generalizing start with
  | nil => simp [labelledNode?, Binds]
  | cons item rest ih =>
    simp only [binds_cons]
    cases item with
    | instr instr =>
      rw [labelledNode?, ih]
      simp [Nat.add_assoc]
    | comment text =>
      rw [labelledNode?, ih]
      simp
    | label here =>
      rw [labelledNode?, Option.or_eq_some_iff, ih, labelledNode?_eq_none_iff]
      constructor
      · rintro (⟨position, bound, rfl⟩ | ⟨last, own⟩)
        · exact ⟨position, .inl ⟨position, bound, Nat.zero_add _⟩, rfl⟩
        · obtain ⟨⟨rfl, follows⟩, same⟩ := Option.ite_none_right_eq_some.1 own
          exact ⟨0, .inr ⟨rfl, rfl, any_instr?_iff.1 follows, last⟩, Option.some.inj same⟩
      · rintro ⟨_, ⟨position, bound, rfl⟩ | ⟨same, rfl, follows, last⟩, rfl⟩
        · exact .inl ⟨position, bound, congrArg (start + ·) (Nat.zero_add _).symm⟩
        · cases same
          exact .inr ⟨last, if_pos ⟨rfl, any_instr?_iff.2 follows⟩⟩

theorem Binds.lt {label : Label} {items : List TextItem} {node : Nat}
    (binds : Binds label items node) : node < instrCount items := by
  obtain ⟨before, after, rfl, rfl, follows, -⟩ := binds
  rw [instrCount_append, instrCount_label]
  omega

theorem labelledNode?_zero_iff {label : Label} {items : List TextItem} {node : Nat} :
    labelledNode? label 0 items = some node ↔ Binds label items node := by
  simp [labelledNode?_eq_some_iff]

/-! ## Successors and predecessors -/

namespace FlowGraph

/-- The lists of successors and of predecessors hold the same edges, each edge once. -/
structure Mirrored (graph : FlowGraph) : Prop where
  inverse : ∀ node succ, succ ∈ graph.succs node ↔ node ∈ graph.preds succ
  succs_nodup : ∀ node, (graph.succs node).Nodup
  preds_nodup : ∀ node, (graph.preds node).Nodup

@[simp] theorem preds_discrete (instrs : List Instr) (node : Nat) :
    (discrete instrs).preds node = [] := by
  unfold preds discrete
  simp only [List.getElem?_toArray, List.getElem?_map]
  cases instrs[node]? <;> rfl

theorem mirrored_discrete (instrs : List Instr) : (discrete instrs).Mirrored where
  inverse := by simp
  succs_nodup := by simp
  preds_nodup := by simp

theorem Mirrored.addEdge {graph : FlowGraph} (mirrored : graph.Mirrored) {source target : Nat}
    (first : source < graph.size) (second : target < graph.size) :
    (graph.addEdge source target).Mirrored := by
  by_cases old : target ∈ graph.succs source
  · rw [addEdge_of_mem old]
    exact mirrored
  · refine ⟨fun node succ => ?_, fun node => ?_, fun node => ?_⟩
    · rw [mem_succs_addEdge, preds_addEdge old, mirrored.inverse]
      split
      · next here =>
        simp only [List.mem_append, List.mem_singleton, here.1, first, and_true]
      · next other =>
        have away : succ ≠ target := fun same => other ⟨same.symm, same ▸ second⟩
        simp [away]
    · rw [succs_addEdge old]
      split
      · next here =>
        rw [← here.1]
        exact List.nodup_append'.2 ⟨mirrored.succs_nodup source, List.nodup_singleton _, by simpa⟩
      · exact mirrored.succs_nodup node
    · rw [preds_addEdge old]
      split
      · next here =>
        have fresh : source ∉ graph.preds target := fun known =>
          old ((mirrored.inverse source target).2 known)
        rw [← here.1]
        exact List.nodup_append'.2 ⟨mirrored.preds_nodup target, List.nodup_singleton _, by simpa⟩
      · exact mirrored.preds_nodup node

theorem Mirrored.addEdges {graph : FlowGraph} (mirrored : graph.Mirrored)
    {edges : List (Nat × Nat)}
    (inside : ∀ edge ∈ edges, edge.1 < graph.size ∧ edge.2 < graph.size) :
    (graph.addEdges edges).Mirrored := by
  unfold FlowGraph.addEdges
  induction edges generalizing graph with
  | nil => exact mirrored
  | cons edge rest ih =>
    obtain ⟨here, later⟩ := List.forall_mem_cons.1 inside
    apply ih (mirrored.addEdge here.1 here.2)
    simpa using later

end FlowGraph

/-! ## Sections -/

namespace Section

variable {code : Section} {graph : FlowGraph}

theorem instrs_flowGraph (built : code.flowGraph = .ok graph) :
    graph.nodes.toList.map FlowNode.instr = code.instructions := by
  apply List.ext_getElem?
  intro node
  rw [← instr?_flowGraph built, List.getElem?_map, Array.getElem?_toList]
  rfl

theorem mirrored_flowGraph (built : code.flowGraph = .ok graph) : graph.Mirrored := by
  obtain ⟨branches, found, rfl⟩ := flowGraph_eq_ok built
  apply ((FlowGraph.mirrored_discrete code.instructions).addEdges ?_).addEdges ?_
  · rintro ⟨source, target⟩ member
    obtain ⟨node, instr, here, -, bound, rfl, rfl⟩ := mem_fallthroughEdges.1 member
    rw [FlowGraph.size_discrete]
    omega
  · rintro ⟨source, target⟩ member
    obtain ⟨node, instr, label, here, -, stands, rfl⟩ := (mem_branchEdges found).1 member
    rw [FlowGraph.size_addEdges, FlowGraph.size_discrete, Nat.zero_add]
    exact ⟨(List.getElem?_eq_some_iff.1 here).1, (labelledNode?_zero_iff.1 stands).lt⟩

/-- The graph exists exactly if each branch target is a label that an instruction stands behind. Its
nodes are the instructions in order, and its edges those to the next instruction, unless control
never falls through to it, and to what the branch target stands for. Successors and predecessors
mirror each other, also after any further edges between nodes. -/
theorem flowGraph_exact (code : Section) :
    ((∃ graph, code.flowGraph = .ok graph) ↔
        ∀ instr ∈ code.instructions, ∀ target ∈ instr.branchTarget?, ∃ before after,
          code.items = before ++ .label target :: after ∧ 0 < instrCount after) ∧
      ∀ graph, code.flowGraph = .ok graph →
        graph.nodes.toList.map FlowNode.instr = code.instructions ∧
        (∀ node succ, succ ∈ graph.succs node ↔ ∃ instr, code.instructions[node]? = some instr ∧
          (instr.fallsThrough = true ∧ succ = node + 1 ∧ succ < code.instructions.length ∨
            ∃ target ∈ instr.branchTarget?, Binds target code.items succ)) ∧
        graph.Mirrored ∧
        ∀ edges, (∀ edge ∈ edges, edge.1 < graph.size ∧ edge.2 < graph.size) →
          (graph.addEdges edges).Mirrored := by
  refine ⟨?_, fun graph built => ⟨instrs_flowGraph built, fun node succ => ?_,
    mirrored_flowGraph built, fun edges inside => (mirrored_flowGraph built).addEdges inside⟩⟩
  · rw [flowGraph_eq_ok_iff]
    simp only [labelledNode?_isSome_iff, any_instr?_iff, Option.mem_def]
  · rw [mem_succs_iff built]
    simp only [labelledNode?_zero_iff, Option.mem_def]

end Section

end MipsBackend
