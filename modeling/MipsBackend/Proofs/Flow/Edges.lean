import MipsBackend.Flow.Graph

/-!
# The edges of a flow graph

`mem_succs_iff` reads the edges of a section's flow graph off the section itself: an instruction is
followed by the next one, unless it never falls through, and by the instruction its target stands
for. A graph exists exactly if every target stands for an instruction (`flowGraph_eq_ok_iff`).
-/

namespace MipsBackend

/-! ## Labels -/

theorem labelledNode?_isSome_iff {label : Label} {items : List TextItem} {node : Nat} :
    (labelledNode? label node items).isSome = true ↔
      ∃ before after, items = before ++ .label label :: after ∧
        after.any (·.instr?.isSome) = true := by
  induction items generalizing node with
  | nil => simp [labelledNode?]
  | cons item rest ih =>
    have tail : (∃ before after, item :: rest = before ++ .label label :: after ∧
        after.any (·.instr?.isSome) = true) ↔
        (item = .label label ∧ rest.any (·.instr?.isSome) = true) ∨
          ∃ before after, rest = before ++ .label label :: after ∧
            after.any (·.instr?.isSome) = true := by
      constructor
      · rintro ⟨before, after, split, follows⟩
        cases before with
        | nil =>
          cases split
          exact .inl ⟨rfl, follows⟩
        | cons head before =>
          cases split
          exact .inr ⟨before, after, rfl, follows⟩
      · rintro (⟨rfl, follows⟩ | ⟨before, after, rfl, follows⟩)
        · exact ⟨[], rest, rfl, follows⟩
        · exact ⟨item :: before, after, rfl, follows⟩
    rw [tail]
    cases item with
    | instr instr =>
      rw [labelledNode?, ih]
      simp
    | comment text =>
      rw [labelledNode?, ih]
      simp
    | label here =>
      rw [labelledNode?, Option.isSome_or, Bool.or_eq_true, ih, or_comm, TextItem.label.injEq]
      split
      · next stands => exact iff_of_true (.inl rfl) (.inl stands)
      · next other => exact or_congr_left (iff_of_false Bool.false_ne_true other)

namespace FlowGraph

/-! ## Adding edges -/

@[simp] theorem size_addEdge (graph : FlowGraph) (source target : Nat) :
    (graph.addEdge source target).size = graph.size := by
  unfold addEdge size
  split <;> simp

@[simp] theorem instr?_addEdge (graph : FlowGraph) (source target node : Nat) :
    (graph.addEdge source target).instr? node = graph.instr? node := by
  unfold addEdge instr?
  split
  · rfl
  · simp only [Array.getElem?_modify]
    cases graph.nodes[node]? <;> split <;> split <;> rfl

/-- A change of one node changes the list that `view` reads off this node, and no other. -/
theorem view_modify (nodes : Array FlowNode) (view : FlowNode → List Nat)
    (change : FlowNode → FlowNode) (update : List Nat → List Nat)
    (changes : ∀ node, view (change node) = update (view node)) (changed node : Nat) :
    ((nodes.modify changed change)[node]?.map view).getD [] =
      if changed = node ∧ node < nodes.size then update ((nodes[node]?.map view).getD [])
      else (nodes[node]?.map view).getD [] := by
  simp only [Array.getElem?_modify]
  by_cases bound : node < nodes.size
  · rw [Array.getElem?_eq_getElem bound]
    by_cases same : changed = node <;> simp [same, bound, changes]
  · rw [Array.getElem?_eq_none (Nat.le_of_not_lt bound)]
    by_cases same : changed = node <;> simp [bound]

theorem succs_addEdge {graph : FlowGraph} {source target : Nat}
    (new : target ∉ graph.succs source) (node : Nat) :
    (graph.addEdge source target).succs node =
      if source = node ∧ node < graph.size then graph.succs node ++ [target]
      else graph.succs node := by
  rw [addEdge, if_neg new]
  unfold succs
  rw [view_modify _ FlowNode.succs (fun node => { node with preds := node.preds ++ [source] }) id
      fun _ => rfl,
    view_modify _ FlowNode.succs (fun node => { node with succs := node.succs ++ [target] })
      (· ++ [target]) fun _ => rfl, id, ite_self]
  rfl

theorem preds_addEdge {graph : FlowGraph} {source target : Nat}
    (new : target ∉ graph.succs source) (node : Nat) :
    (graph.addEdge source target).preds node =
      if target = node ∧ node < graph.size then graph.preds node ++ [source]
      else graph.preds node := by
  rw [addEdge, if_neg new]
  unfold preds
  rw [view_modify _ FlowNode.preds (fun node => { node with preds := node.preds ++ [source] })
      (· ++ [source]) fun _ => rfl,
    view_modify _ FlowNode.preds (fun node => { node with succs := node.succs ++ [target] }) id
      fun _ => rfl, id, Array.size_modify]
  simp only [ite_self]
  rfl

theorem addEdge_of_mem {graph : FlowGraph} {source target : Nat}
    (old : target ∈ graph.succs source) : graph.addEdge source target = graph := by
  rw [addEdge, if_pos old]

theorem mem_succs_addEdge {graph : FlowGraph} {source target node succ : Nat} :
    succ ∈ (graph.addEdge source target).succs node ↔
      succ ∈ graph.succs node ∨ (node = source ∧ succ = target ∧ source < graph.size) := by
  by_cases old : target ∈ graph.succs source
  · rw [addEdge_of_mem old]
    constructor
    · exact Or.inl
    · rintro (known | ⟨rfl, rfl, -⟩)
      · exact known
      · exact old
  · rw [succs_addEdge old]
    split
    · next here =>
      obtain ⟨rfl, bound⟩ := here
      simp [bound]
    · next other =>
      constructor
      · exact Or.inl
      · rintro (known | ⟨rfl, -, bound⟩)
        · exact known
        · exact absurd ⟨rfl, bound⟩ other

@[simp] theorem size_addEdges (graph : FlowGraph) (edges : List (Nat × Nat)) :
    (graph.addEdges edges).size = graph.size := by
  unfold addEdges
  induction edges generalizing graph with
  | nil => rfl
  | cons edge rest ih => rw [List.foldl_cons, ih, size_addEdge]

@[simp] theorem instr?_addEdges (graph : FlowGraph) (edges : List (Nat × Nat)) (node : Nat) :
    (graph.addEdges edges).instr? node = graph.instr? node := by
  unfold addEdges
  induction edges generalizing graph with
  | nil => rfl
  | cons edge rest ih => rw [List.foldl_cons, ih, instr?_addEdge]

theorem mem_succs_addEdges {graph : FlowGraph} {edges : List (Nat × Nat)} {node succ : Nat} :
    succ ∈ (graph.addEdges edges).succs node ↔
      succ ∈ graph.succs node ∨ ((node, succ) ∈ edges ∧ node < graph.size) := by
  induction edges generalizing graph with
  | nil => simp [addEdges]
  | cons edge rest ih =>
    have step : (graph.addEdges (edge :: rest)) = (graph.addEdge edge.1 edge.2).addEdges rest := rfl
    rw [step, ih, mem_succs_addEdge, size_addEdge, List.mem_cons, Prod.ext_iff]
    constructor
    · rintro ((old | ⟨rfl, rfl, bound⟩) | ⟨later, bound⟩)
      · exact .inl old
      · exact .inr ⟨.inl ⟨rfl, rfl⟩, bound⟩
      · exact .inr ⟨.inr later, bound⟩
    · rintro (old | ⟨⟨rfl, rfl⟩ | later, bound⟩)
      · exact .inl (.inl old)
      · exact .inl (.inr ⟨rfl, rfl, bound⟩)
      · exact .inr ⟨later, bound⟩

@[simp] theorem size_discrete (instrs : List Instr) : (discrete instrs).size = instrs.length := by
  simp [discrete, size]

@[simp] theorem instr?_discrete (instrs : List Instr) (node : Nat) :
    (discrete instrs).instr? node = instrs[node]? := by
  simp [discrete, instr?, Function.comp_def]

@[simp] theorem succs_discrete (instrs : List Instr) (node : Nat) :
    (discrete instrs).succs node = [] := by
  unfold succs discrete
  simp only [List.getElem?_toArray, List.getElem?_map]
  cases instrs[node]? <;> rfl

end FlowGraph

/-! ## Edges between neighbours -/

theorem mem_fallthroughEdges {start source target : Nat} {instrs : List Instr} :
    (source, target) ∈ fallthroughEdges start instrs ↔
      ∃ node instr, instrs[node]? = some instr ∧ instr.fallsThrough = true ∧
        node + 1 < instrs.length ∧ source = start + node ∧ target = start + node + 1 := by
  induction instrs generalizing start with
  | nil => simp [fallthroughEdges]
  | cons first rest ih =>
    cases rest with
    | nil => simp [fallthroughEdges]
    | cons second rest =>
      have later : (source, target) ∈ fallthroughEdges (start + 1) (second :: rest) ↔
          ∃ node instr, (first :: second :: rest)[node + 1]? = some instr ∧
            instr.fallsThrough = true ∧ node + 1 + 1 < (first :: second :: rest).length ∧
            source = start + (node + 1) ∧ target = start + (node + 1) + 1 := by
        rw [ih]
        simp only [List.getElem?_cons_succ, List.length_cons, Nat.add_lt_add_iff_right]
        grind
      have split : (source, target) ∈ fallthroughEdges start (first :: second :: rest) ↔
          (first.fallsThrough = true ∧ source = start ∧ target = start + 1) ∨
            (source, target) ∈ fallthroughEdges (start + 1) (second :: rest) := by
        simp only [fallthroughEdges]
        split <;> simp_all
      rw [split, later]
      constructor
      · rintro (⟨falls, rfl, rfl⟩ | ⟨node, found⟩)
        · exact ⟨0, first, by simpa using falls⟩
        · exact ⟨node + 1, found⟩
      · rintro ⟨node, instr, found, falls, bound, rfl, rfl⟩
        cases node with
        | zero =>
          simp only [List.getElem?_cons_zero, Option.some.injEq] at found
          exact .inl ⟨found ▸ falls, rfl, rfl⟩
        | succ node => exact .inr ⟨node, instr, found, falls, bound, rfl, rfl⟩

/-! ## Edges to labels -/

theorem branchEdge?_eq_ok {items : List TextItem} {instr : Instr} {node : Nat}
    {edge : Option (Nat × Nat)} (found : branchEdge? items instr node = .ok edge) (a b : Nat) :
    (a, b) ∈ edge.toList ↔
      ∃ label, instr.branchTarget? = some label ∧ labelledNode? label 0 items = some b ∧
        a = node := by
  unfold branchEdge? at found
  cases target : instr.branchTarget? with
  | none =>
    simp only [target, Except.ok.injEq] at found
    simp [← found]
  | some label =>
    cases bound : labelledNode? label 0 items with
    | none => simp [target, bound] at found
    | some destination =>
      simp only [target, bound, Except.ok.injEq] at found
      simp only [← found, Option.toList_some, List.mem_singleton, Prod.mk.injEq,
        Option.some.injEq, exists_eq_left', bound]
      exact ⟨fun same => ⟨same.2.symm, same.1⟩, fun same => ⟨same.2, same.1.symm⟩⟩

theorem mem_branchEdges {items : List TextItem} {instrs : List Instr} {start : Nat}
    {edges : List (Nat × Nat)} (found : branchEdges items start instrs = .ok edges)
    {source target : Nat} :
    (source, target) ∈ edges ↔
      ∃ node instr label, instrs[node]? = some instr ∧ instr.branchTarget? = some label ∧
        labelledNode? label 0 items = some target ∧ source = start + node := by
  induction instrs generalizing start edges with
  | nil =>
    simp only [branchEdges, Except.ok.injEq] at found
    simp [← found]
  | cons first rest ih =>
    obtain ⟨edge, here, walks⟩ := bind_eq_ok.1 found
    obtain ⟨later, there, joins⟩ := bind_eq_ok.1 walks
    cases joins
    rw [List.mem_append, branchEdge?_eq_ok here, ih there]
    constructor
    · rintro (⟨label, first, second, rfl⟩ | ⟨node, instr, label, known, first, second, rfl⟩)
      · exact ⟨0, _, label, rfl, first, second, rfl⟩
      · exact ⟨node + 1, instr, label, known, first, second, by omega⟩
    · rintro ⟨node, instr, label, known, first, second, rfl⟩
      cases node with
      | zero =>
        simp only [List.getElem?_cons_zero, Option.some.injEq] at known
        exact .inl ⟨label, known ▸ first, second, rfl⟩
      | succ node => exact .inr ⟨node, instr, label, known, first, second, by omega⟩

theorem branchEdges_eq_ok_iff {items : List TextItem} {instrs : List Instr} {start : Nat} :
    (∃ edges, branchEdges items start instrs = .ok edges) ↔
      ∀ instr ∈ instrs, ∀ label, instr.branchTarget? = some label →
        (labelledNode? label 0 items).isSome = true := by
  induction instrs generalizing start with
  | nil => simp [branchEdges]
  | cons first rest ih =>
    rw [List.forall_mem_cons, ← @ih (start + 1)]
    have here : (∃ edge, branchEdge? items first start = .ok edge) ↔
        ∀ label, first.branchTarget? = some label →
          (labelledNode? label 0 items).isSome = true := by
      unfold branchEdge?
      cases first.branchTarget? with
      | none => simp
      | some label => cases bound : labelledNode? label 0 items <;> simp [bound]
    rw [← here]
    constructor
    · rintro ⟨edges, found⟩
      obtain ⟨edge, known, walks⟩ := bind_eq_ok.1 found
      obtain ⟨later, walked, -⟩ := bind_eq_ok.1 walks
      exact ⟨⟨edge, known⟩, later, walked⟩
    · rintro ⟨⟨edge, known⟩, later, walked⟩
      exact ⟨_, bind_eq_ok.2 ⟨edge, known, bind_eq_ok.2 ⟨later, walked, rfl⟩⟩⟩

/-! ## The graph of a section -/

namespace Section

theorem flowGraph_eq_ok {code : Section} {graph : FlowGraph} (built : code.flowGraph = .ok graph) :
    ∃ branches, branchEdges code.items 0 code.instructions = .ok branches ∧
      graph = ((FlowGraph.discrete code.instructions).addEdges
        (fallthroughEdges 0 code.instructions)).addEdges branches := by
  obtain ⟨branches, found, builds⟩ := bind_eq_ok.1 built
  exact ⟨branches, found, (Except.ok.inj builds).symm⟩

theorem flowGraph_eq_ok_iff {code : Section} :
    (∃ graph, code.flowGraph = .ok graph) ↔
      ∀ instr ∈ code.instructions, ∀ label, instr.branchTarget? = some label →
        (labelledNode? label 0 code.items).isSome = true := by
  rw [← @branchEdges_eq_ok_iff _ _ 0]
  constructor
  · rintro ⟨graph, built⟩
    obtain ⟨branches, found, -⟩ := flowGraph_eq_ok built
    exact ⟨branches, found⟩
  · rintro ⟨branches, found⟩
    exact ⟨_, bind_eq_ok.2 ⟨branches, found, rfl⟩⟩

theorem instr?_flowGraph {code : Section} {graph : FlowGraph} (built : code.flowGraph = .ok graph)
    (node : Nat) : graph.instr? node = code.instructions[node]? := by
  obtain ⟨branches, -, rfl⟩ := flowGraph_eq_ok built
  simp

theorem size_flowGraph {code : Section} {graph : FlowGraph} (built : code.flowGraph = .ok graph) :
    graph.size = code.instructions.length := by
  obtain ⟨branches, -, rfl⟩ := flowGraph_eq_ok built
  simp

theorem mem_succs_iff {code : Section} {graph : FlowGraph} (built : code.flowGraph = .ok graph)
    {node succ : Nat} :
    succ ∈ graph.succs node ↔ ∃ instr, code.instructions[node]? = some instr ∧
      ((instr.fallsThrough = true ∧ succ = node + 1 ∧ succ < code.instructions.length) ∨
        ∃ label, instr.branchTarget? = some label ∧
          labelledNode? label 0 code.items = some succ) := by
  obtain ⟨branches, found, rfl⟩ := flowGraph_eq_ok built
  rw [FlowGraph.mem_succs_addEdges, FlowGraph.mem_succs_addEdges, FlowGraph.succs_discrete,
    FlowGraph.size_addEdges, FlowGraph.size_discrete, mem_fallthroughEdges,
    mem_branchEdges found]
  simp only [List.not_mem_nil, false_or, Nat.zero_add]
  constructor
  · rintro (⟨⟨here, instr, known, falls, bound, rfl, rfl⟩, -⟩ |
      ⟨⟨here, instr, label, known, target, stands, rfl⟩, -⟩)
    · exact ⟨instr, known, .inl ⟨falls, rfl, bound⟩⟩
    · exact ⟨instr, known, .inr ⟨label, target, stands⟩⟩
  · rintro ⟨instr, known, ⟨falls, rfl, bound⟩ | ⟨label, target, stands⟩⟩
    · exact .inl ⟨⟨node, instr, known, falls, bound, rfl, rfl⟩, by omega⟩
    · exact .inr ⟨⟨node, instr, label, known, target, stands, rfl⟩,
        (List.getElem?_eq_some_iff.1 known).1⟩

end Section

end MipsBackend
