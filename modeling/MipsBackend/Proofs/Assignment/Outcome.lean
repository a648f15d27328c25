import Mathlib.Data.List.Sort
import MipsBackend.Proofs.Allocator
import MipsBackend.Proofs.Colouring.Exactness

/-!
# What a pass leaves behind

A pass takes the sections in order and treats each by itself: it adds a block of words for the
registers that it spills there (`Pass.slots`) and rewrites the section, or it finds a fault in the
section and stops. Every register of a section has a home, so nothing can go wrong once the block is
in the data.
-/

namespace MipsBackend

/-! ## Spilled registers -/

theorem Section.spilled_colour {code : Section} {k : Nat} {heuristic : SpillHeuristic}
    {colouring : Colouring} (coloured : code.colour k heuristic = .ok colouring) {reg : VReg}
    (spilled : reg ∈ colouring.spilled) : reg ∈ code.registers := by
  obtain ⟨graph, built, rfl⟩ := colour_eq_ok_iff.1 coloured
  have valid := (InterferenceGraph.colour_selected
    (graph.interference_wellFormed graph.liveness.live) (colourCount k) heuristic).valid
  have vertex := InterferenceGraph.mem_registers.1 ((valid.covered reg).1 (.inr spilled))
  obtain ⟨node, instr, here, mentioned⟩ := FlowGraph.contains_interference_iff.1 vertex
  rw [instr?_flowGraph built] at here
  exact mem_registers.2 ⟨instr, List.mem_of_getElem? here, mentioned⟩

theorem RegSet.ascending (regs : RegSet) : regs.toList.Pairwise (· < ·) :=
  Std.ExtTreeSet.ordered_toList.imp Nat.compare_eq_lt.1

namespace Pass

/-- The registers that the pass gives no physical register in the section, in ascending order. -/
def spilled (pass : Pass) (code : Section) : List VReg :=
  match pass with
  | naive => code.registers.toList
  | colouring k heuristic =>
    match code.colour k heuristic with
    | .ok found => found.spilled.toList
    | .error _ => []

/-- The words in which the spilled registers of a section live. -/
def slots (pass : Pass) (code : Section) : List DataItem :=
  match pass.spilled code with
  | [] => []
  | regs =>
    .comment "spill slots" ::
      regs.flatMap fun reg => [.label (.spill reg), .directive (.space 4)]

variable {pass : Pass} {code : Section} {assignment : Assignment}

theorem ascending_spilled (pass : Pass) (code : Section) :
    (pass.spilled code).Pairwise (· < ·) := by
  unfold spilled
  split
  · exact RegSet.ascending _
  · split
    · exact RegSet.ascending _
    · exact .nil

theorem slots_assignment (assigned : pass.assignment code = .ok assignment) :
    assignment.slots code = pass.spilled code := by
  have ascending : (assignment.slots code).Pairwise (· < ·) :=
    (RegSet.ascending code.registers).filter _
  refine ascending.eq_of_mem_iff (pass.ascending_spilled code) fun reg => ?_
  rw [Assignment.mem_slots]
  cases pass with
  | naive =>
    cases assigned
    simp [spilled, Assignment.allSpilled]
  | colouring k heuristic =>
    obtain ⟨colouring, coloured, rfl⟩ := map_eq_ok.1 assigned
    simp only [spilled, coloured, Std.ExtTreeSet.mem_toList, Assignment.ofColouring]
    exact ⟨And.right, fun member => ⟨Section.spilled_colour coloured member, member⟩⟩

theorem slotData_assignment (assigned : pass.assignment code = .ok assignment) :
    assignment.slotData code = pass.slots code := by
  have same := slots_assignment assigned
  unfold Assignment.slots at same
  unfold Assignment.slotData slots
  rw [same]
  rfl

end Pass

/-! ## Faults of a section -/

/-- What can be wrong with a section: a branch to a label that stands for no instruction, or markers
that do not save once and then restore once. -/
inductive Section.Fault (code : Section) : Violation → Prop
  | label {instr : Instr} {target : Label} (listed : instr ∈ code.instructions)
      (branches : instr.branchTarget? = some target)
      (unbound : labelledNode? target 0 code.items = none) : Fault code (.unboundLabel target)
  | markers (some : code.markers ≠ []) (unpaired : code.markers ≠ [.save, .restore]) :
      Fault code (.registerMarkers code.markers)

theorem branchEdge?_eq_error {items : List TextItem} {instr : Instr} {node : Nat}
    {violation : Violation} (fails : branchEdge? items instr node = .error violation) :
    ∃ target, instr.branchTarget? = some target ∧ labelledNode? target 0 items = none ∧
      violation = .unboundLabel target := by
  unfold branchEdge? at fails
  cases branches : instr.branchTarget? with
  | none => simp [branches] at fails
  | some target =>
    cases bound : labelledNode? target 0 items with
    | some destination => simp [branches, bound] at fails
    | none =>
      simp only [branches, bound, Except.error.injEq] at fails
      exact ⟨target, rfl, bound, fails.symm⟩

theorem branchEdges_eq_error {items : List TextItem} {instrs : List Instr} {node : Nat}
    {violation : Violation} (fails : branchEdges items node instrs = .error violation) :
    ∃ instr ∈ instrs, ∃ target, instr.branchTarget? = some target ∧
      labelledNode? target 0 items = none ∧ violation = .unboundLabel target := by
  induction instrs generalizing node with
  | nil => cases fails
  | cons first rest ih =>
    rcases bind_eq_error.1 fails with here | ⟨edge, -, walks⟩
    · exact ⟨first, List.mem_cons_self, branchEdge?_eq_error here⟩
    · rcases bind_eq_error.1 walks with there | ⟨later, -, joins⟩
      · obtain ⟨instr, listed, found⟩ := ih there
        exact ⟨instr, List.mem_cons_of_mem _ listed, found⟩
      · cases joins

namespace Section

variable {code : Section} {violation : Violation}

theorem fault_of_flowGraph (fails : code.flowGraph = .error violation) : code.Fault violation := by
  rcases bind_eq_error.1 fails with here | ⟨branches, -, builds⟩
  · obtain ⟨instr, listed, target, branches, unbound, rfl⟩ := branchEdges_eq_error here
    exact .label listed branches unbound
  · cases builds

theorem fault_of_assignment {pass : Pass} (fails : pass.assignment code = .error violation) :
    code.Fault violation := by
  cases pass with
  | naive => cases fails
  | colouring k heuristic =>
    have coloured : code.colour k heuristic = .error violation := by
      unfold Pass.assignment at fails
      cases found : code.colour k heuristic with
      | ok colouring => simp [found, Except.map] at fails
      | error here => simpa [found, Except.map] using fails
    rcases bind_eq_error.1 coloured with conflicts | ⟨graph, -, answers⟩
    · rcases bind_eq_error.1 conflicts with graph | ⟨graph, -, answers⟩
      · exact fault_of_flowGraph graph
      · cases answers
    · cases answers

theorem fault_of_checkMarkers (fails : code.checkMarkers = .error violation) :
    code.Fault violation := by
  unfold checkMarkers at fails
  split at fails
  · cases fails
  · cases fails
  · next none notPair =>
    cases fails
    exact .markers none notPair

end Section

/-! ## Sections one by one -/

namespace Pass

variable (pass : Pass)

/-- The pass by itself turns the section into another one. -/
def Allocates (code made : Section) : Prop :=
  ∀ data, pass.apply { data, sections := [code] } =
    ({ data := data ++ pass.slots code, sections := [made] }, .ok ())

/-- The pass by itself fails on the section. -/
def Refuses (code : Section) (violation : Violation) : Prop :=
  ∀ data, pass.apply { data, sections := [code] } =
    ({ data, sections := [code] }, .error violation)

/-- One section of a pass: it is rewritten and its words are added, or the pass stops there. -/
theorem applyAll_section (code : Section) :
    (∃ made, ∀ rest data, pass.applyAll (code :: rest) data =
      ((pass.applyAll rest (data ++ pass.slots code)).1,
        (pass.applyAll rest (data ++ pass.slots code)).2.map (made :: ·))) ∨
    ∃ violation, code.Fault violation ∧
      ∀ rest data, pass.applyAll (code :: rest) data = (data, .error violation) := by
  cases assigned : pass.assignment code with
  | error violation =>
    refine .inr ⟨violation, Section.fault_of_assignment assigned, fun rest data => ?_⟩
    simp only [applyAll, assigned]
  | ok assignment =>
    cases marked : code.checkMarkers with
    | error violation =>
      refine .inr ⟨violation, Section.fault_of_checkMarkers marked, fun rest data => ?_⟩
      simp only [applyAll, assigned, Assignment.apply, marked]
    | ok done =>
      refine .inl ⟨assignment.rewritten code, fun rest data => ?_⟩
      rw [pass.applyAll_cons assigned marked, slotData_assignment assigned]

/-- How far a pass comes: to the end, or to the first section with a fault. -/
theorem applyAll_cases (sections : List Section) (data : List DataItem) :
    (∃ made, List.Forall₂ pass.Allocates sections made ∧
      pass.applyAll sections data = (data ++ sections.flatMap pass.slots, .ok made)) ∨
    ∃ before code rest violation, sections = before ++ code :: rest ∧
      (∀ earlier ∈ before, ∃ made, pass.Allocates earlier made) ∧
      pass.Refuses code violation ∧ code.Fault violation ∧
      pass.applyAll sections data = (data ++ before.flatMap pass.slots, .error violation) := by
  induction sections generalizing data with
  | nil => exact .inl ⟨[], .nil, by simp [applyAll]⟩
  | cons code rest ih =>
    rcases pass.applyAll_section code with ⟨made, rewrites⟩ | ⟨violation, fault, stops⟩
    · have allocates : pass.Allocates code made := by
        intro data
        rw [apply, rewrites]
        rfl
      rcases ih (data ++ pass.slots code) with
        ⟨later, all, applied⟩ | ⟨before, faulty, behind, violation, rfl, fine, refuses, fault, applied⟩
      · refine .inl ⟨made :: later, .cons allocates all, ?_⟩
        rw [rewrites, applied, List.flatMap_cons, List.append_assoc]
        rfl
      · refine .inr ⟨code :: before, faulty, behind, violation, rfl,
          List.forall_mem_cons.2 ⟨⟨made, allocates⟩, fine⟩, refuses, fault, ?_⟩
        rw [rewrites, applied, List.flatMap_cons, List.append_assoc]
        rfl
    · refine .inr ⟨[], code, rest, violation, rfl, List.forall_mem_nil _, fun data => ?_, fault, ?_⟩
      · rw [apply, stops]
      · rw [stops, List.flatMap_nil, List.append_nil]

theorem data_of_apply {program after : Assembly} (applied : pass.apply program = (after, .ok ())) :
    after.data = program.data ++ program.sections.flatMap pass.slots := by
  rcases pass.applyAll_cases program.sections program.data with
    ⟨made, -, all⟩ | ⟨before, code, rest, violation, -, -, -, -, all⟩
  · rw [apply, all] at applied
    cases applied
    rfl
  · rw [apply, all] at applied
    cases applied

/-- A pass that fails leaves the text as it was, adds the slots of the sections before the first
that has a fault and nothing else, and reports what it reports for that section by itself. A pass
that succeeds makes of each section what it makes of it by itself, and adds the slots of all. -/
theorem apply_outcome (pass : Pass) (program : Assembly) :
    (∀ code, (pass.spilled code).Pairwise (· < ·)) ∧
    match pass.apply program with
    | (after, .ok ()) =>
      List.Forall₂ pass.Allocates program.sections after.sections ∧
        after.data = program.data ++ program.sections.flatMap pass.slots
    | (after, .error violation) =>
      after.sections = program.sections ∧
        ∃ before code rest, program.sections = before ++ code :: rest ∧
          (∀ earlier ∈ before, ∃ made, pass.Allocates earlier made) ∧
          pass.Refuses code violation ∧ code.Fault violation ∧
          after.data = program.data ++ before.flatMap pass.slots := by
  refine ⟨pass.ascending_spilled, ?_⟩
  rcases pass.applyAll_cases program.sections program.data with
    ⟨made, all, applied⟩ |
      ⟨before, code, rest, violation, split, fine, refuses, fault, applied⟩
  · rw [apply, applied]
    exact ⟨all, rfl⟩
  · rw [apply, applied]
    exact ⟨rfl, before, code, rest, split, fine, refuses, fault, rfl⟩

/-- The second section has a restoring marker alone. -/
example : naive.apply
    { data := []
      sections :=
        [ { items := [.instr (.loadImm (.virt 1) 5)] },
          { items := [.instr (.loadImm (.virt 2) 6), .instr (.marker .restore)] } ] } =
    ({ data := [.comment "spill slots", .label (.spill 1), .directive (.space 4)]
       sections :=
        [ { items := [.instr (.loadImm (.virt 1) 5)] },
          { items := [.instr (.loadImm (.virt 2) 6), .instr (.marker .restore)] } ] },
      .error (.registerMarkers [.restore])) := by
  decide +kernel

end Pass

end MipsBackend
