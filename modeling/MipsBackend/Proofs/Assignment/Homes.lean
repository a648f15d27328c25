import MipsBackend.Proofs.Colouring.Conflicts
import MipsBackend.Proofs.Colouring.Validity

/-!
# Homes of registers

Both allocators give every register that a section mentions a home, and the home of a written
register is never the physical register of another one that is live behind the write
(`Assignment.Sound`). Spill code needs to know no more than this about an allocator.
-/

namespace MipsBackend

namespace PhysReg

theorem allocatable_nodup : allocatable.Nodup := by decide

theorem not_scratch_of_allocatable {reg : PhysReg} (member : reg ∈ allocatable) :
    reg ∉ scratch := by
  revert member
  cases reg <;> decide

theorem ne_zero_of_allocatable {reg : PhysReg} (member : reg ∈ allocatable) : reg ≠ zero := by
  rintro rfl
  revert member
  decide

end PhysReg

namespace Assignment

theorem home?_eq_reg_iff {assignment : Assignment} {reg : VReg} {phys : PhysReg} :
    assignment.home? reg = some (.reg phys) ↔ assignment.regs[reg]? = some phys := by
  unfold home?
  split
  · next found here => simp [here]
  · next here =>
    rw [here]
    split <;> simp

theorem home?_eq_slot_iff {assignment : Assignment} {reg : VReg} :
    assignment.home? reg = some .slot ↔
      assignment.regs[reg]? = none ∧ reg ∈ assignment.spilled := by
  unfold home?
  split
  · next found here => simp [here]
  · next here =>
    rw [here]
    split <;> simp_all

theorem home?_eq_none_iff {assignment : Assignment} {reg : VReg} :
    assignment.home? reg = none ↔ assignment.regs[reg]? = none ∧ reg ∉ assignment.spilled := by
  unfold home?
  split
  · next found here => simp [here]
  · next here =>
    rw [here]
    split <;> simp_all

def Covers (assignment : Assignment) (code : Section) : Prop :=
  ∀ reg ∈ code.registers, assignment.home? reg ≠ none

/-- An assignment that keeps apart what has to be kept apart. -/
structure Sound (assignment : Assignment) (code : Section) (graph : FlowGraph) : Prop where
  covers : assignment.Covers code
  allocatable : ∀ reg phys, assignment.home? reg = some (.reg phys) → phys ∈ PhysReg.allocatable
  apart : ∀ {node succ : Nat} {instr : Instr} {written reg : VReg},
    graph.instr? node = some instr → instr.virtualDef? = some written →
    succ ∈ graph.succs node → graph.LiveBefore reg succ → written ≠ reg →
    ∀ phys, assignment.home? written = some (.reg phys) → assignment.home? reg ≠ some (.reg phys)

/-! ## Everything spilled -/

theorem home?_allSpilled {regs : RegSet} {reg : VReg} :
    (allSpilled regs).home? reg = if reg ∈ regs then some .slot else none := by
  unfold home? allSpilled
  rw [Std.ExtTreeMap.getElem?_empty]

theorem covers_allSpilled (code : Section) : (allSpilled code.registers).Covers code := by
  intro reg member
  simp [home?_allSpilled, member]

theorem sound_allSpilled (code : Section) (graph : FlowGraph) :
    (allSpilled code.registers).Sound code graph where
  covers := covers_allSpilled code
  allocatable reg phys home := by
    rw [home?_allSpilled] at home
    split at home <;> cases home
  apart _ _ _ _ _ phys home := by
    rw [home?_allSpilled] at home
    split at home <;> cases home

/-! ## Colourings -/

theorem regs_ofColouring {colouring : Colouring} {reg : VReg} :
    (ofColouring colouring).regs[reg]? =
      colouring.colours[reg]?.bind (PhysReg.allocatable[·]?) := by
  rw [ofColouring, Std.ExtTreeMap.getElem?_filterMap']

theorem home?_ofColouring_eq_reg {colouring : Colouring} {reg : VReg} {phys : PhysReg}
    (home : (ofColouring colouring).home? reg = some (.reg phys)) :
    ∃ colour : Nat, colouring.colours[reg]? = some colour ∧
      PhysReg.allocatable[colour]? = some phys := by
  rw [home?_eq_reg_iff, regs_ofColouring] at home
  exact Option.bind_eq_some_iff.1 home

theorem colourCount_le (k : Nat) : colourCount k ≤ PhysReg.allocatable.length :=
  Nat.min_le_right _ _

theorem home?_ofColouring_ne_none {colouring : Colouring} {graph : InterferenceGraph} {k : Nat}
    (valid : colouring.Valid graph (colourCount k) graph.registers) {reg : VReg}
    (member : graph.contains reg = true) : (ofColouring colouring).home? reg ≠ none := by
  rw [ne_eq, home?_eq_none_iff, regs_ofColouring]
  rintro ⟨uncoloured, unspilled⟩
  rcases (valid.covered reg).2 (InterferenceGraph.mem_registers.2 member) with painted | spilled
  · obtain ⟨colour, found⟩ :=
      Option.isSome_iff_exists.1 (Std.ExtTreeMap.mem_iff_isSome_getElem?.1 painted)
    have bound := Nat.lt_of_lt_of_le (valid.bounded reg colour found) (colourCount_le k)
    rw [found, Option.bind_some, List.getElem?_eq_getElem bound] at uncoloured
    cases uncoloured
  · exact unspilled spilled

theorem contains_interference_of_mem_registers {code : Section} {graph : FlowGraph}
    (built : code.flowGraph = .ok graph) {reg : VReg} (member : reg ∈ code.registers) :
    (graph.interference graph.liveness.live).contains reg = true := by
  obtain ⟨instr, listed, mentioned⟩ := Section.mem_registers.1 member
  obtain ⟨node, here⟩ := List.getElem?_of_mem listed
  exact FlowGraph.contains_interference ((Section.instr?_flowGraph built node).trans here) mentioned

theorem sound_ofColouring {code : Section} {graph : FlowGraph} (built : code.flowGraph = .ok graph)
    (k : Nat) (heuristic : SpillHeuristic) :
    (ofColouring ((graph.interference graph.liveness.live).colour (colourCount k) heuristic)).Sound
      code graph := by
  let conflicts := graph.interference graph.liveness.live
  have valid : (conflicts.colour (colourCount k) heuristic).Valid conflicts (colourCount k)
      conflicts.registers :=
    (InterferenceGraph.colour_selected (graph.interference_wellFormed _) _ heuristic).valid
  refine ⟨fun reg member => ?_, fun reg phys home => ?_, ?_⟩
  · exact home?_ofColouring_ne_none valid (contains_interference_of_mem_registers built member)
  · obtain ⟨colour, -, found⟩ := home?_ofColouring_eq_reg home
    exact List.mem_of_getElem? found
  · intro node succ instr written reg here writes edge live distinct phys home other
    obtain ⟨first, painted, here₁⟩ := home?_ofColouring_eq_reg home
    obtain ⟨second, repainted, here₂⟩ := home?_ofColouring_eq_reg other
    have bound := (List.getElem?_eq_some_iff.1 here₁).1
    -- Colours stand for different registers, so sharing a register means sharing a colour.
    have same : first = second :=
      (List.getElem?_inj bound PhysReg.allocatable_nodup).1 (here₁.trans here₂.symm)
    have joined := FlowGraph.written_joined here writes edge live distinct
    exact valid.distinct written reg first joined painted (same ▸ repainted)

end Assignment

/-! ## Passes -/

theorem Pass.covers {pass : Pass} {code : Section} {assignment : Assignment}
    (assigned : pass.assignment code = .ok assignment) : assignment.Covers code := by
  cases pass with
  | naive =>
    cases assigned
    exact Assignment.covers_allSpilled code
  | colouring k heuristic =>
    obtain ⟨colouring, coloured, rfl⟩ := map_eq_ok.1 assigned
    obtain ⟨graph, built, rfl⟩ := Section.colour_eq_ok_iff.1 coloured
    exact (Assignment.sound_ofColouring built k heuristic).covers

end MipsBackend
