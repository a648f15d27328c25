import MipsBackend.Proofs.Assignment.Effect

/-!
# Allocation keeps the meaning of code

A step of a section is matched by a run of the code that its instruction became, from the start of
this code to the start of the code of the next instruction. By induction a whole run of the section
is matched by a run of the allocated one.
-/

namespace MipsBackend

def Point.map (move : Nat → Nat) : Point → Point
  | inside node => inside (move node)
  | outside target => outside target

namespace Assignment

variable {assignment : Assignment} {platform : Platform} {code : Section} {graph : FlowGraph}
  {node : Nat} {instr : Instr}

/-! ## Code without markers -/

theorem instrCode_of_unmarked (unmarked : code.markers = [])
    (here : code.instructions[node]? = some instr) (state : SavedState) :
    assignment.instrCode state instr = assignment.expansion instr := by
  have plain : instr.marker? = none :=
    List.filterMap_eq_nil_iff.1 unmarked instr (List.mem_of_getElem? here)
  cases instr with
  | marker kind => cases plain
  | _ => rfl

theorem holds_expansion (unmarked : code.markers = [])
    (here : code.instructions[node]? = some instr) :
    (assignment.rewritten code).Holds (assignment.startOf code node)
      (assignment.expansion instr) := by
  rw [← instrCode_of_unmarked unmarked here (assignment.savedState code)]
  exact rewritten_drop_startOf here

theorem startOf_next (unmarked : code.markers = [])
    (here : code.instructions[node]? = some instr) :
    assignment.startOf code (node + 1) =
      assignment.startOf code node + (assignment.expansion instr).length := by
  rw [startOf_succ here, instrCode_of_unmarked unmarked here]

/-! ## Control -/

theorem follow_live (built : code.flowGraph = .ok graph)
    (here : code.instructions[node]? = some instr) {machine : Machine} {point : Point}
    (goes : code.follow node (instr.control machine) = some point) (reg : VReg)
    (alive : point.Live graph reg) : ∃ succ ∈ graph.succs node, graph.LiveBefore reg succ := by
  cases way : instr.control machine with
  | next =>
    rw [way] at goes
    cases goes
    have bound : node + 1 < code.instructions.length := by
      rw [← Section.size_flowGraph built]
      cases alive with
      | read there used => exact FlowGraph.lt_size_iff.2 ⟨_, there⟩
      | later there edge kept next => exact FlowGraph.lt_size_iff.2 ⟨_, there⟩
    refine ⟨node + 1, (Section.mem_succs_iff built).2 ⟨instr, here, .inl ?_⟩, alive⟩
    exact ⟨Instr.fallsThrough_of_control way, rfl, bound⟩
  | goto target =>
    rw [way] at goes
    obtain ⟨succ, stands, rfl⟩ := Option.map_eq_some_iff.1 goes
    refine ⟨succ, (Section.mem_succs_iff built).2 ⟨instr, here, .inr ?_⟩, alive⟩
    exact ⟨target, Instr.branchTarget?_of_control way, stands⟩
  | leave target =>
    rw [way] at goes
    cases goes
    exact alive.elim

theorem follow_rewritten (unmarked : code.markers = []) {control : Control} {point : Point}
    (branches : control ≠ .next) (goes : code.follow node control = some point) (start : Nat) :
    (assignment.rewritten code).follow start control =
      some (point.map (assignment.startOf code)) := by
  cases control with
  | next => exact absurd rfl branches
  | leave target =>
    cases goes
    rfl
  | goto target =>
    obtain ⟨succ, stands, rfl⟩ := Option.map_eq_some_iff.1 goes
    have nonempty : ∀ instr ∈ code.instructions,
        assignment.instrCode (assignment.savedState code) instr ≠ [] := by
      intro instr member
      obtain ⟨node, here⟩ := List.getElem?_of_mem member
      rw [instrCode_of_unmarked unmarked here]
      exact assignment.expansion_ne_nil instr
    rw [Section.follow, labelledNode?_rewritten nonempty, stands]
    rfl

/-! ## Steps -/

theorem isStraight_storeBack (assignment : Assignment) (instr : Instr) :
    ∀ other ∈ assignment.storeBack instr, other.isStraight = true := by
  unfold storeBack storeSlot
  cases instr.virtualDef? with
  | none => exact fun _ member => nomatch member
  | some written =>
    simp only
    split
    · simp [Instr.isStraight, Instr.sw]
    · exact fun _ member => nomatch member

theorem steps_expansion {source target : Machine} {point : Point} (unmarked : code.markers = [])
    (here : code.instructions[node]? = some instr) (inside : instr.isLocal = true)
    (control : (instr.mapRegisters (assignment.place instr)).control
        (platform.perform target (Platform.loadSlots (assignment.spilledUses instr))) =
      instr.control source)
    (goes : code.follow node (instr.control source) = some point) :
    (assignment.rewritten code).Steps platform (assignment.expansion instr).length
      (.inside (assignment.startOf code node), target)
      (point.map (assignment.startOf code),
        platform.perform target (assignment.expansion instr)) := by
  let loads := Platform.loadSlots (assignment.spilledUses instr)
  let moved := instr.mapRegisters (assignment.place instr)
  let back := assignment.storeBack instr
  let start := assignment.startOf code node
  let loaded := platform.perform target loads
  let changed := loaded.apply (moved.change platform.address loaded)
  -- The three parts of the code run one after the other.
  have parts : assignment.expansion instr = loads ++ moved :: back := rfl
  have holds : (assignment.rewritten code).Holds start (loads ++ moved :: back) :=
    holds_expansion unmarked here
  obtain ⟨holdsLoads, holdsRest⟩ := Section.holds_append.1 holds
  have first : (assignment.rewritten code).Steps platform loads.length (.inside start, target)
      (.inside (start + loads.length), loaded) :=
    .straight holdsLoads Platform.isStraight_loadSlots target
  have changes : platform.Changes loaded changed moved :=
    (Instr.changes_iff ((Instr.isLocal_mapRegisters _ instr).trans inside)).2 rfl
  have count : (loads ++ moved :: back).length = loads.length + (1 + back.length) := by
    rw [List.length_append, List.length_cons, Nat.add_comm 1]
  rw [parts, platform.perform_append, platform.perform_cons, count]
  refine first.trans ?_
  by_cases straight : instr.control source = .next
  · rw [straight] at goes
    cases goes
    have second : (assignment.rewritten code).Step platform (.inside (start + loads.length), loaded)
        (.inside (start + loads.length + 1), changed) :=
      .step holdsRest.head changes (by rw [control, straight]; rfl)
    have third := @Section.Steps.straight platform _ _ _ holdsRest.tail
      (assignment.isStraight_storeBack instr) changed
    have finish : start + loads.length + 1 + back.length = assignment.startOf code (node + 1) := by
      rw [startOf_next unmarked here, parts, count]
      omega
    rw [Point.map, ← finish]
    exact (Section.Steps.one second).trans third
  · have nothing : back = [] := by
      simp only [back, storeBack, Instr.virtualDef?, Instr.def?_of_control straight,
        Option.bind_none]
    have follows := @follow_rewritten assignment code node unmarked _ point straight goes
      (start + loads.length)
    have second : (assignment.rewritten code).Step platform (.inside (start + loads.length), loaded)
        (point.map (assignment.startOf code), changed) :=
      .step holdsRest.head changes (by rw [control]; exact follows)
    rw [nothing]
    exact .one second

theorem Related.step_local {source target : Machine} {point : Point}
    (sound : assignment.Sound code graph) (built : code.flowGraph = .ok graph)
    (respects : platform.Respects (assignment.slots code)) (free : code.NamesNoReserved)
    (unmarked : code.markers = []) (here : code.instructions[node]? = some instr)
    (inside : instr.isLocal = true)
    (related : assignment.Related platform code graph (.inside node) source target)
    (spares : ∀ byte ∈ instr.touched source, ∀ reg ∈ assignment.slots code,
      byte ∉ platform.slotBytes reg)
    (goes : code.follow node (instr.control source) = some point) :
    ∃ after, (assignment.rewritten code).Steps platform (assignment.expansion instr).length
        (.inside (assignment.startOf code node), target)
        (point.map (assignment.startOf code), after) ∧
      assignment.Related platform code graph point
        (source.apply (instr.change platform.address source)) after := by
  let moved := instr.mapRegisters (assignment.place instr)
  let loaded := platform.perform target (Platform.loadSlots (assignment.spilledUses instr))
  obtain ⟨relatedLoaded, reads⟩ := related.load sound built free here
  have change : moved.change platform.address loaded =
      (instr.change platform.address source).rename assignment.defPlace := by
    refine Instr.change_mapRegisters reads (fun byte member => ?_)
      relatedLoaded.agrees.hi relatedLoaded.agrees.lo
    exact relatedLoaded.agrees.memory byte (spares byte member)
  have settled := relatedLoaded.settle sound built respects free here spares
    (follow_live built here goes)
  rw [← change, ← platform.perform_cons, ← platform.perform_append] at settled
  exact ⟨_, steps_expansion unmarked here inside (Instr.control_mapRegisters reads) goes, settled⟩

theorem Related.step_outside {source after target : Machine} {effect : Machine → Machine → Prop}
    (built : code.flowGraph = .ok graph) (sound : assignment.Sound code graph)
    (outside : platform.Outside (assignment.slots code) effect) (unmarked : code.markers = [])
    (here : code.instructions[node]? = some instr) (alone : assignment.expansion instr = [instr])
    (plain : instr.virtualDef? = none) (next : ∀ machine, instr.control machine = .next)
    (changes : ∀ before after, platform.Changes before after instr ↔ effect before after)
    (effects : effect source after)
    (related : assignment.Related platform code graph (.inside node) source target) :
    ∃ result, (assignment.rewritten code).Steps platform (assignment.expansion instr).length
        (.inside (assignment.startOf code node), target)
        (.inside (assignment.startOf code (node + 1)), result) ∧
      assignment.Related platform code graph (.inside (node + 1)) after result := by
  obtain ⟨result, same, agrees, keeps⟩ := outside.matched source after target effects related.agrees
  have holds : (assignment.rewritten code).Holds (assignment.startOf code node) [instr] :=
    alone ▸ holds_expansion unmarked here
  refine ⟨result, ?_, agrees, fun reg alive => ?_⟩
  · rw [startOf_next unmarked here, alone]
    exact .one (.step holds.head ((changes _ _).2 same) (by rw [next]; rfl))
  · have goes : code.follow node (instr.control source) = some (.inside (node + 1)) := by
      rw [next]
      rfl
    obtain ⟨succ, edge, later⟩ := follow_live built here goes reg alive
    have live : (Point.inside node).Live graph reg :=
      .later ((Section.instr?_flowGraph built node).trans here) edge (by simp [plain]) later
    rw [outside.virt source after effects, valueIn_keeps sound keeps (mem_slots_of_live built live)]
    exact related.values reg live

end Assignment

/-- The instruction about to run reads and writes no byte of a slot. -/
def Section.Spares (platform : Platform) (slots : List VReg) (code : Section) (config : Config) :
    Prop :=
  ∀ node instr, config.1 = .inside node → code.instructions[node]? = some instr →
    ∀ byte ∈ instr.touched config.2, ∀ reg ∈ slots, byte ∉ platform.slotBytes reg

def Section.SparingStep (platform : Platform) (slots : List VReg) (code : Section)
    (first last : Config) : Prop :=
  code.Spares platform slots first ∧ code.Step platform first last

namespace Assignment

variable {assignment : Assignment} {platform : Platform} {code : Section} {graph : FlowGraph}

theorem Related.step {node : Nat} {instr : Instr} {source after target : Machine} {point : Point}
    (sound : assignment.Sound code graph) (built : code.flowGraph = .ok graph)
    (respects : platform.Respects (assignment.slots code)) (free : code.NamesNoReserved)
    (unmarked : code.markers = []) (here : code.instructions[node]? = some instr)
    (related : assignment.Related platform code graph (.inside node) source target)
    (step : code.SparingStep platform (assignment.slots code)
      (.inside node, source) (point, after)) :
    ∃ result, (assignment.rewritten code).Steps platform (assignment.expansion instr).length
        (.inside (assignment.startOf code node), target)
        (point.map (assignment.startOf code), result) ∧
      assignment.Related platform code graph point after result := by
  obtain ⟨spares, step⟩ := step
  have spares := spares node instr rfl here
  cases step with
  | step found changes goes =>
    obtain rfl := Option.some.inj (here.symm.trans found)
    cases inside : instr.isLocal with
    | true =>
      obtain rfl := (Instr.changes_iff inside).1 changes
      exact related.step_local sound built respects free unmarked here inside spares goes
    | false =>
      cases instr with
      | syscall =>
        cases goes
        exact related.step_outside built sound respects.system unmarked here rfl rfl
          (fun _ => rfl) (fun _ _ => Iff.rfl) changes
      | call target =>
        cases goes
        exact related.step_outside built sound (respects.called target) unmarked here rfl rfl
          (fun _ => rfl) (fun _ _ => Iff.rfl) changes
      | _ => cases inside

theorem Related.run {first last : Config} {target : Machine}
    (sound : assignment.Sound code graph) (built : code.flowGraph = .ok graph)
    (respects : platform.Respects (assignment.slots code)) (free : code.NamesNoReserved)
    (unmarked : code.markers = [])
    (related : assignment.Related platform code graph first.1 first.2 target)
    (run : Relation.ReflTransGen (code.SparingStep platform (assignment.slots code)) first last) :
    ∃ result, Relation.ReflTransGen ((assignment.rewritten code).Step platform)
        (first.1.map (assignment.startOf code), target)
        (last.1.map (assignment.startOf code), result) ∧
      assignment.Related platform code graph last.1 last.2 result := by
  induction run with
  | refl => exact ⟨target, .refl, related⟩
  | @tail before after run step ih =>
    obtain ⟨reached, steps, held⟩ := ih
    obtain ⟨spares, moves⟩ := step
    cases moves with
    | step here changes goes =>
      obtain ⟨result, later, holds⟩ := held.step sound built respects free unmarked here
        ⟨spares, .step here changes goes⟩
      exact ⟨result, steps.trans later.run, holds⟩

/-- The allocated section does what the section does, step by step and run by run. -/
structure Simulates (assignment : Assignment) (platform : Platform) (code : Section)
    (graph : FlowGraph) (allocated : Section) : Prop where
  placed : ∀ node instr, code.instructions[node]? = some instr →
    allocated.Holds (assignment.startOf code node) (assignment.expansion instr)
  step : ∀ node instr source target point after, code.instructions[node]? = some instr →
    assignment.Related platform code graph (.inside node) source target →
    code.SparingStep platform (assignment.slots code) (.inside node, source) (point, after) →
    ∃ result, allocated.Steps platform (assignment.expansion instr).length
        (.inside (assignment.startOf code node), target)
        (point.map (assignment.startOf code), result) ∧
      assignment.Related platform code graph point after result
  run : ∀ first last target, assignment.Related platform code graph first.1 first.2 target →
    Relation.ReflTransGen (code.SparingStep platform (assignment.slots code)) first last →
    ∃ result, Relation.ReflTransGen (allocated.Step platform)
        (first.1.map (assignment.startOf code), target)
        (last.1.map (assignment.startOf code), result) ∧
      assignment.Related platform code graph last.1 last.2 result

theorem simulates_rewritten (sound : assignment.Sound code graph)
    (built : code.flowGraph = .ok graph) (respects : platform.Respects (assignment.slots code))
    (free : code.NamesNoReserved) (unmarked : code.markers = []) :
    assignment.Simulates platform code graph (assignment.rewritten code) where
  placed _ _ here := holds_expansion unmarked here
  step _ _ _ _ _ _ here related step := related.step sound built respects free unmarked here step
  run _ _ _ related run := related.run sound built respects free unmarked run

end Assignment

namespace Section

theorem checkMarkers_of_unmarked {code : Section} (unmarked : code.markers = []) :
    code.checkMarkers = .ok () := by
  rw [checkMarkers, unmarked]

/-- Allocation succeeds and keeps the meaning of the section, whether registers are coloured or all
of them are spilled. -/
theorem allocation_simulates {code : Section} {k : Nat} {heuristic : SpillHeuristic}
    {colouring : Colouring} {assignment : Assignment} {platform : Platform}
    (unmarked : code.markers = []) (free : code.NamesNoReserved)
    (coloured : code.colour k heuristic = .ok colouring)
    (chosen : assignment = .ofColouring colouring ∨ assignment = .allSpilled code.registers)
    (respects : platform.Respects (assignment.slots code)) (data : List DataItem) :
    ∃ graph allocated, code.flowGraph = .ok graph ∧
      assignment.apply code data = (data ++ assignment.slotData code, .ok allocated) ∧
      assignment.Simulates platform code graph allocated := by
  obtain ⟨graph, built, rfl⟩ := colour_eq_ok_iff.1 coloured
  have sound : assignment.Sound code graph := by
    rcases chosen with rfl | rfl
    · exact Assignment.sound_ofColouring built k heuristic
    · exact Assignment.sound_allSpilled code graph
  have applied := Assignment.apply_eq_ok (checkMarkers_of_unmarked unmarked) sound.covers data
  exact ⟨graph, assignment.rewritten code, built, applied,
    Assignment.simulates_rewritten sound built respects free unmarked⟩

/-! ## A loop with one register too few -/

/-- Adds up the numbers from three down, and calls a function for each. -/
def summation : Section :=
  { items :=
      [ .instr (.loadImm (.virt 0) 3), .instr (.loadImm (.virt 1) 0),
        .label ⟨"loop"⟩, .instr (.call (.function "tick")),
        .instr (.arith .add (.virt 1) (.virt 1) (.virt 0)),
        .instr (.arithImm .addi (.virt 0) (.virt 0) (-1)),
        .instr (.branchZero .bnez (.virt 0) ⟨"loop"⟩),
        .instr (.move .v0 (.virt 1)), .instr (.jumpReg .ra) ] }

/-- Called functions answer one. -/
def answering : Platform where
  address label := if label = .spill 0 then 4096 else if label = .spill 1 then 4100 else 8192
  system before after := after = before
  called _ before after := after = before.write .v0 1

theorem summation_registers {reg : VReg} (member : reg ∈ summation.registers) :
    reg = 0 ∨ reg = 1 := by
  obtain ⟨instr, listed, mentioned⟩ := mem_registers.1 member
  have small : ∀ instr ∈ summation.instructions, ∀ reg ∈ instr.virtualOperands,
      reg = 0 ∨ reg = 1 := by decide
  exact small instr listed reg mentioned

theorem answering_respects {slots : List VReg} (known : ∀ reg ∈ slots, reg = 0 ∨ reg = 1) :
    answering.Respects slots where
  apart reg member other listed distinct := by
    have names : Label.spill 1 ≠ .spill 0 := by decide
    have first : answering.slotBytes 0 = wordAt 4096 := rfl
    have second : answering.slotBytes 1 = wordAt 4100 := by
      simp only [Platform.slotBytes, Platform.slotAt, answering, if_neg names, if_true]
    rcases known reg member with rfl | rfl <;> rcases known other listed with rfl | rfl
    · exact absurd rfl distinct
    · simp [first, second, wordAt]
    · simp [first, second, wordAt]
    · exact absurd rfl distinct
  system :=
    { virt := fun _ _ same => same ▸ rfl
      matched := fun _ _ other same agrees => ⟨other, rfl, same ▸ agrees, .refl other⟩ }
  called _ :=
    { virt := fun _ _ same => same ▸ rfl
      matched := by
        intro before after other same agrees
        have free : ∀ dst value, Change.reg .v0 1 = .reg dst value →
            ∃ reg ∉ PhysReg.reserved, dst = .phys reg := by
          intro dst value same
          cases same
          exact ⟨.v0, by decide, rfl⟩
        exact ⟨other.write .v0 1, rfl, same ▸ agrees.apply free, .write (by decide) other 1⟩ }

theorem allocation_simulates_summation :
    ∃ colouring graph allocated, summation.markers = [] ∧ summation.NamesNoReserved ∧
      summation.colour 1 .mostConnected = .ok colouring ∧
      answering.Respects ((Assignment.ofColouring colouring).slots summation) ∧
      summation.flowGraph = .ok graph ∧
      (Assignment.ofColouring colouring).apply summation [] =
        ((Assignment.ofColouring colouring).slotData summation, .ok allocated) ∧
      (Assignment.ofColouring colouring).Simulates answering summation graph allocated := by
  have unmarked : summation.markers = [] := by decide
  have free : summation.NamesNoReserved := by
    unfold NamesNoReserved
    decide
  obtain ⟨graph, built⟩ : ∃ graph, summation.flowGraph = .ok graph :=
    flowGraph_eq_ok_iff.2 (by decide +kernel)
  have coloured : summation.colour 1 .mostConnected = .ok
      ((graph.interference graph.liveness.live).colour (colourCount 1) .mostConnected) :=
    colour_eq_ok_iff.2 ⟨graph, built, rfl⟩
  have respects : ∀ assignment : Assignment, answering.Respects (assignment.slots summation) :=
    fun assignment => answering_respects fun reg member =>
      summation_registers (Assignment.mem_slots.1 member).1
  obtain ⟨graph, allocated, built, applied, simulates⟩ :=
    allocation_simulates unmarked free coloured (.inl rfl) (respects _) []
  exact ⟨_, graph, allocated, unmarked, free, coloured, respects _, built, applied, simulates⟩

end Section

end MipsBackend
