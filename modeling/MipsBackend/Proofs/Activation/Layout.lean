import MipsBackend.Proofs.Activation.Frames
import MipsBackend.Proofs.Allocator

/-!
# Allocated functions

A pass rewrites every section of a program with an assignment of its own. In the section of a
function the save block then stands behind the prologue and the restore block in front of the
epilogue (`Section.Framed`), and the code in between is the body with every register at home.
-/

namespace MipsBackend

/-! ## Passes -/

theorem Pass.allocatable {pass : Pass} {code : Section} {assignment : Assignment}
    (assigned : pass.assignment code = .ok assignment) : assignment.Allocatable := by
  cases pass with
  | naive =>
    cases assigned
    intro reg phys home
    rw [Assignment.home?_allSpilled] at home
    split at home <;> cases home
  | colouring k heuristic =>
    obtain ⟨colouring, -, rfl⟩ := map_eq_ok.1 assigned
    intro reg phys home
    obtain ⟨colour, -, found⟩ := Assignment.home?_ofColouring_eq_reg home
    exact List.mem_of_getElem? found

theorem Assignment.proper_savedState {assignment : Assignment} {code : Section}
    {slots : List VReg} (allocatable : assignment.Allocatable)
    (owned : ∀ virt ∈ assignment.slots code, virt ∈ slots) :
    (assignment.savedState code).Proper slots where
  allocatable phys member := by
    obtain ⟨reg, -, home⟩ := List.mem_filterMap.1 (List.mem_eraseDups.1 member)
    exact allocatable reg phys (home?_eq_reg_iff.2 home)
  owned := owned
  distinctRegs := nodup_eraseDups _
  distinctSlots := assignment.nodup_slots code

/-- How a pass treats a section of the program. -/
structure Pass.Rewrites (pass : Pass) (generated allocated : Assembly) (index : Nat)
    (source : Section) (assignment : Assignment) : Prop where
  before : generated.sections[index]? = some source
  assigned : pass.assignment source = .ok assignment
  after : allocated.sections[index]? = some (assignment.rewritten source)
  slots : ∀ virt ∈ assignment.slots source, .label (.spill virt) ∈ allocated.data

theorem Assignment.label_mem_slotData {assignment : Assignment} {code : Section} {virt : VReg}
    (member : virt ∈ assignment.slots code) :
    .label (.spill virt) ∈ assignment.slotData code := by
  unfold slotData
  split
  · next none =>
    rw [slots, none] at member
    cases member
  · exact List.mem_cons_of_mem _ (List.mem_flatMap.2 ⟨virt, member, List.mem_cons_self⟩)

theorem Pass.applyAll_getElem? {pass : Pass} {sections allocated : List Section}
    (ready : ∀ code ∈ sections, code.Ready) {data after : List DataItem}
    (applied : pass.applyAll sections data = (after, .ok allocated)) {index : Nat} {code : Section}
    (here : sections[index]? = some code) :
    ∃ assignment, pass.assignment code = .ok assignment ∧
      allocated[index]? = some (assignment.rewritten code) ∧ assignment.slotData code ⊆ after := by
  induction sections generalizing data allocated index with
  | nil => cases here
  | cons first rest ih =>
    have now := ready first List.mem_cons_self
    have behind : ∀ code ∈ rest, code.Ready := fun code member =>
      ready code (List.mem_cons_of_mem _ member)
    obtain ⟨assignment, assigned⟩ := now.exists_assignment pass
    obtain ⟨slots, others, later, -⟩ :=
      pass.applyAll_ready behind (data ++ assignment.slotData first)
    rw [pass.applyAll_cons assigned now.marked, later] at applied
    cases applied
    cases index with
    | zero =>
      cases here
      exact ⟨assignment, assigned, rfl, fun item member =>
        List.mem_append_left _ (List.mem_append_right _ member)⟩
    | succ index => exact ih behind later here

theorem Pass.rewrites {pass : Pass} {generated allocated : Assembly}
    (ready : ∀ code ∈ generated.sections, code.Ready)
    (applied : pass.apply generated = (allocated, .ok ())) {index : Nat} {source : Section}
    (here : generated.sections[index]? = some source) :
    ∃ assignment, pass.Rewrites generated allocated index source assignment := by
  obtain ⟨slots, sections, all, -⟩ := pass.applyAll_ready ready generated.data
  rw [apply, all] at applied
  cases applied
  obtain ⟨assignment, assigned, there, data⟩ := pass.applyAll_getElem? ready all here
  exact ⟨assignment, here, assigned, there, fun virt member =>
    data (Assignment.label_mem_slotData member)⟩

/-! ## Layout -/

/-- How the code of an allocated function is laid out: its body lies between start and stop. -/
structure Section.Framed (code : Section) (space : Nat) (saved : SavedState) (start stop : Nat) :
    Prop where
  starts : start = (enterCode space ++ saved.save).length
  enters : code.Holds 0 (enterCode space ++ saved.save)
  leaves : code.instructions.drop stop = saved.restore ++ returnCode

theorem Section.Framed.holds {code : Section} {space : Nat} {saved : SavedState} {start stop : Nat}
    (framed : code.Framed space saved start stop) : code.Holds stop (saved.restore ++ returnCode) := by
  rw [Holds, framed.leaves]

namespace Assignment

variable (assignment : Assignment) (state : SavedState)

theorem flatMap_itemCode_of_concrete {instrs : List Instr}
    (concrete : ∀ instr ∈ instrs, instr.virtualOperands = [] ∧ instr.marker? = none) :
    (instrs.map TextItem.instr).flatMap (assignment.itemCode state) = instrs.map .instr := by
  rw [List.flatMap_congr fun item member => ?_, List.flatMap_singleton']
  obtain ⟨instr, listed, rfl⟩ := List.mem_map.1 member
  refine itemCode_eq_self fun other same => ?_
  cases same
  exact concrete instr listed

theorem concrete_enterCode (space : Nat) : ∀ instr ∈ enterCode space,
    instr.virtualOperands = [] ∧ instr.marker? = none := by
  refine List.forall_mem_append.2 ⟨by decide, fun instr member => ?_⟩
  unfold reserveCode at member
  split at member
  · cases List.mem_singleton.1 member
    exact ⟨rfl, rfl⟩
  · cases member

theorem concrete_returnCode : ∀ instr ∈ returnCode,
    instr.virtualOperands = [] ∧ instr.marker? = none := by
  decide

variable (name : String) (space : Nat) (body : List TextItem)

def enterItems (saved : SavedState) : List TextItem :=
  .label (.function name) :: (enterCode space).map .instr ++
    .comment "pushRegisters" :: saved.save.map .instr

def leaveItems (saved : SavedState) : List TextItem :=
  .comment "popRegisters" :: (saved.restore ++ returnCode).map .instr

variable {saved : SavedState}
  (known : saved = assignment.savedState (functionSection name space body))

include known

theorem items_rewritten_functionSection :
    (assignment.rewritten (functionSection name space body)).items =
      enterItems name space saved ++ (body.flatMap (assignment.itemCode saved) ++
        .label (.epilogue name) :: leaveItems saved) := by
  have enter := assignment.flatMap_itemCode_of_concrete saved (concrete_enterCode space)
  have leave := assignment.flatMap_itemCode_of_concrete saved concrete_returnCode
  have tail : [TextItem.label (.epilogue name), .instr (.marker .restore),
      .instr (.arithImm .addiu .sp .fp 4), .instr (.lw .ra (-4) .fp), .instr (.lw .fp 0 .fp),
      .instr (.jumpReg .ra)] =
        .label (.epilogue name) :: .instr (.marker .restore) :: returnCode.map .instr := rfl
  have items : (assignment.rewritten (functionSection name space body)).items =
      (functionItems name ((enterCode space).map .instr) body).flatMap
        (assignment.itemCode saved) := by
    rw [known]
    rfl
  rw [items]
  simp only [functionItems, tail, List.flatMap_append, List.flatMap_cons, enter, leave, itemCode,
    List.map_append, List.cons_append, List.nil_append, List.append_assoc, enterItems, leaveItems]

theorem places_rewritten_functionSection :
    (assignment.rewritten (functionSection name space body)).Places
      (enterCode space ++ saved.save).length
      (body.flatMap (assignment.itemCode saved) ++ .label (.epilogue name) :: leaveItems saved) := by
  refine ⟨enterItems name space saved, [], ?_, by simp [enterItems]⟩
  rw [List.append_nil]
  exact assignment.items_rewritten_functionSection name space body known

theorem framed_rewritten_functionSection :
    (assignment.rewritten (functionSection name space body)).Framed space saved
      (enterCode space ++ saved.save).length
      ((enterCode space ++ saved.save).length +
        instrCount (body.flatMap (assignment.itemCode saved))) := by
  have whole : (assignment.rewritten (functionSection name space body)).instructions =
      (enterCode space ++ saved.save) ++
        ((body.flatMap (assignment.itemCode saved)).filterMap TextItem.instr? ++
          (saved.restore ++ returnCode)) := by
    have enter := Section.instructions_map (enterCode space)
    have save := Section.instructions_map saved.save
    have leave := Section.instructions_map (saved.restore ++ returnCode)
    unfold Section.instructions at enter save leave
    rw [Section.instructions, assignment.items_rewritten_functionSection name space body known]
    simp only [enterItems, leaveItems, List.cons_append, List.filterMap_cons,
      List.filterMap_append, enter, save, leave, TextItem.instr?, List.append_assoc]
  refine ⟨rfl, ?_, ?_⟩
  · rw [Section.Holds, List.drop_zero, whole]
    exact List.prefix_append _ _
  · rw [whole, ← List.append_assoc]
    exact List.drop_left' (by rw [List.length_append]; rfl)

end Assignment

end MipsBackend
