import MipsBackend.Proofs.Assignment.Traffic
import MipsBackend.Proofs.Lowering.Sections
import MipsBackend.Proofs.Machine.Renaming

/-!
# Allocated sections

In a section that is ready, allocation succeeds and leaves neither virtual registers nor markers
behind. Labels, branches and the last instruction stay, so the result is ready again, and there is
nothing left to change in it.
-/

namespace MipsBackend

/-- A section in which allocation has nothing left to do. -/
structure Section.Allocated (code : Section) : Prop where
  concrete : ∀ instr ∈ code.instructions, instr.virtualOperands = [] ∧ instr.marker? = none
  targets : ∀ instr ∈ code.instructions, ∀ target, instr.branchTarget? = some target →
    target ∈ code.labels
  ends : ∃ before last, code.items = before ++ [.instr last]

namespace Section

theorem Allocated.markers_eq_nil {code : Section} (allocated : code.Allocated) :
    code.markers = [] :=
  List.filterMap_eq_nil_iff.2 fun instr member => (allocated.concrete instr member).2

theorem Allocated.ready {code : Section} (allocated : code.Allocated) : code.Ready where
  marked := by rw [checkMarkers, allocated.markers_eq_nil]
  targets := allocated.targets
  ends := by
    obtain ⟨before, last, split⟩ := allocated.ends
    have member : last ∈ code.instructions :=
      Section.mem_instructions.2 (split ▸ List.mem_append_right _ List.mem_cons_self)
    exact ⟨before, last, split, (allocated.concrete last member).2⟩

theorem Ready.exists_flowGraph {code : Section} (ready : code.Ready) :
    ∃ graph, code.flowGraph = .ok graph := by
  refine flowGraph_eq_ok_iff.2 fun instr member target branches => ?_
  rw [labelledNode?_isSome_iff]
  have listed := mem_labels.1 (ready.targets instr member target branches)
  obtain ⟨before, last, ends, -⟩ := ready.ends
  obtain ⟨first, rest, split⟩ := List.append_of_mem listed
  refine ⟨first, rest, split, ?_⟩
  have final : code.items.getLast? = some (.instr last) := by
    rw [ends, List.getLast?_concat]
  rw [split, List.getLast?_append_cons] at final
  cases rest with
  | nil => cases final
  | cons item later =>
    rw [List.getLast?_cons_cons] at final
    exact List.any_eq_true.2 ⟨_, List.mem_of_getLast? final, rfl⟩

theorem Ready.exists_assignment {code : Section} (ready : code.Ready) (pass : Pass) :
    ∃ assignment, pass.assignment code = .ok assignment := by
  cases pass with
  | naive => exact ⟨_, rfl⟩
  | colouring k heuristic =>
    obtain ⟨graph, built⟩ := ready.exists_flowGraph
    have coloured := (@colour_eq_ok_iff code k heuristic _).2 ⟨graph, built, rfl⟩
    exact ⟨_, by rw [Pass.assignment, coloured]; rfl⟩

end Section

/-! ## Operands at home -/

/-- An instruction that is neither a branch nor a marker, over physical registers alone. -/
def Instr.Plain (instr : Instr) : Prop :=
  instr.virtualOperands = [] ∧ instr.marker? = none ∧ instr.branchTarget? = none

/-- What may stand in the place of an instruction after allocation. -/
structure Instr.Realises (made source : Instr) : Prop where
  concrete : made.virtualOperands = []
  unmarked : made.marker? = none
  branches : ∀ target, made.branchTarget? = some target → source.branchTarget? = some target

theorem Instr.Plain.realises {made : Instr} (plain : made.Plain) (source : Instr) :
    made.Realises source := by
  obtain ⟨concrete, unmarked, straight⟩ := plain
  refine ⟨concrete, unmarked, fun target branches => ?_⟩
  rw [straight] at branches
  cases branches

theorem plain_pair {first second : Instr} (one : first.Plain) (two : second.Plain) :
    ∀ instr ∈ [first, second], instr.Plain :=
  List.forall_mem_cons.2 ⟨one, List.forall_mem_singleton.2 two⟩

theorem plain_loadSlot (scratch : PhysReg) (reg : VReg) :
    ∀ instr ∈ loadSlot scratch reg, instr.Plain :=
  plain_pair ⟨rfl, rfl, rfl⟩ ⟨rfl, rfl, rfl⟩

theorem plain_storeSlot (src addr : PhysReg) (reg : VReg) :
    ∀ instr ∈ storeSlot src addr reg, instr.Plain :=
  plain_pair ⟨rfl, rfl, rfl⟩ ⟨rfl, rfl, rfl⟩

theorem plain_pushWord (src : PhysReg) : ∀ instr ∈ pushWord src, instr.Plain :=
  plain_pair ⟨rfl, rfl, rfl⟩ ⟨rfl, rfl, rfl⟩

theorem plain_popWord (dst : PhysReg) : ∀ instr ∈ popWord dst, instr.Plain :=
  plain_pair ⟨rfl, rfl, rfl⟩ ⟨rfl, rfl, rfl⟩

theorem SavedState.plain_save (state : SavedState) : ∀ instr ∈ state.save, instr.Plain := by
  intro instr member
  rcases List.mem_append.1 member with regs | slots
  · obtain ⟨reg, -, inside⟩ := List.mem_flatMap.1 regs
    exact plain_pushWord reg instr inside
  · obtain ⟨reg, -, inside⟩ := List.mem_flatMap.1 slots
    rcases List.mem_append.1 inside with loads | pushes
    · exact plain_loadSlot _ reg instr loads
    · exact plain_pushWord _ instr pushes

theorem SavedState.plain_restore (state : SavedState) : ∀ instr ∈ state.restore, instr.Plain := by
  intro instr member
  rcases List.mem_append.1 member with slots | regs
  · obtain ⟨reg, -, inside⟩ := List.mem_flatMap.1 slots
    rcases List.mem_append.1 inside with pops | stores
    · exact plain_popWord _ instr pops
    · exact plain_storeSlot _ _ reg instr stores
  · obtain ⟨reg, -, inside⟩ := List.mem_flatMap.1 regs
    exact plain_popWord reg instr inside

namespace Instr

@[simp] theorem uses_mapRegisters (rename : Role → Reg → Reg) (instr : Instr) :
    (instr.mapRegisters rename).uses = instr.uses.map (rename .use) := by
  cases instr <;> rfl

@[simp] theorem marker?_mapRegisters (rename : Role → Reg → Reg) (instr : Instr) :
    (instr.mapRegisters rename).marker? = instr.marker? := by
  cases instr <;> rfl

@[simp] theorem branchTarget?_mapRegisters (rename : Role → Reg → Reg) (instr : Instr) :
    (instr.mapRegisters rename).branchTarget? = instr.branchTarget? := by
  cases instr <;> rfl

theorem virtualOperands_eq_nil_iff {instr : Instr} :
    instr.virtualOperands = [] ↔
      (∀ reg ∈ instr.uses, reg.virtual? = none) ∧
        ∀ reg, instr.def? = some reg → reg.virtual? = none := by
  unfold virtualOperands virtualUses virtualDef? virtuals
  rw [List.append_eq_nil_iff, List.filterMap_eq_nil_iff]
  cases instr.def? <;> simp

theorem mapRegisters_eq_self {rename : Role → Reg → Reg} {instr : Instr}
    (uses : ∀ reg ∈ instr.uses, rename .use reg = reg)
    (writes : ∀ reg, instr.def? = some reg → rename .define reg = reg) :
    instr.mapRegisters rename = instr := by
  cases instr <;> simp_all [Instr.uses, def?, mapRegisters, mapRegistersM]

end Instr

namespace Assignment

variable {assignment : Assignment} {code : Section}

theorem virtual?_usePlace {instr : Instr} (housed : ∀ reg ∈ instr.virtualOperands,
    assignment.home? reg ≠ none) {reg : Reg} (used : reg ∈ instr.uses) :
    (assignment.usePlace instr reg).virtual? = none := by
  cases reg with
  | phys reg => rfl
  | virt reg =>
    have read : reg ∈ instr.virtualUses := mem_virtuals.2 used
    have known := housed reg (List.mem_append_left _ read)
    cases home : assignment.home? reg with
    | none => exact absurd home known
    | some found =>
      cases found with
      | reg phys => simp only [usePlace, home, Reg.virtual?_phys]
      | slot =>
        obtain ⟨scratch, found, -⟩ := lookup_spilledUses read home
        simp only [usePlace, home, found, Option.map_some, Option.getD_some, Reg.virtual?_phys]

theorem virtual?_defPlace {instr : Instr} (housed : ∀ reg ∈ instr.virtualOperands,
    assignment.home? reg ≠ none) {reg : Reg} (written : instr.def? = some reg) :
    (assignment.defPlace reg).virtual? = none := by
  cases reg with
  | phys reg => rfl
  | virt reg =>
    have known := housed reg (List.mem_append_right _ (by simp [Instr.virtualDef?, written]))
    cases home : assignment.home? reg with
    | none => exact absurd home known
    | some found => cases found <;> simp only [defPlace, home, Reg.virtual?_phys]

theorem realises_expansion {instr : Instr} (housed : ∀ reg ∈ instr.virtualOperands,
    assignment.home? reg ≠ none) (unmarked : instr.marker? = none) {made : Instr}
    (member : made ∈ assignment.expansion instr) : made.Realises instr := by
  rcases List.mem_append.1 member with loads | rest
  · obtain ⟨⟨reg, scratch⟩, -, inside⟩ := List.mem_flatMap.1 loads
    exact (plain_loadSlot scratch reg made inside).realises instr
  rcases List.mem_cons.1 rest with rfl | stores
  · refine ⟨Instr.virtualOperands_eq_nil_iff.2 ⟨fun reg used => ?_, fun reg written => ?_⟩,
      by simpa using unmarked, fun target branches => by simpa using branches⟩
    · rw [Instr.uses_mapRegisters] at used
      obtain ⟨operand, listed, rfl⟩ := List.mem_map.1 used
      exact virtual?_usePlace housed listed
    · rw [Instr.def?_mapRegisters] at written
      obtain ⟨operand, known, rfl⟩ := Option.map_eq_some_iff.1 written
      exact virtual?_defPlace housed known
  · unfold storeBack at stores
    split at stores
    · cases stores
    · split at stores
      · exact (plain_storeSlot _ _ _ made stores).realises instr
      · cases stores

theorem realises_instrCode {state : SavedState} {instr : Instr}
    (housed : ∀ reg ∈ instr.virtualOperands, assignment.home? reg ≠ none) {made : Instr}
    (member : made ∈ assignment.instrCode state instr) : made.Realises instr := by
  unfold instrCode at member
  split at member
  · exact (SavedState.plain_save _ made member).realises _
  · exact (SavedState.plain_restore _ made member).realises _
  · next notSave notRestore =>
    have unmarked : instr.marker? = none := by
      cases instr with
      | marker kind => cases kind <;> simp_all
      | _ => rfl
    exact realises_expansion housed unmarked member

theorem labels_rewritten (assignment : Assignment) (code : Section) :
    (assignment.rewritten code).labels = code.labels := by
  have ofInstrs : ∀ instrs : List Instr,
      (instrs.map TextItem.instr).filterMap TextItem.label? = [] := by
    intro instrs
    rw [List.filterMap_map, List.filterMap_eq_nil_iff]
    exact fun _ _ => rfl
  have ofItem : ∀ state item, (assignment.itemCode state item).filterMap TextItem.label? =
      item.label?.toList := by
    intro state item
    unfold itemCode
    split
    · exact ofInstrs state.save
    · exact ofInstrs state.restore
    · exact ofInstrs _
    · cases item <;> rfl
  unfold rewritten Section.labels
  simp only
  induction code.items with
  | nil => rfl
  | cons item rest ih =>
    rw [List.flatMap_cons, List.filterMap_append, ih, ofItem]
    cases here : item.label? <;> simp [here]

/-- Every instruction of the rewritten section is there for one of the section. -/
theorem realises_rewritten (covers : assignment.Covers code) {made : Instr}
    (member : made ∈ (assignment.rewritten code).instructions) :
    ∃ source ∈ code.instructions, made.Realises source := by
  rw [instructions_rewritten] at member
  obtain ⟨source, listed, inside⟩ := List.mem_flatMap.1 member
  exact ⟨source, listed, realises_instrCode (fun reg mentioned =>
    covers reg (Section.mem_registers.2 ⟨source, listed, mentioned⟩)) inside⟩

theorem allocated_rewritten (ready : code.Ready) (covers : assignment.Covers code) :
    (assignment.rewritten code).Allocated := by
  refine ⟨fun instr member => ?_, fun instr member target branches => ?_, ?_⟩
  · obtain ⟨source, -, realises⟩ := realises_rewritten covers member
    exact ⟨realises.concrete, realises.unmarked⟩
  · obtain ⟨source, listed, realises⟩ := realises_rewritten covers member
    rw [labels_rewritten]
    exact ready.targets source listed target (realises.branches target branches)
  · obtain ⟨before, last, ends, unmarked⟩ := ready.ends
    let state := assignment.savedState code
    have lastCode : assignment.itemCode state (.instr last) =
        (assignment.expansion last).map .instr := by
      cases last with
      | marker kind => cases unmarked
      | _ => rfl
    obtain ⟨first, final, split⟩ : ∃ first final, assignment.expansion last = first ++ [final] :=
      (List.eq_nil_or_concat' _).resolve_left (assignment.expansion_ne_nil last)
    refine ⟨before.flatMap (assignment.itemCode state) ++ first.map .instr, final, ?_⟩
    rw [rewritten, ends, List.flatMap_append, List.flatMap_singleton, lastCode, split,
      List.map_append, List.append_assoc]
    rfl

/-! ## Nothing left to do -/

theorem expansion_eq_self {instr : Instr} (concrete : instr.virtualOperands = []) :
    assignment.expansion instr = [instr] := by
  obtain ⟨uses, writes⟩ := Instr.virtualOperands_eq_nil_iff.1 concrete
  obtain ⟨reads, result⟩ := List.append_eq_nil_iff.1 concrete
  have stays : instr.mapRegisters (assignment.place instr) = instr := by
    refine Instr.mapRegisters_eq_self (fun reg used => ?_) fun reg written => ?_
    · cases reg with
      | phys reg => rfl
      | virt reg => cases uses _ used
    · cases reg with
      | phys reg => rfl
      | virt reg => cases writes _ written
  have nothing : instr.virtualDef? = none := by
    cases known : instr.virtualDef? with
    | none => rfl
    | some reg => simp [known] at result
  have unspilled : assignment.spilledUses instr = [] := by
    rw [spilledUses, reads]
    rfl
  rw [expansion, unspilled, stays, storeBack, nothing]
  rfl

theorem itemCode_eq_self {state : SavedState} {item : TextItem}
    (concrete : ∀ instr, item = .instr instr →
      instr.virtualOperands = [] ∧ instr.marker? = none) :
    assignment.itemCode state item = [item] := by
  unfold itemCode
  split
  · cases (concrete _ rfl).2
  · cases (concrete _ rfl).2
  · rw [expansion_eq_self (concrete _ rfl).1]
    rfl
  · rfl

theorem rewritten_eq_self (allocated : code.Allocated) : assignment.rewritten code = code := by
  have same : ∀ item ∈ code.items,
      assignment.itemCode (assignment.savedState code) item = [item] := by
    intro item member
    refine itemCode_eq_self fun instr here => ?_
    exact allocated.concrete instr (Section.mem_instructions.2 (here ▸ member))
  unfold rewritten
  rw [List.flatMap_congr same, List.flatMap_singleton']

theorem slotData_eq_nil (allocated : code.Allocated) : assignment.slotData code = [] := by
  have unused : (assignment.savedState code).slots = [] := by
    rw [List.eq_nil_iff_forall_not_mem]
    intro reg member
    have mentioned : reg ∈ code.registers := by
      simp only [savedState, List.mem_filter, Std.ExtTreeSet.mem_toList] at member
      exact member.1
    obtain ⟨instr, listed, operand⟩ := Section.mem_registers.1 mentioned
    rw [(allocated.concrete instr listed).1] at operand
    cases operand
  rw [slotData, unused]

end Assignment

end MipsBackend
