import MipsBackend.Assignment.Basic

/-!
Putting an assignment into effect: every virtual register of a section is replaced by its home. A
spilled register is loaded into a scratch register before an instruction reads it, and stored back
after an instruction writes it. The two markers become code that saves and restores every physical
register and every spill slot that the section uses.
-/

namespace MipsBackend

def wordSize : Nat := 4

/-! ## Markers -/

def Section.markers (code : Section) : List Marker := code.instructions.filterMap Instr.marker?

/-- A section saves and restores once, in this order, or not at all. -/
def Section.checkMarkers (code : Section) : Except Violation Unit :=
  match code.markers with
  | [] | [.save, .restore] => .ok ()
  | found => .error (.registerMarkers found)

/-! ## Saving and restoring -/

/-- What a section saves at its first marker and restores at its second, in the order of saving. -/
structure SavedState where
  regs : List PhysReg
  slots : List VReg
deriving DecidableEq, Repr

namespace Assignment

def savedState (assignment : Assignment) (code : Section) : SavedState :=
  let mentioned := code.registers.toList
  { regs := (mentioned.filterMap (assignment.regs[·]?)).eraseDups
    slots := mentioned.filter (· ∈ assignment.spilled) }

end Assignment

def loadSlot (dst : PhysReg) (reg : VReg) : List Instr :=
  [.loadAddr (.phys dst) (.spill reg), .lw (.phys dst) 0 (.phys dst)]

def storeSlot (src addr : PhysReg) (reg : VReg) : List Instr :=
  [.loadAddr (.phys addr) (.spill reg), .sw (.phys src) 0 (.phys addr)]

def pushWord (src : PhysReg) : List Instr := [.adjustStack (-4), .sw (.phys src) 0 .sp]

def popWord (dst : PhysReg) : List Instr := [.lw (.phys dst) 0 .sp, .adjustStack 4]

namespace SavedState

def save (state : SavedState) : List Instr :=
  state.regs.flatMap pushWord ++
    state.slots.flatMap fun reg => loadSlot .defScratch reg ++ pushWord .defScratch

def restore (state : SavedState) : List Instr :=
  (state.slots.reverse.flatMap fun reg => popWord .defScratch ++ storeSlot .defScratch .s6 reg) ++
    state.regs.reverse.flatMap popWord

end SavedState

/-! ## Instructions -/

namespace Assignment

/-- The spilled registers that an instruction reads, each with the scratch register that takes its
value. -/
def spilledUses (assignment : Assignment) (instr : Instr) : List (VReg × PhysReg) :=
  (instr.virtualUses.eraseDups.filter (assignment.home? · = some .slot)).zip PhysReg.useScratch

def usePlace (assignment : Assignment) (instr : Instr) : Reg → Reg
  | .phys reg => .phys reg
  | .virt reg =>
    match assignment.home? reg with
    | some (.reg phys) => .phys phys
    | _ => (((assignment.spilledUses instr).lookup reg).map Reg.phys).getD (.virt reg)

def defPlace (assignment : Assignment) : Reg → Reg
  | .phys reg => .phys reg
  | .virt reg =>
    match assignment.home? reg with
    | some (.reg phys) => .phys phys
    | some .slot => .phys .defScratch
    | none => .virt reg

def place (assignment : Assignment) (instr : Instr) : Role → Reg → Reg
  | .use, reg => assignment.usePlace instr reg
  | .define, reg => assignment.defPlace reg

/-- Writes a spilled definition back to its slot. -/
def storeBack (assignment : Assignment) (instr : Instr) : List Instr :=
  match instr.virtualDef? with
  | none => []
  | some reg => if assignment.home? reg = some .slot then storeSlot .defScratch .s6 reg else []

/-- The instruction with every register at home: loads of spilled operands, the instruction itself,
and the store of a spilled result. -/
def expand (assignment : Assignment) (instr : Instr) : Except Violation (List Instr) :=
  match instr.virtualOperands.find? (assignment.home? · = none) with
  | some homeless => .error (.unboundRegister homeless)
  | none =>
    .ok ((assignment.spilledUses instr).flatMap (fun (reg, scratch) => loadSlot scratch reg) ++
      instr.mapRegisters (assignment.place instr) :: assignment.storeBack instr)

def expandItem (assignment : Assignment) (state : SavedState) :
    TextItem → Except Violation (List TextItem)
  | .instr (.marker .save) => .ok (.comment "pushRegisters" :: state.save.map .instr)
  | .instr (.marker .restore) => .ok (.comment "popRegisters" :: state.restore.map .instr)
  | .instr instr => (assignment.expand instr).map (·.map .instr)
  | item => .ok [item]

def expandItems (assignment : Assignment) (state : SavedState) :
    List TextItem → Except Violation (List TextItem)
  | [] => .ok []
  | item :: rest => do
    let here ← assignment.expandItem state item
    let later ← assignment.expandItems state rest
    return here ++ later

/-! ## Sections -/

/-- The data words of a section's spilled registers. -/
def slotData (assignment : Assignment) (code : Section) : List DataItem :=
  match (assignment.savedState code).slots with
  | [] => []
  | slots =>
    .comment "spill slots" ::
      slots.flatMap fun reg => DataItem.object (.spill reg) [.space wordSize]

/-- Moves every register of a section to its home, and adds the spill slots to `data`. The slots
stay also when a register turns out to have no home; a section with bad markers adds none. -/
def apply (assignment : Assignment) (code : Section) (data : List DataItem) :
    List DataItem × Except Violation Section :=
  match code.checkMarkers with
  | .error violation => (data, .error violation)
  | .ok () =>
    (data ++ assignment.slotData code,
      (assignment.expandItems (assignment.savedState code) code.items).map Section.mk)

end Assignment

end MipsBackend
