import MipsBackend.Colouring.Basic

/-!
Homes of virtual registers: each gets a physical register or a word of its own in the data section.
-/

namespace MipsBackend

inductive Home where
  | reg (reg : PhysReg)
  | slot
deriving DecidableEq, Repr

structure Assignment where
  regs : Std.ExtTreeMap VReg PhysReg
  spilled : RegSet

namespace Assignment

/-- A register that is in both parts of the assignment lives in its physical register. -/
def home? (assignment : Assignment) (reg : VReg) : Option Home :=
  match assignment.regs[reg]? with
  | some phys => some (.reg phys)
  | none => if reg ∈ assignment.spilled then some .slot else none

def ofColouring (colouring : Colouring) : Assignment :=
  { regs := colouring.colours.filterMap fun _ colour => PhysReg.allocatable[colour]?
    spilled := colouring.spilled }

def allSpilled (regs : RegSet) : Assignment := { regs := ∅, spilled := regs }

end Assignment

end MipsBackend
