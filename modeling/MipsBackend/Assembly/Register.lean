/-!
The registers that instructions name: the physical registers of the target, and the virtual ones
that code generation draws from an unbounded supply.
-/

namespace MipsBackend

inductive PhysReg where
  | zero | v0 | a0
  | t0 | t1 | t2 | t3 | t4 | t5 | t6 | t7 | t8 | t9
  | s0 | s1 | s2 | s3 | s4 | s5 | s6 | s7
  | sp | fp | ra
deriving DecidableEq, Repr

namespace PhysReg

def text : PhysReg → String
  | zero => "$zero" | v0 => "$v0" | a0 => "$a0"
  | t0 => "$t0" | t1 => "$t1" | t2 => "$t2" | t3 => "$t3" | t4 => "$t4"
  | t5 => "$t5" | t6 => "$t6" | t7 => "$t7" | t8 => "$t8" | t9 => "$t9"
  | s0 => "$s0" | s1 => "$s1" | s2 => "$s2" | s3 => "$s3" | s4 => "$s4"
  | s5 => "$s5" | s6 => "$s6" | s7 => "$s7"
  | sp => "$sp" | fp => "$fp" | ra => "$ra"

def all : List PhysReg :=
  [zero, v0, a0, t0, t1, t2, t3, t4, t5, t6, t7, t8, t9, s0, s1, s2, s3, s4, s5, s6, s7, sp, fp, ra]

theorem mem_all (reg : PhysReg) : reg ∈ all := by
  cases reg <;> decide

def ofText? (text : String) : Option PhysReg :=
  all.find? (·.text = text)

/-- The registers that colours stand for: colour `n` is the `n`-th of them. -/
def allocatable : List PhysReg :=
  [t0, t1, t2, t3, t4, t5, t6, t7, t8, t9, s0, s1, s2, s3, s4]

/-- Carries the value of a spilled definition, and the traffic of the save block. -/
def defScratch : PhysReg := s5

/-- Carry the values of spilled uses; an instruction reads at most two registers. -/
def useScratch : List PhysReg := [s6, s7]

/-- Reserved for spill code, and therefore never allocatable. -/
def scratch : List PhysReg := defScratch :: useScratch

end PhysReg

abbrev VReg := Nat

def VReg.text (reg : VReg) : String := "%v" ++ toString reg

inductive Reg where
  | phys (reg : PhysReg)
  | virt (reg : VReg)
deriving DecidableEq, Repr

namespace Reg

abbrev zero : Reg := .phys .zero
abbrev v0 : Reg := .phys .v0
abbrev a0 : Reg := .phys .a0
abbrev sp : Reg := .phys .sp
abbrev fp : Reg := .phys .fp
abbrev ra : Reg := .phys .ra

def text : Reg → String
  | phys reg => reg.text
  | virt reg => VReg.text reg

def virtual? : Reg → Option VReg
  | phys _ => none
  | virt reg => some reg

@[simp] theorem virtual?_phys (reg : PhysReg) : (phys reg).virtual? = none := rfl
@[simp] theorem virtual?_virt (reg : VReg) : (virt reg).virtual? = some reg := rfl

theorem virtual?_eq_some {reg : Reg} {v : VReg} : reg.virtual? = some v ↔ reg = virt v := by
  cases reg <;> simp

end Reg

/-- The virtual registers of a list of operands, repeats kept. -/
def virtuals (regs : List Reg) : List VReg :=
  regs.filterMap Reg.virtual?

theorem mem_virtuals {regs : List Reg} {v : VReg} : v ∈ virtuals regs ↔ .virt v ∈ regs := by
  simp [virtuals, List.mem_filterMap, Reg.virtual?_eq_some]

end MipsBackend
