import MipsBackend.Assembly.Register
import MipsBackend.Assembly.Label

/-!
Instructions, grouped by the operands they take. An instruction answers which registers it reads
(`uses`), which one it writes (`def?`) and where it may transfer control (`branchTarget?`,
`fallsThrough`); register allocation asks nothing else. `mapRegistersM` rebuilds an instruction
operand by operand, reads first and in the order of `uses`, the written register last.
-/

namespace MipsBackend

/-! ## Operations -/

/-- The places where registers are saved and restored, filled in by register allocation. -/
inductive Marker where
  | save | restore
deriving DecidableEq, Repr

def Marker.mnemonic : Marker → String
  | save => "pushRegisters"
  | restore => "popRegisters"

inductive ImmOp where
  | addi | addiu | xori | slti | sltiu
deriving DecidableEq, Repr

def ImmOp.mnemonic : ImmOp → String
  | addi => "addi" | addiu => "addiu" | xori => "xori" | slti => "slti" | sltiu => "sltiu"

def ImmOp.all : List ImmOp := [addi, addiu, xori, slti, sltiu]

inductive ArithOp where
  | add | addu | sub | mul | and | or | xor | slt | sltu
deriving DecidableEq, Repr

def ArithOp.mnemonic : ArithOp → String
  | add => "add" | addu => "addu" | sub => "sub" | mul => "mul" | and => "and"
  | or => "or" | xor => "xor" | slt => "slt" | sltu => "sltu"

def ArithOp.all : List ArithOp := [add, addu, sub, mul, and, or, xor, slt, sltu]

inductive HiLoOp where
  | mult | div
deriving DecidableEq, Repr

def HiLoOp.mnemonic : HiLoOp → String
  | mult => "mult" | div => "div"

def HiLoOp.all : List HiLoOp := [mult, div]

inductive MoveFromOp where
  | mfhi | mflo
deriving DecidableEq, Repr

def MoveFromOp.mnemonic : MoveFromOp → String
  | mfhi => "mfhi" | mflo => "mflo"

def MoveFromOp.all : List MoveFromOp := [mfhi, mflo]

inductive LoadOp where
  | lw | lb
deriving DecidableEq, Repr

def LoadOp.mnemonic : LoadOp → String
  | lw => "lw" | lb => "lb"

def LoadOp.all : List LoadOp := [lw, lb]

inductive StoreOp where
  | sw | sb
deriving DecidableEq, Repr

def StoreOp.mnemonic : StoreOp → String
  | sw => "sw" | sb => "sb"

def StoreOp.all : List StoreOp := [sw, sb]

/-- Conditions on one register, compared with zero. -/
inductive ZeroTest where
  | beqz | bnez | bgez | bgtz | blez | bltz
deriving DecidableEq, Repr

def ZeroTest.mnemonic : ZeroTest → String
  | beqz => "beqz" | bnez => "bnez" | bgez => "bgez"
  | bgtz => "bgtz" | blez => "blez" | bltz => "bltz"

def ZeroTest.all : List ZeroTest := [beqz, bnez, bgez, bgtz, blez, bltz]

inductive PairTest where
  | beq | bne
deriving DecidableEq, Repr

def PairTest.mnemonic : PairTest → String
  | beq => "beq" | bne => "bne"

def PairTest.all : List PairTest := [beq, bne]

/-! ## Instructions -/

inductive Instr where
  | syscall
  | marker (kind : Marker)
  | loadImm (dst : Reg) (imm : Int32)
  | loadAddr (dst : Reg) (label : Label)
  | arithImm (op : ImmOp) (dst src : Reg) (imm : Int32)
  | arith (op : ArithOp) (dst lhs rhs : Reg)
  | hiLo (op : HiLoOp) (lhs rhs : Reg)
  | moveFrom (op : MoveFromOp) (dst : Reg)
  | load (op : LoadOp) (dst : Reg) (offset : Int32) (base : Reg)
  | store (op : StoreOp) (src : Reg) (offset : Int32) (base : Reg)
  | branchZero (op : ZeroTest) (src : Reg) (target : Label)
  | branchPair (op : PairTest) (lhs rhs : Reg) (target : Label)
  | jump (target : Label)
  | call (target : Label)
  | jumpReg (src : Reg)
deriving DecidableEq, Repr

inductive Role where
  | use | define
deriving DecidableEq, Repr

namespace Instr

/-- Copies a register by adding zero to it. -/
def move (dst src : Reg) : Instr := arith .add dst src .zero

/-- Moves the stack pointer by a number of bytes. -/
def adjustStack (amount : Int32) : Instr := arithImm .addiu .sp .sp amount

def lw (dst : Reg) (offset : Int32) (base : Reg) : Instr := load .lw dst offset base

def sw (src : Reg) (offset : Int32) (base : Reg) : Instr := store .sw src offset base

/-- The registers that the instruction reads, in operand order. -/
def uses : Instr → List Reg
  | arithImm _ _ src _ | branchZero _ src _ | jumpReg src => [src]
  | load _ _ _ base => [base]
  | arith _ _ lhs rhs | hiLo _ lhs rhs | branchPair _ lhs rhs _ => [lhs, rhs]
  | store _ src _ base => [src, base]
  | syscall | marker _ | loadImm _ _ | loadAddr _ _ | moveFrom _ _ | jump _ | call _ => []

/-- The register that the instruction writes. -/
def def? : Instr → Option Reg
  | loadImm dst _ | loadAddr dst _ | arithImm _ dst _ _ | arith _ dst _ _ | moveFrom _ dst
  | load _ dst _ _ => some dst
  | syscall | marker _ | hiLo _ _ _ | store _ _ _ _ | branchZero _ _ _ | branchPair _ _ _ _
  | jump _ | call _ | jumpReg _ => none

def virtualUses (instr : Instr) : List VReg := virtuals instr.uses

def virtualDef? (instr : Instr) : Option VReg := instr.def?.bind Reg.virtual?

/-- The virtual registers that the instruction mentions, reads first. -/
def virtualOperands (instr : Instr) : List VReg := instr.virtualUses ++ instr.virtualDef?.toList

/-- Rebuilds the instruction from what `visit` answers for each of its register operands. -/
def mapRegistersM {m : Type → Type} [Monad m] (visit : Role → Reg → m Reg) : Instr → m Instr
  | syscall => pure syscall
  | marker kind => pure (marker kind)
  | loadImm dst imm => return loadImm (← visit .define dst) imm
  | loadAddr dst label => return loadAddr (← visit .define dst) label
  | arithImm op dst src imm => do
      let src ← visit .use src
      return arithImm op (← visit .define dst) src imm
  | arith op dst lhs rhs => do
      let lhs ← visit .use lhs
      let rhs ← visit .use rhs
      return arith op (← visit .define dst) lhs rhs
  | hiLo op lhs rhs => do
      let lhs ← visit .use lhs
      return hiLo op lhs (← visit .use rhs)
  | moveFrom op dst => return moveFrom op (← visit .define dst)
  | load op dst offset base => do
      let base ← visit .use base
      return load op (← visit .define dst) offset base
  | store op src offset base => do
      let src ← visit .use src
      return store op src offset (← visit .use base)
  | branchZero op src target => return branchZero op (← visit .use src) target
  | branchPair op lhs rhs target => do
      let lhs ← visit .use lhs
      return branchPair op lhs (← visit .use rhs) target
  | jump target => pure (jump target)
  | call target => pure (call target)
  | jumpReg src => return jumpReg (← visit .use src)

def mapRegisters (rename : Role → Reg → Reg) (instr : Instr) : Instr :=
  Id.run (instr.mapRegistersM fun role reg => pure (rename role reg))

/-- Where the instruction may go inside its section. A call leaves the section and comes back. -/
def branchTarget? : Instr → Option Label
  | branchZero _ _ target | branchPair _ _ _ target | jump target => some target
  | _ => none

def fallsThrough : Instr → Bool
  | jump _ | jumpReg _ => false
  | _ => true

def marker? : Instr → Option Marker
  | marker kind => some kind
  | _ => none

end Instr

/-! ## Text -/

inductive Operand where
  | reg (reg : Reg)
  | imm (value : Int32)
  | label (label : Label)
  | indexed (offset : Int32) (base : Reg)
deriving DecidableEq, Repr

def Operand.text : Operand → String
  | reg operand => operand.text
  | imm value => toString value.toInt
  | label operand => operand.text
  | indexed offset base => toString offset.toInt ++ "(" ++ base.text ++ ")"

namespace Instr

def mnemonic : Instr → String
  | syscall => "syscall"
  | marker kind => kind.mnemonic
  | loadImm _ _ => "li"
  | loadAddr _ _ => "la"
  | arithImm op _ _ _ => op.mnemonic
  | arith op _ _ _ => op.mnemonic
  | hiLo op _ _ => op.mnemonic
  | moveFrom op _ => op.mnemonic
  | load op _ _ _ => op.mnemonic
  | store op _ _ _ => op.mnemonic
  | branchZero op _ _ => op.mnemonic
  | branchPair op _ _ _ => op.mnemonic
  | jump _ => "j"
  | call _ => "jal"
  | jumpReg _ => "jr"

/-- The operands in the order in which they are written, the destination first. -/
def operands : Instr → List Operand
  | syscall | marker _ => []
  | loadImm dst imm => [.reg dst, .imm imm]
  | loadAddr dst label => [.reg dst, .label label]
  | arithImm _ dst src imm => [.reg dst, .reg src, .imm imm]
  | arith _ dst lhs rhs => [.reg dst, .reg lhs, .reg rhs]
  | hiLo _ lhs rhs => [.reg lhs, .reg rhs]
  | moveFrom _ dst => [.reg dst]
  | load _ dst offset base => [.reg dst, .indexed offset base]
  | store _ src offset base => [.reg src, .indexed offset base]
  | branchZero _ src target => [.reg src, .label target]
  | branchPair _ lhs rhs target => [.reg lhs, .reg rhs, .label target]
  | jump target | call target => [.label target]
  | jumpReg src => [.reg src]

def text (instr : Instr) : String :=
  match instr.operands with
  | [] => instr.mnemonic
  | operands => instr.mnemonic ++ " " ++ ", ".intercalate (operands.map Operand.text)

end Instr

end MipsBackend
