import Mathlib.Logic.Function.Basic
import MipsBackend.Assembly.Instruction

/-!
# The machine

The target machine, extended with a value for each virtual register. Words have 32 bits and wrap
around, and memory holds bytes, the lowest byte of a word first. An instruction first computes from
the machine what it is going to change (`Instr.change`), and the machine then takes the change over
(`Machine.apply`).
-/

namespace MipsBackend

abbrev Word := BitVec 32
abbrev Byte := BitVec 8

/-! ## Memory -/

abbrev Memory := Word → Byte

def wordAt (addr : Word) : List Word := [addr, addr + 1, addr + 2, addr + 3]

namespace Memory

def word (memory : Memory) (addr : Word) : Word :=
  memory (addr + 3) ++ memory (addr + 2) ++ memory (addr + 1) ++ memory addr

def storeByte (memory : Memory) (addr : Word) (value : Byte) : Memory :=
  Function.update memory addr value

def storeWord (memory : Memory) (addr value : Word) : Memory := fun other =>
  if other = addr then value.extractLsb' 0 8
  else if other = addr + 1 then value.extractLsb' 8 8
  else if other = addr + 2 then value.extractLsb' 16 8
  else if other = addr + 3 then value.extractLsb' 24 8
  else memory other

theorem word_congr {memory other : Memory} {addr : Word}
    (same : ∀ byte ∈ wordAt addr, memory byte = other byte) :
    memory.word addr = other.word addr := by
  simp only [wordAt, List.forall_mem_cons] at same
  obtain ⟨first, second, third, fourth, -⟩ := same
  simp only [word, first, second, third, fourth]

@[simp] theorem word_storeWord (memory : Memory) (addr value : Word) :
    (memory.storeWord addr value).word addr = value := by
  have first : memory.storeWord addr value addr = value.extractLsb' 0 8 := by simp [storeWord]
  have second : memory.storeWord addr value (addr + 1) = value.extractLsb' 8 8 := by
    simp [storeWord]
  have third : memory.storeWord addr value (addr + 2) = value.extractLsb' 16 8 := by
    simp [storeWord]
  have fourth : memory.storeWord addr value (addr + 3) = value.extractLsb' 24 8 := by
    simp [storeWord]
  rw [word, first, second, third, fourth]
  apply BitVec.eq_of_getLsbD_eq
  intro i bound
  simp only [BitVec.getLsbD_append, BitVec.getLsbD_extractLsb']
  grind

theorem storeWord_of_not_mem {memory : Memory} {addr value other : Word}
    (apart : other ∉ wordAt addr) : memory.storeWord addr value other = memory other := by
  simp only [wordAt, List.mem_cons, List.not_mem_nil, or_false, not_or] at apart
  obtain ⟨first, second, third, fourth⟩ := apart
  rw [storeWord, if_neg first, if_neg second, if_neg third, if_neg fourth]

end Memory

/-! ## Operations -/

def ImmOp.eval : ImmOp → Word → Word → Word
  | addi, x, imm | addiu, x, imm => x + imm
  | xori, x, imm => x ^^^ imm
  | slti, x, imm => if x.slt imm then 1 else 0
  | sltiu, x, imm => if x.ult imm then 1 else 0

def ArithOp.eval : ArithOp → Word → Word → Word
  | add, x, y | addu, x, y => x + y
  | sub, x, y => x - y
  | mul, x, y => x * y
  | and, x, y => x &&& y
  | or, x, y => x ||| y
  | xor, x, y => x ^^^ y
  | slt, x, y => if x.slt y then 1 else 0
  | sltu, x, y => if x.ult y then 1 else 0

/-- The new hi and lo: the two halves of a product, or remainder and quotient. -/
def HiLoOp.eval : HiLoOp → Word → Word → Word × Word
  | mult, x, y =>
    let product := x.signExtend 64 * y.signExtend 64
    (product.extractLsb' 32 32, product.extractLsb' 0 32)
  | div, x, y => (x.srem y, x.sdiv y)

def ZeroTest.holds : ZeroTest → Word → Bool
  | beqz, x => x == 0
  | bnez, x => x != 0
  | bgez, x => !x.slt 0
  | bgtz, x => (0 : Word).slt x
  | blez, x => !(0 : Word).slt x
  | bltz, x => x.slt 0

def PairTest.holds : PairTest → Word → Word → Bool
  | beq, x, y => x == y
  | bne, x, y => x != y

def LoadOp.reads : LoadOp → Word → List Word
  | lw, addr => wordAt addr
  | lb, addr => [addr]

def LoadOp.eval : LoadOp → Memory → Word → Word
  | lw, memory, addr => memory.word addr
  | lb, memory, addr => (memory addr).signExtend 32

theorem LoadOp.eval_congr {op : LoadOp} {memory other : Memory} {addr : Word}
    (same : ∀ byte ∈ op.reads addr, memory byte = other byte) :
    op.eval memory addr = op.eval other addr := by
  cases op with
  | lw => exact Memory.word_congr same
  | lb => exact congrArg (BitVec.signExtend 32) (same addr List.mem_cons_self)

def StoreOp.writes : StoreOp → Word → List Word
  | sw, addr => wordAt addr
  | sb, addr => [addr]

def StoreOp.eval : StoreOp → Memory → Word → Word → Memory
  | sw, memory, addr, value => memory.storeWord addr value
  | sb, memory, addr, value => memory.storeByte addr (value.extractLsb' 0 8)

theorem StoreOp.eval_of_not_mem {op : StoreOp} {memory : Memory} {addr value other : Word}
    (apart : other ∉ op.writes addr) : op.eval memory addr value other = memory other := by
  cases op with
  | sw => exact Memory.storeWord_of_not_mem apart
  | sb =>
    have distinct : other ≠ addr := fun same => apart (same ▸ List.mem_cons_self)
    exact Function.update_of_ne distinct _ _

theorem StoreOp.eval_congr {op : StoreOp} {memory target : Memory} {addr value other : Word}
    (same : memory other = target other) :
    op.eval memory addr value other = op.eval target addr value other := by
  cases op with
  | sw => simp only [eval, Memory.storeWord, same]
  | sb => simp only [eval, Memory.storeByte, Function.update_apply, same]

/-! ## Machines -/

structure Machine where
  phys : PhysReg → Word
  virt : VReg → Word
  hi : Word
  lo : Word
  memory : Memory

namespace Machine

/-- The register `$zero` reads as zero, whatever is written to it. -/
def read (machine : Machine) : Reg → Word
  | .phys .zero => 0
  | .phys reg => machine.phys reg
  | .virt reg => machine.virt reg

def write (machine : Machine) (reg : Reg) (value : Word) : Machine :=
  match reg with
  | .phys reg => { machine with phys := Function.update machine.phys reg value }
  | .virt reg => { machine with virt := Function.update machine.virt reg value }

def moved (machine : Machine) : MoveFromOp → Word
  | .mfhi => machine.hi
  | .mflo => machine.lo

theorem phys_write_phys (machine : Machine) (reg other : PhysReg) (value : Word) :
    (machine.write (.phys reg) value).phys other =
      if other = reg then value else machine.phys other :=
  Function.update_apply ..

theorem virt_write_virt (machine : Machine) (reg other : VReg) (value : Word) :
    (machine.write (.virt reg) value).virt other =
      if other = reg then value else machine.virt other :=
  Function.update_apply ..

theorem read_phys (machine : Machine) (reg : PhysReg) :
    machine.read (.phys reg) = if reg = .zero then 0 else machine.phys reg := by
  cases reg <;> rfl

end Machine

/-! ## Instructions -/

/-- What one instruction changes. -/
inductive Change where
  | nothing
  | reg (dst : Reg) (value : Word)
  | hiLo (hi lo : Word)
  | store (op : StoreOp) (addr value : Word)

def Machine.apply (machine : Machine) : Change → Machine
  | .nothing => machine
  | .reg dst value => machine.write dst value
  | .hiLo hi lo => { machine with hi, lo }
  | .store op addr value => { machine with memory := op.eval machine.memory addr value }

/-- Where control goes after an instruction. -/
inductive Control where
  | next
  | goto (target : Label)
  | leave (target : Word)
deriving DecidableEq, Repr

namespace Instr

/-- What an instruction changes by itself, when labels lie at the given addresses. System calls and
called functions change the machine in their own ways. -/
def change (address : Label → Word) (machine : Machine) : Instr → Change
  | loadImm dst imm => .reg dst imm.toBitVec
  | loadAddr dst label => .reg dst (address label)
  | arithImm op dst src imm => .reg dst (op.eval (machine.read src) imm.toBitVec)
  | arith op dst lhs rhs => .reg dst (op.eval (machine.read lhs) (machine.read rhs))
  | hiLo op lhs rhs =>
    let results := op.eval (machine.read lhs) (machine.read rhs)
    .hiLo results.1 results.2
  | moveFrom op dst => .reg dst (machine.moved op)
  | load op dst offset base =>
    .reg dst (op.eval machine.memory (machine.read base + offset.toBitVec))
  | store op src offset base =>
    .store op (machine.read base + offset.toBitVec) (machine.read src)
  | syscall | marker _ | branchZero _ _ _ | branchPair _ _ _ _ | jump _ | call _ | jumpReg _ =>
    .nothing

def control (machine : Machine) : Instr → Control
  | branchZero op src target => if op.holds (machine.read src) then .goto target else .next
  | branchPair op lhs rhs target =>
    if op.holds (machine.read lhs) (machine.read rhs) then .goto target else .next
  | jump target => .goto target
  | jumpReg src => .leave (machine.read src)
  | _ => .next

def touched (machine : Machine) : Instr → List Word
  | load op _ offset base => op.reads (machine.read base + offset.toBitVec)
  | store op _ offset base => op.writes (machine.read base + offset.toBitVec)
  | _ => []

end Instr

end MipsBackend
