import MipsBackend.Assembly.Section
import MipsBackend.Layout

/-!
Code generation as a computation: it draws fresh registers and label numbers from a supply, writes
text items, and may stop at a violation.
-/

namespace MipsBackend

/-- The next virtual register and the next label number that nothing uses yet. -/
structure Supply where
  nextReg : VReg
  nextLabel : Nat
deriving DecidableEq, Repr

/-- What a computation answers, the code it wrote, and the supply it left. -/
structure Generated (α : Type) where
  value : α
  code : List TextItem
  supply : Supply

def Gen (α : Type) : Type := Supply → Except Violation (Generated α)

namespace Gen

def run {α : Type} (gen : Gen α) (supply : Supply) : Except Violation (Generated α) := gen supply

def answer {α : Type} (value : α) : Gen α := fun supply => .ok { value, code := [], supply }

/-- Runs one computation after the other; the code of the first comes first. -/
def followedBy {α β : Type} (first : Gen α) (next : α → Gen β) : Gen β := fun supply =>
  match first supply with
  | .error violation => .error violation
  | .ok before =>
    match next before.value before.supply with
    | .error violation => .error violation
    | .ok after => .ok { after with code := before.code ++ after.code }

instance : Monad Gen where
  pure := answer
  bind := followedBy

def fail {α : Type} (violation : Violation) : Gen α := fun _ => .error violation

/-- Answers what a look-up or calculation answers. -/
def lift {α : Type} (result : Except Violation α) : Gen α :=
  match result with
  | .ok value => answer value
  | .error violation => fail violation

def write (items : List TextItem) : Gen Unit := fun supply =>
  .ok { value := (), code := items, supply }

def emit (instrs : List Instr) : Gen Unit := write (instrs.map .instr)

def label (label : Label) : Gen Unit := write [.label label]

def freshReg : Gen Reg := fun supply =>
  .ok {
    value := .virt supply.nextReg
    code := []
    supply := { supply with nextReg := supply.nextReg + 1 } }

/-- A number for a group of labels that belong together. -/
def freshLabel : Gen Nat := fun supply =>
  .ok {
    value := supply.nextLabel
    code := []
    supply := { supply with nextLabel := supply.nextLabel + 1 } }

/-- Moves the stack pointer down by a number of bytes, unless it is zero in 64 bits. -/
def reserve (bytes : Nat) : Gen Unit :=
  if 0 < wrapped bytes then emit [.adjustStack (-.ofNat bytes)] else answer ()

def release (bytes : Nat) : Gen Unit :=
  if 0 < wrapped bytes then emit [.adjustStack (.ofNat bytes)] else answer ()

/-- The offsets of the bytes of an object, the last byte first. The number of bytes is taken in 32
bits, and a negative one has no offsets. -/
def byteOffsets (size : Nat) : List Int32 :=
  (List.range (Int32.ofNat size).toNatClampNeg).reverse.map .ofNat

/-- Copies an object byte by byte, from the address in `src` to that in `dst`. -/
def copyBytes (src : Reg) (srcOffset : Int32) (dst : Reg) (dstOffset : Int32) (size : Nat) :
    Gen Unit := do
  let byte ← freshReg
  emit ((byteOffsets size).flatMap fun offset =>
    [.load .lb byte (srcOffset + offset) src, .store .sb byte (dstOffset + offset) dst])

end Gen

end MipsBackend
