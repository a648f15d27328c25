import MipsBackend.Proofs.Scalar.Operators
import MipsBackend.Proofs.Storage.Variables

/-!
# What places denote

A reference semantics of expressions without calls and assignments, in two parts. An expression that
is an object has a place, an address in memory, and every expression has a value: that of an object
is what it contains, and an aggregate, which no word can hold, stands for its place. An array that is
indexed and a pointer that is indexed differ in their values only.
-/

namespace MipsBackend

/-- The word that an object of a type contains; of an aggregate, where it is. -/
def Ty.contents (ty : Ty) (memory : Memory) (place : Word) : Word :=
  if ty.isScalar then
    if ty.isChar then (memory place).signExtend 32 else memory.word place
  else place

/-- The result of an operator whose right operand is evaluated if the left one does not decide. There
is none for a division by zero. -/
def BinOp.join? (op : BinOp) (left right : Option Word) : Option Word := do
  let x ← left
  match op.decided? (.ofBitVec x) with
  | some value => some value.toBitVec
  | none => do
    let y ← right
    if (op = .div ∨ op = .mod) ∧ y = 0 then none
    else some (op.result (.ofBitVec x) (.ofBitVec y)).toBitVec

/-! ## Denotations -/

structure Denotation where
  place : Option Word
  value : Option Word

namespace Denotation

def object (ty : Ty) (memory : Memory) (place : Option Word) : Denotation :=
  { place, value := place.map (ty.contents memory) }

/-- A value that is not kept in memory. -/
def pure (value : Option Word) : Denotation := { place := none, value }

end Denotation

/-- What an expression can refer to. -/
structure Surroundings where
  layout : Layout
  memory : Memory
  /-- Where a variable is in memory. -/
  base? : DeclId → Option Word
  /-- The value of a variable that has a register. -/
  held? : DeclId → Option Word
  text? : String → Option Word

def Expr.denote (around : Surroundings) : Expr → Denotation
  | intLit _ value => .pure (some value.toBitVec)
  | charLit _ value => .pure (some (BitVec.ofNat 32 value.toNat))
  | strLit ty text => .object ty around.memory (around.text? text)
  | var ty id _ =>
    match around.held? id with
    | some value => .pure (some value)
    | none => .object ty around.memory (around.base? id)
  | binOp _ op lhs rhs => .pure (op.join? (lhs.denote around).value (rhs.denote around).value)
  | index ty array position =>
    .object ty around.memory do
      let base ← (array.denote around).value
      let number ← (position.denote around).value
      let size ← (around.layout.size (← array.ty.element?)).toOption
      return base + number * BitVec.ofNat 32 size
  | field ty owner name =>
    .object ty around.memory do
      let base ← (owner.denote around).place
      match owner.ty with
      | .struct struct =>
        let offset ← (around.layout.fieldOffset struct name).toOption
        return base + BitVec.ofNat 32 offset
      | _ => none
  | deref ty pointer => .object ty around.memory (pointer.denote around).value
  | addrOf _ operand => .pure (operand.denote around).place
  | sizeOf _ measured => .pure ((around.layout.size measured).toOption.map (BitVec.ofNat 32))
  | call _ _ _ | cast _ _ | assign _ _ _ => .pure none

namespace Program

/-- Where a variable is in memory, for a function that is running. -/
def base? (program : Program) (plan : MemoryPlan) (fn : FunDef) (address : Label → Word)
    (machine : Machine) (id : DeclId) : Option Word :=
  match program.global? id with
  | some decl => some (address (.global decl.name))
  | none =>
    match plan.storage[id]? with
    | some (.frame offset _) =>
      let slot := machine.phys .fp + offset.toBitVec
      some (if fn.receives id then machine.memory.word slot else slot)
    | _ => none

def surroundings (program : Program) (plan : MemoryPlan) (fn : FunDef) (address : Label → Word)
    (machine : Machine) : Surroundings where
  layout := .ofProgram program
  memory := machine.memory
  base? := program.base? plan fn address machine
  held? id := (program.promotion 0).1[id]?.map machine.virt
  text? text := plan.strings[text]?.map address

end Program

/-! ## Places and operands -/

/-- What is asked of an expression: where it is, or what it is. -/
inductive Mode where
  | place | value
deriving DecidableEq, Repr

def Denotation.part (meaning : Denotation) : Mode → Option Word
  | .place => meaning.place
  | .value => meaning.value

/-- Places are built from variables in memory and string literals by indexing, fields and pointers,
and values from constants, variables in registers, operators, and the addresses and contents of
places. All types are those that the declarations give. -/
inductive Expr.Denotes (program : Program) (plan : MemoryPlan) (fn : FunDef) : Mode → Expr → Prop
  | text {length : UInt64} {text : String} (interned : text ∈ plan.strings) :
      Denotes program plan fn .place (.strLit (.array .char length) text)
  | stored {decl : VarDecl} {name : String} (seen : decl ∈ program.visible fn)
      (kept : (program.promotion 0).1[decl.id]? = none) :
      Denotes program plan fn .place (.var decl.ty decl.id name)
  | element {elem : Ty} {length : UInt64} {array position : Expr} {size : Nat}
      (typed : array.ty = .array elem length) (base : Denotes program plan fn .place array)
      (number : Denotes program plan fn .value position)
      (sized : (Layout.ofProgram program).size elem = .ok size) :
      Denotes program plan fn .place (.index elem array position)
  | offset {elem : Ty} {pointer position : Expr} {size : Nat} (typed : pointer.ty = .pointer elem)
      (base : Denotes program plan fn .value pointer)
      (number : Denotes program plan fn .value position)
      (sized : (Layout.ofProgram program).size elem = .ok size) :
      Denotes program plan fn .place (.index elem pointer position)
  | member {ty : Ty} {struct : String} {owner : Expr} {name : String} {offset : Nat}
      (typed : owner.ty = .struct struct) (base : Denotes program plan fn .place owner)
      (placed : (Layout.ofProgram program).fieldOffset struct name = .ok offset) :
      Denotes program plan fn .place (.field ty owner name)
  | target {ty : Ty} {pointer : Expr} (base : Denotes program plan fn .value pointer) :
      Denotes program plan fn .place (.deref ty pointer)
  | number {ty : Ty} {value : Int32} (scalar : ty.isScalar = true) :
      Denotes program plan fn .value (.intLit ty value)
  | character {ty : Ty} {value : Char} (scalar : ty.isScalar = true) (ascii : value.toNat < 128) :
      Denotes program plan fn .value (.charLit ty value)
  | size {ty measured : Ty} {size : Nat} (scalar : ty.isScalar = true)
      (sized : (Layout.ofProgram program).size measured = .ok size) :
      Denotes program plan fn .value (.sizeOf ty measured)
  | promoted {ty : Ty} {id : DeclId} {name : String} {reg : VReg} (scalar : ty.isScalar = true)
      (found : (program.promotion 0).1[id]? = some reg) :
      Denotes program plan fn .value (.var ty id name)
  | operator {ty : Ty} {op : BinOp} {lhs rhs : Expr} (scalar : ty.isScalar = true)
      (left : Denotes program plan fn .value lhs) (right : Denotes program plan fn .value rhs) :
      Denotes program plan fn .value (.binOp ty op lhs rhs)
  | address {ty : Ty} {operand : Expr} (place : Denotes program plan fn .place operand) :
      Denotes program plan fn .value (.addrOf ty operand)
  | contents {e : Expr} (place : Denotes program plan fn .place e) :
      Denotes program plan fn .value e

end MipsBackend
