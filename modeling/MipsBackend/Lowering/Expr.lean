import MipsBackend.Lowering.Env

/-!
Code for expressions. An expression has two kinds of code: one that leaves its address in a register
and one that leaves its value. Structs and arrays are handled by their address throughout; only a
call that returns one answers with the address of its result on the stack.
-/

namespace MipsBackend

structure Lowered where
  addr : Gen Reg
  val : Gen Reg

namespace Lowered

/-- The value of a struct or array is its address. -/
def ofType (ty : Ty) (addr val : Gen Reg) : Lowered :=
  { addr, val := if ty.isScalar then val else addr }

end Lowered

def Ty.loadOp (ty : Ty) : LoadOp := if ty.isChar then .lb else .lw

def Ty.storeOp (ty : Ty) : StoreOp := if ty.isChar then .sb else .sw

namespace Gen

def loadFrom (ty : Ty) (addr : Reg) : Gen Reg := do
  let res ← freshReg
  emit [.load ty.loadOp res 0 addr]
  return res

def constant (value : Int32) : Gen Reg := do
  let res ← freshReg
  emit [.loadImm res value]
  return res

def addressOfLabel (label : Label) : Gen Reg := do
  let res ← freshReg
  emit [.loadAddr res label]
  return res

/-- Characters are ASCII; no other fits into a byte. -/
def character (c : Char) : Gen Reg :=
  if c.toNat < 128 then do
    let res ← freshReg
    emit [.arithImm .addi res .zero (.ofNat c.toNat)]
    return res
  else fail (.charOutOfRange c)

/-! ## Operators -/

/-- The instructions of an operator that evaluates both operands. -/
def operatorCode (op : BinOp) (res lhs rhs : Reg) : List Instr :=
  match op with
  | .add => [.arith .add res lhs rhs]
  | .sub => [.arith .sub res lhs rhs]
  | .mul => [.hiLo .mult lhs rhs, .moveFrom .mflo res]
  | .div => [.hiLo .div lhs rhs, .moveFrom .mflo res]
  | .mod => [.hiLo .div lhs rhs, .moveFrom .mfhi res]
  | .gt => [.arith .slt res rhs lhs]
  | .lt => [.arith .slt res lhs rhs]
  | .ge => [.arith .slt res lhs rhs, .arithImm .xori res res 1]
  | .le => [.arith .slt res rhs lhs, .arithImm .xori res res 1]
  | .ne => [.arith .xor res lhs rhs, .arith .sltu res .zero res]
  | .eq => [.arith .xor res lhs rhs, .arithImm .sltiu res res 1]
  | .or | .and => []

/-- The two operators that evaluate their right operand only if the left one does not decide. -/
structure ShortCircuit where
  decidedLabel : String
  endLabel : String
  /-- Branches if an operand decides the result. -/
  test : ZeroTest
  undecided : Int32
  decided : Int32

def ShortCircuit.or : ShortCircuit :=
  { decidedLabel := "or_true", endLabel := "or_end", test := .bnez
    undecided := 0, decided := 1 }

def ShortCircuit.and : ShortCircuit :=
  { decidedLabel := "and_false", endLabel := "and_end", test := .beqz
    undecided := 1, decided := 0 }

def shortCircuit (kind : ShortCircuit) (lhs rhs : Gen Reg) : Gen Reg := do
  let n ← freshLabel
  let decided := Label.branch kind.decidedLabel n
  let done := Label.branch kind.endLabel n
  let left ← lhs
  let res ← freshReg
  emit [.branchZero kind.test left decided]
  let right ← rhs
  emit [.branchZero kind.test right decided, .loadImm res kind.undecided, .jump done]
  label decided
  emit [.loadImm res kind.decided]
  label done
  return res

def operator (op : BinOp) (lhs rhs : Gen Reg) : Gen Reg :=
  match op with
  | .or => shortCircuit .or lhs rhs
  | .and => shortCircuit .and lhs rhs
  | op => do
    let left ← lhs
    let right ← rhs
    let res ← freshReg
    emit (operatorCode op res left right)
    return res

end Gen

/-! ## Calls -/

structure Arg where
  ty : Ty
  val : Gen Reg

namespace Env

/-- Stores arguments one above the other from `offset` on. A struct is copied whole. -/
def storeArgs (env : Env) (offset : Int32) : List Arg → Gen Unit
  | [] => .answer ()
  | arg :: above => do
    let reg ← arg.val
    if arg.ty.isStruct then
      let size ← Gen.lift (env.layout.size arg.ty)
      Gen.copyBytes reg 0 .sp offset size
      env.storeArgs (offset + .ofNat (alignUp size 4)) above
    else
      Gen.emit [.store arg.ty.storeOp reg offset .sp]
      env.storeArgs (offset + 4) above

/-- Calls a library function: the first argument goes to `$a0`, and the result comes from `$v0`. -/
def callService (ret : Ty) (name : String) (args : List Arg) : Gen Reg := do
  match args with
  | [] => .answer ()
  | first :: _ => do
    let reg ← first.val
    Gen.emit [.move .a0 reg]
  Gen.emit [.call (.function name)]
  if ret.isVoid then return .zero
  else
    let res ← Gen.freshReg
    Gen.emit [.move res .v0]
    return res

/-- Takes the result of a call from the top of the stack: a struct by its address. -/
def takeResult (ret : Ty) : Gen Reg :=
  if ret.isVoid then .answer .zero
  else if ret.isStruct then do
    let res ← Gen.freshReg
    Gen.emit [.arith .add res .zero .sp]
    return res
  else Gen.loadFrom ret .sp

/-- Calls a function of the program: arguments on the stack, the last one lowest, and below them the
place for the result. -/
def callFunction (env : Env) (name : String) (args : List Arg) : Gen Reg := do
  let signature ← Gen.lift (env.signature name)
  let space ← Gen.lift (env.layout.slotsSize signature.params)
  Gen.reserve space
  env.storeArgs 0 args.reverse
  let result ← Gen.lift (env.layout.slotSize signature.ret)
  Gen.reserve result
  Gen.emit [.call (.function name)]
  let res ← takeResult signature.ret
  Gen.release (space + result)
  return res

def call (env : Env) (ret : Ty) (name : String) (args : List Arg) : Lowered :=
  let code :=
    match env.service? name with
    | some _ => callService ret name args
    | none => env.callFunction name args
  { addr := code, val := code }

/-! ## Places -/

def varAddr (env : Env) (id : DeclId) (name : String) : Gen Reg := do
  match ← Gen.lift (env.plan.storageOf id name) with
  | .register reg => return .virt reg
  | .global label => Gen.addressOfLabel label
  | .frame offset true => do
    let res ← Gen.freshReg
    Gen.emit [.lw res offset .fp]
    return res
  | .frame offset false => do
    let res ← Gen.freshReg
    Gen.emit [.arithImm .addi res .fp offset]
    return res

def var (env : Env) (ty : Ty) (id : DeclId) (name : String) : Lowered :=
  let addr := env.varAddr id name
  .ofType ty addr <|
    match env.promotion[id]? with
    | some reg => .answer (.virt reg)
    | none => do Gen.loadFrom ty (← addr)

def index (env : Env) (ty arrayTy : Ty) (array position : Lowered) : Lowered :=
  let addr : Gen Reg := do
    let base ← if arrayTy.isPointer then array.val else array.addr
    let number ← position.val
    let size ← Gen.lift (env.layout.size ty)
    let res ← Gen.freshReg
    Gen.emit [.loadImm res (.ofNat size), .arith .mul res number res, .arith .add res base res]
    return res
  .ofType ty addr do Gen.loadFrom ty (← addr)

def field (env : Env) (ty ownerTy : Ty) (owner : Lowered) (name : String) : Lowered :=
  let addr : Gen Reg := do
    let base ← owner.addr
    match ownerTy with
    | .struct structName => do
      let offset ← Gen.lift (env.layout.fieldOffset structName name)
      let res ← Gen.freshReg
      Gen.emit [.arithImm .addi res base (.ofNat offset)]
      return res
    | _ => Gen.fail (.fieldOfNonStruct name)
  .ofType ty addr do Gen.loadFrom ty (← addr)

/-- In address mode, a struct is copied whole and the answer is the target; the answer for a
promoted variable is the value. In value mode, the right side is evaluated first and is the
answer. -/
def assign (env : Env) (ty : Ty) (target : Expr) (lhs rhs : Lowered) : Lowered :=
  .ofType ty
    (do
      let dst ← lhs.addr
      if target.ty.isStruct then
        let src ← rhs.addr
        let size ← Gen.lift (env.layout.size target.ty)
        Gen.copyBytes src 0 dst 0 size
        return dst
      else
        let value ← rhs.val
        if (env.promotedReg? target).isSome then
          Gen.emit [.move dst value]
          return value
        else
          Gen.emit [.store target.ty.storeOp value 0 dst]
          return dst)
    (do
      let value ← rhs.val
      match env.promotedReg? target with
      | some reg => do
        Gen.emit [.move reg value]
        return value
      | none => do
        let dst ← lhs.addr
        Gen.emit [.store target.ty.storeOp value 0 dst]
        return value)

end Env

/-! ## Expressions -/

namespace Expr

mutual

def lower (env : Env) : Expr → Lowered
  | intLit ty value => .ofType ty (.fail (.noAddress .integerLiteral)) (.constant value)
  | charLit ty value => .ofType ty (.fail (.noAddress .characterLiteral)) (.character value)
  | strLit ty text =>
    let addr : Gen Reg := do Gen.addressOfLabel (← Gen.lift (env.plan.stringLabel text))
    .ofType ty addr addr
  | var ty id name => env.var ty id name
  | call ty name args => env.call ty name (lowerArgs env args)
  | binOp ty op lhs rhs =>
    .ofType ty (.fail (.noAddress .binaryOperation))
      (.operator op (lhs.lower env).val (rhs.lower env).val)
  | index ty array position => env.index ty array.ty (array.lower env) (position.lower env)
  | field ty owner name => env.field ty owner.ty (owner.lower env) name
  | deref ty pointer =>
    let addr := (pointer.lower env).val
    .ofType ty addr do Gen.loadFrom ty (← addr)
  | addrOf ty operand =>
    let addr := (operand.lower env).addr
    .ofType ty addr addr
  | sizeOf ty measured =>
    .ofType ty (.fail (.noAddress .sizeofExpression)) do
      Gen.constant (.ofNat (← Gen.lift (env.layout.size measured)))
  | cast ty operand =>
    let code := operand.lower env
    .ofType ty code.addr code.val
  | assign ty lhs rhs => env.assign ty lhs (lhs.lower env) (rhs.lower env)

def lowerArgs (env : Env) : List Expr → List Arg
  | [] => []
  | arg :: rest => { ty := arg.ty, val := (arg.lower env).val } :: lowerArgs env rest

end

end Expr

end MipsBackend
