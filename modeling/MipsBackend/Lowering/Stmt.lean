import MipsBackend.Lowering.Expr

/-!
Code for statements. A statement knows the labels of the innermost loop around it and the label that
returns jump to.
-/

namespace MipsBackend

/-- Where `continue` and `break` go. -/
structure LoopLabels where
  next : Label
  done : Label
deriving DecidableEq, Repr

/-- The place of the result, relative to the frame pointer. -/
def resultOffset : Int32 := 4

namespace Env

/-- Stores a result in its place, and leaves the function. -/
def returnValue (env : Env) (ty : Ty) (val : Gen Reg) (epilogue : Label) : Gen Unit := do
  let reg ← val
  if ty.isStruct then
    let size ← Gen.lift (env.layout.size ty)
    Gen.copyBytes reg 0 .fp resultOffset size
  else if ty.isVoid then Gen.answer ()
  else Gen.emit [.store ty.storeOp reg resultOffset .fp]
  Gen.emit [.jump epilogue]

end Env

namespace Stmt

mutual

def lower (env : Env) (epilogue : Label) (labels : Option LoopLabels) : Stmt → Gen Unit
  | block _ stmts => lowerAll env epilogue labels stmts
  | loop cond body => do
    let n ← Gen.freshLabel
    let next := Label.branch "while_cond" n
    let done := Label.branch "while_end" n
    Gen.label next
    let reg ← (cond.lower env).val
    Gen.emit [.branchZero .beqz reg done]
    Gen.label (.branch "while_body" n)
    body.lower env epilogue (some { next, done })
    Gen.emit [.jump next]
    Gen.label done
  | branch cond yes none => do
    let n ← Gen.freshLabel
    let done := Label.branch "if_end" n
    let reg ← (cond.lower env).val
    Gen.emit [.branchZero .beqz reg done]
    yes.lower env epilogue labels
    Gen.label done
  | branch cond yes (some no) => do
    let n ← Gen.freshLabel
    let done := Label.branch "if_end" n
    let otherwise := Label.branch "else" n
    let reg ← (cond.lower env).val
    Gen.emit [.branchZero .beqz reg otherwise]
    yes.lower env epilogue labels
    Gen.emit [.jump done]
    Gen.label otherwise
    no.lower env epilogue labels
    Gen.label done
  | ret none => Gen.emit [.jump epilogue]
  | ret (some value) => env.returnValue value.ty (value.lower env).val epilogue
  | eval expr => do
    let _ ← (expr.lower env).val
    return ()
  | breakLoop =>
    match labels with
    | some labels => Gen.emit [.jump labels.done]
    | none => Gen.fail .breakOutsideLoop
  | continueLoop =>
    match labels with
    | some labels => Gen.emit [.jump labels.next]
    | none => Gen.fail .continueOutsideLoop

def lowerAll (env : Env) (epilogue : Label) (labels : Option LoopLabels) : List Stmt → Gen Unit
  | [] => Gen.answer ()
  | first :: rest => do
    first.lower env epilogue labels
    lowerAll env epilogue labels rest

end

end Stmt

end MipsBackend
