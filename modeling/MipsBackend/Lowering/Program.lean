import MipsBackend.Lowering.Stmt

/-!
Code for functions and programs. A function's code saves the frame pointer and the return address,
reserves its local variables, and saves the registers that it is going to use; its end undoes this
in the opposite order. A program is the entry code, its functions, and the library functions that it
does not define itself.
-/

namespace MipsBackend

def enterFrame (localSpace : Nat) : Gen Unit := do
  Gen.emit [.adjustStack (-4), .sw .fp 0 .sp, .arithImm .addiu .fp .sp 0, .adjustStack (-4),
    .sw .ra 0 .sp]
  Gen.reserve localSpace
  Gen.emit [.marker .save]

def leaveFrame : Gen Unit :=
  Gen.emit [.marker .restore, .arithImm .addiu .sp .fp 4, .lw .ra (-4) .fp, .lw .fp 0 .fp,
    .jumpReg .ra]

namespace Env

def lowerFunction (env : Env) (fn : FunDef) : Gen Unit := do
  Gen.label (.function fn.name)
  enterFrame (env.plan.spaceOf fn.name)
  Stmt.lowerAll env (.epilogue fn.name) none fn.body.stmts
  Gen.label (.epilogue fn.name)
  leaveFrame

/-- Each function becomes a section of its own; all draw from one supply. -/
def lowerFunctions (env : Env) (supply : Supply) : List FunDef → Except Violation (List Section)
  | [] => .ok []
  | fn :: rest => do
    let generated ← (env.lowerFunction fn).run supply
    let later ← env.lowerFunctions generated.supply rest
    return { items := generated.code } :: later

end Env

/-- Calls the entry function, and ends the program when it returns. -/
def entrySection (entry : String) : Section :=
  { items :=
      [.label .start, .instr (.call (.function entry)), .instr (.loadImm .v0 Service.exitCode),
        .instr .syscall] }

def Service.stub (service : Service) : Section :=
  { items :=
      [.label (.function service.name), .instr (.loadImm .v0 service.code), .instr .syscall,
        .instr (.jumpReg .ra)] }

/-- The program's code, over virtual registers, with `entry` as its first function. -/
def Program.generate (program : Program) (entry : String) : Except Violation Assembly := do
  let (promotion, nextReg) := program.promotion 0
  let plan ← program.memoryPlan promotion
  if program.defines entry then
    let env := Env.ofProgram program promotion plan
    let functions ← env.lowerFunctions { nextReg, nextLabel := 0 } program.functions
    let stubs := Service.all.filter (fun service => !program.defines service.name)
    return {
      data := plan.data
      sections := entrySection entry :: functions ++ stubs.map Service.stub }
  else .error (.missingEntryPoint entry)

end MipsBackend
