import MipsBackend.Lowering.Gen
import MipsBackend.Storage.Memory
import MipsBackend.Service

/-!
What code generation knows about the program around an expression.
-/

namespace MipsBackend

structure Env where
  layout : Layout
  promotion : Promotion
  plan : MemoryPlan
  /-- The declared and defined functions. The last signature of a name counts. -/
  signatures : Std.ExtTreeMap String FunDecl
  defined : List String

namespace Env

def ofProgram (program : Program) (promotion : Promotion) (plan : MemoryPlan) : Env :=
  { layout := .ofProgram program
    promotion
    plan
    signatures :=
      program.signatures.foldl (fun signatures decl => signatures.insert decl.name decl) ∅
    defined := program.functions.map (·.name) }

/-- The library function that a name calls. A definition in the program takes its place. -/
def service? (env : Env) (name : String) : Option Service :=
  if name ∈ env.defined then none else Service.ofName? name

def signature (env : Env) (name : String) : Except Violation FunDecl :=
  match env.signatures[name]? with
  | some decl => .ok decl
  | none => .error (.unknownFunction name)

/-- The register of a promoted variable, if the expression is a plain reference to one. -/
def promotedReg? (env : Env) (e : Expr) : Option Reg :=
  (e.declId?.bind (env.promotion[·]?)).map .virt

end Env

end MipsBackend
