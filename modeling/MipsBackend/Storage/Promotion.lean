import MipsBackend.Tree.Program
import MipsBackend.Assembly.Register
import Std.Data.ExtTreeMap

/-!
Which local variables live in a virtual register: those of scalar type, unless their address is
taken somewhere in their function.
-/

namespace MipsBackend

abbrev Promotion := Std.ExtTreeMap DeclId VReg

namespace Promotion

/-- Gives the variables the registers from `next` on, in order. -/
def grant (promotion : Promotion) (next : VReg) : List VarDecl → Promotion × VReg
  | [] => (promotion, next)
  | decl :: rest => grant (promotion.insert decl.id next) (next + 1) rest

/-- Takes the register away again from each of the variables. -/
def revoke (promotion : Promotion) (ids : List DeclId) : Promotion :=
  ids.foldl (·.erase ·) promotion

end Promotion

/-- The variable whose address the expression takes, if it is applied to one directly. -/
def Expr.addressTaken? : Expr → Option DeclId
  | addrOf _ operand => operand.declId?
  | _ => none

def Block.scalarLocals (body : Block) : List VarDecl := body.locals.filter (·.ty.isScalar)

def Block.addressesTaken (body : Block) : List DeclId := body.exprs.filterMap Expr.addressTaken?

/-- Promotes the variables of the functions in order, with the registers from `next` on. Also
answers the first register that is still free. -/
def promoteAll (promotion : Promotion) (next : VReg) : List FunDef → Promotion × VReg
  | [] => (promotion, next)
  | fn :: rest =>
    let (granted, next) := promotion.grant next fn.body.scalarLocals
    promoteAll (granted.revoke fn.body.addressesTaken) next rest

def Program.promotion (program : Program) (next : VReg) : Promotion × VReg :=
  promoteAll ∅ next program.functions

end MipsBackend
