import Mathlib.Logic.Relation
import MipsBackend.Service
import MipsBackend.Proofs.Storage.DataLabels

/-!
# Well-formed programs

What a program has to be like to compile. The conditions on expressions are about one expression and
what it refers to; they are asked of every expression of the program.
-/

namespace MipsBackend

namespace Ty

/-- The structs that the type names, behind pointers too. -/
def structs : Ty → List String
  | int | char | void => []
  | pointer target => target.structs
  | array elem _ => elem.structs
  | struct name => [name]

/-- The struct that values of the type consist of, or are an array of. -/
def contained? : Ty → Option String
  | int | char | void | pointer _ => none
  | array elem _ => elem.contained?
  | struct name => some name

theorem mem_structs_of_contained {ty : Ty} {name : String} (contained : name ∈ ty.contained?) :
    name ∈ ty.structs := by
  induction ty with
  | array elem length ih => exact ih contained
  | struct other =>
    cases contained
    exact List.mem_singleton_self _
  | _ => cases contained

end Ty

namespace Expr

/-- The types that the expression names, apart from its parts. -/
def types : Expr → List Ty
  | sizeOf ty measured => [ty, measured]
  | e => [e.ty]

/-- Whether the expression denotes an object, so that it can be assigned to and its address taken. -/
def isPlace : Expr → Bool
  | var _ _ _ | index _ _ _ | field _ _ _ | deref _ _ => true
  | _ => false

/-- Whether the expression can answer with an address, as a struct or an array has to. -/
def isObject : Expr → Bool
  | strLit _ _ | call _ _ _ | assign _ _ _ => true
  | e => e.isPlace

end Expr

namespace Decl

def types : Decl → List Ty
  | struct decl => decl.fields.map VarDecl.ty
  | var decl => [decl.ty]
  | funDecl decl => decl.ret :: decl.params.map VarDecl.ty
  | funDef fn => fn.ret :: (fn.params ++ fn.body.locals).map VarDecl.ty ++
      fn.body.exprs.flatMap Expr.types

end Decl

namespace Program

def types (program : Program) : List Ty := program.decls.flatMap Decl.types

/-- The declaration of a struct. The last one of a name counts. -/
def struct? (program : Program) (name : String) : Option StructDecl :=
  program.structs.reverse.find? (·.name = name)

def fieldsOf (program : Program) : Ty → List VarDecl
  | .struct name => ((program.struct? name).map StructDecl.fields).getD []
  | _ => []

/-- Whether a struct has a field that consists of another struct, or is an array of them. -/
def Contains (program : Program) (outer inner : String) : Prop :=
  ∃ field ∈ program.fieldsOf (.struct outer), field.ty.contained? = some inner

def visible (program : Program) (fn : FunDef) : List VarDecl :=
  program.globals ++ fn.params ++ fn.body.locals

def callable (program : Program) : List String :=
  program.signatures.map FunDecl.name ++ Service.all.map Service.name

end Program

/-- Whether an expression of a function refers to what there is, and its parts are of the right
kind. -/
def Expr.Fits (program : Program) (fn : FunDef) : Expr → Prop
  | charLit _ value => value.toNat < 128
  | var ty id _ => ∃ decl ∈ program.visible fn, decl.id = id ∧ decl.ty = ty
  | call _ name _ => name ∈ program.callable
  | index _ array _ => array.ty.isArray = true ∨ array.ty.isPointer = true
  | field _ owner name => name ∈ (program.fieldsOf owner.ty).map VarDecl.name
  | addrOf _ operand => operand.isPlace = true
  | assign ty lhs rhs => lhs.isPlace = true ∧ lhs.ty = ty ∧ rhs.ty = ty
  | intLit _ _ | strLit _ _ | binOp _ _ _ _ | deref _ _ | sizeOf _ _ | cast _ _ => True

instance (program : Program) (fn : FunDef) : (e : Expr) → Decidable (e.Fits program fn)
  | .charLit _ value => inferInstanceAs (Decidable (value.toNat < 128))
  | .var ty id _ =>
    inferInstanceAs (Decidable (∃ decl ∈ program.visible fn, decl.id = id ∧ decl.ty = ty))
  | .call _ name _ => inferInstanceAs (Decidable (name ∈ program.callable))
  | .index _ array _ =>
    inferInstanceAs (Decidable (array.ty.isArray = true ∨ array.ty.isPointer = true))
  | .field _ owner name =>
    inferInstanceAs (Decidable (name ∈ (program.fieldsOf owner.ty).map VarDecl.name))
  | .addrOf _ operand => inferInstanceAs (Decidable (operand.isPlace = true))
  | .assign ty lhs rhs =>
    inferInstanceAs (Decidable (lhs.isPlace = true ∧ lhs.ty = ty ∧ rhs.ty = ty))
  | .intLit _ _ | .strLit _ _ | .binOp _ _ _ _ | .deref _ _ | .sizeOf _ _ | .cast _ _ =>
    inferInstanceAs (Decidable True)

namespace Stmt

mutual

def jumpsInLoops (inLoop : Bool) : Stmt → Bool
  | block _ stmts => allJumpInLoops inLoop stmts
  | loop _ body => body.jumpsInLoops true
  | branch _ yes none => yes.jumpsInLoops inLoop
  | branch _ yes (some no) => yes.jumpsInLoops inLoop && no.jumpsInLoops inLoop
  | ret _ | eval _ => true
  | breakLoop | continueLoop => inLoop

def allJumpInLoops (inLoop : Bool) : List Stmt → Bool
  | [] => true
  | first :: rest => first.jumpsInLoops inLoop && allJumpInLoops inLoop rest

end

end Stmt

/-- What the front end promises of a program. -/
structure Program.WellFormed (program : Program) (entry : String) : Prop where
  entry : program.defines entry = true
  declared : ∀ ty ∈ program.types, ∀ name ∈ ty.structs, name ∈ program.structs.map StructDecl.name
  finite : ∀ name, ¬ Relation.TransGen program.Contains name name
  fits : ∀ fn ∈ program.functions, ∀ e ∈ fn.body.exprs, e.Fits program fn
  /-- In particular, casts, operators, addresses and sizes are scalar. -/
  objects : ∀ fn ∈ program.functions, ∀ e ∈ fn.body.exprs,
    e.ty.isScalar = false → e.isObject = true
  jumps : ∀ fn ∈ program.functions, Stmt.allJumpInLoops false fn.body.stmts = true

end MipsBackend
