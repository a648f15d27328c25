import MipsBackend.Tree.Type

/-!
Expressions, each with its static type, and the variables they refer to by the number of their
declaration.
-/

namespace MipsBackend

abbrev DeclId := UInt32

structure VarDecl where
  id : DeclId
  name : String
  ty : Ty
deriving DecidableEq, Repr

inductive BinOp where
  | add | sub | mul | div | mod | gt | lt | ge | le | ne | eq | or | and
deriving DecidableEq, Repr

inductive Expr where
  | intLit (ty : Ty) (value : Int32)
  | charLit (ty : Ty) (value : Char)
  | strLit (ty : Ty) (text : String)
  | var (ty : Ty) (id : DeclId) (name : String)
  | call (ty : Ty) (name : String) (args : List Expr)
  | binOp (ty : Ty) (op : BinOp) (lhs rhs : Expr)
  | index (ty : Ty) (array position : Expr)
  | field (ty : Ty) (object : Expr) (name : String)
  | deref (ty : Ty) (pointer : Expr)
  | addrOf (ty : Ty) (operand : Expr)
  | sizeOf (ty : Ty) (measured : Ty)
  /-- Changes the static type only. -/
  | cast (ty : Ty) (operand : Expr)
  | assign (ty : Ty) (lhs rhs : Expr)
deriving Repr

namespace Expr

def ty : Expr → Ty
  | intLit ty _ | charLit ty _ | strLit ty _ | var ty _ _ | call ty _ _ | binOp ty _ _ _
  | index ty _ _ | field ty _ _ | deref ty _ | addrOf ty _ | sizeOf ty _ | cast ty _
  | assign ty _ _ => ty

/-- The declaration that a plain variable reference names. -/
def declId? : Expr → Option DeclId
  | var _ id _ => some id
  | _ => none

/-! ## Expressions whose type follows from their parts -/

def ofInt (value : Int32) : Expr := intLit .int value

def ofChar (value : Char) : Expr := charLit .char value

/-- A string literal is an array of its characters and a final zero. -/
def ofString (text : String) : Expr := strLit (.array .char (.ofNat (text.length + 1))) text

def ofDecl (decl : VarDecl) : Expr := var decl.ty decl.id decl.name

def ofOperands (op : BinOp) (lhs rhs : Expr) : Expr := binOp .int op lhs rhs

def elementOf (array position : Expr) : Expr := index (array.ty.element?.getD .void) array position

def valueAt (pointer : Expr) : Expr := deref (pointer.ty.element?.getD .void) pointer

def addressOf (operand : Expr) : Expr := addrOf (.pointer operand.ty) operand

def sizeOfType (measured : Ty) : Expr := sizeOf .int measured

def assignment (lhs rhs : Expr) : Expr := assign lhs.ty lhs rhs

/-! ## Visiting -/

mutual

/-- The expression and all expressions in it, each before its parts. -/
def subterms : Expr → List Expr
  | intLit ty value => [intLit ty value]
  | charLit ty value => [charLit ty value]
  | strLit ty text => [strLit ty text]
  | var ty id name => [var ty id name]
  | sizeOf ty measured => [sizeOf ty measured]
  | call ty name args => call ty name args :: listSubterms args
  | binOp ty op lhs rhs => binOp ty op lhs rhs :: (lhs.subterms ++ rhs.subterms)
  | index ty array position => index ty array position :: (array.subterms ++ position.subterms)
  | field ty object name => field ty object name :: object.subterms
  | deref ty pointer => deref ty pointer :: pointer.subterms
  | addrOf ty operand => addrOf ty operand :: operand.subterms
  | cast ty operand => cast ty operand :: operand.subterms
  | assign ty lhs rhs => assign ty lhs rhs :: (lhs.subterms ++ rhs.subterms)

def listSubterms : List Expr → List Expr
  | [] => []
  | first :: rest => first.subterms ++ listSubterms rest

end

end Expr

end MipsBackend
