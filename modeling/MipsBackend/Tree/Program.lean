import MipsBackend.Tree.Expr

/-!
Statements, declarations and programs.
-/

namespace MipsBackend

inductive Stmt where
  | block (vars : List VarDecl) (stmts : List Stmt)
  | loop (cond : Expr) (body : Stmt)
  | branch (cond : Expr) (yes : Stmt) (no : Option Stmt)
  | ret (value : Option Expr)
  | eval (expr : Expr)
  | breakLoop
  | continueLoop
deriving Repr

structure Block where
  vars : List VarDecl
  stmts : List Stmt
deriving Repr

namespace Stmt

mutual

/-- All expressions in the statement, each before its parts. -/
def exprs : Stmt → List Expr
  | block _ stmts => listExprs stmts
  | loop cond body => cond.subterms ++ body.exprs
  | branch cond yes none => cond.subterms ++ yes.exprs
  | branch cond yes (some no) => cond.subterms ++ yes.exprs ++ no.exprs
  | ret (some value) => value.subterms
  | eval expr => expr.subterms
  | ret none | breakLoop | continueLoop => []

def listExprs : List Stmt → List Expr
  | [] => []
  | first :: rest => first.exprs ++ listExprs rest

end

mutual

/-- All blocks in the statement, each before those in it. -/
def blocks : Stmt → List Block
  | block vars stmts => { vars, stmts } :: listBlocks stmts
  | loop _ body => body.blocks
  | branch _ yes none => yes.blocks
  | branch _ yes (some no) => yes.blocks ++ no.blocks
  | ret _ | eval _ | breakLoop | continueLoop => []

def listBlocks : List Stmt → List Block
  | [] => []
  | first :: rest => first.blocks ++ listBlocks rest

end

end Stmt

namespace Block

def locals (body : Block) : List VarDecl :=
  body.vars ++ (Stmt.listBlocks body.stmts).flatMap Block.vars

def exprs (body : Block) : List Expr := Stmt.listExprs body.stmts

end Block

structure StructDecl where
  name : String
  fields : List VarDecl
deriving DecidableEq, Repr

/-- What callers of a function know about it. -/
structure FunDecl where
  name : String
  ret : Ty
  params : List VarDecl
deriving DecidableEq, Repr

structure FunDef extends FunDecl where
  body : Block
deriving Repr

inductive Decl where
  | struct (decl : StructDecl)
  | var (decl : VarDecl)
  | funDecl (decl : FunDecl)
  | funDef (decl : FunDef)
deriving Repr

structure Program where
  decls : List Decl
deriving Repr

namespace Program

def functions (program : Program) : List FunDef :=
  program.decls.filterMap fun
    | .funDef decl => some decl
    | _ => none

def structs (program : Program) : List StructDecl :=
  program.decls.filterMap fun
    | .struct decl => some decl
    | _ => none

/-- The signatures of all functions that the program declares or defines, in order. -/
def signatures (program : Program) : List FunDecl :=
  program.decls.filterMap fun
    | .funDecl decl => some decl
    | .funDef decl => some decl.toFunDecl
    | _ => none

/-- Whether the program defines a function itself, and so shadows a library function of that
name. -/
def defines (program : Program) (name : String) : Bool :=
  program.functions.any (·.name = name)

end Program

end MipsBackend
