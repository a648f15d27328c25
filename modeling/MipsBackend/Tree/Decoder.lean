import MipsBackend.Json.Shape
import MipsBackend.Json.Reader
import MipsBackend.Tree.Program

/-!
Program trees out of JSON. A record is an object or a list of its fields, and a variant with a
payload is an object with one member. Of a block, a missing list is empty; of an `if`, a missing
alternative is none. The parts of an array type may be a list only inside a program.
-/

namespace MipsBackend

open Json

def Ty.names : List (String × Ty) := [("int", .int), ("char", .char), ("void", .void)]

/-- A type whose arrays may be lists of their parts, if `lists` holds, or must name them. -/
def Ty.decodeWith (lists : Bool) : Nat → Json → Option Ty
  | depth + 1, .object [(some kind, payload)] =>
    match kind with
    | "pointer" => (Ty.decodeWith lists depth payload).map .pointer
    | "array" =>
      match depth with
      | 0 => none
      | depth + 1 => do
        let [some elem, some length] ← payload.record? ["elem", "len"] 2 | none
        if lists ∨ payload.isObject then
          return .array (← Ty.decodeWith lists depth elem) (← length.uint64?)
        else none
    | "struct" => payload.text?.map .struct
    | _ => choice? Ty.names (depth + 1) (.object [(some kind, payload)])
  | depth, json => choice? Ty.names depth json

def Ty.decode : Nat → Json → Option Ty := Ty.decodeWith true

/-- How many objects and lists may be open at a time. -/
def nestingLimit : Nat := 127

/-- A type by itself. -/
def Ty.ofJson? : Json → Option Ty := Ty.decodeWith false nestingLimit

def VarDecl.decode : Nat → Json → Option VarDecl
  | 0, _ => none
  | depth + 1, json => do
    let [some id, some name, some ty] ← json.record? ["id", "name", "ty"] 3 | none
    return { id := ← id.uint32?, name := ← name.text?, ty := ← Ty.decode depth ty }

/-! ## Expressions -/

def BinOp.names : List (String × BinOp) :=
  [("add", .add), ("sub", .sub), ("mul", .mul), ("div", .div), ("mod", .mod), ("gt", .gt),
    ("lt", .lt), ("ge", .ge), ("le", .le), ("ne", .ne), ("eq", .eq), ("or", .or), ("and", .and)]

mutual

def Expr.decode : Nat → Json → Option Expr
  | 0, _ => none
  | depth + 1, json => do
    let [some ty, some kind] ← json.record? ["ty", "kind"] 2 | none
    Expr.decodeKind depth (← Ty.decode depth ty) kind

/-- An expression whose type is known, from its kind and parts. -/
def Expr.decodeKind : Nat → Ty → Json → Option Expr
  | depth + 1, ty, .object [(some kind, payload)] =>
    match kind with
    | "int_literal" => payload.int32?.map (.intLit ty)
    | "chr_literal" => payload.char?.map (.charLit ty)
    | "str_literal" => payload.text?.map (.strLit ty)
    | "value_at" => (Expr.decode depth payload).map (.deref ty)
    | "address_of" => (Expr.decode depth payload).map (.addrOf ty)
    | "size_of" => (Ty.decode depth payload).map (.sizeOf ty)
    | "typecast" => (Expr.decode depth payload).map (.cast ty)
    | _ => Expr.decodeRecord depth ty kind payload
  | _, _, _ => none

/-- The kinds of expression whose parts have names. -/
def Expr.decodeRecord : Nat → Ty → String → Json → Option Expr
  | 0, _, _, _ => none
  | depth + 1, ty, kind, payload =>
    match kind with
    | "var" => do
      let [some id, some name] ← payload.record? ["decl", "name"] 2 | none
      return .var ty (← id.uint32?) (← name.text?)
    | "fun_call" => do
      let [some name, some args] ← payload.record? ["name", "args"] 2 | none
      return .call ty (← name.text?) (← Expr.decodeList depth args)
    | "bin_op" => do
      let [some op, some lhs, some rhs] ← payload.record? ["op", "lhs", "rhs"] 3 | none
      return .binOp ty (← choice? BinOp.names depth op) (← Expr.decode depth lhs)
        (← Expr.decode depth rhs)
    | "array_access" => do
      let [some array, some position] ← payload.record? ["array", "index"] 2 | none
      return .index ty (← Expr.decode depth array) (← Expr.decode depth position)
    | "field_access" => do
      let [some owner, some name] ← payload.record? ["object", "field"] 2 | none
      return .field ty (← Expr.decode depth owner) (← name.text?)
    | "assign" => do
      let [some lhs, some rhs] ← payload.record? ["lhs", "rhs"] 2 | none
      return .assign ty (← Expr.decode depth lhs) (← Expr.decode depth rhs)
    | _ => none

def Expr.decodeList : Nat → Json → Option (List Expr)
  | depth + 1, .list items => items.mapM (Expr.decode depth)
  | _, _ => none

end

/-! ## Statements -/

def Stmt.names : List (String × Stmt) := [("break", .breakLoop), ("continue", .continueLoop)]

mutual

def Stmt.decode : Nat → Json → Option Stmt
  | depth + 1, .object [(some kind, payload)] =>
    match kind with
    | "block" => (Block.decode depth payload).map fun body => .block body.vars body.stmts
    | "while" =>
      match depth with
      | 0 => none
      | depth + 1 => do
        let [some cond, some body] ← payload.record? ["cond", "body"] 2 | none
        return .loop (← Expr.decode depth cond) (← Stmt.decode depth body)
    | "if" =>
      match depth with
      | 0 => none
      | depth + 1 => do
        let [some cond, some yes, no] ← payload.record? ["cond", "then", "otherwise"] 3 | none
        let no ← match no.getD .null with
          | .null => some none
          | no => (Stmt.decode depth no).map some
        return .branch (← Expr.decode depth cond) (← Stmt.decode depth yes) no
    | "return" =>
      match payload with
      | .null => some (.ret none)
      | value => (Expr.decode depth value).map fun value => .ret (some value)
    | "expr" => (Expr.decode depth payload).map .eval
    | _ => choice? Stmt.names (depth + 1) (.object [(some kind, payload)])
  | depth, json => choice? Stmt.names depth json

def Block.decode : Nat → Json → Option Block
  | 0, _ => none
  | depth + 1, json => do
    let [vars, stmts] ← json.record? ["vars", "stmts"] 0 | none
    return {
      vars := ← match vars with
        | none => some []
        | some vars => items? VarDecl.decode depth vars
      stmts := ← match stmts with
        | none => some []
        | some stmts => Stmt.decodeList depth stmts }

def Stmt.decodeList : Nat → Json → Option (List Stmt)
  | depth + 1, .list items => items.mapM (Stmt.decode depth)
  | _, _ => none

end

/-! ## Declarations -/

def StructDecl.decode : Nat → Json → Option StructDecl
  | 0, _ => none
  | depth + 1, json => do
    let [some name, some fields] ← json.record? ["name", "fields"] 2 | none
    return { name := ← name.text?, fields := ← items? VarDecl.decode depth fields }

def FunDecl.decode : Nat → Json → Option FunDecl
  | 0, _ => none
  | depth + 1, json => do
    let [some name, some ret, some params] ← json.record? ["name", "ret", "params"] 3 | none
    return {
      name := ← name.text?
      ret := ← Ty.decode depth ret
      params := ← items? VarDecl.decode depth params }

def FunDef.decode : Nat → Json → Option FunDef
  | 0, _ => none
  | depth + 1, json => do
    let [some name, some ret, some params, some body] ←
      json.record? ["name", "ret", "params", "body"] 4 | none
    return {
      name := ← name.text?
      ret := ← Ty.decode depth ret
      params := ← items? VarDecl.decode depth params
      body := ← Block.decode depth body }

def Decl.decode : Nat → Json → Option Decl
  | depth + 1, .object [(some kind, payload)] =>
    match kind with
    | "struct" => (StructDecl.decode depth payload).map .struct
    | "var" => (VarDecl.decode depth payload).map .var
    | "fun_decl" => (FunDecl.decode depth payload).map .funDecl
    | "fun_def" => (FunDef.decode depth payload).map .funDef
    | _ => none
  | _, _ => none

def Program.decode : Nat → Json → Option Program
  | 0, _ => none
  | depth + 1, json => do
    let [some decls] ← json.record? ["decls"] 1 | none
    return { decls := ← items? Decl.decode depth decls }

/-! ## Texts -/

def Program.ofText? (text : String) : Option Program := do
  Program.decode nestingLimit (← Json.read? text)

end MipsBackend
