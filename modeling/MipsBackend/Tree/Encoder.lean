import MipsBackend.Json.Printer
import MipsBackend.Tree.Program

/-!
Program trees as JSON, in the fullest form: every field is written, records are objects, and a
variant without payload is a text.
-/

namespace MipsBackend

def Json.variant (kind : String) (payload : Json) : Json := .record [(kind, payload)]

def Ty.encode : Ty → Json
  | int => .ofString "int"
  | char => .ofString "char"
  | void => .ofString "void"
  | pointer target => .variant "pointer" target.encode
  | array elem length =>
    .variant "array" (.record [("elem", elem.encode), ("len", .ofNat length.toNat)])
  | struct name => .variant "struct" (.ofString name)

def VarDecl.encode (decl : VarDecl) : Json :=
  .record [("id", .ofNat decl.id.toNat), ("name", .ofString decl.name), ("ty", decl.ty.encode)]

def BinOp.name : BinOp → String
  | add => "add" | sub => "sub" | mul => "mul" | div => "div" | mod => "mod"
  | gt => "gt" | lt => "lt" | ge => "ge" | le => "le" | ne => "ne" | eq => "eq"
  | or => "or" | and => "and"

/-! ## Expressions -/

def Expr.node (ty : Ty) (kind : String) (payload : Json) : Json :=
  .record [("ty", ty.encode), ("kind", .variant kind payload)]

mutual

def Expr.encode : Expr → Json
  | .intLit ty value => Expr.node ty "int_literal" (.integer value.toInt)
  | .charLit ty value => Expr.node ty "chr_literal" (.ofString value.toString)
  | .strLit ty text => Expr.node ty "str_literal" (.ofString text)
  | .var ty id name =>
    Expr.node ty "var" (.record [("decl", .ofNat id.toNat), ("name", .ofString name)])
  | .call ty name args =>
    Expr.node ty "fun_call"
      (.record [("name", .ofString name), ("args", .list (Expr.encodeList args))])
  | .binOp ty op lhs rhs =>
    Expr.node ty "bin_op"
      (.record [("op", .ofString op.name), ("lhs", lhs.encode), ("rhs", rhs.encode)])
  | .index ty array position =>
    Expr.node ty "array_access" (.record [("array", array.encode), ("index", position.encode)])
  | .field ty owner name =>
    Expr.node ty "field_access" (.record [("object", owner.encode), ("field", .ofString name)])
  | .deref ty pointer => Expr.node ty "value_at" pointer.encode
  | .addrOf ty operand => Expr.node ty "address_of" operand.encode
  | .sizeOf ty measured => Expr.node ty "size_of" measured.encode
  | .cast ty operand => Expr.node ty "typecast" operand.encode
  | .assign ty lhs rhs => Expr.node ty "assign" (.record [("lhs", lhs.encode), ("rhs", rhs.encode)])

def Expr.encodeList : List Expr → List Json
  | [] => []
  | first :: rest => first.encode :: Expr.encodeList rest

end

/-! ## Statements -/

mutual

def Stmt.encode : Stmt → Json
  | .block vars stmts =>
    .variant "block"
      (.record
        [("vars", .list (vars.map VarDecl.encode)), ("stmts", .list (Stmt.encodeList stmts))])
  | .loop cond body => .variant "while" (.record [("cond", cond.encode), ("body", body.encode)])
  | .branch cond yes none =>
    .variant "if" (.record [("cond", cond.encode), ("then", yes.encode), ("otherwise", .null)])
  | .branch cond yes (some no) =>
    .variant "if" (.record [("cond", cond.encode), ("then", yes.encode), ("otherwise", no.encode)])
  | .ret none => .variant "return" .null
  | .ret (some value) => .variant "return" value.encode
  | .eval expr => .variant "expr" expr.encode
  | .breakLoop => .ofString "break"
  | .continueLoop => .ofString "continue"

def Stmt.encodeList : List Stmt → List Json
  | [] => []
  | first :: rest => first.encode :: Stmt.encodeList rest

end

def Block.encode (body : Block) : Json :=
  .record
    [("vars", .list (body.vars.map VarDecl.encode)), ("stmts", .list (Stmt.encodeList body.stmts))]

/-! ## Declarations -/

def Decl.encode : Decl → Json
  | struct decl =>
    .variant "struct"
      (.record [("name", .ofString decl.name), ("fields", .list (decl.fields.map VarDecl.encode))])
  | var decl => .variant "var" decl.encode
  | funDecl decl =>
    .variant "fun_decl"
      (.record [("name", .ofString decl.name), ("ret", decl.ret.encode),
        ("params", .list (decl.params.map VarDecl.encode))])
  | funDef decl =>
    .variant "fun_def"
      (.record [("name", .ofString decl.name), ("ret", decl.ret.encode),
        ("params", .list (decl.params.map VarDecl.encode)), ("body", decl.body.encode)])

def Program.encode (program : Program) : Json :=
  .record [("decls", .list (program.decls.map Decl.encode))]

end MipsBackend
