import MipsBackend.Storage.Promotion
import MipsBackend.Layout
import MipsBackend.Assembly.Section

/-!
Where variables and string literals live. Relative to the frame pointer, a function sees

* from 4 on: its result, then its parameters, the last one first;
* at 0 and -4: the saved frame pointer and return address;
* below -4: its local variables that have no register, each below the one before.
-/

namespace MipsBackend

inductive Storage where
  | global (label : Label)
  /-- A place in the frame. One that holds an array by reference holds its address. -/
  | frame (offset : Int32) (byReference : Bool)
  | register (reg : VReg)
deriving DecidableEq, Repr

abbrev Places := List (DeclId × Storage)

structure MemoryPlan where
  storage : Std.ExtTreeMap DeclId Storage
  localSpace : Std.ExtTreeMap String Nat
  strings : Std.ExtTreeMap String Label
  data : List DataItem

namespace MemoryPlan

def empty : MemoryPlan := { storage := ∅, localSpace := ∅, strings := ∅, data := [] }

def storageOf (plan : MemoryPlan) (id : DeclId) (name : String) : Except Violation Storage :=
  match plan.storage[id]? with
  | some storage => .ok storage
  | none => .error (.unresolvedVariable id name)

def stringLabel (plan : MemoryPlan) (text : String) : Except Violation Label :=
  match plan.strings[text]? with
  | some label => .ok label
  | none => .error (.uninternedString text)

def spaceOf (plan : MemoryPlan) (function : String) : Nat := plan.localSpace.getD function 0

def store (plan : MemoryPlan) (places : Places) : MemoryPlan :=
  { plan with
    storage := places.foldl (fun storage (id, place) => storage.insert id place) plan.storage }

/-- Gives a string literal a data object, unless it has one. -/
def intern (plan : MemoryPlan) (text : String) : MemoryPlan :=
  if text ∈ plan.strings then plan
  else
    let label := Label.string plan.strings.size
    { plan with
      strings := plan.strings.insert text label
      data := plan.data ++ DataItem.object label [.asciiz text, .align 2] }

def addGlobal (plan : MemoryPlan) (decl : VarDecl) (size : Nat) : MemoryPlan :=
  let label := Label.global decl.name
  { plan with
    storage := plan.storage.insert decl.id (.global label)
    data := plan.data ++ DataItem.object label [.space size, .align 2] }

end MemoryPlan

/-- Places parameters one above the other, the first of the list at `offset`. -/
def Layout.paramPlaces (layout : Layout) (offset : Nat) : List VarDecl → Except Violation Places
  | [] => .ok []
  | param :: above => do
    let size ← layout.slotSize param.ty
    let places ← layout.paramPlaces (offset + size) above
    return (param.id, .frame (.ofNat offset) param.ty.isArray) :: places

/-- Places local variables one below the other, below `space` bytes that are taken already. Also
answers the bytes that are taken in the end, however many bits that takes. -/
def Layout.localPlaces (layout : Layout) (promotion : Promotion) (space : Nat) :
    List VarDecl → Except Violation (Places × Nat)
  | [] => .ok ([], space)
  | decl :: below =>
    match promotion[decl.id]? with
    | some reg => do
      let (places, total) ← layout.localPlaces promotion space below
      return ((decl.id, .register reg) :: places, total)
    | none => do
      let size ← layout.size decl.ty
      let space := space + alignUp size 4
      let (places, total) ← layout.localPlaces promotion space below
      return ((decl.id, .frame (.ofInt (-4 - space)) false) :: places, total)

def Layout.resultSize (layout : Layout) (ret : Ty) : Except Violation Nat :=
  if ret.isVoid then .ok 0 else layout.slotSize ret

def Expr.stringLiteral? : Expr → Option String
  | strLit _ text => some text
  | _ => none

def Block.strings (body : Block) : List String := body.exprs.filterMap Expr.stringLiteral?

namespace MemoryPlan

def addFunction (layout : Layout) (promotion : Promotion) (plan : MemoryPlan) (fn : FunDef) :
    Except Violation MemoryPlan := do
  let result ← layout.resultSize fn.ret
  let params ← layout.paramPlaces (4 + result) fn.params.reverse
  let (locals, space) ← layout.localPlaces promotion 0 fn.body.locals
  let placed := plan.store (params ++ locals)
  let placed := { placed with localSpace := placed.localSpace.insert fn.name space }
  return fn.body.strings.foldl intern placed

def addDecl (layout : Layout) (promotion : Promotion) (plan : MemoryPlan) :
    Decl → Except Violation MemoryPlan
  | .var decl => return plan.addGlobal decl (← layout.size decl.ty)
  | .funDef fn => plan.addFunction layout promotion fn
  | .struct _ | .funDecl _ => .ok plan

end MemoryPlan

def Program.memoryPlan (program : Program) (promotion : Promotion) : Except Violation MemoryPlan :=
  program.decls.foldlM (MemoryPlan.addDecl (.ofProgram program) promotion) .empty

end MipsBackend
