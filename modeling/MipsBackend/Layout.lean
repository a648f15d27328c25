import MipsBackend.Tree.Program
import MipsBackend.Violation
import Std.Data.ExtTreeMap

/-!
Sizes, alignments and field offsets on the target. The fields of a struct follow each other in
declaration order, each at the next multiple of its alignment, and the struct is padded at its end
to a multiple of the largest alignment in it. Sizes and offsets have 64 bits: what a sum or product
has beyond them is lost.
-/

namespace MipsBackend

/-- What 64 bits hold of a number. -/
def wrapped (n : Nat) : Nat := n % UInt64.size

/-- The next multiple of `alignment`; alignments of 0 and 1 change nothing. -/
def roundUp (n alignment : Nat) : Nat :=
  if alignment ≤ 1 then n else (n + alignment - 1) / alignment * alignment

def alignUp (n alignment : Nat) : Nat := wrapped (roundUp n alignment)

structure Extent where
  size : Nat
  alignment : Nat
deriving DecidableEq, Repr

namespace Extent

def append (before field : Extent) : Extent :=
  { size := wrapped (alignUp before.size field.alignment + field.size)
    alignment := max before.alignment field.alignment }

def padded (extent : Extent) : Extent :=
  { extent with size := alignUp extent.size extent.alignment }

end Extent

/-- The extent of a type, given those of structs. -/
def Ty.extent (ofStruct : String → Except Violation Extent) : Ty → Except Violation Extent
  | int | pointer _ => .ok { size := 4, alignment := 4 }
  | char => .ok { size := 1, alignment := 1 }
  | void => .ok { size := 0, alignment := 0 }
  | array elem length => do
    let one ← elem.extent ofStruct
    return { one with size := wrapped (length.toNat * one.size) }
  | struct name => ofStruct name

/-- The extent of fields behind those of `before`, without padding at the end. -/
def fieldsExtent (ofStruct : String → Except Violation Extent) (before : Extent) :
    List VarDecl → Except Violation Extent
  | [] => .ok before
  | field :: rest => do
    let extent ← field.ty.extent ofStruct
    fieldsExtent ofStruct (before.append extent) rest

/-- The struct declarations of a program. The last declaration of a name counts. -/
structure Layout where
  structs : Std.ExtTreeMap String StructDecl

namespace Layout

def ofProgram (program : Program) : Layout :=
  { structs := program.structs.foldl (fun structs decl => structs.insert decl.name decl) ∅ }

def struct (layout : Layout) (name : String) : Except Violation StructDecl :=
  match layout.structs[name]? with
  | some decl => .ok decl
  | none => .error (.undeclaredStruct name)

/-- The extent of a struct in which structs are nested at most `depth` deep, itself included. -/
def structExtent (layout : Layout) : Nat → String → Except Violation Extent
  | 0, name => do
    let _ ← layout.struct name
    .error (.endlessStruct name)
  | depth + 1, name => do
    let decl ← layout.struct name
    let fields ← fieldsExtent (layout.structExtent depth) { size := 0, alignment := 1 } decl.fields
    return fields.padded

/-- A struct nests no deeper than there are structs, unless it contains itself. -/
def extent (layout : Layout) (ty : Ty) : Except Violation Extent :=
  ty.extent (layout.structExtent layout.structs.size)

def size (layout : Layout) (ty : Ty) : Except Violation Nat := (layout.extent ty).map Extent.size

def alignment (layout : Layout) (ty : Ty) : Except Violation Nat :=
  (layout.extent ty).map Extent.alignment

/-- The offset of the first field called `name` behind a part of the struct. -/
def offsetBehind (layout : Layout) (owner name : String) (before : Nat) :
    List VarDecl → Except Violation Nat
  | [] => .error (.unknownField owner name)
  | field :: rest => do
    let extent ← layout.extent field.ty
    let start := alignUp before extent.alignment
    if field.name = name then .ok start
    else layout.offsetBehind owner name (wrapped (start + extent.size)) rest

def fieldOffset (layout : Layout) (owner name : String) : Except Violation Nat := do
  let decl ← layout.struct owner
  layout.offsetBehind owner name 0 decl.fields

/-- The size of a parameter, argument or result on the stack: whole words, and a single one for an
array, which travels by reference. -/
def slotSize (layout : Layout) (ty : Ty) : Except Violation Nat :=
  if ty.isArray then .ok 4 else (layout.size ty).map (alignUp · 4)

/-- The slots of all parameters together, however many bits that takes. -/
def slotsSize (layout : Layout) : List VarDecl → Except Violation Nat
  | [] => .ok 0
  | first :: rest => do
    let slot ← layout.slotSize first.ty
    let others ← layout.slotsSize rest
    return slot + others

end Layout

end MipsBackend
