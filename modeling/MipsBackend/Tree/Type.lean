/-!
Static types of the program tree.
-/

namespace MipsBackend

inductive Ty where
  | int
  | char
  | void
  | pointer (target : Ty)
  | array (elem : Ty) (length : UInt64)
  | struct (name : String)
deriving DecidableEq, Repr

namespace Ty

def isChar : Ty → Bool
  | char => true
  | _ => false

def isVoid : Ty → Bool
  | void => true
  | _ => false

def isPointer : Ty → Bool
  | pointer _ => true
  | _ => false

def isArray : Ty → Bool
  | array _ _ => true
  | _ => false

def isStruct : Ty → Bool
  | struct _ => true
  | _ => false

/-- Whether a value of the type fits a register. All others always live in memory. -/
def isScalar (ty : Ty) : Bool := !ty.isStruct && !ty.isArray

/-- What a pointer points to, or an array consists of. -/
def element? : Ty → Option Ty
  | pointer target => some target
  | array elem _ => some elem
  | _ => none

end Ty

end MipsBackend
