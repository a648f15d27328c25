/-!
Names of code and data addresses. Each kind of name that code generation needs has its own
constructor function, so that the shape of a name tells what it stands for.
-/

namespace MipsBackend

structure Label where
  text : String
deriving DecidableEq, Repr

namespace Label

def function (name : String) : Label := ⟨"fun_" ++ name⟩

/-- The code that leaves a function; every return jumps here. -/
def epilogue (name : String) : Label := ⟨"ret_" ++ name⟩

/-- A branch target inside a function; the number makes it unique. -/
def branch (stem : String) (number : Nat) : Label := ⟨stem ++ "_" ++ toString number⟩

/-- The word that holds a spilled register. -/
def spill (reg : Nat) : Label := ⟨"spill_v" ++ toString reg⟩

def global (name : String) : Label := ⟨"var_" ++ name⟩

def string (number : Nat) : Label := ⟨"str_" ++ toString number⟩

def start : Label := ⟨"_start"⟩

end Label

end MipsBackend
