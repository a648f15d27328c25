/-!
The library functions that the program may call without defining them. Each is a single system call.
-/

namespace MipsBackend

inductive Service where
  | printString | printInt | printChar | readChar | readInt | allocate
deriving DecidableEq, Repr

namespace Service

def name : Service → String
  | printString => "print_s"
  | printInt => "print_i"
  | printChar => "print_c"
  | readChar => "read_c"
  | readInt => "read_i"
  | allocate => "mcmalloc"

def code : Service → Int32
  | printString => 4
  | printInt => 1
  | printChar => 11
  | readChar => 12
  | readInt => 5
  | allocate => 9

def all : List Service := [printString, printInt, printChar, readChar, readInt, allocate]

def ofName? (name : String) : Option Service := all.find? (·.name = name)

/-- The system call that ends the program. -/
def exitCode : Int32 := 10

end Service

end MipsBackend
