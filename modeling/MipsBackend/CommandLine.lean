import MipsBackend.Compile

/-!
The command line: one optional file with a program tree, else standard input; where the assembly
goes, how registers are allocated, and the entry function. `Invocation.ofArgs?` reads the arguments
and `Invocation.respond` says what to do with the text that was read.
-/

namespace MipsBackend

structure Invocation where
  /-- The file to read; standard input if there is none. -/
  file : Option String
  /-- The file to write; standard output if there is none. -/
  output : Option String
  options : Options
  verbosity : Nat
deriving DecidableEq, Repr

/-! ## Arguments -/

inductive ValueOption where
  | output | alloc | entry
deriving DecidableEq, Repr

def ValueOption.ofName? : String → Option ValueOption
  | "output" => some output
  | "alloc" => some alloc
  | "entry" => some entry
  | _ => none

def allocatorNames : List (String × AllocatorKind) :=
  [("none", .none), ("naive", .naive), ("colour", .graphColouring)]

structure Settings where
  file : Option String := none
  output : Option String := none
  alloc : Option AllocatorKind := none
  entry : Option String := none
  verbosity : Nat := 0
deriving DecidableEq, Repr

namespace Settings

/-- A path is not empty, and is given once. -/
def setFile? (settings : Settings) (path : String) : Option Settings :=
  if settings.file.isNone ∧ path ≠ "" then some { settings with file := path } else none

/-- Sets an option to a value that it admits. An option is given once. -/
def set? (settings : Settings) (option : ValueOption) (value : String) : Option Settings :=
  match option with
  | .output =>
    if settings.output.isNone ∧ value ≠ "" then some { settings with output := value } else none
  | .alloc =>
    match settings.alloc, allocatorNames.lookup value with
    | none, some kind => some { settings with alloc := kind }
    | _, _ => none
  | .entry => if settings.entry.isNone then some { settings with entry := value } else none

def addVerbosity (settings : Settings) (n : Nat) : Settings :=
  { settings with verbosity := settings.verbosity + n }

def invocation (settings : Settings) : Invocation :=
  let defaults : Options := {}
  { file := settings.file
    output := settings.output
    options :=
      { allocator := settings.alloc.getD defaults.allocator
        entryPoint := settings.entry.getD defaults.entryPoint }
    verbosity := settings.verbosity }

end Settings

inductive Argument where
  | file (path : String)
  /-- All arguments that follow are files. -/
  | onlyFiles
  | verbose (times : Nat)
  /-- An option with its value, after a number of `v` in the same argument. -/
  | value (verbosity : Nat) (option : ValueOption) (value : String)
  /-- An option whose value is the next argument. -/
  | valueNext (verbosity : Nat) (option : ValueOption)
deriving DecidableEq, Repr

namespace Argument

/-- The letters after a single dash. The rest of the argument after `o` is its value. -/
def ofLetters? (verbosity : Nat) : List Char → Option Argument
  | [] => some (verbose verbosity)
  | 'v' :: rest => ofLetters? (verbosity + 1) rest
  | ['o'] => some (valueNext verbosity .output)
  | 'o' :: '=' :: rest => some (value verbosity .output (.ofList rest))
  | 'o' :: rest => some (value verbosity .output (.ofList rest))
  | _ => none

/-- What follows two dashes: a name, or a name and a value with `=` between them. -/
def ofLong? (text : List Char) : Option Argument :=
  let name := String.ofList (text.takeWhile (· ≠ '='))
  match text.dropWhile (· ≠ '=') with
  | [] =>
    if name = "verbose" then some (verbose 1) else (ValueOption.ofName? name).map (valueNext 0)
  | _ :: rest => (ValueOption.ofName? name).map (value 0 · (.ofList rest))

def ofText? (text : String) : Option Argument :=
  match text.toList with
  | ['-', '-'] => some onlyFiles
  | '-' :: '-' :: long => ofLong? long
  | ['-'] => some (file text)
  | '-' :: letters => ofLetters? 0 letters
  | _ => some (file text)

end Argument

/-- Whether an argument can be the value of the option before it. -/
def standsAsValue (text : String) : Bool :=
  match text.toList with
  | '-' :: _ :: _ => false
  | _ => true

namespace Settings

def addArgs? (settings : Settings) : List String → Option Settings
  | [] => some settings
  | text :: rest => do
    match ← Argument.ofText? text with
    | .file path => (← settings.setFile? path).addArgs? rest
    | .onlyFiles => rest.foldlM setFile? settings
    | .verbose times => (settings.addVerbosity times).addArgs? rest
    | .value verbosity option value =>
      (← (settings.addVerbosity verbosity).set? option value).addArgs? rest
    | .valueNext verbosity option =>
      match rest with
      | [] => none
      | value :: rest =>
        if standsAsValue value then
          (← (settings.addVerbosity verbosity).set? option value).addArgs? rest
        else none

end Settings

/-- The meaning of the arguments, unless one of them is wrong. -/
def Invocation.ofArgs? (args : List String) : Option Invocation :=
  (Settings.addArgs? {} args).map Settings.invocation

/-! ## Responses -/

inductive Response where
  | fail
  | print (text : String)
  | write (path text : String)
deriving DecidableEq, Repr

/-- What to do with the text that was read, if it could be read. -/
def Invocation.respond (invocation : Invocation) (text : Option String) : Response :=
  match text with
  | none => .fail
  | some text =>
    match compileText text invocation.options with
    | .error _ => .fail
    | .ok assembly =>
      match invocation.output with
      | some path => .write path assembly
      | none => .print assembly

/-- The exit code of a run whose arguments are wrong. -/
def usageExit : UInt32 := 2

/-- The exit code of a run that could not read, compile or write. -/
def failureExit : UInt32 := 1

end MipsBackend
