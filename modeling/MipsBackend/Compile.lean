import MipsBackend.Lowering.Program
import MipsBackend.Allocator
import MipsBackend.Tree.Decoder

/-!
Compiling a program tree to assembly, with the choices that a caller has.
-/

namespace MipsBackend

structure Options where
  allocator : AllocatorKind := .graphColouring
  entryPoint : String := "main"
deriving DecidableEq, Repr

def AllocatorKind.names : List (String × AllocatorKind) :=
  [("none", .none), ("naive", .naive), ("graph_colouring", .graphColouring)]

/-- Every option that is absent has its default. -/
def Options.decode : Nat → Json → Option Options
  | 0, _ => none
  | depth + 1, json => do
    let [allocator, entryPoint] ← json.record? ["allocator", "entry_point"] 0 | none
    let defaults : Options := {}
    return {
      allocator := ← match allocator with
        | none => some defaults.allocator
        | some allocator => Json.choice? AllocatorKind.names depth allocator
      entryPoint := ← match entryPoint with
        | none => some defaults.entryPoint
        | some entryPoint => entryPoint.text? }

def Options.ofText? (text : String) : Option Options := do
  Options.decode nestingLimit (← Json.read? text)

def Program.compile (program : Program) (options : Options) : Except Violation Assembly := do
  let generated ← program.generate options.entryPoint
  match options.allocator.apply generated with
  | (allocated, .ok ()) => return allocated
  | (_, .error violation) => .error violation

inductive CompileError where
  | input
  | violation (violation : Violation)
deriving DecidableEq, Repr

/-- From the text of a program tree to the text of its assembly. -/
def compileText (text : String) (options : Options) : Except CompileError String :=
  match Program.ofText? text with
  | none => .error .input
  | some program =>
    match program.compile options with
    | .ok assembly => .ok assembly.text
    | .error violation => .error (.violation violation)

end MipsBackend
