import MipsBackend.Assignment.SpillCode

/-!
Register allocation of whole programs, one text section at a time. A pass either replaces the text
of all sections or leaves all of it as it was.
-/

namespace MipsBackend

inductive Pass where
  /-- Spills every virtual register. -/
  | naive
  /-- Colours with at most `k` of the allocatable registers. -/
  | colouring (k : Nat) (heuristic : SpillHeuristic)
deriving DecidableEq, Repr

/-- The colours that a bound of `k` leaves: there are only as many as allocatable registers. -/
def colourCount (k : Nat) : Nat := min k PhysReg.allocatable.length

def Section.interference (code : Section) : Except Violation InterferenceGraph := do
  let graph ← code.flowGraph
  return graph.interference graph.liveness.live

def Section.colour (code : Section) (k : Nat) (heuristic : SpillHeuristic) :
    Except Violation Colouring := do
  let graph ← code.interference
  return graph.colour (colourCount k) heuristic

namespace Pass

/-- Colours with all allocatable registers. -/
def standard : Pass := colouring PhysReg.allocatable.length .mostConnected

def assignment (pass : Pass) (code : Section) : Except Violation Assignment :=
  match pass with
  | naive => .ok (.allSpilled code.registers)
  | colouring k heuristic => (code.colour k heuristic).map .ofColouring

/-- Allocates the sections in order up to the first that fails. -/
def applyAll (pass : Pass) :
    List Section → List DataItem → List DataItem × Except Violation (List Section)
  | [], data => (data, .ok [])
  | code :: rest, data =>
    match pass.assignment code with
    | .error violation => (data, .error violation)
    | .ok assignment =>
      match assignment.apply code data with
      | (data, .error violation) => (data, .error violation)
      | (data, .ok allocated) =>
        let (data, later) := pass.applyAll rest data
        (data, later.map (allocated :: ·))

/-- The program after the pass, and what went wrong if the pass failed. A failed pass changes no
section, but the spill slots of the sections before the failing one stay in the data. -/
def apply (pass : Pass) (program : Assembly) : Assembly × Except Violation Unit :=
  match pass.applyAll program.sections program.data with
  | (data, .ok sections) => ({ data, sections }, .ok ())
  | (data, .error violation) => ({ program with data }, .error violation)

end Pass

inductive AllocatorKind where
  /-- Leaves the virtual registers in place. -/
  | none
  | naive
  | graphColouring
deriving DecidableEq, Repr

namespace AllocatorKind

def pass? : AllocatorKind → Option Pass
  | none => .none
  | naive => some .naive
  | graphColouring => some .standard

def apply (kind : AllocatorKind) (program : Assembly) : Assembly × Except Violation Unit :=
  match kind.pass? with
  | .none => (program, .ok ())
  | some pass => pass.apply program

end AllocatorKind

end MipsBackend
