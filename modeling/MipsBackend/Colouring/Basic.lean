import MipsBackend.Colouring.Interference

/-!
Colouring an interference graph with at most `k` colours. Registers are removed one at a time: one
that has fewer than `k` neighbours left if there is any, else one that a heuristic picks to be
spilled. Then colours are given in the reverse order, so that each register that was not spilled
still finds a free colour.
-/

namespace MipsBackend

/-- A register that is not removed yet, and how many of its neighbours are not. -/
structure Candidate where
  reg : VReg
  degree : Nat
deriving DecidableEq, Repr

inductive SpillHeuristic where
  | mostConnected | firstCandidate
deriving DecidableEq, Repr

/-- The register to spill out of a non-empty list. Among several that are connected most, it is the
first. -/
def SpillHeuristic.choose (heuristic : SpillHeuristic) (first : Candidate) (rest : List Candidate) :
    Candidate :=
  match heuristic with
  | mostConnected =>
    rest.foldl (fun best next => if best.degree < next.degree then next else best) first
  | firstCandidate => first

theorem SpillHeuristic.choose_mem (heuristic : SpillHeuristic) (first : Candidate)
    (rest : List Candidate) : heuristic.choose first rest ∈ first :: rest := by
  cases heuristic with
  | firstCandidate => exact List.mem_cons_self
  | mostConnected =>
    simp only [choose]
    induction rest generalizing first with
    | nil => exact List.mem_cons_self
    | cons next rest ih => grind

structure Colouring where
  /-- A number below `k` for each register that is not spilled. -/
  colours : Std.ExtTreeMap VReg Nat
  spilled : RegSet

namespace Colouring

def empty : Colouring := { colours := ∅, spilled := ∅ }

def paint (colouring : Colouring) (reg : VReg) (colour : Nat) : Colouring :=
  { colouring with colours := colouring.colours.insert reg colour }

def spill (colouring : Colouring) (reg : VReg) : Colouring :=
  { colouring with spilled := colouring.spilled.insert reg }

end Colouring

structure Removal where
  reg : VReg
  spilled : Bool
deriving DecidableEq, Repr

/-- The candidate to remove next, and whether it is to be spilled: the first one of degree below
`k`, or the heuristic's choice if there is none. -/
def SpillHeuristic.next (heuristic : SpillHeuristic) (k : Nat) (first : Candidate)
    (rest : List Candidate) : Candidate × Bool :=
  match (first :: rest).find? (·.degree < k) with
  | some candidate => (candidate, false)
  | none => (heuristic.choose first rest, true)

theorem SpillHeuristic.next_mem (heuristic : SpillHeuristic) (k : Nat) (first : Candidate)
    (rest : List Candidate) : (heuristic.next k first rest).1 ∈ first :: rest := by
  unfold next
  split
  · exact List.mem_of_find?_eq_some (by assumption)
  · exact heuristic.choose_mem first rest

namespace InterferenceGraph

def candidates (graph : InterferenceGraph) : List Candidate :=
  graph.registers.map fun reg => { reg, degree := graph.degree reg }

/-- The remaining candidates once `reg` is gone. -/
def detach (graph : InterferenceGraph) (reg : VReg) (remaining : List Candidate) : List Candidate :=
  remaining.map fun candidate =>
    if graph.interferes reg candidate.reg then { candidate with degree := candidate.degree - 1 }
    else candidate

@[simp] theorem length_detach (graph : InterferenceGraph) (reg : VReg)
    (remaining : List Candidate) : (graph.detach reg remaining).length = remaining.length := by
  simp [detach]

/-- The registers in the order in which they are removed. -/
def removals (graph : InterferenceGraph) (k : Nat) (heuristic : SpillHeuristic) :
    List Candidate → List Removal
  | [] => []
  | first :: rest =>
    let next := heuristic.next k first rest
    { reg := next.1.reg, spilled := next.2 } ::
      graph.removals k heuristic (graph.detach next.1.reg ((first :: rest).erase next.1))
termination_by remaining => remaining.length
decreasing_by
  have member := heuristic.next_mem k first rest
  simp only [length_detach, List.length_erase_of_mem member, List.length_cons]
  omega

def neighbourColours (graph : InterferenceGraph) (colouring : Colouring) (reg : VReg) :
    Std.ExtTreeSet Nat :=
  .ofList ((graph.neighbours reg).toList.filterMap (colouring.colours[·]?))

/-- The least colour below `k` that no neighbour has. -/
def freeColour? (graph : InterferenceGraph) (k : Nat) (colouring : Colouring) (reg : VReg) :
    Option Nat :=
  let used := graph.neighbourColours colouring reg
  (List.range (min k (used.size + 1))).find? (· ∉ used)

/-- Gives colours to the removed registers, the last removed first. -/
def select (graph : InterferenceGraph) (k : Nat) : List Removal → Colouring
  | [] => .empty
  | removal :: later =>
    let colouring := graph.select k later
    if removal.spilled then colouring.spill removal.reg
    else
      match graph.freeColour? k colouring removal.reg with
      | some colour => colouring.paint removal.reg colour
      | none => colouring.spill removal.reg

def colour (graph : InterferenceGraph) (k : Nat) (heuristic : SpillHeuristic) : Colouring :=
  graph.select k (graph.removals k heuristic graph.candidates)

end InterferenceGraph

end MipsBackend
