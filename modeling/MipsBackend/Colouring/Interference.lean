import MipsBackend.Flow.Liveness
import Std.Data.ExtTreeMap

/-!
Interference of virtual registers: an undirected graph whose edges join registers that are live at
one point and so cannot share a place. A graph is a map from each register to its neighbours, so
two graphs with the same registers and edges are equal however they were built.
-/

namespace MipsBackend

structure InterferenceGraph where
  adjacency : Std.ExtTreeMap VReg RegSet

namespace InterferenceGraph

def empty : InterferenceGraph := { adjacency := ∅ }

def contains (graph : InterferenceGraph) (reg : VReg) : Bool := graph.adjacency.contains reg

def neighbours (graph : InterferenceGraph) (reg : VReg) : RegSet := graph.adjacency.getD reg ∅

def degree (graph : InterferenceGraph) (reg : VReg) : Nat := (graph.neighbours reg).size

def interferes (graph : InterferenceGraph) (a b : VReg) : Bool := (graph.neighbours a).contains b

def size (graph : InterferenceGraph) : Nat := graph.adjacency.size

def registers (graph : InterferenceGraph) : List VReg := graph.adjacency.keys

/-- Each edge once, the smaller register first, in ascending order. -/
def edges (graph : InterferenceGraph) : List (VReg × VReg) :=
  graph.registers.flatMap fun a =>
    ((graph.neighbours a).toList.filter (a < ·)).map (a, ·)

def addRegister (graph : InterferenceGraph) (reg : VReg) : InterferenceGraph :=
  { adjacency := graph.adjacency.insertIfNew reg ∅ }

/-- Makes `b` a neighbour of `a`, but not `a` one of `b`. -/
def addNeighbour (graph : InterferenceGraph) (a b : VReg) : InterferenceGraph :=
  { adjacency := graph.adjacency.insert a ((graph.neighbours a).insert b) }

/-- Joins two registers. A register never interferes with itself. -/
def addEdge (graph : InterferenceGraph) (a b : VReg) : InterferenceGraph :=
  if a = b then graph.addRegister a
  else ((graph.addRegister a).addRegister b |>.addNeighbour a b).addNeighbour b a

def addRegisters (graph : InterferenceGraph) (regs : List VReg) : InterferenceGraph :=
  regs.foldl addRegister graph

/-- Joins all registers of a list with each other. -/
def addClique (graph : InterferenceGraph) : List VReg → InterferenceGraph
  | [] => graph
  | a :: rest => (rest.foldl (·.addEdge a ·) (graph.addRegister a)).addClique rest

def addNode (graph : InterferenceGraph) (instr : Instr) (live : LiveSets) : InterferenceGraph :=
  ((graph.addRegisters instr.virtualOperands).addClique live.liveIn.toList).addClique
    live.liveOut.toList

end InterferenceGraph

/-- Every register that the section mentions gets a place in the graph, also one without edges. -/
def FlowGraph.interference (graph : FlowGraph) (live : LiveMap) : InterferenceGraph :=
  (graph.nodes.toList.zip live.toList).foldl
    (fun interference (node, sets) => interference.addNode node.instr sets) .empty

end MipsBackend
