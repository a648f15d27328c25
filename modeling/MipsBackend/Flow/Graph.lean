import MipsBackend.Assembly.Section
import MipsBackend.Violation

/-!
The control flow of one text section: a node per instruction, numbered in program order. Labels and
comments are no nodes; a label stands for the next instruction after it.
-/

namespace MipsBackend

structure FlowNode where
  instr : Instr
  succs : List Nat
  preds : List Nat
deriving DecidableEq, Repr

structure FlowGraph where
  nodes : Array FlowNode
deriving DecidableEq, Repr

namespace FlowGraph

def size (graph : FlowGraph) : Nat := graph.nodes.size

def instr? (graph : FlowGraph) (node : Nat) : Option Instr := graph.nodes[node]?.map FlowNode.instr

def succs (graph : FlowGraph) (node : Nat) : List Nat :=
  (graph.nodes[node]?.map FlowNode.succs).getD []

def preds (graph : FlowGraph) (node : Nat) : List Nat :=
  (graph.nodes[node]?.map FlowNode.preds).getD []

def edgeCount (graph : FlowGraph) : Nat := (graph.nodes.toList.flatMap FlowNode.succs).length

def registers (graph : FlowGraph) : Std.ExtTreeSet VReg :=
  .ofList (graph.nodes.toList.flatMap (·.instr.virtualOperands))

/-- Adds an edge once: repeating it changes nothing. -/
def addEdge (graph : FlowGraph) (source target : Nat) : FlowGraph :=
  if target ∈ graph.succs source then graph
  else
    { nodes :=
        (graph.nodes.modify source fun node => { node with succs := node.succs ++ [target] }).modify
          target fun node => { node with preds := node.preds ++ [source] } }

def addEdges (graph : FlowGraph) (edges : List (Nat × Nat)) : FlowGraph :=
  edges.foldl (fun graph (source, target) => graph.addEdge source target) graph

/-- One node for each instruction, and no edge. -/
def discrete (instrs : List Instr) : FlowGraph :=
  { nodes := (instrs.map fun instr => { instr, succs := [], preds := [] }).toArray }

end FlowGraph

/-- The edges from each instruction that may fall through to the one that follows it. -/
def fallthroughEdges : Nat → List Instr → List (Nat × Nat)
  | node, first :: second :: rest =>
      let later := fallthroughEdges (node + 1) (second :: rest)
      if first.fallsThrough then (node, node + 1) :: later else later
  | _, _ => []

/-- The instruction that a label stands for: the next one after the last of the label's positions
that an instruction follows. The first instruction of `items` has the number `node`. -/
def labelledNode? (label : Label) : Nat → List TextItem → Option Nat
  | _, [] => none
  | node, .instr _ :: rest => labelledNode? label (node + 1) rest
  | node, .comment _ :: rest => labelledNode? label node rest
  | node, .label here :: rest =>
      (labelledNode? label node rest).or <|
        if here = label ∧ rest.any (·.instr?.isSome) then some node else none

/-- The edge of a branch or jump, if `instr` is one. -/
def branchEdge? (items : List TextItem) (instr : Instr) (node : Nat) :
    Except Violation (Option (Nat × Nat)) :=
  match instr.branchTarget? with
  | none => .ok none
  | some target =>
    match labelledNode? target 0 items with
    | some destination => .ok (some (node, destination))
    | none => .error (.unboundLabel target)

def branchEdges (items : List TextItem) : Nat → List Instr → Except Violation (List (Nat × Nat))
  | _, [] => .ok []
  | node, instr :: rest => do
      let edge ← branchEdge? items instr node
      let later ← branchEdges items (node + 1) rest
      return edge.toList ++ later

def Section.flowGraph (code : Section) : Except Violation FlowGraph := do
  let branches ← branchEdges code.items 0 code.instructions
  let straight := (FlowGraph.discrete code.instructions).addEdges
    (fallthroughEdges 0 code.instructions)
  return straight.addEdges branches

end MipsBackend
