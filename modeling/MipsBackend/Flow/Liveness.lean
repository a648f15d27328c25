import MipsBackend.Flow.Order

/-!
Liveness of virtual registers: which of them may still be read before they are written again. The
live sets are the least solution of

* live after a node: live before one of its successors;
* live before a node: read by it, or live after it and not written by it,

found by passes over the nodes until one changes nothing. A register that a node writes is then
added to the set after the node, even if nothing reads it, because the write needs a place of its
own.
-/

namespace MipsBackend

abbrev RegSet := Std.ExtTreeSet VReg

/-- The registers that are live before an instruction, from those that are live after it. -/
def Instr.liveBefore (instr : Instr) (after : RegSet) : RegSet :=
  instr.virtualUses.foldl (·.insert ·) (instr.virtualDef?.elim after after.erase)

/-- The registers that are live before and after a node. -/
structure LiveSets where
  liveIn : RegSet
  liveOut : RegSet
deriving DecidableEq

abbrev LiveMap := Array LiveSets

def LiveMap.liveIn (live : LiveMap) (node : Nat) : RegSet :=
  (live[node]?.map LiveSets.liveIn).getD ∅

def LiveMap.liveOut (live : LiveMap) (node : Nat) : RegSet :=
  (live[node]?.map LiveSets.liveOut).getD ∅

namespace FlowGraph

def noneLive (graph : FlowGraph) : LiveMap :=
  Array.replicate graph.size { liveIn := ∅, liveOut := ∅ }

/-- The registers that are live before one of the successors. -/
def liveAfter (graph : FlowGraph) (live : LiveMap) (node : Nat) : RegSet :=
  (graph.succs node).foldl (fun found succ => found ∪ live.liveIn succ) ∅

def updateLive (graph : FlowGraph) (live : LiveMap) (node : Nat) : LiveMap :=
  match graph.instr? node with
  | none => live
  | some instr =>
    let after := graph.liveAfter live node
    live.setIfInBounds node { liveIn := instr.liveBefore after, liveOut := after }

/-- Updates the nodes one after the other, each from the newest sets. -/
def livePass (graph : FlowGraph) (order : List Nat) (live : LiveMap) : LiveMap :=
  order.foldl graph.updateLive live

/-- Repeats passes until one changes nothing, and counts them. -/
def livePasses (graph : FlowGraph) (order : List Nat) : Nat → LiveMap → Nat × LiveMap
  | 0, live => (0, live)
  | fuel + 1, live =>
    let next := graph.livePass order live
    if next = live then (1, live)
    else
      let (passes, final) := graph.livePasses order fuel next
      (passes + 1, final)

/-- Each pass but the last adds a register to one of two sets of some node. -/
def passLimit (graph : FlowGraph) : Nat :=
  2 * graph.size * graph.registers.size + 1

/-- The written register lives after the node even if nothing reads it. -/
def addWritten (instr : Instr) (sets : LiveSets) : LiveSets :=
  { sets with liveOut := instr.virtualDef?.elim sets.liveOut sets.liveOut.insert }

structure Liveness where
  /-- How often the nodes were visited; the last pass changed nothing. -/
  passes : Nat
  live : LiveMap

def liveness (graph : FlowGraph) : Liveness :=
  let (passes, live) := graph.livePasses graph.backwardOrder graph.passLimit graph.noneLive
  { passes, live := graph.nodes.zipWith (fun node sets => addWritten node.instr sets) live }

end FlowGraph

end MipsBackend
