import Mathlib.Data.List.Induction
import MipsBackend.Colouring.Interference

/-!
# The shape of interference graphs

A graph that grows from the empty one by adding registers and edges is undirected, joins no
register with itself, and has every neighbour among its registers. What a growing step adds is
stated once, for registers and for edges; everything else about a graph follows from these two.
-/

namespace MipsBackend

namespace InterferenceGraph

def Joined (graph : InterferenceGraph) (a b : VReg) : Prop := b ∈ graph.neighbours a

theorem interferes_iff {graph : InterferenceGraph} {a b : VReg} :
    graph.interferes a b = true ↔ graph.Joined a b :=
  Std.ExtTreeSet.contains_iff_mem

theorem contains_iff {graph : InterferenceGraph} {reg : VReg} :
    graph.contains reg = true ↔ reg ∈ graph.adjacency :=
  Std.ExtTreeMap.contains_iff_mem

theorem mem_registers {graph : InterferenceGraph} {reg : VReg} :
    reg ∈ graph.registers ↔ graph.contains reg = true := by
  rw [registers, Std.ExtTreeMap.mem_keys, contains_iff]

theorem registers_nodup (graph : InterferenceGraph) : graph.registers.Nodup :=
  Std.ExtTreeMap.nodup_keys

/-! ## One growing step -/

@[simp] theorem joined_empty (a b : VReg) : ¬ empty.Joined a b := by
  simp [empty, Joined, neighbours]

theorem contains_addRegister {graph : InterferenceGraph} {added reg : VReg} :
    (graph.addRegister added).contains reg = true ↔ graph.contains reg = true ∨ reg = added := by
  simp only [addRegister, contains, Std.ExtTreeMap.contains_insertIfNew, Bool.or_eq_true, beq_iff_eq,
    Nat.compare_eq_eq]
  constructor <;> rintro (same | old) <;> simp_all

@[simp] theorem neighbours_addRegister (graph : InterferenceGraph) (added reg : VReg) :
    (graph.addRegister added).neighbours reg = graph.neighbours reg := by
  simp only [neighbours, addRegister, Std.ExtTreeMap.getD_eq_getD_getElem?,
    Std.ExtTreeMap.getElem?_insertIfNew]
  split
  · next new =>
    have absent : graph.adjacency[added]? = none := Std.ExtTreeMap.getElem?_eq_none new.2
    rw [← Nat.compare_eq_eq.mp new.1, absent]
    rfl
  · rfl

@[simp] theorem joined_addRegister {graph : InterferenceGraph} {added a b : VReg} :
    (graph.addRegister added).Joined a b ↔ graph.Joined a b := by
  simp [Joined]

theorem contains_addNeighbour {graph : InterferenceGraph} {a b reg : VReg} :
    (graph.addNeighbour a b).contains reg = true ↔ graph.contains reg = true ∨ reg = a := by
  simp only [addNeighbour, contains, Std.ExtTreeMap.contains_insert, Bool.or_eq_true, beq_iff_eq,
    Nat.compare_eq_eq]
  constructor <;> rintro (same | old) <;> simp_all

theorem joined_addNeighbour {graph : InterferenceGraph} {a b x y : VReg} :
    (graph.addNeighbour a b).Joined x y ↔ graph.Joined x y ∨ (x = a ∧ y = b) := by
  simp only [Joined, neighbours, addNeighbour, Std.ExtTreeMap.getD_insert, Nat.compare_eq_eq]
  split
  · next same =>
    subst same
    simp only [Std.ExtTreeSet.mem_insert, Nat.compare_eq_eq, true_and]
    constructor <;> rintro (here | here) <;> simp_all
  · next other =>
    constructor
    · exact Or.inl
    · rintro (old | ⟨same, -⟩)
      · exact old
      · exact absurd same.symm other

theorem contains_addEdge {graph : InterferenceGraph} {a b reg : VReg} :
    (graph.addEdge a b).contains reg = true ↔ graph.contains reg = true ∨ reg = a ∨ reg = b := by
  unfold addEdge
  split
  · next same => simp [contains_addRegister, same]
  · simp only [contains_addNeighbour, contains_addRegister]
    grind

theorem joined_addEdge {graph : InterferenceGraph} {a b x y : VReg} :
    (graph.addEdge a b).Joined x y ↔
      graph.Joined x y ∨ (a ≠ b ∧ ((x = a ∧ y = b) ∨ (x = b ∧ y = a))) := by
  unfold addEdge
  split
  · next same => simp [same]
  · next distinct =>
    simp only [joined_addNeighbour, joined_addRegister]
    grind

/-! ## Well-formed graphs -/

structure WellFormed (graph : InterferenceGraph) : Prop where
  symm : ∀ {a b : VReg}, graph.Joined a b → graph.Joined b a
  irrefl : ∀ {a : VReg}, ¬ graph.Joined a a
  registered : ∀ {a b : VReg}, graph.Joined a b → graph.contains b = true

theorem wellFormed_empty : empty.WellFormed where
  symm joined := absurd joined (joined_empty _ _)
  irrefl := joined_empty _ _
  registered joined := absurd joined (joined_empty _ _)

theorem WellFormed.addRegister {graph : InterferenceGraph} (formed : graph.WellFormed)
    (added : VReg) : (graph.addRegister added).WellFormed where
  symm joined := joined_addRegister.2 (formed.symm (joined_addRegister.1 joined))
  irrefl joined := formed.irrefl (joined_addRegister.1 joined)
  registered joined :=
    contains_addRegister.2 (.inl (formed.registered (joined_addRegister.1 joined)))

theorem WellFormed.addEdge {graph : InterferenceGraph} (formed : graph.WellFormed) (a b : VReg) :
    (graph.addEdge a b).WellFormed where
  symm joined := by
    rcases joined_addEdge.1 joined with old | ⟨distinct, ends⟩
    · exact joined_addEdge.2 (.inl (formed.symm old))
    · exact joined_addEdge.2 (.inr ⟨distinct, ends.symm.imp And.symm And.symm⟩)
  irrefl joined := by
    rcases joined_addEdge.1 joined with old | ⟨distinct, ⟨rfl, same⟩ | ⟨rfl, same⟩⟩
    · exact formed.irrefl old
    · exact distinct same
    · exact distinct same.symm
  registered joined := by
    rcases joined_addEdge.1 joined with old | ⟨-, ⟨-, rfl⟩ | ⟨-, rfl⟩⟩
    · exact contains_addEdge.2 (.inl (formed.registered old))
    · exact contains_addEdge.2 (.inr (.inr rfl))
    · exact contains_addEdge.2 (.inr (.inl rfl))

/-! ## Growing a graph -/

/-- One call that makes a graph grow. -/
inductive Growth where
  | register (reg : VReg)
  | edge (a b : VReg)
deriving DecidableEq, Repr

def grow (graph : InterferenceGraph) : Growth → InterferenceGraph
  | .register reg => graph.addRegister reg
  | .edge a b => graph.addEdge a b

def grown (calls : List Growth) : InterferenceGraph := calls.foldl grow empty

theorem WellFormed.grow {graph : InterferenceGraph} (formed : graph.WellFormed) (call : Growth) :
    (graph.grow call).WellFormed := by
  cases call with
  | register reg => exact formed.addRegister reg
  | edge a b => exact formed.addEdge a b

theorem grown_append (calls : List Growth) (call : Growth) :
    grown (calls ++ [call]) = (grown calls).grow call := by
  rw [grown, List.foldl_append]
  rfl

theorem wellFormed_grown (calls : List Growth) : (grown calls).WellFormed := by
  induction calls using List.reverseRecOn with
  | nil => exact wellFormed_empty
  | append_singleton calls call ih =>
    rw [grown_append]
    exact ih.grow call

end InterferenceGraph

end MipsBackend
