import MipsBackend.Proofs.Flow.Exactness
import MipsBackend.Proofs.Machine.Placement

/-!
# Reads that are due

A read of a register is due at a node if some path from there reads the register before writing it.
Behind an instruction that does not read the register, the read is still due unless the instruction
writes it, and fewer edges away (`Watch.Due.step`).
-/

namespace MipsBackend

namespace FlowGraph

/-- Some path of at most so many edges from the node reads the register before any node on it writes
the register. -/
inductive LiveWithin (graph : FlowGraph) (reg : VReg) : Nat → Nat → Prop
  | read {edges node : Nat} {instr : Instr} (here : graph.instr? node = some instr)
      (used : reg ∈ instr.virtualUses) : LiveWithin graph reg edges node
  | later {edges node succ : Nat} {instr : Instr} (here : graph.instr? node = some instr)
      (edge : succ ∈ graph.succs node) (kept : instr.virtualDef? ≠ some reg)
      (next : LiveWithin graph reg edges succ) : LiveWithin graph reg (edges + 1) node

variable {graph : FlowGraph} {reg : VReg} {node : Nat}

theorem LiveWithin.mono {edges more : Nat} (live : graph.LiveWithin reg edges node)
    (bound : edges ≤ more) : graph.LiveWithin reg more node := by
  induction live generalizing more with
  | read here used => exact .read here used
  | later here edge kept _ ih =>
    obtain ⟨rest, rfl⟩ := Nat.exists_eq_add_of_le' (Nat.one_le_of_lt bound)
    exact .later here edge kept (ih (Nat.le_of_succ_le_succ bound))

theorem LiveBefore.within (live : graph.LiveBefore reg node) :
    ∃ edges, graph.LiveWithin reg edges node := by
  induction live with
  | read here used => exact ⟨0, .read here used⟩
  | later here edge kept _ ih =>
    obtain ⟨edges, next⟩ := ih
    exact ⟨edges + 1, .later here edge kept next⟩

end FlowGraph

/-- Whether some instruction reads the register before any writes it. -/
def Instr.ReadFirst (reg : Reg) : List Instr → Prop
  | [] => False
  | instr :: rest => reg ∈ instr.uses ∨ some reg ≠ instr.def? ∧ ReadFirst reg rest

namespace Instr

variable {reg : Reg}

@[simp] theorem readFirst_nil : ¬ ReadFirst reg [] := id

@[simp] theorem readFirst_cons {instr : Instr} {rest : List Instr} :
    ReadFirst reg (instr :: rest) ↔
      reg ∈ instr.uses ∨ some reg ≠ instr.def? ∧ ReadFirst reg rest :=
  Iff.rfl

theorem not_readFirst_of_unread {instrs : List Instr}
    (unread : ∀ instr ∈ instrs, reg ∉ instr.uses) : ¬ ReadFirst reg instrs := by
  induction instrs with
  | nil => exact readFirst_nil
  | cons instr rest ih =>
    rintro (used | ⟨-, later⟩)
    · exact unread instr List.mem_cons_self used
    · exact ih (fun other member => unread other (List.mem_cons_of_mem _ member)) later

theorem not_readFirst_append {first second : List Instr} (left : ¬ ReadFirst reg first)
    (right : ¬ ReadFirst reg second) : ¬ ReadFirst reg (first ++ second) := by
  induction first with
  | nil => exact right
  | cons instr rest ih =>
    rintro (used | ⟨kept, later⟩)
    · exact left (.inl used)
    · exact ih (fun reads => left (.inr ⟨kept, reads⟩)) later

end Instr

/-- A register that is watched in the flow graph of a section. -/
structure Watch where
  code : Section
  graph : FlowGraph
  reg : VReg
  built : code.flowGraph = .ok graph
  labelled : code.Labelled

namespace Watch

variable {watch : Watch}

/-- Some path of at most so many edges from the node reads the register before writing it. -/
def Due (watch : Watch) (edges node : Nat) : Prop :=
  watch.graph.LiveWithin watch.reg edges node

def Other (watch : Watch) (reg : Reg) : Prop := .virt watch.reg ≠ reg

@[simp] theorem other_iff {reg : Reg} : watch.Other reg ↔ .virt watch.reg ≠ reg := Iff.rfl

theorem Due.mono {edges more node : Nat} (due : watch.Due edges node) (bound : edges ≤ more) :
    watch.Due more node :=
  FlowGraph.LiveWithin.mono due bound

theorem Due.step {edges node : Nat} {instr : Instr} (due : watch.Due edges node)
    (here : watch.code.instructions[node]? = some instr) (unread : .virt watch.reg ∉ instr.uses) :
    some (.virt watch.reg) ≠ instr.def? ∧ ∃ fewer < edges,
      (instr.fallsThrough = true ∧ watch.Due fewer (node + 1)) ∨
        ∃ target succ, instr.branchTarget? = some target ∧
          labelledNode? target 0 watch.code.items = some succ ∧ watch.Due fewer succ := by
  rw [← Section.instr?_flowGraph watch.built] at here
  cases due with
  | read there used =>
    obtain rfl := Option.some.inj (here.symm.trans there)
    exact absurd (mem_virtuals.1 used) unread
  | @later fewer _ succ _ there edge kept next =>
    obtain rfl := Option.some.inj (here.symm.trans there)
    refine ⟨fun writes => kept (by simp [Instr.virtualDef?, ← writes]), fewer, Nat.lt_succ_self _, ?_⟩
    obtain ⟨found, known, way⟩ := (Section.mem_succs_iff watch.built).1 edge
    rw [Section.instr?_flowGraph watch.built] at here
    obtain rfl := Option.some.inj (here.symm.trans known)
    rcases way with ⟨falls, rfl, -⟩ | ⟨target, branches, stands⟩
    · exact .inl ⟨falls, next⟩
    · exact .inr ⟨target, succ, branches, stands, next⟩

theorem Due.branch {edges node succ : Nat} {op : ZeroTest} {reg : Reg} {target : Label}
    (due : watch.Due edges node)
    (here : watch.code.instructions[node]? = some (.branchZero op reg target))
    (other : watch.Other reg) (stands : labelledNode? target 0 watch.code.items = some succ) :
    ∃ fewer < edges, watch.Due fewer (node + 1) ∨ watch.Due fewer succ := by
  obtain ⟨-, fewer, bound, way⟩ := due.step here (by simpa [Instr.uses] using other)
  refine ⟨fewer, bound, ?_⟩
  rcases way with ⟨-, next⟩ | ⟨_, _, branches, found, next⟩
  · exact .inl next
  · cases branches
    obtain rfl := Option.some.inj (stands.symm.trans found)
    exact .inr next

theorem Due.jump {edges node : Nat} {target : Label} (due : watch.Due edges node)
    (here : watch.code.instructions[node]? = some (.jump target)) :
    ∃ fewer < edges, ∃ succ, labelledNode? target 0 watch.code.items = some succ ∧
      watch.Due fewer succ := by
  obtain ⟨-, fewer, bound, way⟩ := due.step here List.not_mem_nil
  refine ⟨fewer, bound, ?_⟩
  rcases way with ⟨falls, -⟩ | ⟨_, succ, branches, found, next⟩
  · cases falls
  · cases branches
    exact ⟨succ, found, next⟩

/-- Behind code without branches that does not read the register first, the read is still due, and
the code has not written the register. -/
theorem Due.straight {instrs : List Instr} {edges node : Nat} (due : watch.Due edges node)
    (placed : watch.code.Places node (instrs.map .instr))
    (unbranched : ∀ instr ∈ instrs, instr.branchTarget? = none)
    (unread : ¬ Instr.ReadFirst (.virt watch.reg) instrs) :
    (∀ instr ∈ instrs, some (.virt watch.reg) ≠ instr.def?) ∧
      watch.Due edges (node + instrs.length) := by
  induction instrs generalizing edges node with
  | nil => exact ⟨fun _ member => (nomatch member), due⟩
  | cons instr rest ih =>
    obtain ⟨kept, fewer, bound, way⟩ := due.step placed.instr fun used => unread (.inl used)
    rcases way with ⟨-, next⟩ | ⟨target, _, branches, -⟩
    · obtain ⟨others, behind⟩ := ih next placed.tail
        (fun other member => unbranched other (List.mem_cons_of_mem _ member))
        fun reads => unread (.inr ⟨kept, reads⟩)
      refine ⟨List.forall_mem_cons.2 ⟨kept, others⟩, ?_⟩
      rw [List.length_cons, Nat.add_comm rest.length, ← Nat.add_assoc]
      exact behind.mono (Nat.le_of_lt bound)
    · rw [unbranched instr List.mem_cons_self] at branches
      cases branches

end Watch

end MipsBackend
