import MipsBackend.Proofs.Assignment.Expansion
import MipsBackend.Proofs.Machine.Run

/-!
# Related machines

A section with virtual registers and its allocated form run on machines that differ: virtual
registers of the first live in physical registers and spill slots of the second. The machines are
related at a point of the section if they agree on all that allocation leaves alone, and every
virtual register that is live there has its value at home.
-/

namespace MipsBackend

/-- The registers that allocation uses for itself. -/
def PhysReg.reserved : List PhysReg := allocatable ++ scratch

theorem PhysReg.mem_reserved {reg : PhysReg} :
    reg ∈ reserved ↔ reg ∈ allocatable ∨ reg ∈ scratch :=
  List.mem_append

def Section.NamesNoReserved (code : Section) : Prop :=
  ∀ instr ∈ code.instructions, ∀ reg ∈ PhysReg.reserved,
    Reg.phys reg ∉ instr.uses ∧ instr.def? ≠ some (.phys reg)

/-! ## Agreement -/

namespace Platform

def slotAt (platform : Platform) (reg : VReg) : Word := platform.address (.spill reg)

def slotBytes (platform : Platform) (reg : VReg) : List Word := wordAt (platform.slotAt reg)

/-- Equal in everything but virtual registers, reserved registers and slots. -/
structure Agrees (platform : Platform) (slots : List VReg) (source target : Machine) : Prop where
  phys : ∀ reg, reg ∉ PhysReg.reserved → target.phys reg = source.phys reg
  hi : target.hi = source.hi
  lo : target.lo = source.lo
  memory : ∀ addr, (∀ reg ∈ slots, addr ∉ platform.slotBytes reg) →
    target.memory addr = source.memory addr

structure Keeps (platform : Platform) (slots : List VReg) (before after : Machine) : Prop where
  phys : ∀ reg ∈ PhysReg.allocatable, after.phys reg = before.phys reg
  word : ∀ reg ∈ slots,
    after.memory.word (platform.slotAt reg) = before.memory.word (platform.slotAt reg)

/-- Code outside the section neither changes the section's virtual registers nor depends on where
they live, and leaves these places as they were. -/
structure Outside (platform : Platform) (slots : List VReg)
    (effect : Machine → Machine → Prop) : Prop where
  virt : ∀ before after, effect before after → after.virt = before.virt
  matched : ∀ before after other, effect before after → platform.Agrees slots before other →
    ∃ result, effect other result ∧ platform.Agrees slots after result ∧
      platform.Keeps slots other result

/-- What allocation relies on: slots are words of their own, and code outside the section respects
the places where virtual registers live. -/
structure Respects (platform : Platform) (slots : List VReg) : Prop where
  apart : ∀ reg ∈ slots, ∀ other ∈ slots, reg ≠ other →
    ∀ byte ∈ platform.slotBytes reg, byte ∉ platform.slotBytes other
  system : platform.Outside slots platform.system
  called : ∀ target, platform.Outside slots (platform.called target)

namespace Agrees

variable {platform : Platform} {slots : List VReg} {source target : Machine}

theorem apply (agrees : platform.Agrees slots source target) {change : Change}
    (free : ∀ dst value, change = .reg dst value → ∃ reg ∉ PhysReg.reserved, dst = .phys reg) :
    platform.Agrees slots (source.apply change) (target.apply change) := by
  cases change with
  | nothing => exact agrees
  | hiLo hi lo => exact ⟨agrees.phys, rfl, rfl, agrees.memory⟩
  | store op addr value =>
    refine ⟨agrees.phys, agrees.hi, agrees.lo, fun other outside => ?_⟩
    exact StoreOp.eval_congr (agrees.memory other outside)
  | reg dst value =>
    obtain ⟨reg, -, rfl⟩ := free dst value rfl
    refine ⟨fun other outside => ?_, agrees.hi, agrees.lo, agrees.memory⟩
    simp only [Machine.apply, Machine.phys_write_phys, agrees.phys other outside]

theorem write_virt (agrees : platform.Agrees slots source target) (reg : VReg) (value : Word) :
    platform.Agrees slots (source.write (.virt reg) value) target :=
  ⟨agrees.phys, agrees.hi, agrees.lo, agrees.memory⟩

theorem write_reserved (agrees : platform.Agrees slots source target) {reg : PhysReg}
    (reserved : reg ∈ PhysReg.reserved) (value : Word) :
    platform.Agrees slots source (target.write (.phys reg) value) := by
  refine ⟨fun other free => ?_, agrees.hi, agrees.lo, agrees.memory⟩
  have distinct : other ≠ reg := fun same => free (same ▸ reserved)
  rw [Machine.phys_write_phys, if_neg distinct, agrees.phys other free]

theorem store_slot (agrees : platform.Agrees slots source target) {reg : VReg}
    (member : reg ∈ slots) (value : Word) :
    platform.Agrees slots source
      { target with memory := target.memory.storeWord (platform.slotAt reg) value } := by
  refine ⟨agrees.phys, agrees.hi, agrees.lo, fun addr outside => ?_⟩
  calc target.memory.storeWord (platform.slotAt reg) value addr
      = target.memory addr := Memory.storeWord_of_not_mem (outside reg member)
    _ = source.memory addr := agrees.memory addr outside

end Agrees

namespace Keeps

variable {platform : Platform} {slots : List VReg}

theorem refl (machine : Machine) : platform.Keeps slots machine machine :=
  ⟨fun _ _ => rfl, fun _ _ => rfl⟩

theorem write {reg : PhysReg} (other : reg ∉ PhysReg.allocatable) (machine : Machine)
    (value : Word) : platform.Keeps slots machine (machine.write (.phys reg) value) := by
  refine ⟨fun kept member => ?_, fun _ _ => rfl⟩
  have distinct : kept ≠ reg := fun same => other (same ▸ member)
  rw [Machine.phys_write_phys, if_neg distinct]

theorem apply (machine : Machine) {change : Change}
    (free : ∀ dst value, change = .reg dst value → ∃ reg ∉ PhysReg.reserved, dst = .phys reg)
    (spared : ∀ op addr value, change = .store op addr value →
      ∀ byte ∈ op.writes addr, ∀ reg ∈ slots, byte ∉ platform.slotBytes reg) :
    platform.Keeps slots machine (machine.apply change) := by
  cases change with
  | nothing => exact .refl machine
  | hiLo hi lo => exact ⟨fun _ _ => rfl, fun _ _ => rfl⟩
  | store op addr value =>
    refine ⟨fun _ _ => rfl, fun reg member => Memory.word_congr fun byte inSlot => ?_⟩
    exact StoreOp.eval_of_not_mem fun written =>
      spared op addr value rfl byte written reg member inSlot
  | reg dst value =>
    obtain ⟨reg, unreserved, rfl⟩ := free dst value rfl
    exact write (fun member => unreserved (PhysReg.mem_reserved.2 (.inl member))) machine value

end Keeps

end Platform

/-! ## Values of virtual registers -/

namespace Assignment

def slots (assignment : Assignment) (code : Section) : List VReg :=
  (assignment.savedState code).slots

theorem mem_slots {assignment : Assignment} {code : Section} {reg : VReg} :
    reg ∈ assignment.slots code ↔ reg ∈ code.registers ∧ reg ∈ assignment.spilled := by
  simp [slots, savedState]

theorem nodup_slots (assignment : Assignment) (code : Section) :
    (assignment.slots code).Nodup :=
  (RegSet.toList_nodup _).filter _

def valueIn (assignment : Assignment) (platform : Platform) (machine : Machine) (reg : VReg) :
    Option Word :=
  (assignment.home? reg).map fun
    | .reg phys => machine.phys phys
    | .slot => machine.memory.word (platform.slotAt reg)

theorem valueIn_reg {assignment : Assignment} {platform : Platform} {machine : Machine}
    {reg : VReg} {phys : PhysReg} (home : assignment.home? reg = some (.reg phys)) :
    assignment.valueIn platform machine reg = some (machine.phys phys) := by
  rw [valueIn, home, Option.map_some]

theorem valueIn_slot {assignment : Assignment} {platform : Platform} {machine : Machine}
    {reg : VReg} (home : assignment.home? reg = some .slot) :
    assignment.valueIn platform machine reg =
      some (machine.memory.word (platform.slotAt reg)) := by
  rw [valueIn, home, Option.map_some]

theorem valueIn_congr {assignment : Assignment} {platform : Platform} {before after : Machine}
    {reg : VReg}
    (phys : ∀ phys, assignment.home? reg = some (.reg phys) → after.phys phys = before.phys phys)
    (word : assignment.home? reg = some .slot →
      after.memory.word (platform.slotAt reg) = before.memory.word (platform.slotAt reg)) :
    assignment.valueIn platform after reg = assignment.valueIn platform before reg := by
  unfold valueIn
  cases home : assignment.home? reg with
  | none => rfl
  | some found =>
    cases found with
    | reg found => exact congrArg some (phys found home)
    | slot => exact congrArg some (word home)

end Assignment

/-- Whether the section, going on from the point, may read the register before writing it. -/
def Point.Live (graph : FlowGraph) (reg : VReg) : Point → Prop
  | inside node => graph.LiveBefore reg node
  | outside _ => False

namespace Assignment

/-- The machines agree, and live virtual registers have their values at home. -/
structure Related (assignment : Assignment) (platform : Platform) (code : Section)
    (graph : FlowGraph) (point : Point) (source target : Machine) : Prop where
  agrees : platform.Agrees (assignment.slots code) source target
  values : ∀ reg, point.Live graph reg →
    assignment.valueIn platform target reg = some (source.virt reg)

theorem mem_slots_of_live {assignment : Assignment} {code : Section} {graph : FlowGraph}
    (built : code.flowGraph = .ok graph) {reg : VReg} {point : Point} (live : point.Live graph reg)
    (home : assignment.home? reg = some .slot) : reg ∈ assignment.slots code := by
  cases point with
  | outside target => exact live.elim
  | inside node =>
    obtain ⟨reader, instr, here, used⟩ := FlowGraph.LiveBefore.mentioned live
    rw [Section.instr?_flowGraph built] at here
    have mentioned : reg ∈ instr.virtualOperands := List.mem_append_left _ used
    exact mem_slots.2 ⟨Section.mem_registers.2 ⟨instr, List.mem_of_getElem? here, mentioned⟩,
      (home?_eq_slot_iff.1 home).2⟩

theorem valueIn_keeps {assignment : Assignment} {platform : Platform} {code : Section}
    {graph : FlowGraph} (sound : assignment.Sound code graph) {before after : Machine} {reg : VReg}
    (keeps : platform.Keeps (assignment.slots code) before after)
    (slot : assignment.home? reg = some .slot → reg ∈ assignment.slots code) :
    assignment.valueIn platform after reg = assignment.valueIn platform before reg :=
  valueIn_congr (fun phys home => keeps.phys phys (sound.allocatable reg phys home))
    fun home => keeps.word reg (slot home)

end Assignment

end MipsBackend
