import MipsBackend.Proofs.Activation.SaveBlock
import MipsBackend.Proofs.Assignment.Final
import MipsBackend.Proofs.Lowering.Levels

/-!
# Instructions of bodies

What a single instruction of a function's body can do to its activation, before and after
allocation. It leaves the frame pointer alone and moves the stack pointer only to reserve or release
space; of the allocatable registers it writes only those that the section saves, and it stores the
scratch register for results never, so that only spill code does.
-/

namespace MipsBackend

/-! ## Before allocation -/

inductive Instr.InBody : Instr → Prop
  | computation {instr : Instr} (computes : instr.isComputation = true) : InBody instr
  | adjust (amount : Int32) : InBody (.adjustStack amount)
  | call (target : Label) : InBody (.call target)
  | branch {instr : Instr} {target : Label} (branches : instr.branchTarget? = some target) :
      InBody instr

theorem inBody_reserveCode {bytes : Nat} {instr : Instr}
    (member : .instr instr ∈ (reserveCode bytes).map TextItem.instr) : instr.InBody := by
  obtain ⟨found, inside, same⟩ := List.mem_map.1 member
  cases same
  unfold reserveCode at inside
  split at inside
  · cases List.mem_singleton.1 inside
    exact .adjust _
  · cases inside

theorem inBody_releaseCode {bytes : Nat} {instr : Instr}
    (member : .instr instr ∈ (releaseCode bytes).map TextItem.instr) : instr.InBody := by
  obtain ⟨found, inside, same⟩ := List.mem_map.1 member
  cases same
  unfold releaseCode at inside
  split at inside
  · cases List.mem_singleton.1 inside
    exact .adjust _
  · cases inside

theorem ExprCode.inBody {env : Env} {first last : Nat} {code : List TextItem}
    (shape : ExprCode env first code last) {instr : Instr} (member : .instr instr ∈ code) :
    instr.InBody := by
  induction shape with
  | nothing first => cases member
  | append left right ihLeft ihRight => exact (List.mem_append.1 member).elim ihLeft ihRight
  | computation computes =>
    cases List.mem_singleton.1 member
    exact .computation computes
  | service known =>
    cases List.mem_singleton.1 member
    exact .call _
  | call own signed argSpace resultSpace arguments takes ihArgs ihTake =>
    simp only [callItems, List.mem_append, List.mem_cons, TextItem.instr.injEq] at member
    rcases member with reserves | stores | reserves | rfl | taken | releases
    · exact inBody_reserveCode reserves
    · exact ihArgs stores
    · exact inBody_reserveCode reserves
    · exact .call _
    · exact ihTake taken
    · exact inBody_releaseCode releases
  | shortCircuit known lhs rhs ihLeft ihRight =>
    simp only [Gen.ShortCircuit.code, List.mem_append, List.mem_cons, TextItem.instr.injEq,
      reduceCtorEq, false_or, List.not_mem_nil, or_false] at member
    rcases member with left | rfl | right | rfl | rfl | rfl | rfl
    · exact ihLeft left
    · exact .branch rfl
    · exact ihRight right
    · exact .branch rfl
    · exact .computation rfl
    · exact .branch rfl
    · exact .computation rfl

theorem StmtCode.inBody {env : Env} {epilogue : Label} {labels : Option LoopLabels}
    {first last : Nat} {code : List TextItem}
    (shape : StmtCode env epilogue labels first code last) {instr : Instr}
    (member : .instr instr ∈ code) : instr.InBody := by
  induction shape with
  | expr computes => exact computes.inBody member
  | append left right ihLeft ihRight => exact (List.mem_append.1 member).elim ihLeft ihRight
  | jump known =>
    cases List.mem_singleton.1 member
    exact .branch rfl
  | loop test inner ih =>
    simp only [Stmt.loopCode, List.mem_append, List.mem_cons, TextItem.instr.injEq, reduceCtorEq,
      false_or, List.not_mem_nil, or_false] at member
    rcases member with tested | rfl | inside | rfl
    · exact test.inBody tested
    · exact .branch rfl
    · exact ih inside
    · exact .branch rfl
  | branch test taken ih =>
    simp only [Stmt.branchCode, List.mem_append, List.mem_cons, TextItem.instr.injEq, reduceCtorEq,
      List.not_mem_nil, or_false] at member
    rcases member with tested | rfl | inside
    · exact test.inBody tested
    · exact .branch rfl
    · exact ih inside
  | branchElse test taken other ihYes ihNo =>
    simp only [Stmt.branchElseCode, List.mem_append, List.mem_cons, TextItem.instr.injEq,
      reduceCtorEq, false_or, List.not_mem_nil, or_false] at member
    rcases member with tested | rfl | inside | rfl | inside
    · exact test.inBody tested
    · exact .branch rfl
    · exact ihYes inside
    · exact .branch rfl
    · exact ihNo inside

namespace Instr

theorem InBody.unmarked {instr : Instr} (inside : instr.InBody) : instr.marker? = none := by
  cases inside with
  | computation computes =>
    simp only [isComputation, Bool.and_eq_true, Option.isNone_iff_eq_none] at computes
    exact computes.1.1.2
  | adjust amount => rfl
  | call target => rfl
  | @branch instr _ branches =>
    cases instr with
    | branchZero | branchPair | jump => rfl
    | _ => cases branches

/-- Whether the instruction hands over to the system, or leaves the section. -/
def departs : Instr → Bool
  | syscall | jumpReg _ => true
  | _ => false

theorem InBody.stays {instr : Instr} (inside : instr.InBody) : instr.departs = false := by
  cases inside with
  | @computation instr computes =>
    cases instr with
    | syscall | jumpReg => cases computes
    | _ => rfl
  | adjust amount => rfl
  | call target => rfl
  | @branch instr _ branches =>
    cases instr with
    | syscall | jumpReg => cases branches
    | _ => rfl

theorem control_ne_leave {instr : Instr} (stays : instr.departs = false) (machine : Machine)
    (target : Word) : instr.control machine ≠ .leave target := by
  have inside {condition : Prop} [Decidable condition] {here : Label} :
      (if condition then Control.goto here else .next) ≠ .leave target := by
    split <;> exact Control.noConfusion
  cases instr with
  | jumpReg => cases stays
  | branchZero | branchPair => exact inside
  | _ => exact Control.noConfusion

theorem InBody.written {instr : Instr} (inside : instr.InBody) {reg : PhysReg}
    (writes : instr.def? = some (.phys reg)) :
    reg = .a0 ∨ reg = .zero ∨ reg = .sp ∧ ∃ amount, instr = .adjustStack amount := by
  cases inside with
  | computation computes =>
    simp only [isComputation, writes, Bool.and_eq_true] at computes
    obtain ⟨⟨-, kind⟩, -⟩ := computes
    split at kind
    · next same => cases same
    · next same => cases same
    · next same => cases same; exact .inl rfl
    · next same => cases same; exact .inr (.inl rfl)
    · cases kind
  | adjust amount =>
    cases writes
    exact .inr (.inr ⟨rfl, amount, rfl⟩)
  | call target => cases writes
  | @branch instr _ branches =>
    cases instr with
    | branchZero | branchPair | jump => cases writes
    | _ => cases branches

theorem InBody.stored {instr : Instr} (inside : instr.InBody) {reg : PhysReg}
    (stores : instr.stored? = some (.phys reg)) : reg = .zero := by
  cases inside with
  | computation computes =>
    simp only [isComputation, stores, Bool.and_eq_true] at computes
    obtain ⟨-, kind⟩ := computes
    split at kind
    · next same => cases same
    · next same => cases same
    · next same => cases same; rfl
    · cases kind
  | adjust amount => cases stores
  | call target => cases stores
  | @branch instr _ branches =>
    cases instr with
    | branchZero | branchPair | jump => cases stores
    | _ => cases branches

end Instr

/-! ## After allocation -/

namespace Instr

theorem stackMove_of_def? {instr : Instr} (other : instr.def? ≠ some .sp) : instr.stackMove = 0 := by
  unfold stackMove stackChange
  split
  · exact absurd rfl other
  · rfl

theorem stackMove_of_branchTarget? {instr : Instr} {target : Label}
    (branches : instr.branchTarget? = some target) : instr.stackMove = 0 := by
  cases instr with
  | branchZero | branchPair | jump => rfl
  | _ => cases branches

/-- What an instruction of a body does at most, once its registers have homes. -/
structure Confined (saved : SavedState) (made : Instr) : Prop where
  stays : made.departs = false
  sp : made.def? = some .sp → ∃ amount, made = .adjustStack amount
  fp : made.def? ≠ some .fp
  regs : ∀ reg ∈ PhysReg.allocatable, made.def? = some (.phys reg) → reg ∈ saved.regs
  stored : made.stored? ≠ some (.phys .defScratch)

theorem departs_mapRegisters (rename : Role → Reg → Reg) (instr : Instr) :
    (instr.mapRegisters rename).departs = instr.departs := by
  cases instr <;> rfl

theorem stored?_mapRegisters (rename : Role → Reg → Reg) (instr : Instr) :
    (instr.mapRegisters rename).stored? = instr.stored?.map (rename .use) := by
  cases instr <;> rfl

end Instr

namespace Assignment

/-- Registers live in allocatable registers, if in any. -/
def Allocatable (assignment : Assignment) : Prop :=
  ∀ reg phys, assignment.home? reg = some (.reg phys) → phys ∈ PhysReg.allocatable

variable {assignment : Assignment} {code : Section} {instr : Instr}

theorem mem_savedState_regs {reg : VReg} {phys : PhysReg} (mentioned : reg ∈ code.registers)
    (home : assignment.home? reg = some (.reg phys)) :
    phys ∈ (assignment.savedState code).regs := by
  simp only [savedState, List.mem_eraseDups, List.mem_filterMap, Std.ExtTreeSet.mem_toList]
  exact ⟨reg, mentioned, home?_eq_reg_iff.1 home⟩

theorem mem_registers_of_def? (listed : instr ∈ code.instructions) {reg : VReg}
    (writes : instr.def? = some (.virt reg)) : reg ∈ code.registers := by
  refine Section.mem_registers.2 ⟨instr, listed, List.mem_append_right _ ?_⟩
  simp [Instr.virtualDef?, writes]

theorem usePlace_ne_defScratch (allocatable : assignment.Allocatable) (instr : Instr) (reg : VReg) :
    assignment.usePlace instr (.virt reg) ≠ .phys .defScratch := by
  have scratch : ((assignment.spilledUses instr).lookup reg).map Reg.phys ≠
      some (.phys .defScratch) := by
    intro same
    obtain ⟨scratch, found, place⟩ := Option.map_eq_some_iff.1 same
    obtain ⟨before, after, split, -⟩ := List.lookup_eq_some_iff.1 found
    have listed : (reg, scratch) ∈ assignment.spilledUses instr :=
      split ▸ List.mem_append_right _ List.mem_cons_self
    have among : scratch ∈ PhysReg.useScratch :=
      (assignment.map_snd_spilledUses instr).subset (List.mem_map_of_mem listed)
    cases place
    exact absurd among (by decide)
  have spilled : (((assignment.spilledUses instr).lookup reg).map Reg.phys).getD (.virt reg) ≠
      .phys .defScratch := by
    intro same
    cases found : ((assignment.spilledUses instr).lookup reg).map Reg.phys with
    | none =>
      rw [found] at same
      cases same
    | some place =>
      rw [found] at same
      cases same
      exact scratch found
  cases home : assignment.home? reg with
  | none => simpa only [usePlace, home] using spilled
  | some found =>
    cases found with
    | slot => simpa only [usePlace, home] using spilled
    | reg phys =>
      simp only [usePlace, home]
      intro same
      cases same
      exact absurd (allocatable reg _ home) (by decide)

/-- The place of a written register: a scratch register, or one that the section saves. -/
theorem defPlace_cases (allocatable : assignment.Allocatable) (covers : assignment.Covers code)
    {reg : VReg} (mentioned : reg ∈ code.registers) :
    ∃ phys, assignment.defPlace (.virt reg) = .phys phys ∧
      (phys = .defScratch ∨
        phys ∈ PhysReg.allocatable ∧ phys ∈ (assignment.savedState code).regs) := by
  cases home : assignment.home? reg with
  | none => exact absurd home (covers reg mentioned)
  | some found =>
    cases found with
    | slot => exact ⟨.defScratch, by simp only [defPlace, home], .inl rfl⟩
    | reg phys =>
      exact ⟨phys, by simp only [defPlace, home],
        .inr ⟨allocatable reg phys home, mem_savedState_regs mentioned home⟩⟩

/-- The physical registers that an instruction of a body writes once it is allocated. -/
theorem written_mapRegisters (allocatable : assignment.Allocatable)
    (covers : assignment.Covers code) (listed : instr ∈ code.instructions) (inside : instr.InBody)
    {written : Reg} (writes : (instr.mapRegisters (assignment.place instr)).def? = some written) :
    ∃ phys, written = .phys phys ∧
      (phys = .defScratch ∨ phys = .a0 ∨ phys = .zero ∨
        (phys = .sp ∧ ∃ amount, instr = .adjustStack amount) ∨
        phys ∈ PhysReg.allocatable ∧ phys ∈ (assignment.savedState code).regs) := by
  rw [Instr.def?_mapRegisters] at writes
  obtain ⟨reg, own, rfl⟩ := Option.map_eq_some_iff.1 writes
  cases reg with
  | phys reg =>
    refine ⟨reg, rfl, .inr ?_⟩
    rcases inside.written own with first | second | third
    · exact .inl first
    · exact .inr (.inl second)
    · exact .inr (.inr (.inl third))
  | virt reg =>
    obtain ⟨phys, place, kind⟩ := defPlace_cases allocatable covers (mem_registers_of_def? listed own)
    refine ⟨phys, place, ?_⟩
    rcases kind with scratch | saved
    · exact .inl scratch
    · exact .inr (.inr (.inr (.inr saved)))

theorem confined_mapRegisters (allocatable : assignment.Allocatable)
    (covers : assignment.Covers code) (listed : instr ∈ code.instructions) (inside : instr.InBody) :
    (instr.mapRegisters (assignment.place instr)).Confined (assignment.savedState code) where
  stays := by rw [Instr.departs_mapRegisters, inside.stays]
  sp writes := by
    obtain ⟨phys, same, kind⟩ := written_mapRegisters allocatable covers listed inside writes
    cases same
    rcases kind with clash | clash | clash | ⟨-, amount, rfl⟩ | ⟨clash, -⟩
    · cases clash
    · cases clash
    · cases clash
    · exact ⟨amount, rfl⟩
    · exact absurd clash (by decide)
  fp writes := by
    obtain ⟨phys, same, kind⟩ := written_mapRegisters allocatable covers listed inside writes
    cases same
    rcases kind with clash | clash | clash | ⟨clash, -⟩ | ⟨clash, -⟩
    · cases clash
    · cases clash
    · cases clash
    · cases clash
    · exact absurd clash (by decide)
  regs reg member writes := by
    obtain ⟨phys, same, kind⟩ := written_mapRegisters allocatable covers listed inside writes
    cases same
    rcases kind with rfl | rfl | rfl | ⟨rfl, -⟩ | ⟨-, saved⟩
    · exact absurd member (by decide)
    · exact absurd member (by decide)
    · exact absurd member (by decide)
    · exact absurd member (by decide)
    · exact saved
  stored same := by
    rw [Instr.stored?_mapRegisters] at same
    obtain ⟨src, own, place⟩ := Option.map_eq_some_iff.1 same
    cases src with
    | virt reg => exact usePlace_ne_defScratch allocatable instr reg place
    | phys reg =>
      obtain rfl := inside.stored own
      cases place

theorem stackMove_mapRegisters (allocatable : assignment.Allocatable)
    (covers : assignment.Covers code) (listed : instr ∈ code.instructions) (inside : instr.InBody) :
    (instr.mapRegisters (assignment.place instr)).stackMove = instr.stackMove := by
  by_cases writes : (instr.mapRegisters (assignment.place instr)).def? = some .sp
  · obtain ⟨phys, same, kind⟩ := written_mapRegisters allocatable covers listed inside writes
    cases same
    rcases kind with clash | clash | clash | ⟨-, amount, rfl⟩ | ⟨clash, -⟩
    · cases clash
    · cases clash
    · cases clash
    · rfl
    · exact absurd clash (by decide)
  · have own : instr.def? ≠ some .sp := fun same => writes (by
      rw [Instr.def?_mapRegisters, same]
      rfl)
    rw [Instr.stackMove_of_def? writes, Instr.stackMove_of_def? own]

end Assignment

end MipsBackend
