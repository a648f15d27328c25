import MipsBackend.Proofs.Machine.Run

/-!
# Renamed instructions

An instruction with other registers does the same as before if the registers it now reads hold what
the old ones held. Only the register that it writes is another one.
-/

namespace MipsBackend

def Change.rename (place : Reg → Reg) : Change → Change
  | reg dst value => reg (place dst) value
  | change => change

namespace Instr

@[simp] theorem def?_mapRegisters (rename : Role → Reg → Reg) (instr : Instr) :
    (instr.mapRegisters rename).def? = instr.def?.map (rename .define) := by
  cases instr <;> rfl

/-- Whether an instruction runs inside the section alone. -/
def isLocal : Instr → Bool
  | syscall | call _ => false
  | _ => true

@[simp] theorem isLocal_mapRegisters (rename : Role → Reg → Reg) (instr : Instr) :
    (instr.mapRegisters rename).isLocal = instr.isLocal := by
  cases instr <;> rfl

theorem changes_iff {platform : Platform} {before after : Machine} {instr : Instr}
    (inside : instr.isLocal = true) :
    platform.Changes before after instr ↔
      after = before.apply (instr.change platform.address before) := by
  cases instr <;> first | rfl | cases inside

/-! ## Changes and operands -/

theorem def?_of_change {address : Label → Word} {machine : Machine} {instr : Instr} {dst : Reg}
    {value : Word} (same : instr.change address machine = .reg dst value) :
    instr.def? = some dst := by
  cases instr <;> first | cases same; rfl | cases same

theorem touched_of_change {address : Label → Word} {machine : Machine} {instr : Instr}
    {op : StoreOp} {addr value : Word} (same : instr.change address machine = .store op addr value) :
    instr.touched machine = op.writes addr := by
  cases instr <;> first | cases same; rfl | cases same

theorem change_of_def? {address : Label → Word} {machine : Machine} {instr : Instr} {dst : Reg}
    (writes : instr.def? = some dst) : ∃ value, instr.change address machine = .reg dst value := by
  cases instr <;> first | cases writes; exact ⟨_, rfl⟩ | cases writes

theorem def?_of_control {machine : Machine} {instr : Instr}
    (branches : instr.control machine ≠ .next) : instr.def? = none := by
  cases instr <;> first | rfl | exact absurd rfl branches

theorem branchTarget?_of_control {machine : Machine} {instr : Instr} {target : Label}
    (goes : instr.control machine = .goto target) : instr.branchTarget? = some target := by
  have taken {condition : Prop} [Decidable condition] {here : Label}
      (same : (if condition then Control.goto here else .next) = .goto target) :
      here = target := by
    split at same
    · exact Control.goto.inj same
    · cases same
  cases instr with
  | branchZero op src here => exact congrArg some (taken goes)
  | branchPair op lhs rhs here => exact congrArg some (taken goes)
  | jump here => exact congrArg some (Control.goto.inj goes)
  | _ => cases goes

theorem fallsThrough_of_control {machine : Machine} {instr : Instr}
    (goes : instr.control machine = .next) : instr.fallsThrough = true := by
  cases instr <;> first | rfl | cases goes

/-! ## The same operation -/

theorem change_mapRegisters {address : Label → Word} {rename : Role → Reg → Reg} {instr : Instr}
    {source target : Machine}
    (reads : ∀ reg ∈ instr.uses, target.read (rename .use reg) = source.read reg)
    (memory : ∀ byte ∈ instr.touched source, target.memory byte = source.memory byte)
    (hi : target.hi = source.hi) (lo : target.lo = source.lo) :
    (instr.mapRegisters rename).change address target =
      (instr.change address source).rename (rename .define) := by
  cases instr with
  | syscall | marker | loadImm | loadAddr | branchZero | branchPair | jump | call | jumpReg => rfl
  | arithImm op dst src imm =>
    have same := reads src (by simp [uses])
    exact congrArg (fun word => Change.reg (rename .define dst) (op.eval word imm.toBitVec)) same
  | arith op dst lhs rhs =>
    have left := reads lhs (by simp [uses])
    have right := reads rhs (by simp [uses])
    exact congrArg₂ (fun x y => Change.reg (rename .define dst) (op.eval x y)) left right
  | hiLo op lhs rhs =>
    have left := reads lhs (by simp [uses])
    have right := reads rhs (by simp [uses])
    exact congrArg₂ (fun x y => Change.hiLo (op.eval x y).1 (op.eval x y).2) left right
  | moveFrom op dst =>
    cases op with
    | mfhi => exact congrArg (Change.reg (rename .define dst)) hi
    | mflo => exact congrArg (Change.reg (rename .define dst)) lo
  | load op dst offset base =>
    have same := reads base (by simp [uses])
    have loaded := LoadOp.eval_congr memory
    calc (load op dst offset base |>.mapRegisters rename).change address target
        = .reg (rename .define dst)
            (op.eval target.memory (target.read (rename .use base) + offset.toBitVec)) := rfl
      _ = .reg (rename .define dst)
            (op.eval source.memory (source.read base + offset.toBitVec)) := by rw [same, loaded]
  | store op src offset base =>
    have stored := reads src (by simp [uses])
    have place := reads base (by simp [uses])
    exact congrArg₂ (fun x y => Change.store op (x + offset.toBitVec) y) place stored

theorem control_mapRegisters {rename : Role → Reg → Reg} {instr : Instr} {source target : Machine}
    (reads : ∀ reg ∈ instr.uses, target.read (rename .use reg) = source.read reg) :
    (instr.mapRegisters rename).control target = instr.control source := by
  cases instr with
  | branchZero op src goal =>
    have same := reads src (by simp [uses])
    exact congrArg (fun word => if op.holds word then Control.goto goal else .next) same
  | branchPair op lhs rhs goal =>
    have left := reads lhs (by simp [uses])
    have right := reads rhs (by simp [uses])
    exact congrArg₂ (fun x y => if op.holds x y then Control.goto goal else .next) left right
  | jumpReg src => exact congrArg Control.leave (reads src (by simp [uses]))
  | _ => rfl

end Instr

end MipsBackend
