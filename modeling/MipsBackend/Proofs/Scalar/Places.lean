import MipsBackend.Proofs.Machine.Execution
import MipsBackend.Proofs.Scalar.Semantics
import MipsBackend.Lowering.Env

/-!
# Variables in the machine

A variable lives in a virtual register, or in a word of the frame. Code that computes a value leaves
all registers alone that were drawn before it, so variables keep their values (`Env.Holds`).
-/

namespace MipsBackend

/-! ## Places -/

inductive VarPlace where
  | reg (reg : VReg)
  /-- The word at an offset from the frame pointer. -/
  | word (offset : Int32)

namespace VarPlace

def Apart : VarPlace → VarPlace → Prop
  | reg first, reg second => first ≠ second
  | word first, word second => ∀ fp : Word, ∀ byte ∈ wordAt (fp + first.toBitVec),
      byte ∉ wordAt (fp + second.toBitVec)
  | reg _, word _ | word _, reg _ => True

end VarPlace

def Machine.valueAt (machine : Machine) : VarPlace → Word
  | .reg reg => machine.virt reg
  | .word offset => machine.memory.word (machine.phys .fp + offset.toBitVec)

theorem Machine.read_virt (machine : Machine) (reg : VReg) :
    machine.read (.virt reg) = machine.virt reg := rfl

/-- Equal but for hi, lo and the virtual registers from a number on. -/
structure Machine.Untouched (bound : VReg) (before after : Machine) : Prop where
  phys : after.phys = before.phys
  memory : after.memory = before.memory
  virt : ∀ reg < bound, after.virt reg = before.virt reg

namespace Machine.Untouched

variable {bound : VReg} {first second third : Machine}

theorem refl (bound : VReg) (machine : Machine) : Untouched bound machine machine :=
  ⟨rfl, rfl, fun _ _ => rfl⟩

theorem trans {wider : VReg} (le : bound ≤ wider) (before : Untouched bound first second)
    (after : Untouched wider second third) : Untouched bound first third :=
  ⟨after.phys.trans before.phys, after.memory.trans before.memory, fun reg below =>
    (after.virt reg (Nat.lt_of_lt_of_le below le)).trans (before.virt reg below)⟩

theorem anti {wider : VReg} (untouched : Untouched wider first second) (le : bound ≤ wider) :
    Untouched bound first second :=
  ⟨untouched.phys, untouched.memory, fun reg below =>
    untouched.virt reg (Nat.lt_of_lt_of_le below le)⟩

theorem write {res : VReg} (fresh : bound ≤ res) (machine : Machine) (value : Word) :
    Untouched bound machine (machine.write (.virt res) value) := by
  refine ⟨rfl, rfl, fun reg below => ?_⟩
  rw [Machine.virt_write_virt, if_neg (Nat.ne_of_lt (Nat.lt_of_lt_of_le below fresh))]

theorem valueAt {place : VarPlace} (untouched : Untouched bound first second)
    (below : ∀ reg, place = .reg reg → reg < bound) :
    second.valueAt place = first.valueAt place := by
  cases place with
  | reg reg => exact untouched.virt reg (below reg rfl)
  | word offset => simp only [Machine.valueAt, untouched.memory, untouched.phys]

end Machine.Untouched

/-- Equal but for hi, lo and the virtual registers from `first` up to `last`. -/
structure Machine.AgreesOutside (first last : VReg) (before after : Machine) : Prop where
  phys : after.phys = before.phys
  memory : after.memory = before.memory
  virt : ∀ reg, reg < first ∨ last ≤ reg → after.virt reg = before.virt reg

namespace Machine.AgreesOutside

variable {first last : VReg} {before middle after : Machine}

theorem refl (first last : VReg) (machine : Machine) : AgreesOutside first last machine machine :=
  ⟨rfl, rfl, fun _ _ => rfl⟩

theorem trans (left : AgreesOutside first last before middle)
    (right : AgreesOutside first last middle after) : AgreesOutside first last before after :=
  ⟨right.phys.trans left.phys, right.memory.trans left.memory, fun reg outside =>
    (right.virt reg outside).trans (left.virt reg outside)⟩

theorem mono {lower upper : VReg} (agrees : AgreesOutside first last before after)
    (down : lower ≤ first) (up : last ≤ upper) : AgreesOutside lower upper before after :=
  ⟨agrees.phys, agrees.memory, fun reg outside => agrees.virt reg (outside.imp
    (fun below => Nat.lt_of_lt_of_le below down) fun above => Nat.le_trans up above)⟩

theorem untouched {bound : VReg} (agrees : AgreesOutside first last before after)
    (le : bound ≤ first) : Untouched bound before after :=
  ⟨agrees.phys, agrees.memory, fun reg below =>
    agrees.virt reg (.inl (Nat.lt_of_lt_of_le below le))⟩

theorem write (machine : Machine) (res : VReg) (value : Word) :
    AgreesOutside res (res + 1) machine (machine.write (.virt res) value) := by
  refine ⟨rfl, rfl, fun reg outside => ?_⟩
  rw [Machine.virt_write_virt, if_neg]
  rintro rfl
  exact outside.elim (Nat.lt_irrefl reg) (Nat.not_succ_le_self reg)

theorem hiLo (first last : VReg) (machine : Machine) (hi lo : Word) :
    AgreesOutside first last machine { machine with hi, lo } :=
  ⟨rfl, rfl, fun _ _ => rfl⟩

end Machine.AgreesOutside

/-! ## Variables -/

namespace Env

def place? (env : Env) (id : DeclId) : Option VarPlace :=
  match env.promotion[id]? with
  | some reg => some (.reg reg)
  | none =>
    match env.plan.storage[id]? with
    | some (.frame offset false) => some (.word offset)
    | _ => none

/-- The given variables have places of their own, and registers of theirs have small numbers. -/
structure Separates (env : Env) (known : DeclId → Bool) (bound : VReg) : Prop where
  placed : ∀ id, known id = true → ∃ place, env.place? id = some place
  below : ∀ id reg, known id = true → env.place? id = some (.reg reg) → reg < bound
  apart : ∀ id other place another, known id = true → known other = true → id ≠ other →
    env.place? id = some place → env.place? other = some another → place.Apart another

def Holds (env : Env) (known : DeclId → Bool) (locals : Locals) (machine : Machine) : Prop :=
  ∀ id place, known id = true → env.place? id = some place →
    machine.valueAt place = (locals id).toBitVec

variable {env : Env} {known : DeclId → Bool} {bound : VReg} {locals : Locals}
  {machine after : Machine}

theorem place?_of_promoted {id : DeclId} {reg : VReg} (promoted : env.promotion[id]? = some reg) :
    env.place? id = some (.reg reg) := by
  simp only [place?, promoted]

theorem place?_eq_reg_iff {id : DeclId} {reg : VReg} :
    env.place? id = some (.reg reg) ↔ env.promotion[id]? = some reg := by
  constructor
  · intro placed
    unfold place? at placed
    split at placed
    · next found promoted =>
      cases placed
      exact promoted
    · split at placed <;> cases placed
  · exact place?_of_promoted

theorem place?_eq_word_iff {id : DeclId} {offset : Int32} :
    env.place? id = some (.word offset) ↔
      env.promotion[id]? = none ∧ env.plan.storage[id]? = some (.frame offset false) := by
  unfold place?
  split
  · next found promoted => simp [promoted]
  · next unpromoted =>
    rw [unpromoted]
    split <;> simp_all

theorem Holds.untouched (holds : env.Holds known locals machine)
    (separates : env.Separates known bound) (kept : machine.Untouched bound after) :
    env.Holds known locals after := by
  intro id place listed placed
  rw [kept.valueAt fun reg same => separates.below id reg listed (same ▸ placed)]
  exact holds id place listed placed

/-- An assignment changes the place of its variable, and leaves those of others. -/
theorem Holds.update (holds : env.Holds known locals machine)
    {id : DeclId} {place : VarPlace} {value : Int32} (placed : env.place? id = some place)
    (changed : after.valueAt place = value.toBitVec)
    (others : ∀ other another, known other = true → other ≠ id → env.place? other = some another →
      after.valueAt another = machine.valueAt another) :
    env.Holds known (Function.update locals id value) after := by
  intro other another listed found
  by_cases same : other = id
  · subst same
    obtain rfl := Option.some.inj (found.symm.trans placed)
    rw [changed, Function.update_self]
  · rw [others other another listed same found, holds other another listed found,
      Function.update_of_ne same]

theorem Holds.write_reg (holds : env.Holds known locals machine)
    (separates : env.Separates known bound) {id : DeclId} {reg : VReg} {value : Int32}
    (listed : known id = true) (placed : env.place? id = some (.reg reg)) :
    env.Holds known (Function.update locals id value)
      (machine.write (.virt reg) value.toBitVec) := by
  refine holds.update placed ?_ fun other another otherListed distinct found => ?_
  · rw [Machine.valueAt, Machine.virt_write_virt, if_pos rfl]
  · have apart := separates.apart other id another (.reg reg) otherListed listed distinct found placed
    cases another with
    | reg second => rw [Machine.valueAt, Machine.virt_write_virt, if_neg apart, Machine.valueAt]
    | word offset => rfl

theorem Holds.write_word (holds : env.Holds known locals machine)
    (separates : env.Separates known bound) {id : DeclId} {offset : Int32} {value : Int32}
    (listed : known id = true) (placed : env.place? id = some (.word offset)) :
    env.Holds known (Function.update locals id value)
      { machine with
        memory := machine.memory.storeWord (machine.phys .fp + offset.toBitVec) value.toBitVec } := by
  refine holds.update placed ?_ fun other another otherListed distinct found => ?_
  · exact Memory.word_storeWord _ _ _
  · have apart := separates.apart other id another (.word offset) otherListed listed distinct found
      placed
    cases another with
    | reg second => rfl
    | word second =>
      exact Memory.word_congr fun byte inside =>
        Memory.storeWord_of_not_mem (apart (machine.phys .fp) byte inside)

end Env

end MipsBackend
