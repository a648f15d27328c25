import MipsBackend.Proofs.Calls.Bytes
import MipsBackend.Proofs.Machine.Execution

/-!
# Copying bytes

Code that copies an object moves its bytes one by one, the last one first, through a register of its
own. No byte of the source is overwritten before it is moved if the destination does not begin
inside the source at a lower address (`Copyable.unread`), and then the run is exact (`Copies`): the
destination holds what the source held, and nothing else changes but that register.
-/

namespace MipsBackend

/-! ## Ranges -/

/-- The ranges of `size` bytes from two addresses on have no byte in common, or are the same, or the
destination begins above the source. A destination that ends in memory has room for that; one that
wraps around the end of memory must not come round to the source from below. -/
inductive Copyable (src dst : Word) (size : Nat) : Prop
  | apart (disjoint : ∀ i < size, ∀ j < size, src + .ofNat 32 i ≠ dst + .ofNat 32 j)
  | same (equal : src = dst)
  | above (higher : src.toNat < dst.toNat) (room : dst.toNat + size ≤ src.toNat + 2 ^ 32)

theorem byte_injective {start : Word} {i j : Nat} (left : i < 2 ^ 32) (right : j < 2 ^ 32)
    (same : start + .ofNat 32 i = start + .ofNat 32 j) : i = j := by
  have offsets := congrArg BitVec.toNat (BitVec.add_right_inj start |>.1 same)
  rwa [BitVec.toNat_ofNat, BitVec.toNat_ofNat, Nat.mod_eq_of_lt left, Nat.mod_eq_of_lt right]
    at offsets

/-- A byte that is written is none of the bytes that are still to be read. -/
theorem Copyable.unread {src dst : Word} {size : Nat} (copyable : Copyable src dst size)
    (small : size < 2 ^ 31) {i j : Nat} (below : i < j) (inside : j < size) :
    src + .ofNat 32 i ≠ dst + .ofNat 32 j := by
  cases copyable with
  | apart disjoint => exact disjoint i (by omega) j inside
  | same equal =>
    subst equal
    intro same
    exact Nat.ne_of_lt below (byte_injective (by omega) (by omega) same)
  | above higher room =>
    intro same
    have numbers := congrArg BitVec.toNat same
    simp only [BitVec.toNat_add, BitVec.toNat_ofNat] at numbers
    omega

/-! ## Runs -/

/-- What a run that copies bytes through a register leaves. -/
structure Copied (byte : VReg) (src dst : Word) (size : Nat) (before after : Machine) : Prop where
  bytes : ∀ i < size, after.memory (dst + .ofNat 32 i) = before.memory (src + .ofNat 32 i)
  elsewhere : ∀ addr, (∀ i < size, addr ≠ dst + .ofNat 32 i) →
    after.memory addr = before.memory addr
  virt : ∀ reg, reg ≠ byte → after.virt reg = before.virt reg
  phys : after.phys = before.phys
  hi : after.hi = before.hi
  lo : after.lo = before.lo

theorem byteOffsets_succ {n : Nat} (small : n + 1 < 2 ^ 31) :
    Gen.byteOffsets (n + 1) = .ofNat n :: Gen.byteOffsets n := by
  unfold Gen.byteOffsets
  rw [Int32.toNatClampNeg_ofNat_of_lt small, Int32.toNatClampNeg_ofNat_of_lt (by omega),
    List.range_succ, List.reverse_append, List.reverse_singleton, List.singleton_append,
    List.map_cons]

theorem copyCode_succ {byte src dst : Reg} {srcOffset dstOffset : Int32} {n : Nat}
    (small : n + 1 < 2 ^ 31) :
    copyCode byte src srcOffset dst dstOffset (n + 1) =
      [.load .lb byte (srcOffset + .ofNat n) src, .store .sb byte (dstOffset + .ofNat n) dst] ++
        copyCode byte src srcOffset dst dstOffset n := by
  rw [copyCode, byteOffsets_succ small]
  rfl

theorem isStraight_of_mem_copyCode {byte src dst : Reg} {srcOffset dstOffset : Int32} {size : Nat}
    {instr : Instr} (member : instr ∈ copyCode byte src srcOffset dst dstOffset size) :
    instr.isStraight = true := by
  obtain ⟨offset, -, inside⟩ := List.mem_flatMap.1 member
  simp only [List.mem_cons, List.not_mem_nil, or_false] at inside
  rcases inside with rfl | rfl <;> rfl

theorem extract_signExtend (value : Byte) : (value.signExtend 32).extractLsb' 0 8 = value := by
  apply BitVec.eq_of_getLsbD_eq
  intro i bound
  simp only [BitVec.getLsbD_extractLsb', BitVec.getLsbD_signExtend]
  grind

/-- One byte moves from one address to another, and stays in the register. -/
def Machine.moveByte (machine : Machine) (byte : VReg) (src dst : Word) : Machine :=
  { machine with
    virt := Function.update machine.virt byte ((machine.memory src).signExtend 32)
    memory := machine.memory.storeByte dst (machine.memory src) }

theorem Machine.read_write_virt {machine : Machine} {byte : VReg} {value : Word} {reg : Reg}
    (other : reg ≠ .virt byte) :
    (machine.write (.virt byte) value).read reg = machine.read reg := by
  cases reg with
  | phys reg =>
    rw [read_phys, read_phys]
    rfl
  | virt reg => exact Function.update_of_ne (fun same => other (congrArg Reg.virt same)) _ _

theorem Machine.read_moveByte {machine : Machine} {byte : VReg} {src dst : Word} {reg : Reg}
    (other : reg ≠ .virt byte) : (machine.moveByte byte src dst).read reg = machine.read reg :=
  machine.read_write_virt other

section

variable {platform : Platform} {byte : VReg} {src dst : Reg} {srcOffset dstOffset : Int32}

theorem perform_byte (other : dst ≠ .virt byte) (n : Nat) (machine : Machine) :
    platform.perform machine [.load .lb (.virt byte) (srcOffset + .ofNat n) src,
        .store .sb (.virt byte) (dstOffset + .ofNat n) dst] =
      machine.moveByte byte (machine.read src + srcOffset.toBitVec + .ofNat 32 n)
        (machine.read dst + dstOffset.toBitVec + .ofNat 32 n) := by
  have address : ∀ (start : Word) (offset : Int32),
      start + (offset + .ofNat n).toBitVec = start + offset.toBitVec + .ofNat 32 n := by
    intro start offset
    rw [Int32.toBitVec_add, ← BitVec.add_assoc]
    rfl
  have moved : ∀ value : Word, (machine.write (.virt byte) value).read (.virt byte) = value :=
    fun value => Function.update_self ..
  simp only [Platform.perform_cons, Platform.perform_nil, Instr.change, Machine.apply,
    LoadOp.eval, StoreOp.eval, Machine.read_write_virt other, moved, address, extract_signExtend]
  rfl

/-- The last byte moves first; the others are then still where they were. -/
theorem copied_copyCode (own : src ≠ .virt byte) (other : dst ≠ .virt byte) {size : Nat}
    (small : size < 2 ^ 31) {first last : Word} (machine : Machine)
    (reads : machine.read src + srcOffset.toBitVec = first)
    (writes : machine.read dst + dstOffset.toBitVec = last)
    (unread : ∀ i j, i < j → j < size → first + .ofNat 32 i ≠ last + .ofNat 32 j) :
    Copied byte first last size machine
      (platform.perform machine (copyCode (.virt byte) src srcOffset dst dstOffset size)) := by
  induction size generalizing machine with
  | zero => exact ⟨nofun, fun _ _ => rfl, fun _ _ => rfl, rfl, rfl, rfl⟩
  | succ n ih =>
    rw [copyCode_succ small, Platform.perform_append, perform_byte other, reads, writes]
    have rest := ih (by omega) (machine.moveByte byte (first + .ofNat 32 n) (last + .ofNat 32 n))
      (by rw [Machine.read_moveByte own, reads]) (by rw [Machine.read_moveByte other, writes])
      fun i j below inside => unread i j below (by omega)
    have kept : ∀ addr, addr ≠ last + .ofNat 32 n →
        (machine.moveByte byte (first + .ofNat 32 n) (last + .ofNat 32 n)).memory addr =
          machine.memory addr := fun addr apart => Function.update_of_ne apart _ _
    refine ⟨fun i inside => ?_, fun addr outside => ?_, fun reg distinct => ?_, rest.phys, rest.hi,
      rest.lo⟩
    · rcases Nat.lt_succ_iff_lt_or_eq.1 inside with below | rfl
      · rw [rest.bytes i below, kept _ (unread i n below (Nat.lt_succ_self n))]
      · rw [rest.elsewhere _ fun j below same =>
          Nat.ne_of_gt below (byte_injective (by omega) (by omega) same)]
        exact Function.update_self ..
    · rw [rest.elsewhere addr fun i below => outside i (by omega),
        kept addr (outside n (Nat.lt_succ_self n))]
    · rw [rest.virt reg distinct]
      exact Function.update_of_ne distinct _ _

end

/-- Wherever the code stands, control runs through it to the instruction behind it, in one way only,
and the bytes are then copied, from an offset from one register to an offset from another. -/
def Copies (byte : VReg) (src : Reg) (srcOffset : Int32) (dst : Reg) (dstOffset : Int32)
    (size : Nat) (instrs : List Instr) : Prop :=
  ∀ (platform : Platform) (code : Section) (node : Nat) (before : Machine),
    code.Holds node instrs →
    Copyable (before.read src + srcOffset.toBitVec) (before.read dst + dstOffset.toBitVec) size →
    ∃ after, Copied byte (before.read src + srcOffset.toBitVec)
        (before.read dst + dstOffset.toBitVec) size before after ∧
      ∀ config, code.Steps platform instrs.length (.inside node, before) config ↔
        config = (.inside (node + instrs.length), after)

theorem Section.Steps.straight_iff {platform : Platform} {code : Section} {instrs : List Instr}
    {node : Nat} (holds : code.Holds node instrs)
    (straight : ∀ instr ∈ instrs, instr.isStraight = true) (machine : Machine) (config : Config) :
    code.Steps platform instrs.length (.inside node, machine) config ↔
      config = (.inside (node + instrs.length), platform.perform machine instrs) := by
  constructor
  · intro steps
    induction instrs generalizing node machine with
    | nil => cases steps; rfl
    | cons instr rest ih =>
      cases steps with
      | more step later =>
        have here := straight instr List.mem_cons_self
        have inside := Instr.isLocal_of_isStraight here
        obtain rfl := step.unique holds.head inside (.straight holds.head here machine)
        rw [ih holds.tail (fun other member => straight other (List.mem_cons_of_mem _ member)) _
          later, Nat.add_right_comm]
        rfl
  · rintro rfl
    exact .straight holds straight machine

theorem copies_copyCode {byte : VReg} {src dst : Reg} {srcOffset dstOffset : Int32} {size : Nat}
    (small : size < 2 ^ 31) (own : src ≠ .virt byte) (other : dst ≠ .virt byte) :
    Copies byte src srcOffset dst dstOffset size
      (copyCode (.virt byte) src srcOffset dst dstOffset size) :=
  fun _ _ _ before holds copyable =>
    ⟨_, copied_copyCode own other small before rfl rfl fun _ _ => copyable.unread small,
      Section.Steps.straight_iff holds (fun _ => isStraight_of_mem_copyCode) before⟩

theorem Gen.copyBytes_run (src : Reg) (srcOffset : Int32) (dst : Reg) (dstOffset : Int32)
    (size : Nat) (supply : Supply) :
    (copyBytes src srcOffset dst dstOffset size).run supply = .ok {
      value := ()
      code := (copyCode (.virt supply.nextReg) src srcOffset dst dstOffset size).map .instr
      supply := { supply with nextReg := supply.nextReg + 1 } } :=
  rfl

end MipsBackend
