import MipsBackend.Proofs.Calls.Code
import MipsBackend.Proofs.Machine.Run

/-!
# Bytes of values that are passed

Relative to its base register, code that puts a value into memory writes exactly the bytes of the
value, from the offset on. A result that is no struct is read back as it was written.
-/

namespace MipsBackend

def StoreOp.width : StoreOp → Nat
  | sw => 4
  | sb => 1

def LoadOp.width : LoadOp → Nat
  | lw => 4
  | lb => 1

namespace Instr

/-- The distances from a register at which an instruction writes through the register. -/
def writesAt (base : Reg) : Instr → List Int
  | store op _ offset place =>
    if place = base then (List.range op.width).map fun (k : Nat) => offset.toInt + k else []
  | _ => []

/-- The distances from a register at which an instruction reads through the register. -/
def readsAt (base : Reg) : Instr → List Int
  | load op _ offset place =>
    if place = base then (List.range op.width).map fun (k : Nat) => offset.toInt + k else []
  | _ => []

/-- How far an instruction moves the stack pointer. -/
def stackChange : Instr → Int
  | arithImm .addiu (.phys .sp) (.phys .sp) amount => amount.toInt
  | _ => 0

end Instr

def stackChange (code : List Instr) : Int := (code.map Instr.stackChange).sum

/-! ## Stores -/

theorem mem_range_map {start b : Int} {width : Nat} :
    b ∈ (List.range width).map (fun (k : Nat) => start + (k : Int)) ↔ start ≤ b ∧ b < start + width := by
  rw [List.mem_map]
  constructor
  · rintro ⟨k, listed, rfl⟩
    have bound := List.mem_range.1 listed
    omega
  · rintro ⟨lower, upper⟩
    exact ⟨(b - start).toNat, List.mem_range.2 (by omega), by omega⟩

theorem mem_byteOffsets {size : Nat} {offset : Int32} :
    offset ∈ Gen.byteOffsets size ↔ ∃ k < Layout.copiedBytes size, offset = .ofNat k := by
  rw [Gen.byteOffsets, List.mem_map]
  constructor
  · rintro ⟨k, listed, rfl⟩
    exact ⟨k, List.mem_range.1 (List.mem_reverse.1 listed), rfl⟩
  · rintro ⟨k, bound, rfl⟩
    exact ⟨k, List.mem_reverse.2 (List.mem_range.2 bound), rfl⟩

theorem writesAt_byte (byte src base : Reg) (srcOffset offset : Int32) :
    (([.load .lb byte srcOffset src, .store .sb byte offset base] : List Instr).flatMap
      (Instr.writesAt base)) = [offset.toInt] := by
  simp [Instr.writesAt, StoreOp.width]

theorem mem_writes_copyCode {byte src base : Reg} {srcOffset : Int32} {start size : Nat}
    (small : start + Layout.copiedBytes size ≤ 2 ^ 31) (b : Int) :
    b ∈ (copyCode byte src srcOffset base (.ofNat start) size).flatMap (Instr.writesAt base) ↔
      start ≤ b ∧ b < start + Layout.copiedBytes size := by
  have single : ∀ k < Layout.copiedBytes size,
      (Int32.ofNat start + .ofNat k).toInt = ((start + k : Nat) : Int) := by
    intro k bound
    rw [← Int32.ofNat_add, Int32.toInt_ofNat_of_lt (by omega)]
  rw [copyCode, List.flatMap_assoc, List.mem_flatMap]
  simp only [writesAt_byte, List.mem_singleton]
  constructor
  · rintro ⟨offset, listed, rfl⟩
    obtain ⟨k, bound, rfl⟩ := mem_byteOffsets.1 listed
    rw [single k bound]
    omega
  · rintro ⟨lower, upper⟩
    have bound : (b - start).toNat < Layout.copiedBytes size := by omega
    refine ⟨.ofNat (b - start).toNat, mem_byteOffsets.2 ⟨_, bound, rfl⟩, ?_⟩
    rw [single _ bound]
    omega

theorem width_storeOp (ty : Ty) : ty.storeOp.width = if ty.isChar then 1 else 4 := by
  unfold Ty.storeOp
  split <;> rfl

theorem width_loadOp (ty : Ty) : ty.loadOp.width = if ty.isChar then 1 else 4 := by
  unfold Ty.loadOp
  split <;> rfl

theorem Puts.mem_writes {layout : Layout} {ty : Ty} {reg base : Reg} {start bytes : Nat}
    {code : List Instr} (puts : Puts layout ty reg base (.ofNat start) code)
    (passed : layout.passedBytes ty = .ok bytes) (small : start + bytes ≤ 2 ^ 31) (b : Int) :
    b ∈ code.flatMap (Instr.writesAt base) ↔ start ≤ b ∧ b < start + bytes := by
  unfold Layout.passedBytes at passed
  cases puts with
  | struct struct known =>
    rw [if_pos struct, known] at passed
    cases passed
    exact mem_writes_copyCode small b
  | nothing void =>
    have plain : ty.isStruct = false := by
      cases ty <;> first | rfl | cases void
    rw [plain, void] at passed
    cases passed
    simp only [List.flatMap_nil, List.not_mem_nil, false_iff]
    omega
  | scalar plain nonvoid =>
    rw [plain, nonvoid] at passed
    simp only [Bool.false_eq_true, if_false, Except.ok.injEq] at passed
    have positive : 0 < bytes := by
      rw [← passed]
      split <;> decide
    rw [List.flatMap_singleton, Instr.writesAt, if_pos rfl, width_storeOp, passed,
      Int32.toInt_ofNat_of_lt (by omega), mem_range_map]

theorem Takes.mem_reads {layout : Layout} {ty : Ty} {res : Reg} {bytes : Nat} {code : List Instr}
    (takes : Takes ty res code) (plain : ty.isStruct = false)
    (passed : layout.passedBytes ty = .ok bytes) (b : Int) :
    b ∈ code.flatMap (Instr.readsAt .sp) ↔ 0 ≤ b ∧ b < bytes := by
  unfold Layout.passedBytes at passed
  rw [plain] at passed
  cases takes with
  | struct struct => cases plain.symm.trans struct
  | nothing void =>
    rw [void] at passed
    cases passed
    simp only [List.flatMap_nil, List.not_mem_nil, false_iff]
    omega
  | scalar _ nonvoid =>
    rw [nonvoid] at passed
    simp only [Bool.false_eq_true, if_false, Except.ok.injEq] at passed
    rw [List.flatMap_singleton, Instr.readsAt, if_pos rfl, width_loadOp, passed, mem_range_map]
    simp

/-! ## The stack pointer -/

theorem toInt_neg_ofNat {bytes : Nat} (small : bytes < 2 ^ 31) :
    (-Int32.ofNat bytes).toInt = -(bytes : Int) := by
  rw [Int32.toInt_neg, Int32.toInt_ofNat_of_lt small]
  apply Int.bmod_eq_of_le <;> omega

theorem stackChange_reserveCode {bytes : Nat} (small : bytes < 2 ^ 31) :
    stackChange (reserveCode bytes) = -(bytes : Int) := by
  rw [reserveCode, wrapped_of_lt (by omega)]
  split
  · simp [stackChange, Instr.stackChange, Instr.adjustStack, toInt_neg_ofNat small]
  · next none =>
    obtain rfl : bytes = 0 := by omega
    rfl

theorem stackChange_releaseCode {bytes : Nat} (small : bytes < 2 ^ 31) :
    stackChange (releaseCode bytes) = bytes := by
  rw [releaseCode, wrapped_of_lt (by omega)]
  split
  · simp [stackChange, Instr.stackChange, Instr.adjustStack, Int32.toInt_ofNat_of_lt small]
  · next none =>
    obtain rfl : bytes = 0 := by omega
    rfl

end MipsBackend
