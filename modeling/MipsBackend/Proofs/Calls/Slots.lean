import Mathlib.Algebra.BigOperators.Ring.List
import Mathlib.Algebra.Order.BigOperators.Group.Finset
import Mathlib.Data.List.Forall2
import Mathlib.Tactic.Ring
import MipsBackend.Storage.Memory

/-!
# Slots on the stack

The parameters of a function lie in slots one above the other, in a block of the size that the
layout gives for all of them. Whoever walks over the parameters from the lowest on meets slot `j`
behind the slots before it (`slotStart`).
-/

namespace MipsBackend

/-! ## Rounding -/

theorem wrapped_eq (n : Nat) : wrapped n = n % 2 ^ 64 := rfl

theorem wrapped_of_lt {n : Nat} (small : n < 2 ^ 64) : wrapped n = n := Nat.mod_eq_of_lt small

theorem pos_of_dvd_words {alignment : Nat} (word : alignment ∣ 2 ^ 64) : 0 < alignment :=
  Nat.pos_of_dvd_of_pos word (by decide)

/-- Divisors of the number of words survive the loss of what 64 bits do not hold. -/
theorem dvd_wrapped {alignment n : Nat} (word : alignment ∣ 2 ^ 64) (whole : alignment ∣ n) :
    alignment ∣ wrapped n :=
  (Nat.dvd_mod_iff word).2 whole

theorem ofNat_eq_zero_of_wrapped {bytes : Nat} (none : ¬ 0 < wrapped bytes) :
    BitVec.ofNat 32 bytes = 0#32 := by
  rw [wrapped_eq] at none
  apply BitVec.eq_of_toNat_eq
  rw [BitVec.toNat_ofNat, BitVec.toNat_zero]
  omega

theorem le_roundUp (n alignment : Nat) : n ≤ roundUp n alignment := by
  unfold roundUp
  split
  · exact Nat.le_refl n
  · next large =>
    have bound := Nat.lt_mul_div_succ (n + alignment - 1) (by omega : 0 < alignment)
    rw [Nat.mul_comm, Nat.succ_mul] at bound
    omega

theorem roundUp_lt (n : Nat) {alignment : Nat} (positive : 0 < alignment) :
    roundUp n alignment < n + alignment := by
  unfold roundUp
  split
  · omega
  · have bound := Nat.div_mul_le_self (n + alignment - 1) alignment
    omega

theorem dvd_roundUp (n : Nat) {alignment : Nat} (positive : 0 < alignment) :
    alignment ∣ roundUp n alignment := by
  unfold roundUp
  split
  · obtain rfl : alignment = 1 := by omega
    exact Nat.one_dvd n
  · exact Nat.dvd_mul_left _ _

theorem alignUp_of_lt {n alignment : Nat} (small : roundUp n alignment < 2 ^ 64) :
    alignUp n alignment = roundUp n alignment :=
  wrapped_of_lt small

theorem dvd_alignUp (n : Nat) {alignment : Nat} (word : alignment ∣ 2 ^ 64) :
    alignment ∣ alignUp n alignment :=
  dvd_wrapped word (dvd_roundUp n (pos_of_dvd_words word))

/-! ## Positions -/

def slotStart (slots : List Nat) (j : Nat) : Nat := (slots.take j).sum

@[simp] theorem slotStart_zero (slots : List Nat) : slotStart slots 0 = 0 := rfl

@[simp] theorem slotStart_cons_succ (slot : Nat) (rest : List Nat) (j : Nat) :
    slotStart (slot :: rest) (j + 1) = slot + slotStart rest j := by
  rw [slotStart, List.take_succ_cons, List.sum_cons]
  rfl

theorem slotStart_length (slots : List Nat) : slotStart slots slots.length = slots.sum := by
  rw [slotStart, List.take_length]

theorem slotStart_succ {slots : List Nat} {j slot : Nat} (here : slots[j]? = some slot) :
    slotStart slots (j + 1) = slotStart slots j + slot := by
  rw [slotStart, List.take_add_one, here, List.sum_append]
  rfl

theorem slotStart_mono (slots : List Nat) {i j : Nat} (le : i ≤ j) :
    slotStart slots i ≤ slotStart slots j := by
  obtain ⟨more, rfl⟩ := Nat.exists_eq_add_of_le le
  rw [slotStart, slotStart, List.take_add, List.sum_append]
  exact Nat.le_add_right _ _

theorem dvd_slotStart {slots : List Nat} {k : Nat} (whole : ∀ slot ∈ slots, k ∣ slot) (j : Nat) :
    k ∣ slotStart slots j :=
  List.dvd_sum fun slot member => whole slot (List.mem_of_mem_take member)

theorem slotStart_le_sum (slots : List Nat) (j : Nat) : slotStart slots j ≤ slots.sum := by
  have total := congrArg List.sum (List.take_append_drop j slots)
  rw [List.sum_append] at total
  rw [slotStart]
  omega

def InSlot (slots : List Nat) (j byte : Nat) : Prop :=
  j < slots.length ∧ slotStart slots j ≤ byte ∧ byte < slotStart slots (j + 1)

theorem InSlot.unique {slots : List Nat} {i j byte : Nat} (first : InSlot slots i byte)
    (second : InSlot slots j byte) : i = j := by
  rcases Nat.lt_trichotomy i j with less | same | more
  · have order := slotStart_mono slots (show i + 1 ≤ j from less)
    have upper := first.2.2
    have lower := second.2.1
    omega
  · exact same
  · have order := slotStart_mono slots (show j + 1 ≤ i from more)
    have upper := second.2.2
    have lower := first.2.1
    omega

theorem exists_inSlot_iff (slots : List Nat) (byte : Nat) :
    (∃ j, InSlot slots j byte) ↔ byte < slots.sum := by
  constructor
  · rintro ⟨j, -, -, upper⟩
    exact Nat.lt_of_lt_of_le upper (slotStart_le_sum slots (j + 1))
  · intro bound
    induction slots generalizing byte with
    | nil => cases bound
    | cons slot rest ih =>
      rw [List.sum_cons] at bound
      by_cases within : byte < slot
      · exact ⟨0, Nat.zero_lt_succ _, Nat.zero_le _, by simpa using within⟩
      · obtain ⟨j, inside, lower, upper⟩ := ih (byte - slot) (by omega)
        refine ⟨j + 1, Nat.succ_lt_succ inside, ?_, ?_⟩
        · rw [slotStart_cons_succ]
          omega
        · rw [slotStart_cons_succ]
          omega

/-! ## The slots of types -/

namespace Layout

def Slots (layout : Layout) (tys : List Ty) (slots : List Nat) : Prop :=
  List.Forall₂ (fun ty slot => layout.slotSize ty = .ok slot) tys slots

variable {layout : Layout}

theorem slotsSize_eq_ok_iff {params : List VarDecl} {space : Nat} :
    layout.slotsSize params = .ok space ↔
      ∃ slots, layout.Slots (params.map VarDecl.ty) slots ∧ space = slots.sum := by
  induction params generalizing space with
  | nil =>
    constructor
    · intro sized
      cases sized
      exact ⟨[], .nil, rfl⟩
    · rintro ⟨slots, sized, rfl⟩
      cases sized
      rfl
  | cons first rest ih =>
    constructor
    · intro sized
      obtain ⟨slot, known, walks⟩ := bind_eq_ok.1 sized
      obtain ⟨later, others, joins⟩ := bind_eq_ok.1 walks
      obtain ⟨slots, all, rfl⟩ := ih.1 others
      cases joins
      exact ⟨slot :: slots, .cons known all, List.sum_cons.symm⟩
    · rintro ⟨slots, sized, rfl⟩
      cases sized with
      | cons known all =>
        rw [List.sum_cons]
        exact bind_eq_ok.2 ⟨_, known, bind_eq_ok.2 ⟨_, ih.2 ⟨_, all, rfl⟩, rfl⟩⟩

theorem Slots.reverse {tys : List Ty} {slots : List Nat} (sized : layout.Slots tys slots) :
    layout.Slots tys.reverse slots.reverse :=
  List.rel_reverse sized

theorem Slots.getElem? {tys : List Ty} {slots : List Nat} (sized : layout.Slots tys slots)
    {j : Nat} {ty : Ty} (here : tys[j]? = some ty) :
    ∃ slot, slots[j]? = some slot ∧ layout.slotSize ty = .ok slot := by
  induction sized generalizing j with
  | nil => cases here
  | cons known all ih =>
    cases j with
    | zero =>
      cases here
      exact ⟨_, rfl, known⟩
    | succ j => exact ih here

theorem slots_of_paramPlaces {params : List VarDecl} {offset : Nat} {places : Places}
    (placed : layout.paramPlaces offset params = .ok places) :
    ∃ slots, layout.Slots (params.map VarDecl.ty) slots := by
  induction params generalizing offset places with
  | nil => exact ⟨[], .nil⟩
  | cons first rest ih =>
    obtain ⟨slot, known, walks⟩ := bind_eq_ok.1 placed
    obtain ⟨later, others, -⟩ := bind_eq_ok.1 walks
    obtain ⟨slots, sized⟩ := ih others
    exact ⟨slot :: slots, .cons known sized⟩

/-- The callee's walk over the parameters, the lowest first. -/
theorem paramPlaces_eq_ok {params : List VarDecl} {slots : List Nat}
    (sized : layout.Slots (params.map VarDecl.ty) slots) (offset : Nat) :
    ∃ places, layout.paramPlaces offset params = .ok places ∧
      ∀ (j : Nat) (param : VarDecl), params[j]? = some param → places[j]? =
        some (param.id, .frame (.ofNat (offset + slotStart slots j)) param.ty.isArray) := by
  induction params generalizing slots offset with
  | nil => exact ⟨[], rfl, fun _ _ here => (nomatch here)⟩
  | cons first rest ih =>
    cases sized with
    | @cons _ slot _ slots known all =>
      obtain ⟨places, placed, positions⟩ := ih all (offset + slot)
      refine ⟨(first.id, .frame (.ofNat offset) first.ty.isArray) :: places, ?_, ?_⟩
      · exact bind_eq_ok.2 ⟨slot, known, bind_eq_ok.2 ⟨places, placed, rfl⟩⟩
      · intro j param here
        cases j with
        | zero =>
          cases here
          rfl
        | succ j =>
          rw [List.getElem?_cons_succ] at here ⊢
          rw [positions j param here, slotStart_cons_succ, Nat.add_assoc]

/-- The result has a slot like a parameter; there is none without a result. -/
theorem resultSize_eq_slotSize (ret : Ty) : layout.resultSize ret = layout.slotSize ret := by
  cases ret <;> rfl

/-! ## What travels through a slot -/

/-- The bytes that copying moves: all of fewer than `2 ^ 31`. They are counted in 32 bits, and a
negative number of bytes moves none. -/
def copiedBytes (size : Nat) : Nat := (Int32.ofNat size).toNatClampNeg

theorem copiedBytes_le_alignUp (size : Nat) : copiedBytes size ≤ alignUp size 4 := by
  have rounded : alignUp size 4 = (size + 3) / 4 * 4 % 2 ^ 64 := rfl
  rw [copiedBytes, Int32.toNatClampNeg, Int32.toInt_ofNat', Int32.size, Int.bmod_def, rounded]
  split <;> omega

/-- The bytes of a value that is passed: of a struct what copying moves, a character as a byte, and all
else as a word. -/
def passedBytes (layout : Layout) (ty : Ty) : Except Violation Nat :=
  if ty.isStruct then (layout.size ty).map copiedBytes
  else if ty.isVoid then .ok 0
  else .ok (if ty.isChar then 1 else 4)

theorem slotSize_of_not_struct {ty : Ty} (plain : ty.isStruct = false)
    (nonvoid : ty.isVoid = false) : layout.slotSize ty = .ok 4 := by
  cases ty with
  | void => cases nonvoid
  | struct name => cases plain
  | _ => rfl

theorem slotSize_of_struct {ty : Ty} (struct : ty.isStruct = true) {size : Nat}
    (known : layout.size ty = .ok size) : layout.slotSize ty = .ok (alignUp size 4) := by
  have byValue : ty.isArray = false := by
    cases ty <;> first | rfl | cases struct
  simp [slotSize, byValue, known, Except.map]

theorem dvd_slotSize {ty : Ty} {slot : Nat} (sized : layout.slotSize ty = .ok slot) : 4 ∣ slot := by
  unfold slotSize at sized
  split at sized
  · cases sized
    exact Nat.dvd_refl 4
  · obtain ⟨size, known, rfl⟩ := map_eq_ok.1 sized
    exact dvd_alignUp size (by decide)

theorem Slots.dvd {tys : List Ty} {slots : List Nat} (sized : layout.Slots tys slots) :
    ∀ slot ∈ slots, 4 ∣ slot := by
  induction sized with
  | nil => exact fun _ member => nomatch member
  | cons known _ ih => exact List.forall_mem_cons.2 ⟨dvd_slotSize known, ih⟩

theorem passedBytes_le_slotSize {ty : Ty} {bytes slot : Nat}
    (passed : layout.passedBytes ty = .ok bytes) (sized : layout.slotSize ty = .ok slot) :
    bytes ≤ slot := by
  unfold passedBytes at passed
  split at passed
  · next struct =>
    obtain ⟨size, known, rfl⟩ := map_eq_ok.1 passed
    rw [slotSize_of_struct struct known, Except.ok.injEq] at sized
    exact sized ▸ copiedBytes_le_alignUp size
  · next plain =>
    split at passed
    · cases passed
      exact Nat.zero_le _
    · next nonvoid =>
      rw [slotSize_of_not_struct (by simpa using plain) (by simpa using nonvoid)] at sized
      cases sized
      split at passed <;> cases passed <;> decide

end Layout

end MipsBackend
