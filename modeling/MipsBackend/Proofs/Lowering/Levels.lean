import Mathlib.Data.BitVec
import MipsBackend.Proofs.Lowering.Balance

/-!
# The stack pointer in generated code

How far the stack pointer has moved is known in front of every item of a piece of code (`levels`).
Generated code moves it back to where it was, and branches only between places of the same level
(`Level`).
-/

namespace MipsBackend

/-! ## Levels -/

def Instr.stackMove (instr : Instr) : Word := .ofInt 32 instr.stackChange

def TextItem.stackMove : TextItem → Word
  | instr here => here.stackMove
  | _ => 0

/-- How far code moves the stack pointer if it runs from its first to its last item. -/
def stackMove : List TextItem → Word
  | [] => 0
  | item :: rest => item.stackMove + stackMove rest

@[simp] theorem stackMove_nil : stackMove [] = 0 := rfl

@[simp] theorem stackMove_cons (item : TextItem) (rest : List TextItem) :
    stackMove (item :: rest) = item.stackMove + stackMove rest := rfl

@[simp] theorem stackMove_append (first second : List TextItem) :
    stackMove (first ++ second) = stackMove first + stackMove second := by
  induction first with
  | nil => exact (BitVec.zero_add _).symm
  | cons item rest ih => rw [List.cons_append, stackMove_cons, ih, stackMove_cons, BitVec.add_assoc]

/-- The items, each with the level of the stack pointer in front of it. -/
def levels (start : Word) : List TextItem → List (Word × TextItem)
  | [] => []
  | item :: rest => (start, item) :: levels (start + item.stackMove) rest

theorem levels_append (start : Word) (first second : List TextItem) :
    levels start (first ++ second) = levels start first ++ levels (start + stackMove first) second := by
  induction first generalizing start with
  | nil => simp [levels]
  | cons item rest ih =>
    rw [List.cons_append, levels, levels, ih, List.cons_append, stackMove_cons, BitVec.add_assoc]

theorem mem_levels {start level : Word} {item : TextItem} {code : List TextItem} :
    (level, item) ∈ levels start code ↔
      ∃ front rest, code = front ++ item :: rest ∧ level = start + stackMove front := by
  constructor
  · intro member
    induction code generalizing start with
    | nil => cases member
    | cons first later ih =>
      rcases List.mem_cons.1 member with same | behind
      · cases same
        exact ⟨[], later, rfl, by simp⟩
      · obtain ⟨front, rest, rfl, rfl⟩ := ih behind
        exact ⟨first :: front, rest, rfl, by rw [stackMove_cons, BitVec.add_assoc]⟩
  · rintro ⟨front, rest, rfl, rfl⟩
    rw [levels_append]
    exact List.mem_append_right _ List.mem_cons_self

/-! ## Level code -/

/-- Branches of the code go to labels of the same level, which are its own or lie outside, where the
stack pointer is as at the start of the code. -/
structure Level (outer : List Label) (code : List TextItem) : Prop where
  whole : stackMove code = 0
  branches : ∀ start level instr target, (level, .instr instr) ∈ levels start code →
    instr.branchTarget? = some target →
    (target ∈ outer ∧ level = start) ∨ (level, .label target) ∈ levels start code

/-! ## Generated code -/

theorem stackMove_adjustStack (amount : Int32) :
    (Instr.adjustStack amount).stackMove = amount.toBitVec := by
  unfold Instr.stackMove Instr.stackChange Instr.adjustStack
  exact BitVec.ofInt_toInt

theorem stackMove_eq_cast (code : List TextItem) :
    stackMove code = Int.castAddHom Word (stackShift code) := by
  induction code with
  | nil => rfl
  | cons item rest ih =>
    rw [stackMove_cons, ih]
    cases item with
    | instr instr => rw [stackShift_instr, map_add]; rfl
    | label | comment => exact BitVec.zero_add _

theorem cast_stackChange_reserveCode (bytes : Nat) :
    Int.castAddHom Word (stackChange (reserveCode bytes)) = -.ofNat 32 bytes := by
  unfold reserveCode
  split
  · rw [stackChange, List.map_singleton, List.sum_singleton]
    exact stackMove_adjustStack _
  · next none =>
    rw [ofNat_eq_zero_of_wrapped none]
    rfl

theorem cast_stackChange_releaseCode (bytes : Nat) :
    Int.castAddHom Word (stackChange (releaseCode bytes)) = .ofNat 32 bytes := by
  unfold releaseCode
  split
  · rw [stackChange, List.map_singleton, List.sum_singleton]
    exact stackMove_adjustStack _
  · next none =>
    rw [ofNat_eq_zero_of_wrapped none]
    rfl

/-- Words wrap around, so whatever is reserved is released. -/
theorem Env.releases_word (env : Env) (code : List TextItem) :
    env.Releases (Int.castAddHom Word) code := by
  intro name _ _ decl space result _ _ _
  rw [map_add, map_add, cast_stackChange_reserveCode, cast_stackChange_reserveCode,
    cast_stackChange_releaseCode, BitVec.ofNat_add]
  bv_omega

theorem Balanced.level {outer : List Label} {code : List TextItem}
    (balanced : Balanced (Int.castAddHom Word) outer code) : Level outer code := by
  refine ⟨(stackMove_eq_cast code).trans balanced.whole, ?_⟩
  intro start level instr target member branches
  obtain ⟨front, rest, split, rfl⟩ := mem_levels.1 member
  rw [stackMove_eq_cast]
  rcases balanced.branches _ _ _ _ split branches with ⟨known, still⟩ | ⟨before, after, own, same⟩
  · exact .inl ⟨known, by rw [still]; exact BitVec.add_zero start⟩
  · exact .inr (mem_levels.2 ⟨before, after, own, by rw [← same, stackMove_eq_cast]⟩)

theorem StmtCode.level {env : Env} {epilogue : Label} {labels : Option LoopLabels}
    {first last : Nat} {code : List TextItem}
    (shape : StmtCode env epilogue labels first code last) :
    Level (Stmt.exits epilogue labels) code :=
  (shape.balanced (env.releases_word code)).level

end MipsBackend
