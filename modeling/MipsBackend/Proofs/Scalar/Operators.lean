import MipsBackend.Proofs.Lowering.Pieces
import MipsBackend.Proofs.Scalar.Places

/-!
# Operators on words

The instructions of an operator compute its result on 32-bit integers, as far as it has one. Both
short circuits branch on what their operands decide.
-/

namespace MipsBackend

/-! ## Words -/

theorem setWidth_signExtend (x : Word) : (x.signExtend 64).setWidth 32 = x := by
  apply BitVec.eq_of_getLsbD_eq
  intro i bound
  simp only [BitVec.getLsbD_setWidth, bound, decide_true, Bool.true_and, BitVec.getLsbD_signExtend,
    if_true]
  simp only [Bool.and_eq_right_iff_imp, decide_eq_true_eq]
  omega

theorem low_mult (x y : Word) : (HiLoOp.mult.eval x y).2 = x * y := by
  rw [HiLoOp.eval, ← BitVec.setWidth_eq_extractLsb' (by decide), BitVec.setWidth_mul _ _ (by decide),
    setWidth_signExtend, setWidth_signExtend]

theorem toBitVec_truth (holds : Bool) : (truth holds).toBitVec = if holds then 1 else 0 := by
  cases holds <;> rfl

theorem eval_slt (x y : Int32) :
    ArithOp.slt.eval x.toBitVec y.toBitVec = (truth (x < y)).toBitVec := by
  simp only [toBitVec_truth, ArithOp.eval, decide_eq_true_eq, Int32.lt_iff_toBitVec_slt]

/-- Flipping the lowest bit negates a truth value. -/
theorem eval_xori_truth (holds : Bool) :
    ImmOp.xori.eval (truth holds).toBitVec (1 : Int32).toBitVec = (truth !holds).toBitVec := by
  cases holds <;> decide

theorem eval_sltu_xor (x y : Int32) :
    ArithOp.sltu.eval 0 (ArithOp.xor.eval x.toBitVec y.toBitVec) = (truth (x ≠ y)).toBitVec := by
  have differ : (0 : Word).ult (x.toBitVec ^^^ y.toBitVec) = true ↔ x ≠ y := by
    rw [BitVec.ult_iff_lt, ne_eq, ← Int32.toBitVec_inj, ← BitVec.xor_eq_zero_iff]
    exact BitVec.pos_iff_ne_zero _
  simp only [toBitVec_truth, ArithOp.eval, differ, decide_eq_true_eq]

theorem eval_sltiu_xor (x y : Int32) :
    ImmOp.sltiu.eval (ArithOp.xor.eval x.toBitVec y.toBitVec) (1 : Int32).toBitVec =
      (truth (x = y)).toBitVec := by
  have agree : (ArithOp.xor.eval x.toBitVec y.toBitVec).ult (1 : Int32).toBitVec = true ↔ x = y := by
    rw [BitVec.ult_iff_lt, ← Int32.toBitVec_inj, ← BitVec.xor_eq_zero_iff]
    exact BitVec.lt_one_iff (by decide)
  simp only [toBitVec_truth, ImmOp.eval, agree, decide_eq_true_eq]

/-! ## Operators that evaluate both operands -/

theorem isStraight_operatorCode {op : BinOp} {res lhs rhs : Reg} :
    ∀ instr ∈ Gen.operatorCode op res lhs rhs, instr.isStraight = true := by
  apply List.all_eq_true.1
  cases op <;> rfl

namespace Platform

variable (platform : Platform) (machine : Machine) (lhs rhs : Reg) (res : VReg)

theorem perform_arith_imm (op : ArithOp) (second : ImmOp) (imm : Int32) :
    platform.perform machine
        [.arith op (.virt res) lhs rhs, .arithImm second (.virt res) (.virt res) imm] =
      machine.write (.virt res)
        (second.eval (op.eval (machine.read lhs) (machine.read rhs)) imm.toBitVec) := by
  simp only [perform_cons, perform_nil, Instr.change, Machine.apply, Machine.write, Machine.read,
    Function.update_self, Function.update_idem]

theorem perform_differ :
    platform.perform machine
        [.arith .xor (.virt res) lhs rhs, .arith .sltu (.virt res) .zero (.virt res)] =
      machine.write (.virt res)
        (ArithOp.sltu.eval 0 (ArithOp.xor.eval (machine.read lhs) (machine.read rhs))) := by
  simp only [perform_cons, perform_nil, Instr.change, Machine.apply, Machine.write, Machine.read,
    Function.update_self, Function.update_idem]

end Platform

/-- The result of an operator that evaluates both operands, in 32 bits that wrap around. -/
def BinOp.result (op : BinOp) (x y : Int32) : Int32 :=
  match op with
  | .add => x + y
  | .sub => x - y
  | .mul => x * y
  | .div => x / y
  | .mod => x % y
  | .gt => truth (y < x)
  | .lt => truth (x < y)
  | .ge => truth (y ≤ x)
  | .le => truth (x ≤ y)
  | .ne => truth (x ≠ y)
  | .eq => truth (x = y)
  | .or => truth (x ≠ 0 ∨ y ≠ 0)
  | .and => truth (x ≠ 0 ∧ y ≠ 0)

theorem BinOp.eq_result_of_eval? {op : BinOp} {x y value : Int32}
    (known : op.eval? x y = some value) : value = op.result x y := by
  cases op with
  | div | mod =>
    simp only [eval?] at known
    split at known
    · cases known
    · exact (Option.some.inj known).symm
  | _ => exact (Option.some.inj known).symm

/-- The operator's result is in the register, and nothing else has changed but hi and lo. -/
theorem perform_operatorCode (platform : Platform) {op : BinOp} {lhs rhs : Reg} {machine : Machine}
    {x y : Int32} (strict : Gen.isStrict op = true) (left : machine.read lhs = x.toBitVec)
    (right : machine.read rhs = y.toBitVec) (res : VReg) :
    machine.AgreesOutside res (res + 1)
        (platform.perform machine (Gen.operatorCode op (.virt res) lhs rhs)) ∧
      (platform.perform machine (Gen.operatorCode op (.virt res) lhs rhs)).virt res =
        (op.result x y).toBitVec := by
  have written : ∀ (start : Machine) (word : Word), (start.write (.virt res) word).virt res = word :=
    fun start word => by rw [Machine.virt_write_virt, if_pos rfl]
  have plain : ∀ word : Word, word = (op.result x y).toBitVec →
      machine.AgreesOutside res (res + 1) (machine.write (.virt res) word) ∧
        (machine.write (.virt res) word).virt res = (op.result x y).toBitVec := by
    rintro word rfl
    exact ⟨.write machine res _, written machine _⟩
  -- Products and quotients pass through hi and lo.
  have divided : ∀ (through : HiLoOp) (source : MoveFromOp),
      ({ machine with hi := (through.eval x.toBitVec y.toBitVec).1
                      lo := (through.eval x.toBitVec y.toBitVec).2 } : Machine).moved source =
        (op.result x y).toBitVec →
      Gen.operatorCode op (.virt res) lhs rhs = [.hiLo through lhs rhs, .moveFrom source (.virt res)] →
      machine.AgreesOutside res (res + 1)
          (platform.perform machine (Gen.operatorCode op (.virt res) lhs rhs)) ∧
        (platform.perform machine (Gen.operatorCode op (.virt res) lhs rhs)).virt res =
          (op.result x y).toBitVec := by
    intro through source same code
    rw [code]
    simp only [Platform.perform_cons, Platform.perform_nil, Instr.change, Machine.apply, left, right,
      same]
    exact ⟨(Machine.AgreesOutside.hiLo _ _ machine _ _).trans (.write _ res _), written _ _⟩
  cases op with
  | add =>
    refine plain _ ?_
    rw [left, right, BinOp.result, Int32.toBitVec_add]
    rfl
  | sub =>
    refine plain _ ?_
    rw [left, right, BinOp.result, Int32.toBitVec_sub]
    rfl
  | mul =>
    refine divided .mult .mflo ?_ rfl
    rw [Machine.moved, low_mult, BinOp.result, Int32.toBitVec_mul]
  | div =>
    refine divided .div .mflo ?_ rfl
    rw [BinOp.result, Int32.toBitVec_div]
    rfl
  | mod =>
    refine divided .div .mfhi ?_ rfl
    rw [BinOp.result, Int32.toBitVec_mod]
    rfl
  | gt =>
    refine plain _ ?_
    rw [left, right, eval_slt]
    rfl
  | lt =>
    refine plain _ ?_
    rw [left, right, eval_slt]
    rfl
  | ge =>
    rw [Gen.operatorCode, platform.perform_arith_imm, left, right, eval_slt, eval_xori_truth]
    refine plain _ (congrArg (fun holds => (truth holds).toBitVec) ?_)
    rw [Bool.eq_iff_iff]
    simp
  | le =>
    rw [Gen.operatorCode, platform.perform_arith_imm, left, right, eval_slt, eval_xori_truth]
    refine plain _ (congrArg (fun holds => (truth holds).toBitVec) ?_)
    rw [Bool.eq_iff_iff]
    simp
  | ne =>
    rw [Gen.operatorCode, platform.perform_differ, left, right, eval_sltu_xor]
    exact plain _ rfl
  | eq =>
    rw [Gen.operatorCode, platform.perform_arith_imm, left, right, eval_sltiu_xor]
    exact plain _ rfl
  | or | and => cases strict

/-! ## Short circuits -/

namespace Gen.ShortCircuit

/-- Whether an operand of the value decides the result. -/
def decides (kind : ShortCircuit) (x : Int32) : Bool := kind.test.holds x.toBitVec

def result (kind : ShortCircuit) (holds : Bool) : Int32 :=
  if holds then kind.decided else kind.undecided

theorem decides_or (x : Int32) : decides .or x = decide (x ≠ 0) := by
  rw [Bool.eq_iff_iff, decide_eq_true_eq, ne_eq, ← Int32.toBitVec_inj]
  exact bne_iff_ne

theorem decides_and (x : Int32) : decides .and x = decide (x = 0) := by
  rw [Bool.eq_iff_iff, decide_eq_true_eq, ← Int32.toBitVec_inj]
  exact beq_iff_eq

theorem result_or (y : Int32) : result .or (decides .or y) = truth (y ≠ 0) := by
  rw [decides_or]
  rfl

theorem result_and (y : Int32) : result .and (decides .and y) = truth (y ≠ 0) := by
  rw [decides_and]
  by_cases zero : y = 0 <;> simp [zero, result, truth, and]

end Gen.ShortCircuit

/-- The result of an operator if its left operand decides it. -/
def BinOp.decided? (op : BinOp) (x : Int32) : Option Int32 :=
  if op = .or ∧ x ≠ 0 then some 1
  else if op = .and ∧ x = 0 then some 0
  else none

theorem Expr.value?_binOp {locals : Locals} {ty : Ty} {op : BinOp} {lhs rhs : Expr} {value : Int32}
    (evaluates : (Expr.binOp ty op lhs rhs).value? locals = some value) :
    ∃ x, lhs.value? locals = some x ∧ (op.decided? x = some value ∨ op.decided? x = none ∧
      ∃ y, rhs.value? locals = some y ∧ value = op.result x y) := by
  simp only [value?] at evaluates
  cases left : lhs.value? locals with
  | none => simp [left] at evaluates
  | some x =>
    simp only [left] at evaluates
    refine ⟨x, rfl, ?_⟩
    unfold BinOp.decided?
    split
    · next decides => exact .inl (by rwa [if_pos decides] at evaluates)
    split
    · next goes decides => exact .inl (by rwa [if_neg goes, if_pos decides] at evaluates)
    · next goes undecided =>
      rw [if_neg goes, if_neg undecided] at evaluates
      obtain ⟨y, right, known⟩ := Option.bind_eq_some_iff.1 evaluates
      exact .inr ⟨rfl, y, right, BinOp.eq_result_of_eval? known⟩

end MipsBackend
