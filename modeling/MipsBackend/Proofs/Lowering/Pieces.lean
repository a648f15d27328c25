import MipsBackend.Proofs.Calls.Code

/-!
# How code is put together

What an operator or a statement writes, given the code of its parts. The labels of one construct
share a number, drawn before the parts are lowered.
-/

namespace MipsBackend

namespace Gen

/-! ## Operators -/

/-- Evaluates the right operand only if the left one does not decide. -/
def ShortCircuit.code (kind : ShortCircuit) (number : Nat) (left : List TextItem) (leftReg : Reg)
    (right : List TextItem) (rightReg res : Reg) : List TextItem :=
  let decided := Label.branch kind.decidedLabel number
  let done := Label.branch kind.endLabel number
  left ++ .instr (.branchZero kind.test leftReg decided) :: (right ++
    [.instr (.branchZero kind.test rightReg decided), .instr (.loadImm res kind.undecided),
      .instr (.jump done), .label decided, .instr (.loadImm res kind.decided), .label done])

theorem run_shortCircuit {kind : ShortCircuit} {lhs rhs : Gen Reg} {supply : Supply}
    {generated : Generated Reg} (runs : (shortCircuit kind lhs rhs).run supply = .ok generated) :
    ∃ left right, lhs.run { supply with nextLabel := supply.nextLabel + 1 } = .ok left ∧
      rhs.run { left.supply with nextReg := left.supply.nextReg + 1 } = .ok right ∧
      generated.value = .virt left.supply.nextReg ∧ generated.supply = right.supply ∧
      generated.code = kind.code supply.nextLabel left.code left.value right.code right.value
        (.virt left.supply.nextReg) := by
  obtain ⟨_, _, drawn, runsLeft, rfl⟩ := run_bind.1 runs
  cases drawn
  obtain ⟨left, _, lowersLeft, runsFresh, rfl⟩ := run_bind.1 runsLeft
  obtain ⟨_, _, fresh, runsTest, rfl⟩ := run_bind.1 runsFresh
  cases fresh
  obtain ⟨_, _, tests, runsRight, rfl⟩ := run_bind.1 runsTest
  cases tests
  obtain ⟨right, _, lowersRight, runsEnd, rfl⟩ := run_bind.1 runsRight
  cases runsEnd
  exact ⟨left, right, lowersLeft, lowersRight, rfl, rfl, rfl⟩

/-- Whether an operator evaluates both operands. -/
def isStrict : BinOp → Bool
  | .or | .and => false
  | _ => true

end Gen

/-! ## Statements -/

namespace Stmt

def loopLabels (number : Nat) : LoopLabels :=
  { next := .branch "while_cond" number, done := .branch "while_end" number }

def loopCode (number : Nat) (cond : List TextItem) (reg : Reg) (body : List TextItem) :
    List TextItem :=
  .label (loopLabels number).next :: (cond ++
    .instr (.branchZero .beqz reg (loopLabels number).done) :: .label (.branch "while_body" number) ::
      (body ++ [.instr (.jump (loopLabels number).next), .label (loopLabels number).done]))

def branchCode (number : Nat) (cond : List TextItem) (reg : Reg) (yes : List TextItem) :
    List TextItem :=
  let done := Label.branch "if_end" number
  cond ++ .instr (.branchZero .beqz reg done) :: (yes ++ [.label done])

def branchElseCode (number : Nat) (cond : List TextItem) (reg : Reg) (yes no : List TextItem) :
    List TextItem :=
  let done := Label.branch "if_end" number
  let otherwise := Label.branch "else" number
  cond ++ .instr (.branchZero .beqz reg otherwise) ::
    (yes ++ .instr (.jump done) :: .label otherwise :: (no ++ [.label done]))

variable {env : Env} {epilogue : Label} {labels : Option LoopLabels} {cond : Expr} {supply : Supply}
  {generated : Generated Unit}

theorem run_loop {body : Stmt}
    (runs : ((loop cond body).lower env epilogue labels).run supply = .ok generated) :
    ∃ test inner,
      (cond.lower env).val.run { supply with nextLabel := supply.nextLabel + 1 } = .ok test ∧
      (body.lower env epilogue (some (loopLabels supply.nextLabel))).run test.supply = .ok inner ∧
      generated.supply = inner.supply ∧
      generated.code = loopCode supply.nextLabel test.code test.value inner.code := by
  unfold lower at runs
  obtain ⟨_, _, drawn, runsNext, rfl⟩ := Gen.run_bind.1 runs
  cases drawn
  obtain ⟨_, _, next, runsTest, rfl⟩ := Gen.run_bind.1 runsNext
  cases next
  obtain ⟨test, _, lowersTest, runsSkip, rfl⟩ := Gen.run_bind.1 runsTest
  obtain ⟨_, _, skips, runsBody, rfl⟩ := Gen.run_bind.1 runsSkip
  cases skips
  obtain ⟨_, _, enters, runsInner, rfl⟩ := Gen.run_bind.1 runsBody
  cases enters
  obtain ⟨inner, _, lowersInner, runsEnd, rfl⟩ := Gen.run_bind.1 runsInner
  cases runsEnd
  exact ⟨test, inner, lowersTest, lowersInner, rfl, rfl⟩

theorem run_branch {yes : Stmt}
    (runs : ((branch cond yes none).lower env epilogue labels).run supply = .ok generated) :
    ∃ test inner,
      (cond.lower env).val.run { supply with nextLabel := supply.nextLabel + 1 } = .ok test ∧
      (yes.lower env epilogue labels).run test.supply = .ok inner ∧
      generated.supply = inner.supply ∧
      generated.code = branchCode supply.nextLabel test.code test.value inner.code := by
  unfold lower at runs
  obtain ⟨_, _, drawn, runsTest, rfl⟩ := Gen.run_bind.1 runs
  cases drawn
  obtain ⟨test, _, lowersTest, runsSkip, rfl⟩ := Gen.run_bind.1 runsTest
  obtain ⟨_, _, skips, runsInner, rfl⟩ := Gen.run_bind.1 runsSkip
  cases skips
  obtain ⟨inner, _, lowersInner, runsEnd, rfl⟩ := Gen.run_bind.1 runsInner
  cases runsEnd
  exact ⟨test, inner, lowersTest, lowersInner, rfl, rfl⟩

theorem run_branchElse {yes no : Stmt}
    (runs : ((branch cond yes (some no)).lower env epilogue labels).run supply = .ok generated) :
    ∃ test first second,
      (cond.lower env).val.run { supply with nextLabel := supply.nextLabel + 1 } = .ok test ∧
      (yes.lower env epilogue labels).run test.supply = .ok first ∧
      (no.lower env epilogue labels).run first.supply = .ok second ∧
      generated.supply = second.supply ∧
      generated.code =
        branchElseCode supply.nextLabel test.code test.value first.code second.code := by
  unfold lower at runs
  obtain ⟨_, _, drawn, runsTest, rfl⟩ := Gen.run_bind.1 runs
  cases drawn
  obtain ⟨test, _, lowersTest, runsSkip, rfl⟩ := Gen.run_bind.1 runsTest
  obtain ⟨_, _, skips, runsYes, rfl⟩ := Gen.run_bind.1 runsSkip
  cases skips
  obtain ⟨first, _, lowersYes, runsJump, rfl⟩ := Gen.run_bind.1 runsYes
  obtain ⟨_, _, jumps, runsElse, rfl⟩ := Gen.run_bind.1 runsJump
  cases jumps
  obtain ⟨_, _, otherwise, runsNo, rfl⟩ := Gen.run_bind.1 runsElse
  cases otherwise
  obtain ⟨second, _, lowersNo, runsEnd, rfl⟩ := Gen.run_bind.1 runsNo
  cases runsEnd
  exact ⟨test, first, second, lowersTest, lowersYes, lowersNo, rfl, rfl⟩

theorem run_lowerAll_cons {first : Stmt} {rest : List Stmt}
    (runs : (lowerAll env epilogue labels (first :: rest)).run supply = .ok generated) :
    ∃ one others, (first.lower env epilogue labels).run supply = .ok one ∧
      (lowerAll env epilogue labels rest).run one.supply = .ok others ∧
      generated.supply = others.supply ∧ generated.code = one.code ++ others.code := by
  unfold lowerAll at runs
  obtain ⟨one, others, lowers, later, rfl⟩ := Gen.run_bind.1 runs
  exact ⟨one, others, lowers, later, rfl, rfl⟩

theorem run_eval {expr : Expr}
    (runs : ((eval expr).lower env epilogue labels).run supply = .ok generated) :
    ∃ computed, (expr.lower env).val.run supply = .ok computed ∧
      generated.supply = computed.supply ∧ generated.code = computed.code := by
  unfold lower at runs
  obtain ⟨computed, _, lowers, ends, rfl⟩ := Gen.run_bind.1 runs
  cases ends
  exact ⟨computed, lowers, rfl, by simp⟩

end Stmt

/-! ## Functions -/

/-- What a function does before it saves registers. -/
def enterCode (space : Nat) : List Instr :=
  [.adjustStack (-4), .sw .fp 0 .sp, .arithImm .addiu .fp .sp 0, .adjustStack (-4), .sw .ra 0 .sp] ++
    reserveCode space

end MipsBackend
