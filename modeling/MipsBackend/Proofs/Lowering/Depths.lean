import MipsBackend.Proofs.Lowering.Balance
import MipsBackend.Proofs.Lowering.Functions

/-!
# Depths in generated code

If the arguments and the result of every call fit into half of the address space, the balance of
generated code is exact: code never lifts the stack pointer above where it found it, and it has
moved it back at the labels of statements (`StmtCode.settled`) and wherever a statement begins
(`Stmt.Starts.stands`).
-/

namespace MipsBackend

/-! ## Code below a height -/

/-- From the height on, the code never lifts the stack pointer above zero. -/
def Below (height : Int) (code : List TextItem) : Prop :=
  ∀ front, front <+: code → height + stackShift front ≤ 0

namespace Below

variable {height : Int} {code first second : List TextItem}

theorem append {middle : Int} (left : Below height first)
    (moves : height + stackShift first = middle) (right : Below middle second) :
    Below height (first ++ second) := by
  intro front inside
  rcases List.prefix_or_prefix_of_prefix inside (List.prefix_append first second) with
    here | ⟨more, rfl⟩
  · exact left front here
  · have there := right more ((List.prefix_append_right_inj first).1 inside)
    rwa [stackShift_append, ← Int.add_assoc, moves]

theorem deeper (below : Below 0 code) (depth : height ≤ 0) : Below height code := by
  intro front inside
  have here := below front inside
  omega

/-- One item has no place between its two ends. -/
theorem short (short : code.length ≤ 1) (before : height ≤ 0)
    (behind : height + stackShift code ≤ 0) : Below height code := by
  intro front inside
  cases front with
  | nil => simpa using before
  | cons item front =>
    have full := inside.length_le
    rw [List.length_cons] at full
    obtain rfl := inside.eq_of_length (by rw [List.length_cons]; omega)
    exact behind

theorem reserve {bytes : Nat} (small : bytes < 2 ^ 31) (before : height ≤ 0) :
    Below height ((reserveCode bytes).map .instr) := by
  have one : (reserveCode bytes).length ≤ 1 := by
    unfold reserveCode
    split <;> simp
  refine .short (by rwa [List.length_map]) before ?_
  rw [stackShift_map, stackChange_reserveCode small]
  omega

theorem release {bytes : Nat} (small : bytes < 2 ^ 31) (behind : height + bytes ≤ 0) :
    Below height ((releaseCode bytes).map .instr) := by
  have one : (releaseCode bytes).length ≤ 1 := by
    unfold releaseCode
    split <;> simp
  refine .short (by rwa [List.length_map]) (by omega) ?_
  rwa [stackShift_map, stackChange_releaseCode small]

end Below

/-! ## Settled code -/

/-- The code ends where it starts, is never above, and has labels with the stems at this place. -/
structure Settled (stems : List String) (code : List TextItem) : Prop where
  whole : stackShift code = 0
  below : Below 0 code
  labels : ∀ stem ∈ stems, ∀ front number rest,
    code = front ++ .label (.branch stem number) :: rest → stackShift front = 0

namespace Settled

variable {stems : List String} {first second code : List TextItem}

theorem append (left : Settled stems first) (right : Settled stems second) :
    Settled stems (first ++ second) where
  whole := by rw [stackShift_append, left.whole, right.whole, Int.add_zero]
  below := left.below.append (by rw [left.whole, Int.add_zero]) right.below
  labels stem known front number rest split := by
    rcases append_eq_split split with ⟨more, here, -⟩ | ⟨more, rfl, there⟩
    · exact left.labels stem known _ _ _ here
    · rw [stackShift_append, left.whole, Int.zero_add]
      exact right.labels stem known _ _ _ there

theorem nil : Settled stems [] where
  whole := rfl
  below := .short (Nat.zero_le 1) (Int.le_refl 0) (Int.le_refl 0)
  labels stem known front number rest split := by simp at split

theorem single {item : TextItem} (still : stackShift [item] = 0) : Settled stems [item] where
  whole := still
  below := .short (Nat.le_refl 1) (Int.le_refl 0) (by rw [still, Int.add_zero])
  labels stem known front number rest split := by
    cases front with
    | nil => rfl
    | cons => simp at split

theorem instr {instr : Instr} (still : instr.stackChange = 0) : Settled stems [.instr instr] :=
  single (by simp [still])

theorem label (label : Label) : Settled stems [.label label] := single rfl

theorem cons {item : TextItem} (here : Settled stems [item]) (behind : Settled stems code) :
    Settled stems (item :: code) :=
  here.append behind

theorem of_unlabelled (settled : Settled [] code)
    (absent : ∀ stem ∈ stems, ∀ number, .label (.branch stem number) ∉ code) :
    Settled stems code :=
  ⟨settled.whole, settled.below, fun stem known _ number _ split =>
    absurd (split ▸ List.mem_append_right _ List.mem_cons_self) (absent stem known number)⟩

end Settled

/-! ## Generated code -/

/-- The arguments and the result of a call fit into half of the address space. Library functions
take nothing from the stack. -/
def Env.CallFits (env : Env) (name : String) : Prop :=
  env.service? name = none → ∀ decl space result, env.signature name = .ok decl →
    env.layout.slotsSize decl.params = .ok space → env.layout.slotSize decl.ret = .ok result →
    space + result < 2 ^ 31

def Env.CallsFit (env : Env) (code : List TextItem) : Prop :=
  ∀ name, .instr (.call (.function name)) ∈ code → env.CallFits name

theorem Env.CallsFit.mono {env : Env} {code wider : List TextItem} (fits : env.CallsFit wider)
    (subset : code ⊆ wider) : env.CallsFit code :=
  fun name called => fits name (subset called)

/-- If all fit, what is reserved is released exactly. -/
theorem Env.CallsFit.releases {env : Env} {code : List TextItem} (fits : env.CallsFit code) :
    env.Releases (.id ℤ) code := by
  intro name called own decl space result signed argSpace resultSpace
  have small := fits name called own decl space result signed argSpace resultSpace
  rw [stackChange_reserveCode (by omega), stackChange_reserveCode (by omega),
    stackChange_releaseCode small, AddMonoidHom.id_apply]
  omega

theorem settled_callItems {name : String} {space result : Nat} {args take : List TextItem}
    (small : space + result < 2 ^ 31) (arguments : Settled [] args) (takes : Settled [] take) :
    Settled [] (callItems name space result args take) := by
  have reserved := @stackChange_reserveCode space (by omega)
  have held := @stackChange_reserveCode result (by omega)
  have released := stackChange_releaseCode small
  have still : (Instr.call (.function name)).stackChange = 0 := rfl
  refine ⟨?_, ?_, fun _ known => nomatch known⟩
  · simp only [callItems, stackShift_append, stackShift_map, stackShift_instr, arguments.whole,
      takes.whole, reserved, held, released, still]
    omega
  · have leave : Below (-(space + result)) ((releaseCode (space + result)).map .instr) :=
      .release small (by omega)
    have taken : Below (-(space + result)) (take ++ (releaseCode (space + result)).map .instr) :=
      (takes.below.deeper (by omega)).append (by rw [takes.whole]; omega) leave
    have called : Below (-(space + result)) (.instr (.call (.function name)) ::
        (take ++ (releaseCode (space + result)).map .instr)) :=
      ((@Settled.instr [] _ still).below.deeper (by omega)).append
        (by rw [stackShift_instr, still, stackShift_nil]; omega) taken
    have passed := (arguments.below.deeper (by omega : -(space : Int) ≤ 0)).append
      (by rw [arguments.whole, Int.add_zero])
      ((Below.reserve (by omega : result < 2 ^ 31) (by omega)).append
        (by rw [stackShift_map, held]; omega) called)
    exact (Below.reserve (by omega) (Int.le_refl 0)).append (by rw [stackShift_map, reserved]; omega)
      passed

theorem settled_shortCircuit {kind : Gen.ShortCircuit} {number : Nat} {left right : List TextItem}
    (lhs : Settled [] left) (rhs : Settled [] right) (leftReg rightReg : Reg) (res : VReg) :
    Settled [] (kind.code number left leftReg right rightReg (.virt res)) :=
  lhs.append <| (Settled.instr rfl).cons <| rhs.append <| (Settled.instr rfl).cons <|
    (Settled.instr rfl).cons <| (Settled.instr rfl).cons <| (Settled.label _).cons <|
    (Settled.instr rfl).cons <| .label _

theorem ExprCode.settled {env : Env} {first last : Nat} {code : List TextItem}
    (shape : ExprCode env first code last) (fits : env.CallsFit code) : Settled [] code := by
  induction shape with
  | nothing first => exact .nil
  | append left right ihLeft ihRight =>
    exact (ihLeft (fits.mono (List.subset_append_left _ _))).append
      (ihRight (fits.mono (List.subset_append_right _ _)))
  | computation computes => exact .instr (Instr.stackChange_of_isComputation computes)
  | service known => exact .instr rfl
  | call own signed argSpace resultSpace arguments takes ihArgs ihTake =>
    have small := fits _ (by simp [callItems]) own _ _ _ signed argSpace resultSpace
    refine settled_callItems small (ihArgs (fits.mono ?_)) (ihTake (fits.mono ?_))
    · exact fun item member => by simp [callItems, member]
    · exact fun item member => by simp [callItems, member]
  | shortCircuit known lhs rhs ihLeft ihRight =>
    refine settled_shortCircuit (ihLeft (fits.mono ?_)) (ihRight (fits.mono ?_)) _ _ _
    · exact fun item member => by simp [Gen.ShortCircuit.code, member]
    · exact fun item member => by simp [Gen.ShortCircuit.code, member]

namespace Stmt

/-- What begins a label of a statement. -/
def labelStems : List String := ["while_cond", "while_body", "while_end", "if_end", "else"]

/-- Expressions have labels of other kinds. -/
theorem labelStems_not_mem {env : Env} {first last : Nat} {code : List TextItem}
    (shape : ExprCode env first code last) {stem : String} (known : stem ∈ labelStems)
    (number : Nat) : .label (.branch stem number) ∉ code := by
  induction shape with
  | nothing first => exact List.not_mem_nil
  | append left right ihLeft ihRight =>
    exact fun member => (List.mem_append.1 member).elim ihLeft ihRight
  | computation computes => simp
  | service known => simp
  | call own signed argSpace resultSpace arguments takes ihArgs ihTake =>
    simp [callItems, ihArgs, ihTake]
  | @shortCircuit _ _ _ kind chosen _ _ _ _ _ lhs rhs ihLeft ihRight =>
    have apart : kind.decidedLabel ∉ labelStems ∧ kind.endLabel ∉ labelStems := by
      rcases chosen with rfl | rfl <;> decide
    have own : stem ≠ kind.decidedLabel ∧ stem ≠ kind.endLabel :=
      ⟨fun same => apart.1 (same ▸ known), fun same => apart.2 (same ▸ known)⟩
    simp [Gen.ShortCircuit.code, ihLeft, ihRight, Label.branch_inj, own]

theorem settled_expr {env : Env} {first last : Nat} {code : List TextItem}
    (shape : ExprCode env first code last) (fits : env.CallsFit code) : Settled labelStems code :=
  (shape.settled fits).of_unlabelled fun _ known number => labelStems_not_mem shape known number

end Stmt

theorem StmtCode.settled {env : Env} {epilogue : Label} {labels : Option LoopLabels}
    {first last : Nat} {code : List TextItem}
    (shape : StmtCode env epilogue labels first code last) (fits : env.CallsFit code) :
    Settled Stmt.labelStems code := by
  induction shape with
  | expr computes => exact Stmt.settled_expr computes fits
  | append left right ihLeft ihRight =>
    exact (ihLeft (fits.mono (List.subset_append_left _ _))).append
      (ihRight (fits.mono (List.subset_append_right _ _)))
  | jump known => exact .instr rfl
  | loop test inner ih =>
    have cond := Stmt.settled_expr test
      (fits.mono fun item member => by simp [Stmt.loopCode, member])
    have body := ih (fits.mono fun item member => by simp [Stmt.loopCode, member])
    exact (Settled.label _).cons <| cond.append <| (Settled.instr rfl).cons <|
      (Settled.label _).cons <| body.append <| (Settled.instr rfl).cons <| .label _
  | branch test taken ih =>
    have cond := Stmt.settled_expr test
      (fits.mono fun item member => by simp [Stmt.branchCode, member])
    have yes := ih (fits.mono fun item member => by simp [Stmt.branchCode, member])
    exact cond.append <| (Settled.instr rfl).cons <| yes.append <| .label _
  | branchElse test taken other ihYes ihNo =>
    have cond := Stmt.settled_expr test
      (fits.mono fun item member => by simp [Stmt.branchElseCode, member])
    have yes := ihYes (fits.mono fun item member => by simp [Stmt.branchElseCode, member])
    have no := ihNo (fits.mono fun item member => by simp [Stmt.branchElseCode, member])
    exact cond.append <| (Settled.instr rfl).cons <| yes.append <| (Settled.instr rfl).cons <|
      (Settled.label _).cons <| no.append <| .label _

end MipsBackend
