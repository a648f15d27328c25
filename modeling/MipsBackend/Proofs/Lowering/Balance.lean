import Mathlib.Algebra.Group.Int.Defs
import Mathlib.Algebra.Group.Hom.Defs
import MipsBackend.Proofs.Calls.Bytes
import MipsBackend.Proofs.Calls.Sites
import MipsBackend.Proofs.Lowering.Labels

/-!
# Balanced code

Generated code moves the stack pointer back to where it was, and branches only between places where
it has moved equally far (`StmtCode.balanced`). Moves are added up as integers, and compared by
their weights: as the words that a machine adds, or exactly if no call reserves too much.
-/

namespace MipsBackend

/-! ## Moves of the stack pointer -/

/-- How far code moves the stack pointer if it runs from its first to its last item. -/
def stackShift (items : List TextItem) : Int := stackChange (items.filterMap TextItem.instr?)

@[simp] theorem stackShift_nil : stackShift [] = 0 := rfl

@[simp] theorem stackShift_instr (instr : Instr) (rest : List TextItem) :
    stackShift (.instr instr :: rest) = instr.stackChange + stackShift rest := rfl

@[simp] theorem stackShift_label (label : Label) (rest : List TextItem) :
    stackShift (.label label :: rest) = stackShift rest := rfl

@[simp] theorem stackShift_append (first second : List TextItem) :
    stackShift (first ++ second) = stackShift first + stackShift second := by
  simp [stackShift, stackChange]

@[simp] theorem stackShift_map (instrs : List Instr) :
    stackShift (instrs.map .instr) = stackChange instrs :=
  congrArg stackChange (Section.instructions_map instrs)

namespace Instr

theorem isStraight_of_isComputation {instr : Instr} (computes : instr.isComputation = true) :
    instr.isStraight = true := by
  unfold isComputation at computes
  simp only [Bool.and_eq_true] at computes
  exact computes.1.1.1

theorem branchTarget?_of_isStraight {instr : Instr} (straight : instr.isStraight = true) :
    instr.branchTarget? = none := by
  cases instr <;> first | rfl | cases straight

theorem stackChange_of_isComputation {instr : Instr} (computes : instr.isComputation = true) :
    instr.stackChange = 0 := by
  unfold stackChange
  split
  · cases computes
  · rfl

end Instr

theorem branchTarget?_reserveCode {bytes : Nat} {instr : Instr}
    (member : instr ∈ reserveCode bytes) : instr.branchTarget? = none := by
  unfold reserveCode at member
  split at member
  · cases List.mem_singleton.1 member
    rfl
  · cases member

theorem branchTarget?_releaseCode {bytes : Nat} {instr : Instr}
    (member : instr ∈ releaseCode bytes) : instr.branchTarget? = none := by
  unfold releaseCode at member
  split at member
  · cases List.mem_singleton.1 member
    rfl
  · cases member

/-! ## Balance -/

section

variable {A : Type} [AddCommGroup A] {weight : ℤ →+ A}

/-- The label stands in the code, at a place where the moves so far have the weight. -/
def StandsAt (weight : ℤ →+ A) (code : List TextItem) (label : Label) (level : A) : Prop :=
  ∃ before after, code = before ++ .label label :: after ∧ weight (stackShift before) = level

theorem StandsAt.left {first : List TextItem} {label : Label} {level : A}
    (stands : StandsAt weight first label level) (second : List TextItem) :
    StandsAt weight (first ++ second) label level := by
  obtain ⟨before, after, rfl, same⟩ := stands
  exact ⟨before, after ++ second, by simp, same⟩

theorem StandsAt.right {second : List TextItem} {label : Label} {level : A}
    (stands : StandsAt weight second label level) (first : List TextItem) :
    StandsAt weight (first ++ second) label (weight (stackShift first) + level) := by
  obtain ⟨before, after, rfl, rfl⟩ := stands
  exact ⟨first ++ before, after, by simp, by rw [stackShift_append, map_add]⟩

/-- Branches of the code go to own labels of the same level. -/
def Closed (weight : ℤ →+ A) (code : List TextItem) : Prop :=
  ∀ front instr rest target, code = front ++ .instr instr :: rest →
    instr.branchTarget? = some target → StandsAt weight code target (weight (stackShift front))

/-- The code moves the stack pointer back. Its branches go to labels of the same level, which are
its own or lie outside, where the stack pointer is as at the start of the code. -/
structure Balanced (weight : ℤ →+ A) (outer : List Label) (code : List TextItem) : Prop where
  whole : weight (stackShift code) = 0
  branches : ∀ front instr rest target, code = front ++ .instr instr :: rest →
    instr.branchTarget? = some target →
    (target ∈ outer ∧ weight (stackShift front) = 0) ∨
      StandsAt weight code target (weight (stackShift front))

theorem Closed.append {first second : List TextItem} (left : Closed weight first)
    (right : Closed weight second) : Closed weight (first ++ second) := by
  intro front instr rest target split branches
  rcases append_eq_split split with ⟨more, here, -⟩ | ⟨more, rfl, there⟩
  · exact (left _ _ _ _ here branches).left second
  · rw [stackShift_append, map_add]
    exact (right _ _ _ _ there branches).right first

theorem Closed.straight {instrs : List Instr} (plain : ∀ instr ∈ instrs, instr.branchTarget? = none) :
    Closed weight (instrs.map .instr) := by
  intro front instr rest target split branches
  have listed : .instr instr ∈ instrs.map TextItem.instr :=
    split ▸ List.mem_append_right _ List.mem_cons_self
  obtain ⟨found, inside, same⟩ := List.mem_map.1 listed
  rw [TextItem.instr.inj same] at inside
  rw [plain instr inside] at branches
  cases branches

theorem Closed.balanced {code : List TextItem} (closed : Closed weight code)
    (whole : weight (stackShift code) = 0) : Balanced weight [] code :=
  ⟨whole, fun _ _ _ _ split branches => .inr (closed _ _ _ _ split branches)⟩

namespace Balanced

variable {outer : List Label} {code first second : List TextItem}

theorem closed (balanced : Balanced weight [] code) : Closed weight code :=
  fun _ _ _ _ split branches =>
    (balanced.branches _ _ _ _ split branches).resolve_left fun known => nomatch known.1

theorem nil : Balanced weight outer [] :=
  ⟨map_zero weight, fun _ _ _ _ split => by simp at split⟩

theorem append (left : Balanced weight outer first) (right : Balanced weight outer second) :
    Balanced weight outer (first ++ second) := by
  refine ⟨by rw [stackShift_append, map_add, left.whole, right.whole, add_zero], ?_⟩
  intro front instr rest target split branches
  rcases append_eq_split split with ⟨more, here, -⟩ | ⟨more, rfl, there⟩
  · exact (left.branches _ _ _ _ here branches).imp_right (·.left second)
  · rw [stackShift_append, map_add]
    refine (right.branches _ _ _ _ there branches).imp (fun known => ⟨known.1, ?_⟩) (·.right first)
    rw [left.whole, known.2, add_zero]

theorem mono {wider : List Label} (balanced : Balanced weight outer code) (subset : outer ⊆ wider) :
    Balanced weight wider code :=
  ⟨balanced.whole, fun _ _ _ _ split branches =>
    (balanced.branches _ _ _ _ split branches).imp_left fun known => ⟨subset known.1, known.2⟩⟩

theorem inside (balanced : Balanced weight [] code) : Balanced weight outer code :=
  balanced.mono (List.nil_subset outer)

/-- A label that stands at the level of the start need not be known outside. -/
theorem close {label : Label} (balanced : Balanced weight (label :: outer) code)
    (stands : StandsAt weight code label 0) : Balanced weight outer code := by
  refine ⟨balanced.whole, fun front instr rest target split branches => ?_⟩
  rcases balanced.branches _ _ _ _ split branches with ⟨known, still⟩ | own
  · rcases List.mem_cons.1 known with rfl | known
    · exact .inr (still ▸ stands)
    · exact .inl ⟨known, still⟩
  · exact .inr own

theorem instr {instr : Instr} (still : instr.stackChange = 0)
    (known : ∀ target, instr.branchTarget? = some target → target ∈ outer) :
    Balanced weight outer [.instr instr] := by
  refine ⟨by simp [still], fun front other rest target split branches => .inl ?_⟩
  cases front with
  | nil =>
    cases split
    exact ⟨known target branches, map_zero weight⟩
  | cons item front => simp at split

theorem label (label : Label) : Balanced weight outer [.label label] :=
  ⟨map_zero weight, fun front other rest target split _ => by cases front <;> simp at split⟩

theorem cons {item : TextItem} (here : Balanced weight outer [item])
    (behind : Balanced weight outer code) : Balanced weight outer (item :: code) :=
  here.append behind

end Balanced

/-! ## Generated code -/

/-- The calls in the code release what they reserve. -/
def Env.Releases (env : Env) (weight : ℤ →+ A) (code : List TextItem) : Prop :=
  ∀ name, .instr (.call (.function name)) ∈ code → env.service? name = none →
    ∀ decl space result, env.signature name = .ok decl →
      env.layout.slotsSize decl.params = .ok space → env.layout.slotSize decl.ret = .ok result →
      weight (stackChange (reserveCode space) + stackChange (reserveCode result) +
        stackChange (releaseCode (space + result))) = 0

theorem Env.Releases.mono {env : Env} {code wider : List TextItem}
    (releases : env.Releases weight wider) (subset : code ⊆ wider) : env.Releases weight code :=
  fun name called => releases name (subset called)

theorem balanced_callItems {name : String} {space result : Nat} {args take : List TextItem}
    (arguments : Balanced weight [] args) (takes : Balanced weight [] take)
    (released : weight (stackChange (reserveCode space) + stackChange (reserveCode result) +
      stackChange (releaseCode (space + result))) = 0) :
    Balanced weight [] (callItems name space result args take) := by
  have call : Closed weight (([.call (.function name)] : List Instr).map .instr) :=
    .straight fun instr member => by cases List.mem_singleton.1 member; rfl
  refine Closed.balanced ?_ ?_
  · exact (Closed.straight fun _ => branchTarget?_reserveCode).append <|
      arguments.closed.append <| (Closed.straight fun _ => branchTarget?_reserveCode).append <|
      call.append <| takes.closed.append <| Closed.straight fun _ => branchTarget?_releaseCode
  · have still : (Instr.call (.function name)).stackChange = 0 := rfl
    simp only [callItems, stackShift_append, stackShift_map, stackShift_instr, map_add,
      arguments.whole, takes.whole, still, zero_add] at released ⊢
    rw [← add_assoc, released]

theorem balanced_shortCircuit {kind : Gen.ShortCircuit} {number : Nat} {left right : List TextItem}
    (lhs : Balanced weight [] left) (rhs : Balanced weight [] right) (leftReg rightReg : Reg)
    (res : VReg) :
    Balanced weight [] (kind.code number left leftReg right rightReg (.virt res)) := by
  let decided := Label.branch kind.decidedLabel number
  let done := Label.branch kind.endLabel number
  have test : ∀ reg, Balanced weight [decided, done] [.instr (.branchZero kind.test reg decided)] :=
    fun reg => .instr rfl fun target same => by cases same; exact List.mem_cons_self
  have leave : Balanced weight [decided, done] [.instr (.jump done)] :=
    .instr rfl fun target same => by cases same; simp
  have answer : ∀ value, Balanced weight [decided, done] [.instr (.loadImm (.virt res) value)] :=
    fun value => .instr rfl fun _ same => nomatch same
  have undecided := (lhs.inside.append <| (test leftReg).cons <| rhs.inside.append <|
    (test rightReg).cons <| (answer kind.undecided).cons leave)
  have decides := undecided.append <| (Balanced.label decided).append (answer kind.decided)
  have code : kind.code number left leftReg right rightReg (.virt res) = left ++
      .instr (.branchZero kind.test leftReg decided) :: (right ++
        [.instr (.branchZero kind.test rightReg decided), .instr (.loadImm (.virt res) kind.undecided),
          .instr (.jump done), .label decided, .instr (.loadImm (.virt res) kind.decided),
          .label done]) := rfl
  have whole := decides.append (.label done)
  refine @Balanced.close _ _ _ _ _ done (@Balanced.close _ _ _ _ _ decided ?_ ?_) ?_
  · simpa [code] using whole
  · exact ⟨_, [.instr (.loadImm (.virt res) kind.decided), .label done], by simp [code],
      undecided.whole⟩
  · exact ⟨_, [], by simp [code], decides.whole⟩

theorem ExprCode.balanced {env : Env} {first last : Nat} {code : List TextItem}
    (shape : ExprCode env first code last) (releases : env.Releases weight code) :
    Balanced weight [] code := by
  induction shape with
  | nothing first => exact .nil
  | append left right ihLeft ihRight =>
    exact (ihLeft (releases.mono (List.subset_append_left _ _))).append
      (ihRight (releases.mono (List.subset_append_right _ _)))
  | computation computes =>
    refine .instr (Instr.stackChange_of_isComputation computes) fun target branches => ?_
    rw [Instr.branchTarget?_of_isStraight (Instr.isStraight_of_isComputation computes)] at branches
    cases branches
  | service known => exact .instr rfl fun _ branches => nomatch branches
  | call own signed argSpace resultSpace arguments takes ihArgs ihTake =>
    have released := releases _ (by simp [callItems]) own _ _ _ signed argSpace resultSpace
    refine balanced_callItems (ihArgs (releases.mono ?_)) (ihTake (releases.mono ?_)) released
    · exact fun item member => by simp [callItems, member]
    · exact fun item member => by simp [callItems, member]
  | shortCircuit known lhs rhs ihLeft ihRight =>
    refine balanced_shortCircuit (ihLeft (releases.mono ?_)) (ihRight (releases.mono ?_)) _ _ _
    · exact fun item member => by simp [Gen.ShortCircuit.code, member]
    · exact fun item member => by simp [Gen.ShortCircuit.code, member]

namespace Stmt

variable {outer : List Label}

theorem balanced_skipUnless (target : Label) (known : target ∈ outer) (reg : Reg) :
    Balanced weight outer [.instr (.branchZero .beqz reg target)] :=
  .instr rfl fun _ same => by cases same; exact known

theorem balanced_jump (target : Label) (known : target ∈ outer) :
    Balanced weight outer [.instr (.jump target)] :=
  .instr rfl fun _ same => by cases same; exact known

theorem balanced_loopCode {epilogue : Label} {labels : Option LoopLabels} {number : Nat}
    {cond body : List TextItem} (test : Balanced weight [] cond)
    (inner : Balanced weight (exits epilogue (some (loopLabels number))) body) (reg : Reg) :
    Balanced weight (exits epilogue labels) (loopCode number cond reg body) := by
  let next := (loopLabels number).next
  let done := (loopLabels number).done
  have within : exits epilogue (some (loopLabels number)) ⊆
      next :: done :: exits epilogue labels := by
    intro label member
    simp only [exits, Option.elim_some, List.mem_cons, List.not_mem_nil, or_false] at member ⊢
    rcases member with outermost | first | second
    · exact .inr (.inr (.inl outermost))
    · exact .inl first
    · exact .inr (.inl second)
  have round := (Balanced.label next).cons <| test.inside.append <|
    (balanced_skipUnless done (by simp) reg).cons <|
    (Balanced.label (.branch "while_body" number)).cons <|
    (inner.mono within).append (balanced_jump next (by simp))
  have whole := round.append (.label done)
  refine @Balanced.close _ _ _ _ _ done (@Balanced.close _ _ _ _ _ next ?_ ?_) ?_
  · simpa [loopCode, next, done] using whole
  · exact ⟨[], _, rfl, map_zero weight⟩
  · exact ⟨_, [], by simp [loopCode, next, done], round.whole⟩

theorem balanced_branchCode {number : Nat} {cond yes : List TextItem}
    (test : Balanced weight [] cond) (taken : Balanced weight outer yes) (reg : Reg) :
    Balanced weight outer (branchCode number cond reg yes) := by
  let done := Label.branch "if_end" number
  have round := test.inside.append <| (balanced_skipUnless done (by simp) reg).cons <|
    taken.mono (List.subset_cons_self done outer)
  refine @Balanced.close _ _ _ _ _ done ?_ ?_
  · simpa [branchCode, done] using round.append (.label done)
  · exact ⟨_, [], by simp [branchCode, done], round.whole⟩

theorem balanced_branchElseCode {number : Nat} {cond yes no : List TextItem}
    (test : Balanced weight [] cond) (taken : Balanced weight outer yes)
    (other : Balanced weight outer no) (reg : Reg) :
    Balanced weight outer (branchElseCode number cond reg yes no) := by
  let done := Label.branch "if_end" number
  let otherwise := Label.branch "else" number
  have wider : outer ⊆ otherwise :: done :: outer := fun label member =>
    List.mem_cons_of_mem _ (List.mem_cons_of_mem _ member)
  have first := test.inside.append <|
    (balanced_skipUnless otherwise (by simp) reg).cons <|
    (taken.mono wider).append (balanced_jump done (by simp))
  have both := first.append <| (Balanced.label otherwise).append (other.mono wider)
  refine @Balanced.close _ _ _ _ _ done (@Balanced.close _ _ _ _ _ otherwise ?_ ?_) ?_
  · simpa [branchElseCode, done, otherwise] using both.append (.label done)
  · exact ⟨_, no ++ [.label done], by simp [branchElseCode, done, otherwise], first.whole⟩
  · exact ⟨_, [], by simp [branchElseCode, done, otherwise], both.whole⟩

end Stmt

theorem StmtCode.balanced {env : Env} {epilogue : Label} {labels : Option LoopLabels}
    {first last : Nat} {code : List TextItem}
    (shape : StmtCode env epilogue labels first code last) (releases : env.Releases weight code) :
    Balanced weight (Stmt.exits epilogue labels) code := by
  induction shape with
  | expr computes => exact (computes.balanced releases).inside
  | append left right ihLeft ihRight =>
    exact (ihLeft (releases.mono (List.subset_append_left _ _))).append
      (ihRight (releases.mono (List.subset_append_right _ _)))
  | jump known => exact Stmt.balanced_jump _ known
  | loop test inner ih =>
    refine Stmt.balanced_loopCode (test.balanced (releases.mono ?_)) (ih (releases.mono ?_)) _
    · exact fun item member => by simp [Stmt.loopCode, member]
    · exact fun item member => by simp [Stmt.loopCode, member]
  | branch test taken ih =>
    refine Stmt.balanced_branchCode (test.balanced (releases.mono ?_)) (ih (releases.mono ?_)) _
    · exact fun item member => by simp [Stmt.branchCode, member]
    · exact fun item member => by simp [Stmt.branchCode, member]
  | branchElse test taken other ihYes ihNo =>
    refine Stmt.balanced_branchElseCode (test.balanced (releases.mono ?_))
      (ihYes (releases.mono ?_)) (ihNo (releases.mono ?_)) _
    · exact fun item member => by simp [Stmt.branchElseCode, member]
    · exact fun item member => by simp [Stmt.branchElseCode, member]
    · exact fun item member => by simp [Stmt.branchElseCode, member]

end

end MipsBackend
