import MipsBackend.Proofs.Lowering.Pieces
import MipsBackend.Proofs.Lowering.Bodies
import MipsBackend.Proofs.Machine.Run

/-!
# The grammar of generated code

Everything that lowering writes is built from few forms (`ExprCode`, `StmtCode`): computations that
leave the frame alone, calls between a reservation and its release, and branches to labels of the
same construct or of a statement around it. Facts about all generated code are inductions over these
forms.
-/

namespace MipsBackend

/-- The register whose value the instruction stores. -/
def Instr.stored? : Instr → Option Reg
  | store _ src _ _ => some src
  | _ => none

/-- Whether an instruction only computes, writes no register but virtual ones and `$a0`, and stores
none but virtual ones and `$zero`. -/
def Instr.isComputation (instr : Instr) : Bool :=
  instr.isStraight && instr.marker?.isNone &&
    (match instr.def? with
      | none | some (.virt _) | some .a0 | some .zero => true
      | some (.phys _) => false) &&
    match instr.stored? with
    | none | some (.virt _) | some .zero => true
    | some (.phys _) => false

/-- The code of a call: the arguments stand above the place for the result. -/
def callItems (name : String) (space result : Nat) (args take : List TextItem) : List TextItem :=
  (reserveCode space).map .instr ++ (args ++ ((reserveCode result).map .instr ++
    .instr (.call (.function name)) :: (take ++ (releaseCode (space + result)).map .instr)))

/-- Code of expressions, which draws the numbers of its labels from the first to the second. -/
inductive ExprCode (env : Env) : Nat → List TextItem → Nat → Prop
  | nothing (first : Nat) : ExprCode env first [] first
  | append {first middle last : Nat} {before after : List TextItem}
      (left : ExprCode env first before middle) (right : ExprCode env middle after last) :
      ExprCode env first (before ++ after) last
  | computation {first : Nat} {instr : Instr} (computes : instr.isComputation = true) :
      ExprCode env first [.instr instr] first
  | service {first : Nat} {name : String} (known : (env.service? name).isSome = true) :
      ExprCode env first [.instr (.call (.function name))] first
  | call {first middle last : Nat} {name : String} {decl : FunDecl} {space result : Nat}
      {args take : List TextItem} (own : env.service? name = none)
      (signed : env.signature name = .ok decl)
      (argSpace : env.layout.slotsSize decl.params = .ok space)
      (resultSpace : env.layout.slotSize decl.ret = .ok result)
      (arguments : ExprCode env first args middle) (takes : ExprCode env middle take last) :
      ExprCode env first (callItems name space result args take) last
  | shortCircuit {first middle last : Nat} {kind : Gen.ShortCircuit}
      (known : kind = .or ∨ kind = .and) {left right : List TextItem} {leftReg rightReg : Reg}
      {res : VReg} (lhs : ExprCode env (first + 1) left middle)
      (rhs : ExprCode env middle right last) :
      ExprCode env first (kind.code first left leftReg right rightReg (.virt res)) last

/-- Code of statements inside a loop, or inside no loop. -/
inductive StmtCode (env : Env) (epilogue : Label) :
    Option LoopLabels → Nat → List TextItem → Nat → Prop
  | expr {labels : Option LoopLabels} {first last : Nat} {code : List TextItem}
      (computes : ExprCode env first code last) : StmtCode env epilogue labels first code last
  | append {labels : Option LoopLabels} {first middle last : Nat} {before after : List TextItem}
      (left : StmtCode env epilogue labels first before middle)
      (right : StmtCode env epilogue labels middle after last) :
      StmtCode env epilogue labels first (before ++ after) last
  | jump {labels : Option LoopLabels} {first : Nat} {target : Label}
      (known : target ∈ Stmt.exits epilogue labels) :
      StmtCode env epilogue labels first [.instr (.jump target)] first
  | loop {labels : Option LoopLabels} {first middle last : Nat} {cond body : List TextItem}
      {reg : Reg} (test : ExprCode env (first + 1) cond middle)
      (inner : StmtCode env epilogue (some (Stmt.loopLabels first)) middle body last) :
      StmtCode env epilogue labels first (Stmt.loopCode first cond reg body) last
  | branch {labels : Option LoopLabels} {first middle last : Nat} {cond yes : List TextItem}
      {reg : Reg} (test : ExprCode env (first + 1) cond middle)
      (taken : StmtCode env epilogue labels middle yes last) :
      StmtCode env epilogue labels first (Stmt.branchCode first cond reg yes) last
  | branchElse {labels : Option LoopLabels} {first middle behind last : Nat}
      {cond yes no : List TextItem} {reg : Reg} (test : ExprCode env (first + 1) cond middle)
      (taken : StmtCode env epilogue labels middle yes behind)
      (other : StmtCode env epilogue labels behind no last) :
      StmtCode env epilogue labels first (Stmt.branchElseCode first cond reg yes no) last

theorem Instr.isComputation_store {src : Reg} (answers : src = .zero ∨ ∃ v, src = .virt v)
    (op : StoreOp) (offset : Int32) (base : Reg) :
    (store op src offset base).isComputation = true := by
  rcases answers with rfl | ⟨v, rfl⟩ <;> rfl

theorem ExprCode.computations {env : Env} {first : Nat} {instrs : List Instr}
    (computes : ∀ instr ∈ instrs, instr.isComputation = true) :
    ExprCode env first (instrs.map .instr) first := by
  induction instrs with
  | nil => exact .nothing first
  | cons instr rest ih =>
    have here : ExprCode env first [.instr instr] first :=
      .computation (computes instr List.mem_cons_self)
    exact here.append (ih fun other member => computes other (List.mem_cons_of_mem _ member))

/-! ## Computations that write code of expressions -/

/-- What expressions answer: a virtual register, or `$zero` for no value. -/
def Reg.IsAnswer (reg : Reg) : Prop := reg = .zero ∨ ∃ v, reg = .virt v

namespace Gen

structure Wrote (env : Env) {α : Type} (answers : α → Prop) (supply : Supply)
    (generated : Generated α) : Prop where
  code : ExprCode env supply.nextLabel generated.code generated.supply.nextLabel
  regs : supply.nextReg ≤ generated.supply.nextReg
  value : answers generated.value

def Writes (env : Env) {α : Type} (answers : α → Prop) (gen : Gen α) : Prop :=
  ∀ supply generated, gen.run supply = .ok generated → Wrote env answers supply generated

variable {env : Env} {α β : Type}

theorem Writes.bind {known : α → Prop} {answers : β → Prop} {first : Gen α} {next : α → Gen β}
    (left : first.Writes env known) (right : ∀ value, known value → (next value).Writes env answers) :
    (first >>= next).Writes env answers := by
  intro supply generated runs
  obtain ⟨before, after, here, later, rfl⟩ := run_bind.1 runs
  have one := left _ _ here
  have two := right _ one.value _ _ later
  exact ⟨one.code.append two.code, one.regs.trans two.regs, two.value⟩

theorem Writes.mono {known answers : α → Prop} {gen : Gen α} (writes : gen.Writes env known)
    (weaker : ∀ value, known value → answers value) : gen.Writes env answers := by
  intro supply generated runs
  have wrote := writes _ _ runs
  exact ⟨wrote.code, wrote.regs, weaker _ wrote.value⟩

theorem writes_answer {answers : α → Prop} {value : α} (holds : answers value) :
    (answer value).Writes env answers := by
  intro supply generated runs
  cases runs
  exact ⟨.nothing _, Nat.le_refl _, holds⟩

theorem writes_pure {answers : α → Prop} {value : α} (holds : answers value) :
    (pure value : Gen α).Writes env answers :=
  writes_answer holds

theorem writes_fail {answers : α → Prop} (violation : Violation) :
    (fail violation : Gen α).Writes env answers :=
  fun _ _ runs => nomatch runs

theorem writes_lift (result : Except Violation α) :
    (lift result).Writes env fun value => result = .ok value := by
  cases result with
  | ok value => exact writes_answer rfl
  | error violation => exact writes_fail violation

theorem writes_freshReg : freshReg.Writes env fun reg => ∃ v, reg = .virt v := by
  intro supply generated runs
  cases runs
  exact ⟨.nothing _, Nat.le_succ _, _, rfl⟩

theorem writes_emit {instrs : List Instr}
    (computes : ∀ instr ∈ instrs, instr.isComputation = true) :
    (emit instrs).Writes env fun _ => True := by
  intro supply generated runs
  cases runs
  exact ⟨.computations computes, Nat.le_refl _, trivial⟩

theorem writes_compute {instrs : Reg → List Instr}
    (computes : ∀ v, (instrs (.virt v)).all Instr.isComputation = true) :
    (do
      let res ← freshReg
      emit (instrs res)
      return res).Writes env Reg.IsAnswer := by
  refine writes_freshReg.bind ?_
  rintro _ ⟨v, rfl⟩
  exact (writes_emit (List.all_eq_true.1 (computes v))).bind fun _ _ =>
    writes_pure (.inr ⟨v, rfl⟩)

/-! ## Operators -/

theorem writes_copyBytes (src : Reg) (srcOffset : Int32) (dst : Reg) (dstOffset : Int32)
    (size : Nat) : (copyBytes src srcOffset dst dstOffset size).Writes env fun _ => True := by
  refine writes_freshReg.bind ?_
  rintro _ ⟨v, rfl⟩
  refine writes_emit (List.all_eq_true.1 ?_)
  rw [List.all_flatMap]
  exact List.all_eq_true.2 fun _ _ => rfl

theorem writes_loadFrom (ty : Ty) (addr : Reg) : (loadFrom ty addr).Writes env Reg.IsAnswer :=
  writes_compute fun _ => rfl

theorem writes_constant (value : Int32) : (constant value).Writes env Reg.IsAnswer :=
  writes_compute fun _ => rfl

theorem writes_addressOfLabel (label : Label) : (addressOfLabel label).Writes env Reg.IsAnswer :=
  writes_compute fun _ => rfl

theorem writes_character (c : Char) : (character c).Writes env Reg.IsAnswer := by
  unfold character
  split
  · exact writes_compute fun _ => rfl
  · exact writes_fail _

theorem isComputation_operatorCode (op : BinOp) (res : VReg) (lhs rhs : Reg) :
    (operatorCode op (.virt res) lhs rhs).all Instr.isComputation = true := by
  cases op <;> rfl

theorem writes_shortCircuit {kind : ShortCircuit} (known : kind = .or ∨ kind = .and)
    {lhs rhs : Gen Reg} {answers : Reg → Prop} (left : lhs.Writes env answers)
    (right : rhs.Writes env answers) : (shortCircuit kind lhs rhs).Writes env Reg.IsAnswer := by
  intro supply generated runs
  obtain ⟨one, two, lowersLeft, lowersRight, value, behind, code⟩ := run_shortCircuit runs
  have first := left _ _ lowersLeft
  have second := right _ _ lowersRight
  refine ⟨?_, ?_, value ▸ .inr ⟨_, rfl⟩⟩
  · rw [code, behind]
    exact .shortCircuit known first.code second.code
  · rw [behind]
    exact first.regs.trans ((Nat.le_succ _).trans second.regs)

theorem writes_operator (op : BinOp) {lhs rhs : Gen Reg} {answers : Reg → Prop}
    (left : lhs.Writes env answers) (right : rhs.Writes env answers) :
    (operator op lhs rhs).Writes env Reg.IsAnswer := by
  unfold operator
  split
  · exact writes_shortCircuit (.inl rfl) left right
  · exact writes_shortCircuit (.inr rfl) left right
  · exact left.bind fun first _ => right.bind fun second _ => writes_compute fun res =>
      isComputation_operatorCode op res first second

end Gen

/-! ## Expressions -/

structure Lowered.Writes (env : Env) (code : Lowered) : Prop where
  addr : code.addr.Writes env Reg.IsAnswer
  val : code.val.Writes env Reg.IsAnswer

theorem Lowered.writes_ofType {env : Env} {ty : Ty} {addr val : Gen Reg}
    (first : addr.Writes env Reg.IsAnswer) (second : val.Writes env Reg.IsAnswer) :
    (ofType ty addr val).Writes env := by
  refine ⟨first, ?_⟩
  unfold ofType
  dsimp only
  split
  · exact second
  · exact first

namespace Env

variable (env : Env)

open Gen

theorem writes_storeArgs {args : List Arg} (vals : ∀ arg ∈ args, arg.val.Writes env Reg.IsAnswer)
    (offset : Int32) : (env.storeArgs offset args).Writes env fun _ => True := by
  induction args generalizing offset with
  | nil => exact writes_answer trivial
  | cons arg above ih =>
    have later : ∀ offset, (env.storeArgs offset above).Writes env fun _ => True :=
      ih fun other member => vals other (List.mem_cons_of_mem _ member)
    refine (vals arg List.mem_cons_self).bind fun reg answers => ?_
    split
    · refine (writes_lift _).bind fun size _ => ?_
      exact (writes_copyBytes reg 0 .sp offset size).bind fun _ _ => later _
    · exact (writes_emit (List.forall_mem_singleton.2
        (Instr.isComputation_store answers _ _ _))).bind fun _ _ => later _

theorem writes_callService {ret : Ty} {name : String} (known : (env.service? name).isSome = true)
    {args : List Arg} (vals : ∀ arg ∈ args, arg.val.Writes env Reg.IsAnswer) :
    (callService ret name args).Writes env Reg.IsAnswer := by
  have calls : (emit [.call (.function name)]).Writes env fun _ => True := by
    intro supply generated runs
    cases runs
    exact ⟨.service known, Nat.le_refl _, trivial⟩
  have result : (do
      emit [.call (.function name)]
      if ret.isVoid then return Reg.zero
      else
        let res ← freshReg
        emit [.move res .v0]
        return res).Writes env Reg.IsAnswer := by
    refine calls.bind fun _ _ => ?_
    split
    · exact writes_pure (.inl rfl)
    · exact writes_compute fun _ => rfl
  cases args with
  | nil => exact (@writes_answer env _ (fun _ => True) () trivial).bind fun _ _ => result
  | cons first rest =>
    refine (vals first List.mem_cons_self).bind fun reg _ => ?_
    exact (writes_emit (List.forall_mem_singleton.2 rfl)).bind fun _ _ => result

theorem writes_takeResult (ret : Ty) : (takeResult ret).Writes env Reg.IsAnswer := by
  unfold takeResult
  split
  · exact writes_answer (.inl rfl)
  split
  · exact writes_compute fun _ => rfl
  · exact writes_loadFrom _ _

theorem writes_callFunction {name : String} (own : env.service? name = none) {args : List Arg}
    (vals : ∀ arg ∈ args, arg.val.Writes env Reg.IsAnswer) :
    (env.callFunction name args).Writes env Reg.IsAnswer := by
  intro supply generated runs
  obtain ⟨decl, space, result, stored, taken, signed, argSpace, resultSpace, stores, takes, rfl⟩ :=
    run_callFunction_parts runs
  have arguments := env.writes_storeArgs (fun arg member => vals arg (List.mem_reverse.1 member)) 0
    _ _ stores
  have answer := env.writes_takeResult decl.ret _ _ takes
  exact ⟨.call own signed argSpace resultSpace arguments.code answer.code,
    arguments.regs.trans answer.regs, answer.value⟩

theorem writes_call (ret : Ty) (name : String) {args : List Arg}
    (vals : ∀ arg ∈ args, arg.val.Writes env Reg.IsAnswer) :
    (env.call ret name args).Writes env := by
  unfold call
  cases known : env.service? name with
  | some service =>
    have code := @writes_callService env ret name (by rw [known]; rfl) args vals
    exact ⟨code, code⟩
  | none =>
    have code := env.writes_callFunction known vals
    exact ⟨code, code⟩

theorem writes_varAddr (id : DeclId) (name : String) :
    (env.varAddr id name).Writes env Reg.IsAnswer := by
  refine (writes_lift _).bind fun storage _ => ?_
  split
  · exact writes_pure (.inr ⟨_, rfl⟩)
  · exact writes_addressOfLabel _
  · exact writes_compute fun _ => rfl
  · exact writes_compute fun _ => rfl

theorem writes_load {addr : Gen Reg} (place : addr.Writes env Reg.IsAnswer) (ty : Ty) :
    (do loadFrom ty (← addr)).Writes env Reg.IsAnswer :=
  place.bind fun _ _ => writes_loadFrom _ _

theorem writes_var (ty : Ty) (id : DeclId) (name : String) : (env.var ty id name).Writes env := by
  have place : (env.varAddr id name).Writes env Reg.IsAnswer := env.writes_varAddr id name
  refine Lowered.writes_ofType place ?_
  split
  · exact writes_answer (.inr ⟨_, rfl⟩)
  · exact env.writes_load place ty

theorem writes_element (ty : Ty) {position : Gen Reg} (number : position.Writes env Reg.IsAnswer)
    (base : Reg) :
    (do
      let number ← position
      let size ← Gen.lift (env.layout.size ty)
      let res ← Gen.freshReg
      Gen.emit [.loadImm res (.ofNat size), .arith .mul res number res, .arith .add res base res]
      return res).Writes env Reg.IsAnswer := by
  refine number.bind fun _ _ => (writes_lift _).bind fun _ _ => ?_
  exact writes_compute fun _ => rfl

theorem writes_index (ty arrayTy : Ty) {array position : Lowered} (base : array.Writes env)
    (number : position.Writes env) : (env.index ty arrayTy array position).Writes env := by
  suffices place : (env.index ty arrayTy array position).addr.Writes env Reg.IsAnswer from
    Lowered.writes_ofType place (env.writes_load place ty)
  unfold index Lowered.ofType
  dsimp only
  split
  · exact base.val.bind fun base _ => env.writes_element ty number.val base
  · exact base.addr.bind fun base _ => env.writes_element ty number.val base

theorem writes_member (ownerTy : Ty) (name : String) (base : Reg) :
    (match ownerTy with
      | .struct structName => do
        let offset ← Gen.lift (env.layout.fieldOffset structName name)
        let res ← Gen.freshReg
        Gen.emit [.arithImm .addi res base (.ofNat offset)]
        return res
      | _ => Gen.fail (.fieldOfNonStruct name)).Writes env Reg.IsAnswer := by
  split
  · refine (writes_lift _).bind fun _ _ => ?_
    exact writes_compute fun _ => rfl
  · exact writes_fail _

theorem writes_field (ty ownerTy : Ty) {owner : Lowered} (base : owner.Writes env) (name : String) :
    (env.field ty ownerTy owner name).Writes env := by
  suffices place : (env.field ty ownerTy owner name).addr.Writes env Reg.IsAnswer from
    Lowered.writes_ofType place (env.writes_load place ty)
  exact base.addr.bind fun base _ => env.writes_member ownerTy name base

theorem writes_store (op : StoreOp) {src : Reg} (stored : src.IsAnswer) (offset : Int32)
    (base : Reg) {reg : Reg} (answers : reg.IsAnswer) :
    (do
      emit [.store op src offset base]
      return reg).Writes env Reg.IsAnswer :=
  (writes_emit (List.forall_mem_singleton.2
    (Instr.isComputation_store stored op offset base))).bind fun _ _ => writes_pure answers

theorem writes_move {dst : Reg} (writable : dst.IsAnswer) (src : Reg) {reg : Reg}
    (answers : reg.IsAnswer) :
    (do
      emit [.move dst src]
      return reg).Writes env Reg.IsAnswer := by
  refine (writes_emit (List.forall_mem_singleton.2 ?_)).bind fun _ _ => writes_pure answers
  rcases writable with rfl | ⟨v, rfl⟩ <;> rfl

theorem isAnswer_of_promotedReg? {env : Env} {e : Expr} {reg : Reg}
    (promoted : env.promotedReg? e = some reg) : reg.IsAnswer := by
  obtain ⟨v, -, rfl⟩ := Option.map_eq_some_iff.1 promoted
  exact .inr ⟨v, rfl⟩

theorem writes_assign (ty : Ty) (target : Expr) {lhs rhs : Lowered} (left : lhs.Writes env)
    (right : rhs.Writes env) : (env.assign ty target lhs rhs).Writes env := by
  refine Lowered.writes_ofType (left.addr.bind fun dst writable => ?_)
    (right.val.bind fun value known => ?_)
  · split
    · refine right.addr.bind fun src _ => (writes_lift _).bind fun size _ => ?_
      exact (writes_copyBytes src 0 dst 0 size).bind fun _ _ => writes_pure writable
    · refine right.val.bind fun value known => ?_
      split
      · exact env.writes_move writable value known
      · exact env.writes_store _ known 0 dst writable
  · split
    · next reg promoted => exact env.writes_move (isAnswer_of_promotedReg? promoted) value known
    · exact left.addr.bind fun dst _ => env.writes_store _ known 0 dst known

end Env

namespace Expr

open Gen

mutual

theorem writes_lower (env : Env) : (e : Expr) → (e.lower env).Writes env
  | intLit _ value => Lowered.writes_ofType (writes_fail _) (writes_constant value)
  | charLit _ value => Lowered.writes_ofType (writes_fail _) (writes_character value)
  | strLit _ text =>
    have place := (writes_lift (env.plan.stringLabel text)).bind fun label _ =>
      @writes_addressOfLabel env label
    Lowered.writes_ofType place place
  | var ty id name => env.writes_var ty id name
  | call ty name args => env.writes_call ty name (writes_lowerArgs env args)
  | binOp _ op lhs rhs =>
    Lowered.writes_ofType (writes_fail _)
      (writes_operator op (lhs.writes_lower env).val (rhs.writes_lower env).val)
  | index ty array position =>
    env.writes_index ty array.ty (array.writes_lower env) (position.writes_lower env)
  | field ty owner name => env.writes_field ty owner.ty (owner.writes_lower env) name
  | deref ty pointer =>
    have place := (pointer.writes_lower env).val
    Lowered.writes_ofType place (env.writes_load place ty)
  | addrOf _ operand =>
    have place := (operand.writes_lower env).addr
    Lowered.writes_ofType place place
  | sizeOf _ _ =>
    Lowered.writes_ofType (writes_fail _) ((writes_lift _).bind fun _ _ => writes_constant _)
  | cast _ operand =>
    have code := operand.writes_lower env
    Lowered.writes_ofType code.addr code.val
  | assign ty lhs rhs => env.writes_assign ty lhs (lhs.writes_lower env) (rhs.writes_lower env)

theorem writes_lowerArgs (env : Env) :
    (args : List Expr) → ∀ arg ∈ lowerArgs env args, arg.val.Writes env Reg.IsAnswer
  | [], _, member => nomatch member
  | first :: rest, arg, member => by
    rcases List.mem_cons.1 member with rfl | later
    · exact (first.writes_lower env).val
    · exact writes_lowerArgs env rest arg later

end

end Expr

/-! ## Statements -/

namespace Stmt

structure Wrote (env : Env) (epilogue : Label) (labels : Option LoopLabels) (supply : Supply)
    (generated : Generated Unit) : Prop where
  code : StmtCode env epilogue labels supply.nextLabel generated.code generated.supply.nextLabel
  regs : supply.nextReg ≤ generated.supply.nextReg

def Writes (env : Env) (epilogue : Label) (labels : Option LoopLabels) (gen : Gen Unit) : Prop :=
  ∀ supply generated, gen.run supply = .ok generated →
    Wrote env epilogue labels supply generated

variable {env : Env} {epilogue : Label} {labels : Option LoopLabels}

theorem writes_jump {target : Label} (known : target ∈ exits epilogue labels) :
    Writes env epilogue labels (Gen.emit [.jump target]) := by
  intro supply generated runs
  cases runs
  exact ⟨.jump known, Nat.le_refl _⟩

theorem Writes.behind {α : Type} {answers : α → Prop} {first : Gen α} {next : α → Gen Unit}
    (left : first.Writes env answers)
    (right : ∀ value, answers value → Writes env epilogue labels (next value)) :
    Writes env epilogue labels (first >>= next) := by
  intro supply generated runs
  obtain ⟨before, after, here, later, rfl⟩ := Gen.run_bind.1 runs
  have one := left _ _ here
  have two := right _ one.value _ _ later
  exact ⟨.append (.expr one.code) two.code, one.regs.trans two.regs⟩

theorem writes_returnValue (ty : Ty) {val : Gen Reg} (value : val.Writes env Reg.IsAnswer) :
    Writes env epilogue labels (env.returnValue ty val epilogue) := by
  have leave : Writes env epilogue labels (Gen.emit [.jump epilogue]) :=
    writes_jump List.mem_cons_self
  refine .behind value fun reg answers => ?_
  split
  · refine .behind (Gen.writes_lift _) fun size _ => ?_
    exact .behind (Gen.writes_copyBytes reg 0 .fp resultOffset size) fun _ _ => leave
  split
  · exact .behind (@Gen.writes_answer env _ (fun _ => True) () trivial) fun _ _ => leave
  · exact .behind (Gen.writes_emit (List.forall_mem_singleton.2
      (Instr.isComputation_store answers _ _ _))) fun _ _ => leave

theorem writes_loop {cond : Expr} {body : Stmt}
    (inside : ∀ loop, Writes env epilogue (some loop) (body.lower env epilogue (some loop))) :
    Writes env epilogue labels ((loop cond body).lower env epilogue labels) := by
  intro supply generated runs
  obtain ⟨test, inner, lowersTest, lowersBody, behind, code⟩ := run_loop runs
  have one := (cond.writes_lower env).val _ _ lowersTest
  have two := inside _ _ _ lowersBody
  refine ⟨?_, ?_⟩
  · rw [code, behind]
    exact .loop one.code two.code
  · rw [behind]
    exact one.regs.trans two.regs

theorem writes_branch {cond : Expr} {yes : Stmt}
    (taken : Writes env epilogue labels (yes.lower env epilogue labels)) :
    Writes env epilogue labels ((branch cond yes none).lower env epilogue labels) := by
  intro supply generated runs
  obtain ⟨test, inner, lowersTest, lowersYes, behind, code⟩ := run_branch runs
  have one := (cond.writes_lower env).val _ _ lowersTest
  have two := taken _ _ lowersYes
  refine ⟨?_, ?_⟩
  · rw [code, behind]
    exact .branch one.code two.code
  · rw [behind]
    exact one.regs.trans two.regs

theorem writes_branchElse {cond : Expr} {yes no : Stmt}
    (taken : Writes env epilogue labels (yes.lower env epilogue labels))
    (other : Writes env epilogue labels (no.lower env epilogue labels)) :
    Writes env epilogue labels ((branch cond yes (some no)).lower env epilogue labels) := by
  intro supply generated runs
  obtain ⟨test, first, second, lowersTest, lowersYes, lowersNo, behind, code⟩ := run_branchElse runs
  have one := (cond.writes_lower env).val _ _ lowersTest
  have two := taken _ _ lowersYes
  have three := other _ _ lowersNo
  refine ⟨?_, ?_⟩
  · rw [code, behind]
    exact .branchElse one.code two.code three.code
  · rw [behind]
    exact one.regs.trans (two.regs.trans three.regs)

mutual

theorem writes_lower (env : Env) (epilogue : Label) (labels : Option LoopLabels) :
    (stmt : Stmt) → Writes env epilogue labels (stmt.lower env epilogue labels)
  | block _ stmts => writes_lowerAll env epilogue labels stmts
  | loop _ body => writes_loop fun loop => body.writes_lower env epilogue (some loop)
  | branch _ yes none => writes_branch (yes.writes_lower env epilogue labels)
  | branch _ yes (some no) =>
    writes_branchElse (yes.writes_lower env epilogue labels) (no.writes_lower env epilogue labels)
  | ret none => writes_jump List.mem_cons_self
  | ret (some value) => writes_returnValue value.ty (value.writes_lower env).val
  | eval expr => by
    intro supply generated runs
    obtain ⟨computed, lowers, behind, code⟩ := run_eval runs
    have wrote := (expr.writes_lower env).val _ _ lowers
    exact ⟨by rw [code, behind]; exact .expr wrote.code, by rw [behind]; exact wrote.regs⟩
  | breakLoop => by
    unfold lower
    cases labels with
    | none => exact fun _ _ runs => nomatch runs
    | some loop => exact writes_jump (by simp [exits])
  | continueLoop => by
    unfold lower
    cases labels with
    | none => exact fun _ _ runs => nomatch runs
    | some loop => exact writes_jump (by simp [exits])

theorem writes_lowerAll (env : Env) (epilogue : Label) (labels : Option LoopLabels) :
    (stmts : List Stmt) → Writes env epilogue labels (lowerAll env epilogue labels stmts)
  | [] => by
    intro supply generated runs
    cases runs
    exact ⟨.expr (.nothing _), Nat.le_refl _⟩
  | first :: rest => by
    intro supply generated runs
    obtain ⟨one, others, lowers, later, behind, code⟩ := run_lowerAll_cons runs
    have here := first.writes_lower env epilogue labels _ _ lowers
    have next := writes_lowerAll env epilogue labels rest _ _ later
    refine ⟨?_, ?_⟩
    · rw [code, behind]
      exact .append here.code next.code
    · rw [behind]
      exact here.regs.trans next.regs

end

end Stmt

end MipsBackend
