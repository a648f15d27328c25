import MipsBackend.Proofs.Lowering.Fragments

/-!
# What is true of all code except calls

Lowering puts code together piece by piece, and every piece that is not the code of a call is free
of calls. So a property that code without calls has, and that two pieces of code in a row have if
each of them has it, needs to be shown only for calls (`Stmt.yields_lowerAll`).
-/

namespace MipsBackend

def Instr.isCall : Instr → Bool
  | call _ => true
  | _ => false

class Compositional (holds : List TextItem → Prop) : Prop where
  uncalling : ∀ code, (∀ instr, .instr instr ∈ code → instr.isCall = false) → holds code
  append : ∀ first second, holds first → holds second → holds (first ++ second)

namespace Gen

/-- What holds of the code of every run. -/
def Yields {α : Type} (holds : List TextItem → Prop) (gen : Gen α) : Prop :=
  ∀ supply generated, gen.run supply = .ok generated → holds generated.code

variable {holds : List TextItem → Prop} [Compositional holds] {α β : Type}

theorem Yields.bind {first : Gen α} {next : α → Gen β} (left : first.Yields holds)
    (right : ∀ value, (next value).Yields holds) : (first >>= next).Yields holds := by
  intro supply generated runs
  obtain ⟨before, after, here, later, rfl⟩ := run_bind.1 runs
  exact Compositional.append _ _ (left _ _ here) (right _ _ _ later)

theorem holds_nil : holds [] := Compositional.uncalling [] fun _ member => nomatch member

theorem yields_answer (value : α) : (answer value).Yields holds := by
  intro supply generated runs
  cases runs
  exact holds_nil

theorem yields_pure (value : α) : (pure value : Gen α).Yields holds := yields_answer value

omit [Compositional holds] in
theorem yields_fail (violation : Violation) : (fail violation : Gen α).Yields holds :=
  fun _ _ runs => nomatch runs

theorem yields_lift (result : Except Violation α) : (lift result).Yields holds := by
  cases result with
  | ok value => exact yields_answer value
  | error violation => exact yields_fail violation

theorem yields_freshReg : freshReg.Yields holds := by
  intro supply generated runs
  cases runs
  exact holds_nil

theorem yields_freshLabel : freshLabel.Yields holds := by
  intro supply generated runs
  cases runs
  exact holds_nil

theorem yields_label (here : Label) : (label here).Yields holds := by
  intro supply generated runs
  cases runs
  exact Compositional.uncalling _ fun _ member => by simp at member

theorem holds_instrs {instrs : List Instr} (uncalling : instrs.all (!·.isCall) = true) :
    holds (instrs.map .instr) := by
  refine Compositional.uncalling _ fun instr member => ?_
  obtain ⟨found, here, same⟩ := List.mem_map.1 member
  obtain rfl := TextItem.instr.inj same
  simpa using List.all_eq_true.1 uncalling found here

theorem yields_emit {instrs : List Instr} (uncalling : instrs.all (!·.isCall) = true) :
    (emit instrs).Yields holds := by
  intro supply generated runs
  cases runs
  exact holds_instrs uncalling

theorem yields_compute {instrs : Reg → List Instr}
    (uncalling : ∀ res, (instrs res).all (!·.isCall) = true) :
    (do
      let res ← freshReg
      emit (instrs res)
      return res).Yields holds :=
  yields_freshReg.bind fun res => (yields_emit (uncalling res)).bind fun _ => yields_pure res

/-! ## Operators -/

theorem yields_copyBytes (src : Reg) (srcOffset : Int32) (dst : Reg) (dstOffset : Int32)
    (size : Nat) : (copyBytes src srcOffset dst dstOffset size).Yields holds := by
  refine yields_freshReg.bind fun byte => yields_emit ?_
  rw [List.all_flatMap]
  exact List.all_eq_true.2 fun _ _ => rfl

theorem yields_loadFrom (ty : Ty) (addr : Reg) : (loadFrom ty addr).Yields holds :=
  yields_compute fun _ => rfl

theorem yields_constant (value : Int32) : (constant value).Yields holds :=
  yields_compute fun _ => rfl

theorem yields_addressOfLabel (label : Label) : (addressOfLabel label).Yields holds :=
  yields_compute fun _ => rfl

theorem yields_character (c : Char) : (character c).Yields holds := by
  unfold character
  split
  · exact yields_compute fun _ => rfl
  · exact yields_fail _

theorem uncalling_operatorCode (op : BinOp) (res lhs rhs : Reg) :
    (operatorCode op res lhs rhs).all (!·.isCall) = true := by
  cases op <;> rfl

theorem yields_shortCircuit (kind : ShortCircuit) {lhs rhs : Gen Reg} (left : lhs.Yields holds)
    (right : rhs.Yields holds) : (shortCircuit kind lhs rhs).Yields holds := by
  refine yields_freshLabel.bind fun n => left.bind fun reg => yields_freshReg.bind fun res => ?_
  refine (yields_emit rfl).bind fun _ => right.bind fun other => (yields_emit rfl).bind fun _ => ?_
  refine (yields_label _).bind fun _ => (yields_emit rfl).bind fun _ => ?_
  exact (yields_label _).bind fun _ => yields_pure res

theorem yields_operator (op : BinOp) {lhs rhs : Gen Reg} (left : lhs.Yields holds)
    (right : rhs.Yields holds) : (operator op lhs rhs).Yields holds := by
  unfold operator
  split
  · exact yields_shortCircuit .or left right
  · exact yields_shortCircuit .and left right
  · exact left.bind fun first => right.bind fun second => yields_compute fun res =>
      uncalling_operatorCode op res first second

end Gen

/-! ## Expressions -/

structure Lowered.Yields (holds : List TextItem → Prop) (code : Lowered) : Prop where
  addr : code.addr.Yields holds
  val : code.val.Yields holds

theorem Lowered.yields_ofType {holds : List TextItem → Prop} {ty : Ty} {addr val : Gen Reg}
    (first : addr.Yields holds) (second : val.Yields holds) :
    (ofType ty addr val).Yields holds := by
  refine ⟨first, ?_⟩
  unfold ofType
  dsimp only
  split
  · exact second
  · exact first

namespace Env

variable {env : Env} {holds : List TextItem → Prop} [Compositional holds]

open Gen

theorem yields_storeArgs {args : List Arg} (vals : ∀ arg ∈ args, arg.val.Yields holds)
    (offset : Int32) : (env.storeArgs offset args).Yields holds := by
  induction args generalizing offset with
  | nil => exact yields_answer _
  | cons arg above ih =>
    have later : ∀ offset, (env.storeArgs offset above).Yields holds :=
      ih fun other member => vals other (List.mem_cons_of_mem _ member)
    refine (vals arg List.mem_cons_self).bind fun reg => ?_
    split
    · refine (yields_lift _).bind fun size => ?_
      exact (yields_copyBytes reg 0 .sp offset size).bind fun _ => later _
    · exact (yields_emit rfl).bind fun _ => later _

theorem yields_varAddr (id : DeclId) (name : String) : (env.varAddr id name).Yields holds := by
  refine (yields_lift _).bind fun storage => ?_
  split
  · exact yields_pure _
  · exact yields_addressOfLabel _
  · exact yields_compute fun _ => rfl
  · exact yields_compute fun _ => rfl

theorem yields_load {addr : Gen Reg} (place : addr.Yields holds) (ty : Ty) :
    (do loadFrom ty (← addr)).Yields holds :=
  place.bind fun _ => yields_loadFrom _ _

theorem yields_var (ty : Ty) (id : DeclId) (name : String) : (env.var ty id name).Yields holds := by
  have place : (env.varAddr id name).Yields holds := yields_varAddr id name
  refine Lowered.yields_ofType place ?_
  split
  · exact yields_answer _
  · exact yields_load place ty

theorem yields_element (ty : Ty) {position : Gen Reg} (number : position.Yields holds) (base : Reg) :
    (do
      let number ← position
      let size ← Gen.lift (env.layout.size ty)
      let res ← Gen.freshReg
      Gen.emit [.loadImm res (.ofNat size), .arith .mul res number res, .arith .add res base res]
      return res).Yields holds := by
  refine number.bind fun _ => (yields_lift _).bind fun _ => ?_
  exact yields_compute fun _ => rfl

theorem yields_index (ty arrayTy : Ty) {array position : Lowered} (base : array.Yields holds)
    (number : position.Yields holds) : (env.index ty arrayTy array position).Yields holds := by
  suffices place : (env.index ty arrayTy array position).addr.Yields holds from
    Lowered.yields_ofType place (yields_load place ty)
  unfold index Lowered.ofType
  dsimp only
  split
  · exact base.val.bind fun base => yields_element ty number.val base
  · exact base.addr.bind fun base => yields_element ty number.val base

theorem yields_member (ownerTy : Ty) (name : String) (base : Reg) :
    (match ownerTy with
      | .struct structName => do
        let offset ← Gen.lift (env.layout.fieldOffset structName name)
        let res ← Gen.freshReg
        Gen.emit [.arithImm .addi res base (.ofNat offset)]
        return res
      | _ => Gen.fail (.fieldOfNonStruct name)).Yields holds := by
  split
  · refine (yields_lift _).bind fun _ => ?_
    exact yields_compute fun _ => rfl
  · exact yields_fail _

theorem yields_field (ty ownerTy : Ty) {owner : Lowered} (base : owner.Yields holds)
    (name : String) : (env.field ty ownerTy owner name).Yields holds := by
  suffices place : (env.field ty ownerTy owner name).addr.Yields holds from
    Lowered.yields_ofType place (yields_load place ty)
  exact base.addr.bind fun base => yields_member ownerTy name base

theorem yields_assign (ty : Ty) (target : Expr) {lhs rhs : Lowered} (left : lhs.Yields holds)
    (right : rhs.Yields holds) : (env.assign ty target lhs rhs).Yields holds := by
  have stored : ∀ instr : Instr, [instr].all (!·.isCall) = true → ∀ reg : Reg,
      (do
        emit [instr]
        return reg).Yields holds :=
    fun instr uncalling reg => (yields_emit uncalling).bind fun _ => yields_pure reg
  refine Lowered.yields_ofType (left.addr.bind fun dst => ?_) (right.val.bind fun value => ?_)
  · split
    · refine right.addr.bind fun src => (yields_lift _).bind fun size => ?_
      exact (yields_copyBytes src 0 dst 0 size).bind fun _ => yields_pure dst
    · refine right.val.bind fun value => ?_
      split
      · exact stored _ rfl value
      · exact stored _ rfl dst
  · split
    · exact stored _ rfl value
    · exact left.addr.bind fun dst => stored _ rfl value

/-- Calls of the tree have the property if the values of their arguments have it. -/
def CallsYield (env : Env) (nodes : List Expr) (holds : List TextItem → Prop) : Prop :=
  ∀ ty name args, .call ty name args ∈ nodes →
    (∀ arg ∈ Expr.lowerArgs env args, arg.val.Yields holds) →
      (env.call ty name (Expr.lowerArgs env args)).Yields holds

end Env

namespace Expr

open Gen

variable {env : Env} {nodes : List Expr} {holds : List TextItem → Prop}

mutual

theorem yields_lower [Compositional holds] (calls : env.CallsYield nodes holds) :
    (e : Expr) → e.subterms ⊆ nodes → (e.lower env).Yields holds
  | intLit _ value, _ => Lowered.yields_ofType (yields_fail _) (yields_constant value)
  | charLit _ value, _ => Lowered.yields_ofType (yields_fail _) (yields_character value)
  | strLit _ text, _ =>
    have place := (yields_lift (env.plan.stringLabel text)).bind fun label =>
      @yields_addressOfLabel holds _ label
    Lowered.yields_ofType place place
  | var ty id name, _ => Env.yields_var ty id name
  | call ty name args, inside => by
    obtain ⟨here, parts⟩ := List.cons_subset.1 inside
    exact calls ty name args here (yields_lowerArgs calls args parts)
  | binOp _ op lhs rhs, inside => by
    obtain ⟨left, right⟩ := List.append_subset.1 (List.cons_subset.1 inside).2
    exact Lowered.yields_ofType (yields_fail _)
      (yields_operator op (lhs.yields_lower calls left).val (rhs.yields_lower calls right).val)
  | index ty array position, inside => by
    obtain ⟨left, right⟩ := List.append_subset.1 (List.cons_subset.1 inside).2
    exact Env.yields_index ty array.ty (array.yields_lower calls left)
      (position.yields_lower calls right)
  | field ty owner name, inside =>
    Env.yields_field ty owner.ty (owner.yields_lower calls (List.cons_subset.1 inside).2) name
  | deref ty pointer, inside =>
    have place := (pointer.yields_lower calls (List.cons_subset.1 inside).2).val
    Lowered.yields_ofType place (Env.yields_load place ty)
  | addrOf _ operand, inside =>
    have place := (operand.yields_lower calls (List.cons_subset.1 inside).2).addr
    Lowered.yields_ofType place place
  | sizeOf _ _, _ =>
    Lowered.yields_ofType (yields_fail _) ((yields_lift _).bind fun _ => yields_constant _)
  | cast _ operand, inside =>
    have code := operand.yields_lower calls (List.cons_subset.1 inside).2
    Lowered.yields_ofType code.addr code.val
  | assign ty lhs rhs, inside => by
    obtain ⟨left, right⟩ := List.append_subset.1 (List.cons_subset.1 inside).2
    exact Env.yields_assign ty lhs (lhs.yields_lower calls left) (rhs.yields_lower calls right)

theorem yields_lowerArgs [Compositional holds] (calls : env.CallsYield nodes holds) :
    (args : List Expr) → listSubterms args ⊆ nodes →
      ∀ arg ∈ lowerArgs env args, arg.val.Yields holds
  | [], _, _, member => nomatch member
  | first :: rest, inside, arg, member => by
    obtain ⟨here, later⟩ := List.append_subset.1 inside
    rcases List.mem_cons.1 member with rfl | listed
    · exact (first.yields_lower calls here).val
    · exact yields_lowerArgs calls rest later arg listed

end

end Expr

/-! ## Statements -/

namespace Stmt

open Gen

variable {env : Env} {nodes : List Expr} {holds : List TextItem → Prop} [Compositional holds]
  {epilogue : Label}

theorem yields_returnValue (ty : Ty) {val : Gen Reg} (value : val.Yields holds) :
    (env.returnValue ty val epilogue).Yields holds := by
  have leave : (emit [.jump epilogue]).Yields holds := yields_emit rfl
  refine value.bind fun reg => ?_
  split
  · refine (yields_lift _).bind fun size => ?_
    exact (yields_copyBytes reg 0 .fp resultOffset size).bind fun _ => leave
  split
  · exact (yields_answer ()).bind fun _ => leave
  · exact (yields_emit rfl).bind fun _ => leave

mutual

theorem yields_lower (calls : env.CallsYield nodes holds) (labels : Option LoopLabels) :
    (stmt : Stmt) → stmt.exprs ⊆ nodes → (stmt.lower env epilogue labels).Yields holds
  | block _ stmts, inside => yields_lowerAll calls labels stmts inside
  | loop cond body, inside => by
    obtain ⟨test, inner⟩ := List.append_subset.1 inside
    refine yields_freshLabel.bind fun n => (yields_label _).bind fun _ => ?_
    refine (cond.yields_lower calls test).val.bind fun reg => (yields_emit rfl).bind fun _ => ?_
    refine (yields_label _).bind fun _ => (body.yields_lower calls _ inner).bind fun _ => ?_
    exact (yields_emit rfl).bind fun _ => yields_label _
  | branch cond yes none, inside => by
    obtain ⟨test, taken⟩ := List.append_subset.1 inside
    refine yields_freshLabel.bind fun n => (cond.yields_lower calls test).val.bind fun reg => ?_
    refine (yields_emit rfl).bind fun _ => (yes.yields_lower calls labels taken).bind fun _ => ?_
    exact yields_label _
  | branch cond yes (some no), inside => by
    obtain ⟨both, other⟩ := List.append_subset.1 inside
    obtain ⟨test, taken⟩ := List.append_subset.1 both
    refine yields_freshLabel.bind fun n => (cond.yields_lower calls test).val.bind fun reg => ?_
    refine (yields_emit rfl).bind fun _ => (yes.yields_lower calls labels taken).bind fun _ => ?_
    refine (yields_emit rfl).bind fun _ => (yields_label _).bind fun _ => ?_
    exact (no.yields_lower calls labels other).bind fun _ => yields_label _
  | ret none, _ => yields_emit rfl
  | ret (some value), inside => yields_returnValue value.ty (value.yields_lower calls inside).val
  | eval expr, inside => (expr.yields_lower calls inside).val.bind fun _ => yields_pure ()
  | breakLoop, _ => by
    cases labels with
    | none => exact yields_fail _
    | some labels => exact yields_emit rfl
  | continueLoop, _ => by
    cases labels with
    | none => exact yields_fail _
    | some labels => exact yields_emit rfl

theorem yields_lowerAll (calls : env.CallsYield nodes holds) (labels : Option LoopLabels) :
    (stmts : List Stmt) → listExprs stmts ⊆ nodes → (lowerAll env epilogue labels stmts).Yields holds
  | [], _ => yields_answer ()
  | first :: rest, inside => by
    obtain ⟨here, later⟩ := List.append_subset.1 inside
    exact (first.yields_lower calls labels here).bind fun _ => yields_lowerAll calls labels rest later

end

end Stmt

end MipsBackend
