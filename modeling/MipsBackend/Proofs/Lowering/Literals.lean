import MipsBackend.Proofs.Storage.StructLayout
import MipsBackend.Proofs.WellFormed.Lowering

/-!
# Literals are found

Lowering looks up a label for a string literal only if the literal stands in the expression, whether
its value or its address is asked for. Planning has given a label to each literal that stands in a
function, so whatever else may be wrong with a program, no look-up of a literal fails
(`Program.findsTexts_generate`).
-/

namespace MipsBackend

/-! ## Look-ups and calculations -/

/-- The computation does not stop at a string literal that has no label. -/
def FindsTexts {α : Type} (result : Except Violation α) : Prop :=
  ∀ text, result ≠ .error (.uninternedString text)

namespace FindsTexts

variable {α β : Type}

theorem ok (value : α) : FindsTexts (.ok value) := fun _ => nofun

theorem bind {first : Except Violation α} {next : α → Except Violation β} (left : FindsTexts first)
    (right : ∀ value, first = .ok value → FindsTexts (next value)) :
    FindsTexts (first >>= next) := by
  intro text fails
  rcases bind_eq_error.1 fails with here | ⟨value, known, there⟩
  · exact left text here
  · exact right value known text there

theorem map {first : Except Violation α} (finds : FindsTexts first) (change : α → β) :
    FindsTexts (first.map change) :=
  fun text fails => finds text (map_eq_error.1 fails)

end FindsTexts

namespace Layout

variable (layout : Layout)

theorem findsTexts_struct (name : String) : FindsTexts (layout.struct name) := by
  unfold struct
  split
  · exact .ok _
  · exact nofun

theorem findsTexts_structExtent (depth : Nat) (name : String) :
    FindsTexts (layout.structExtent depth name) := by
  induction depth generalizing name with
  | zero => exact (layout.findsTexts_struct name).bind fun _ _ => nofun
  | succ depth ih =>
    refine (layout.findsTexts_struct name).bind fun decl _ => .bind ?_ fun _ _ => .ok _
    intro text fails
    obtain ⟨field, -, inner, -, there⟩ := fieldsExtent_eq_error fails
    exact ih inner text there

theorem findsTexts_extent (ty : Ty) : FindsTexts (layout.extent ty) := by
  intro text fails
  obtain ⟨name, -, here⟩ := Ty.extent_eq_error fails
  exact layout.findsTexts_structExtent _ name text here

theorem findsTexts_size (ty : Ty) : FindsTexts (layout.size ty) :=
  (layout.findsTexts_extent ty).map _

theorem findsTexts_slotSize (ty : Ty) : FindsTexts (layout.slotSize ty) := by
  unfold slotSize
  split
  · exact .ok _
  · exact (layout.findsTexts_size ty).map _

theorem findsTexts_slotsSize (params : List VarDecl) : FindsTexts (layout.slotsSize params) := by
  induction params with
  | nil => exact .ok _
  | cons first rest ih =>
    exact (layout.findsTexts_slotSize first.ty).bind fun _ _ => ih.bind fun _ _ => .ok _

theorem findsTexts_fieldOffset (owner name : String) :
    FindsTexts (layout.fieldOffset owner name) := by
  refine (layout.findsTexts_struct owner).bind fun decl _ text fails => ?_
  rcases offsetBehind_eq_error fails with other | ⟨field, -, here⟩
  · cases other
  · exact layout.findsTexts_extent field.ty text here

theorem findsTexts_paramPlaces (offset : Nat) (params : List VarDecl) :
    FindsTexts (layout.paramPlaces offset params) := by
  induction params generalizing offset with
  | nil => exact .ok _
  | cons param above ih =>
    exact (layout.findsTexts_slotSize param.ty).bind fun _ _ => (ih _).bind fun _ _ => .ok _

theorem findsTexts_localPlaces (promotion : Promotion) (space : Nat) (decls : List VarDecl) :
    FindsTexts (layout.localPlaces promotion space decls) := by
  induction decls generalizing space with
  | nil => exact .ok _
  | cons decl below ih =>
    unfold localPlaces
    split
    · exact (ih space).bind fun _ _ => .ok _
    · exact (layout.findsTexts_size decl.ty).bind fun _ _ => (ih _).bind fun _ _ => .ok _

end Layout

theorem MemoryPlan.findsTexts_addDecl (layout : Layout) (promotion : Promotion) (plan : MemoryPlan)
    (decl : Decl) : FindsTexts (plan.addDecl layout promotion decl) := by
  cases decl with
  | struct decl | funDecl decl => exact .ok _
  | var decl => exact (layout.findsTexts_size decl.ty).bind fun _ _ => .ok _
  | funDef fn =>
    have result : FindsTexts (layout.resultSize fn.ret) := by
      rw [Layout.resultSize_eq_slotSize]
      exact layout.findsTexts_slotSize fn.ret
    refine result.bind fun size _ => (layout.findsTexts_paramPlaces _ _).bind fun params _ => ?_
    exact (layout.findsTexts_localPlaces promotion 0 _).bind fun _ _ => .ok _

theorem Program.findsTexts_memoryPlan (program : Program) (promotion : Promotion) :
    FindsTexts (program.memoryPlan promotion) := by
  unfold memoryPlan
  generalize MemoryPlan.empty = plan
  induction program.decls generalizing plan with
  | nil => exact .ok _
  | cons decl rest ih =>
    rw [List.foldlM_cons]
    exact (MemoryPlan.findsTexts_addDecl _ _ _ _).bind fun next _ => ih next

/-! ## Code -/

namespace Gen

variable {α β : Type}

def FindsTexts (gen : Gen α) : Prop := ∀ supply, MipsBackend.FindsTexts (gen.run supply)

theorem FindsTexts.bind {first : Gen α} {next : α → Gen β} (left : first.FindsTexts)
    (right : ∀ value, (next value).FindsTexts) : (first >>= next).FindsTexts := by
  intro supply text fails
  change followedBy first next supply = .error (.uninternedString text) at fails
  unfold followedBy at fails
  split at fails
  · next violation here =>
    cases fails
    exact left supply text here
  · next before here =>
    split at fails
    · next violation there =>
      cases fails
      exact right before.value before.supply text there
    · cases fails

theorem Succeeds.findsTexts {gen : Gen α} (succeeds : gen.Succeeds) : gen.FindsTexts := by
  intro supply text fails
  obtain ⟨generated, runs⟩ := succeeds supply
  rw [runs] at fails
  cases fails

theorem findsTexts_fail {violation : Violation}
    (other : ∀ text, violation ≠ .uninternedString text) :
    (fail violation : Gen α).FindsTexts :=
  fun _ text fails => other text (Except.error.inj fails)

theorem findsTexts_lift {result : Except Violation α} (finds : MipsBackend.FindsTexts result) :
    (lift result).FindsTexts := by
  cases result with
  | ok value => exact (succeeds_answer value).findsTexts
  | error violation => exact findsTexts_fail fun text same => finds text (congrArg _ same)

theorem findsTexts_character (c : Char) : (character c).FindsTexts := by
  unfold character
  split
  · exact (succeeds_compute _).findsTexts
  · exact findsTexts_fail nofun

theorem findsTexts_operator (op : BinOp) {lhs rhs : Gen Reg} (left : lhs.FindsTexts)
    (right : rhs.FindsTexts) : (operator op lhs rhs).FindsTexts := by
  have circuit : ∀ kind, (shortCircuit kind lhs rhs).FindsTexts := fun kind =>
    succeeds_freshLabel.findsTexts.bind fun _ => left.bind fun _ =>
      succeeds_freshReg.findsTexts.bind fun res => (succeeds_emit _).findsTexts.bind fun _ =>
        right.bind fun _ => Succeeds.findsTexts ((succeeds_emit _).bind fun _ =>
          (succeeds_label _).bind fun _ => (succeeds_emit _).bind fun _ =>
            (succeeds_label _).bind fun _ => succeeds_pure res)
  unfold operator
  split
  · exact circuit _
  · exact circuit _
  · exact left.bind fun _ => right.bind fun _ => (succeeds_compute _).findsTexts

end Gen

structure Lowered.FindsTexts (code : Lowered) : Prop where
  addr : code.addr.FindsTexts
  val : code.val.FindsTexts

theorem Lowered.findsTexts_ofType {ty : Ty} {addr val : Gen Reg} (place : addr.FindsTexts)
    (value : val.FindsTexts) : (ofType ty addr val).FindsTexts := by
  refine ⟨place, ?_⟩
  unfold ofType
  dsimp only
  split
  · exact value
  · exact place

namespace Env

variable {env : Env}

open Gen

theorem findsTexts_storeArgs {args : List Arg} (vals : ∀ arg ∈ args, arg.val.FindsTexts)
    (offset : Int32) : (env.storeArgs offset args).FindsTexts := by
  induction args generalizing offset with
  | nil => exact (succeeds_answer ()).findsTexts
  | cons arg above ih =>
    have later := ih fun other member => vals other (List.mem_cons_of_mem _ member)
    refine (vals arg List.mem_cons_self).bind fun reg => ?_
    split
    · refine (findsTexts_lift (env.layout.findsTexts_size _)).bind fun _ => ?_
      exact (succeeds_copyBytes _ _ _ _ _).findsTexts.bind fun _ => later _
    · exact (succeeds_emit _).findsTexts.bind fun _ => later _

theorem findsTexts_callService (ret : Ty) (name : String) {args : List Arg}
    (vals : ∀ arg ∈ args, arg.val.FindsTexts) : (callService ret name args).FindsTexts := by
  have result : (do
      emit [.call (.function name)]
      if ret.isVoid then return Reg.zero
      else
        let res ← freshReg
        emit [.move res .v0]
        return res).FindsTexts := by
    refine (succeeds_emit _).findsTexts.bind fun _ => ?_
    split
    · exact (succeeds_pure _).findsTexts
    · exact (succeeds_compute _).findsTexts
  cases args with
  | nil => exact (succeeds_answer ()).findsTexts.bind fun _ => result
  | cons first rest =>
    exact (vals first List.mem_cons_self).bind fun reg =>
      (succeeds_emit _).findsTexts.bind fun _ => result

theorem findsTexts_signature (name : String) : MipsBackend.FindsTexts (env.signature name) := by
  unfold signature
  split
  · exact .ok _
  · exact nofun

theorem findsTexts_callFunction (name : String) {args : List Arg}
    (vals : ∀ arg ∈ args, arg.val.FindsTexts) : (env.callFunction name args).FindsTexts := by
  refine (findsTexts_lift (env.findsTexts_signature name)).bind fun signature => ?_
  refine (findsTexts_lift (env.layout.findsTexts_slotsSize _)).bind fun space => ?_
  refine (succeeds_reserve _).findsTexts.bind fun _ => (findsTexts_storeArgs
    (fun arg member => vals arg (List.mem_reverse.1 member)) 0).bind fun _ => ?_
  refine (findsTexts_lift (env.layout.findsTexts_slotSize _)).bind fun result => ?_
  exact Succeeds.findsTexts ((succeeds_reserve _).bind fun _ => (succeeds_emit _).bind fun _ =>
    (succeeds_takeResult _).bind fun res => (succeeds_release _).bind fun _ => succeeds_pure res)

theorem findsTexts_call (ret : Ty) (name : String) {args : List Arg}
    (vals : ∀ arg ∈ args, arg.val.FindsTexts) : (env.call ret name args).FindsTexts := by
  unfold call
  cases env.service? name with
  | some service =>
    have code := findsTexts_callService ret name vals
    exact ⟨code, code⟩
  | none =>
    have code := @findsTexts_callFunction env name args vals
    exact ⟨code, code⟩

theorem findsTexts_load {addr : Gen Reg} (place : addr.FindsTexts) (ty : Ty) :
    (do loadFrom ty (← addr)).FindsTexts :=
  place.bind fun _ => (succeeds_loadFrom _ _).findsTexts

theorem findsTexts_storageOf (plan : MemoryPlan) (id : DeclId) (name : String) :
    MipsBackend.FindsTexts (plan.storageOf id name) := by
  unfold MemoryPlan.storageOf
  split
  · exact .ok _
  · exact nofun

theorem findsTexts_var (ty : Ty) (id : DeclId) (name : String) :
    (env.var ty id name).FindsTexts := by
  have place : (env.varAddr id name).FindsTexts := by
    refine (findsTexts_lift (findsTexts_storageOf env.plan id name)).bind fun storage => ?_
    split
    · exact (succeeds_pure _).findsTexts
    all_goals exact (succeeds_compute _).findsTexts
  refine Lowered.findsTexts_ofType place ?_
  split
  · exact (succeeds_answer _).findsTexts
  · exact findsTexts_load place ty

theorem findsTexts_index (ty arrayTy : Ty) {array position : Lowered} (base : array.FindsTexts)
    (number : position.FindsTexts) : (env.index ty arrayTy array position).FindsTexts := by
  have rest : ∀ base : Reg, (do
      let number ← position.val
      let size ← Gen.lift (env.layout.size ty)
      let res ← Gen.freshReg
      Gen.emit [.loadImm res (.ofNat size), .arith .mul res number res, .arith .add res base res]
      return res).FindsTexts :=
    fun base => number.val.bind fun _ =>
      (findsTexts_lift (env.layout.findsTexts_size ty)).bind fun _ =>
        (succeeds_compute _).findsTexts
  suffices place : (env.index ty arrayTy array position).addr.FindsTexts from
    Lowered.findsTexts_ofType place (findsTexts_load place ty)
  unfold index Lowered.ofType
  dsimp only
  split
  · exact base.val.bind rest
  · exact base.addr.bind rest

theorem findsTexts_field (ty ownerTy : Ty) {owner : Lowered} (base : owner.FindsTexts)
    (name : String) : (env.field ty ownerTy owner name).FindsTexts := by
  suffices place : (env.field ty ownerTy owner name).addr.FindsTexts from
    Lowered.findsTexts_ofType place (findsTexts_load place ty)
  refine base.addr.bind fun _ => ?_
  split
  · refine (findsTexts_lift (env.layout.findsTexts_fieldOffset _ _)).bind fun _ => ?_
    exact (succeeds_compute _).findsTexts
  · exact findsTexts_fail nofun

theorem findsTexts_assign (ty : Ty) (target : Expr) {lhs rhs : Lowered} (left : lhs.FindsTexts)
    (right : rhs.FindsTexts) : (env.assign ty target lhs rhs).FindsTexts := by
  refine Lowered.findsTexts_ofType (left.addr.bind fun dst => ?_) (right.val.bind fun value => ?_)
  · split
    · refine right.addr.bind fun src => ?_
      refine (findsTexts_lift (env.layout.findsTexts_size _)).bind fun _ => ?_
      exact Succeeds.findsTexts ((succeeds_copyBytes _ _ _ _ _).bind fun _ => succeeds_pure _)
    · refine right.val.bind fun value => ?_
      split <;> exact Succeeds.findsTexts ((succeeds_emit _).bind fun _ => succeeds_pure _)
  · split
    · exact Succeeds.findsTexts ((succeeds_emit _).bind fun _ => succeeds_pure _)
    · exact left.addr.bind fun dst =>
        Succeeds.findsTexts ((succeeds_emit _).bind fun _ => succeeds_pure _)

theorem findsTexts_text {text : String} (known : text ∈ env.plan.strings) :
    (do addressOfLabel (← lift (env.plan.stringLabel text))).FindsTexts := by
  obtain ⟨label, found⟩ :=
    Option.isSome_iff_exists.1 (Std.ExtTreeMap.mem_iff_isSome_getElem?.1 known)
  have labelled : env.plan.stringLabel text = .ok label := by
    rw [MemoryPlan.stringLabel, found]
  exact (succeeds_lift_bind labelled (succeeds_compute _)).findsTexts

end Env

/-! ## Expressions and statements -/

/-- The literals among the expressions have labels. -/
def MemoryPlan.Labels (plan : MemoryPlan) (parts : List Expr) : Prop :=
  ∀ part ∈ parts, ∀ text, part.stringLiteral? = some text → text ∈ plan.strings

theorem MemoryPlan.labels_append {plan : MemoryPlan} {first second : List Expr} :
    plan.Labels (first ++ second) ↔ plan.Labels first ∧ plan.Labels second :=
  List.forall_mem_append

theorem MemoryPlan.labels_cons {plan : MemoryPlan} {first : Expr} {rest : List Expr} :
    plan.Labels (first :: rest) ↔
      (∀ text, first.stringLiteral? = some text → text ∈ plan.strings) ∧ plan.Labels rest :=
  List.forall_mem_cons

namespace Expr

open Gen MemoryPlan

variable {env : Env}

mutual

theorem findsTexts_lower : (e : Expr) → env.plan.Labels e.subterms → (e.lower env).FindsTexts
  | intLit _ _, _ =>
    Lowered.findsTexts_ofType (findsTexts_fail nofun) (succeeds_compute _).findsTexts
  | charLit _ value, _ =>
    Lowered.findsTexts_ofType (findsTexts_fail nofun) (findsTexts_character value)
  | strLit _ text, labels =>
    have place := Env.findsTexts_text ((labels_cons.1 labels).1 text rfl)
    Lowered.findsTexts_ofType place place
  | var ty id name, _ => Env.findsTexts_var ty id name
  | call ty name args, labels =>
    Env.findsTexts_call ty name (findsTexts_lowerArgs args (labels_cons.1 labels).2)
  | binOp _ op lhs rhs, labels =>
    have parts := labels_append.1 (labels_cons.1 labels).2
    Lowered.findsTexts_ofType (findsTexts_fail nofun) (findsTexts_operator op
      (lhs.findsTexts_lower parts.1).val (rhs.findsTexts_lower parts.2).val)
  | index ty array position, labels =>
    have parts := labels_append.1 (labels_cons.1 labels).2
    Env.findsTexts_index ty array.ty (array.findsTexts_lower parts.1)
      (position.findsTexts_lower parts.2)
  | field ty owner name, labels =>
    Env.findsTexts_field ty owner.ty (owner.findsTexts_lower (labels_cons.1 labels).2) name
  | deref ty pointer, labels =>
    have place := (pointer.findsTexts_lower (labels_cons.1 labels).2).val
    Lowered.findsTexts_ofType place (Env.findsTexts_load place ty)
  | addrOf _ operand, labels =>
    have place := (operand.findsTexts_lower (labels_cons.1 labels).2).addr
    Lowered.findsTexts_ofType place place
  | sizeOf _ measured, _ =>
    Lowered.findsTexts_ofType (findsTexts_fail nofun)
      ((findsTexts_lift (env.layout.findsTexts_size measured)).bind fun _ =>
        (succeeds_compute _).findsTexts)
  | cast _ operand, labels =>
    have code := operand.findsTexts_lower (labels_cons.1 labels).2
    Lowered.findsTexts_ofType code.addr code.val
  | assign ty lhs rhs, labels =>
    have parts := labels_append.1 (labels_cons.1 labels).2
    Env.findsTexts_assign ty lhs (lhs.findsTexts_lower parts.1) (rhs.findsTexts_lower parts.2)

theorem findsTexts_lowerArgs : (args : List Expr) → env.plan.Labels (listSubterms args) →
    ∀ arg ∈ lowerArgs env args, arg.val.FindsTexts
  | [], _, _, member => nomatch member
  | first :: rest, labels, arg, member => by
    have parts := labels_append.1 labels
    rcases List.mem_cons.1 member with rfl | later
    · exact (first.findsTexts_lower parts.1).val
    · exact findsTexts_lowerArgs rest parts.2 arg later

end

end Expr

namespace Stmt

open Gen MemoryPlan

variable {env : Env} {epilogue : Label}

theorem findsTexts_returnValue (ty : Ty) {val : Gen Reg} (value : val.FindsTexts) :
    (env.returnValue ty val epilogue).FindsTexts := by
  refine value.bind fun reg => ?_
  split
  · refine (findsTexts_lift (env.layout.findsTexts_size ty)).bind fun _ => ?_
    exact Succeeds.findsTexts ((succeeds_copyBytes _ _ _ _ _).bind fun _ => succeeds_emit _)
  split
  · exact Succeeds.findsTexts ((succeeds_answer ()).bind fun _ => succeeds_emit _)
  · exact Succeeds.findsTexts ((succeeds_emit _).bind fun _ => succeeds_emit _)

mutual

theorem findsTexts_lower (labels : Option LoopLabels) : (stmt : Stmt) →
    env.plan.Labels stmt.exprs → (stmt.lower env epilogue labels).FindsTexts
  | block _ stmts, known => findsTexts_lowerAll labels stmts known
  | loop cond body, known => by
    have parts := labels_append.1 known
    refine succeeds_freshLabel.findsTexts.bind fun n => (succeeds_label _).findsTexts.bind fun _ =>
      (cond.findsTexts_lower parts.1).val.bind fun reg => (succeeds_emit _).findsTexts.bind
        fun _ => (succeeds_label _).findsTexts.bind fun _ => ?_
    exact (body.findsTexts_lower _ parts.2).bind fun _ =>
      Succeeds.findsTexts ((succeeds_emit _).bind fun _ => succeeds_label _)
  | branch cond yes none, known => by
    have parts := labels_append.1 known
    refine succeeds_freshLabel.findsTexts.bind fun n => (cond.findsTexts_lower parts.1).val.bind
      fun reg => (succeeds_emit _).findsTexts.bind fun _ => ?_
    exact (yes.findsTexts_lower labels parts.2).bind fun _ => (succeeds_label _).findsTexts
  | branch cond yes (some no), known => by
    have parts := labels_append.1 known
    have inner := labels_append.1 parts.1
    refine succeeds_freshLabel.findsTexts.bind fun n => (cond.findsTexts_lower inner.1).val.bind
      fun reg => (succeeds_emit _).findsTexts.bind fun _ => ?_
    refine (yes.findsTexts_lower labels inner.2).bind fun _ =>
      (succeeds_emit _).findsTexts.bind fun _ => (succeeds_label _).findsTexts.bind fun _ => ?_
    exact (no.findsTexts_lower labels parts.2).bind fun _ => (succeeds_label _).findsTexts
  | ret none, _ => (succeeds_emit _).findsTexts
  | ret (some value), known => findsTexts_returnValue value.ty (value.findsTexts_lower known).val
  | eval expr, known =>
    (expr.findsTexts_lower known).val.bind fun _ => (succeeds_pure _).findsTexts
  | breakLoop, _ => by
    cases labels with
    | none => exact findsTexts_fail nofun
    | some labels => exact (succeeds_emit _).findsTexts
  | continueLoop, _ => by
    cases labels with
    | none => exact findsTexts_fail nofun
    | some labels => exact (succeeds_emit _).findsTexts

theorem findsTexts_lowerAll (labels : Option LoopLabels) : (stmts : List Stmt) →
    env.plan.Labels (listExprs stmts) → (lowerAll env epilogue labels stmts).FindsTexts
  | [], _ => (succeeds_answer ()).findsTexts
  | first :: rest, known =>
    have parts := labels_append.1 known
    (first.findsTexts_lower labels parts.1).bind fun _ => findsTexts_lowerAll labels rest parts.2

end

end Stmt

/-! ## Programs -/

namespace Env

variable {env : Env}

open Gen

theorem findsTexts_lowerFunction {fn : FunDef} (labels : env.plan.Labels fn.body.exprs) :
    (env.lowerFunction fn).FindsTexts := by
  have body := @Stmt.findsTexts_lowerAll env (.epilogue fn.name) none fn.body.stmts labels
  refine (succeeds_label _).findsTexts.bind fun _ => ?_
  refine Succeeds.findsTexts ((succeeds_emit _).bind fun _ => (succeeds_reserve _).bind
    fun _ => succeeds_emit _) |>.bind fun _ => body.bind fun _ => ?_
  exact Succeeds.findsTexts ((succeeds_label _).bind fun _ => succeeds_emit _)

theorem findsTexts_lowerFunctions {functions : List FunDef}
    (labels : ∀ fn ∈ functions, env.plan.Labels fn.body.exprs) (supply : Supply) :
    MipsBackend.FindsTexts (env.lowerFunctions supply functions) := by
  induction functions generalizing supply with
  | nil => exact .ok _
  | cons fn rest ih =>
    refine .bind (findsTexts_lowerFunction (labels fn List.mem_cons_self) supply) fun own _ => ?_
    exact .bind (ih (fun other member => labels other (List.mem_cons_of_mem _ member)) _)
      fun _ _ => .ok _

end Env

theorem Program.findsTexts_generate (program : Program) (entry : String) :
    FindsTexts (program.generate entry) := by
  refine (program.findsTexts_memoryPlan _).bind fun plan planned => ?_
  have labels : ∀ fn ∈ program.functions, plan.Labels fn.body.exprs := by
    intro fn defined part member text literal
    have serves := Program.WellFormed.serves_memoryPlan planned _ (mem_functions.1 defined)
    exact serves.strings fn rfl text (List.mem_filterMap.2 ⟨part, member, literal⟩)
  split
  · exact .bind (Env.findsTexts_lowerFunctions labels _) fun _ _ => .ok _
  · exact nofun

end MipsBackend
