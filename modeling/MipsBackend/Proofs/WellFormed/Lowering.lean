import MipsBackend.Proofs.Lowering.Mentions
import MipsBackend.Proofs.Lowering.Functions
import MipsBackend.Proofs.WellFormed.Planning

/-!
# Well-formed programs compile

Lowering an expression of a well-formed program always leaves its value in a register, and that of
an object also its address. So none of the violations that code generation looks for occurs in the
program (`Program.generate_wellFormed`).
-/

namespace MipsBackend

namespace Gen

variable {α β : Type}

def Succeeds (gen : Gen α) : Prop := ∀ supply, ∃ generated, gen.run supply = .ok generated

theorem Succeeds.bind {first : Gen α} {next : α → Gen β} (left : first.Succeeds)
    (right : ∀ value, (next value).Succeeds) : (first >>= next).Succeeds := by
  intro supply
  obtain ⟨before, here⟩ := left supply
  obtain ⟨after, there⟩ := right before.value before.supply
  exact ⟨_, run_bind.2 ⟨before, after, here, there, rfl⟩⟩

theorem succeeds_lift_bind {result : Except Violation α} {value : α} {next : α → Gen β}
    (known : result = .ok value) (right : (next value).Succeeds) :
    (lift result >>= next).Succeeds := by
  intro supply
  obtain ⟨generated, runs⟩ := right supply
  exact ⟨generated, run_lift_bind.2 ⟨value, known, runs⟩⟩

theorem succeeds_answer (value : α) : (answer value).Succeeds := fun _ => ⟨_, rfl⟩

theorem succeeds_pure (value : α) : (pure value : Gen α).Succeeds := succeeds_answer value

theorem succeeds_emit (instrs : List Instr) : (emit instrs).Succeeds := fun _ => ⟨_, rfl⟩

theorem succeeds_label (here : Label) : (label here).Succeeds := fun _ => ⟨_, rfl⟩

theorem succeeds_freshReg : freshReg.Succeeds := fun _ => ⟨_, rfl⟩

theorem succeeds_freshLabel : freshLabel.Succeeds := fun _ => ⟨_, rfl⟩

theorem succeeds_compute (instrs : Reg → List Instr) :
    (do
      let res ← freshReg
      emit (instrs res)
      return res).Succeeds :=
  succeeds_freshReg.bind fun res => (succeeds_emit _).bind fun _ => succeeds_pure res

theorem succeeds_reserve (bytes : Nat) : (reserve bytes).Succeeds := by
  unfold reserve
  split
  · exact succeeds_emit _
  · exact succeeds_answer _

theorem succeeds_release (bytes : Nat) : (release bytes).Succeeds := by
  unfold release
  split
  · exact succeeds_emit _
  · exact succeeds_answer _

theorem succeeds_copyBytes (src : Reg) (srcOffset : Int32) (dst : Reg) (dstOffset : Int32)
    (size : Nat) : (copyBytes src srcOffset dst dstOffset size).Succeeds :=
  succeeds_freshReg.bind fun _ => succeeds_emit _

theorem succeeds_loadFrom (ty : Ty) (addr : Reg) : (loadFrom ty addr).Succeeds :=
  succeeds_compute _

theorem succeeds_character {c : Char} (ascii : c.toNat < 128) : (character c).Succeeds := by
  unfold character
  rw [if_pos ascii]
  exact succeeds_compute _

theorem succeeds_operator (op : BinOp) {lhs rhs : Gen Reg} (left : lhs.Succeeds)
    (right : rhs.Succeeds) : (operator op lhs rhs).Succeeds := by
  have circuit : ∀ kind, (shortCircuit kind lhs rhs).Succeeds := fun kind =>
    succeeds_freshLabel.bind fun _ => left.bind fun _ => succeeds_freshReg.bind fun res =>
      (succeeds_emit _).bind fun _ => right.bind fun _ => (succeeds_emit _).bind fun _ =>
        (succeeds_label _).bind fun _ => (succeeds_emit _).bind fun _ =>
          (succeeds_label _).bind fun _ => succeeds_pure res
  unfold operator
  split
  · exact circuit _
  · exact circuit _
  · exact left.bind fun _ => right.bind fun _ => succeeds_compute _

end Gen

/-! ## Look-ups -/

namespace Program

variable {program : Program} {entry : String}

theorem mem_signatures {decl : FunDecl} : decl ∈ program.signatures ↔
    .funDecl decl ∈ program.decls ∨ ∃ fn, .funDef fn ∈ program.decls ∧ fn.toFunDecl = decl := by
  unfold signatures
  rw [List.mem_filterMap]
  constructor
  · rintro ⟨found, member, same⟩
    cases found with
    | funDecl found =>
      cases same
      exact .inl member
    | funDef fn => exact .inr ⟨fn, member, Option.some.inj same⟩
    | _ => cases same
  · rintro (member | ⟨fn, member, rfl⟩)
    · exact ⟨_, member, rfl⟩
    · exact ⟨_, member, rfl⟩

theorem types_of_signature {decl : FunDecl} (listed : decl ∈ program.signatures) :
    decl.ret ∈ program.types ∧ ∀ param ∈ decl.params, param.ty ∈ program.types := by
  rcases mem_signatures.1 listed with member | ⟨fn, member, rfl⟩
  · refine ⟨List.mem_flatMap.2 ⟨_, member, List.mem_cons_self⟩, fun param inside => ?_⟩
    exact List.mem_flatMap.2 ⟨_, member, List.mem_cons_of_mem _ (List.mem_map_of_mem inside)⟩
  · refine ⟨List.mem_flatMap.2 ⟨_, member, List.mem_cons_self⟩, fun param inside => ?_⟩
    exact List.mem_flatMap.2 ⟨_, member, List.mem_cons_of_mem _ (List.mem_append_left _
      (List.mem_map_of_mem (List.mem_append_left _ inside)))⟩

theorem exists_signature {plan : MemoryPlan} {name : String} (known : name ∈ program.callable)
    (own : (program.env plan).service? name = none) :
    ∃ decl ∈ program.signatures, (program.env plan).signature name = .ok decl := by
  have declared : name ∈ program.signatures.map FunDecl.name := by
    rcases List.mem_append.1 known with listed | library
    · exact listed
    · unfold Env.service? at own
      split at own
      · next defined =>
        obtain ⟨fn, member, rfl⟩ := List.mem_map.1 defined
        exact List.mem_map.2 ⟨fn.toFunDecl, mem_signatures.2 (.inr ⟨fn, mem_functions.1 member, rfl⟩),
          rfl⟩
      · obtain ⟨service, member, rfl⟩ := List.mem_map.1 library
        exact absurd rfl (List.find?_eq_none.1 own service member ∘ decide_eq_true)
  obtain ⟨decl, listed, -, signed⟩ := Env.exists_signature declared
  exact ⟨decl, listed, signed⟩

end Program

/-! ## Expressions -/

theorem Expr.isObject_of_isPlace {e : Expr} (place : e.isPlace = true) : e.isObject = true := by
  cases e <;> first | rfl | cases place

theorem Expr.ty_mem_types (e : Expr) : e.ty ∈ e.types := by
  cases e <;> exact List.mem_cons_self

/-- An expression that is an object can answer with its address, and every one with its value. -/
structure Lowered.Succeeds (code : Lowered) (object : Bool) : Prop where
  val : code.val.Succeeds
  addr : object = true → code.addr.Succeeds

theorem Lowered.succeeds_ofType {ty : Ty} {addr val : Gen Reg} {object : Bool}
    (objects : ty.isScalar = false → object = true) (value : val.Succeeds)
    (place : object = true → addr.Succeeds) : (ofType ty addr val).Succeeds object := by
  refine ⟨?_, place⟩
  unfold ofType
  dsimp only
  split
  · exact value
  · next structured => exact place (objects (by simpa using structured))

namespace Env

variable {env : Env}

open Gen

theorem succeeds_storeArgs {args : List Arg} (vals : ∀ arg ∈ args, arg.val.Succeeds)
    (sized : ∀ arg ∈ args, ∃ size, env.layout.size arg.ty = .ok size) (offset : Int32) :
    (env.storeArgs offset args).Succeeds := by
  induction args generalizing offset with
  | nil => exact succeeds_answer ()
  | cons arg above ih =>
    have later : ∀ offset, (env.storeArgs offset above).Succeeds :=
      ih (fun other member => vals other (List.mem_cons_of_mem _ member))
        fun other member => sized other (List.mem_cons_of_mem _ member)
    refine (vals arg List.mem_cons_self).bind fun reg => ?_
    split
    · obtain ⟨size, known⟩ := sized arg List.mem_cons_self
      exact succeeds_lift_bind known ((succeeds_copyBytes _ _ _ _ _).bind fun _ => later _)
    · exact (succeeds_emit _).bind fun _ => later _

theorem succeeds_callService (ret : Ty) (name : String) {args : List Arg}
    (vals : ∀ arg ∈ args, arg.val.Succeeds) : (callService ret name args).Succeeds := by
  have result : (do
      emit [.call (.function name)]
      if ret.isVoid then return Reg.zero
      else
        let res ← freshReg
        emit [.move res .v0]
        return res).Succeeds := by
    refine (succeeds_emit _).bind fun _ => ?_
    split
    · exact succeeds_pure _
    · exact succeeds_compute _
  cases args with
  | nil => exact (succeeds_answer ()).bind fun _ => result
  | cons first rest =>
    exact (vals first List.mem_cons_self).bind fun reg => (succeeds_emit _).bind fun _ => result

theorem succeeds_takeResult (ret : Ty) : (takeResult ret).Succeeds := by
  unfold takeResult
  split
  · exact succeeds_answer _
  split
  · exact succeeds_compute _
  · exact succeeds_loadFrom _ _

theorem succeeds_callFunction {name : String} {decl : FunDecl} {space result : Nat}
    (signed : env.signature name = .ok decl) (argSpace : env.layout.slotsSize decl.params = .ok space)
    (resultSpace : env.layout.slotSize decl.ret = .ok result) {args : List Arg}
    (vals : ∀ arg ∈ args, arg.val.Succeeds)
    (sized : ∀ arg ∈ args, ∃ size, env.layout.size arg.ty = .ok size) :
    (env.callFunction name args).Succeeds := by
  refine succeeds_lift_bind signed (succeeds_lift_bind argSpace ?_)
  refine (succeeds_reserve _).bind fun _ => (succeeds_storeArgs
    (fun arg member => vals arg (List.mem_reverse.1 member))
    (fun arg member => sized arg (List.mem_reverse.1 member)) 0).bind fun _ => ?_
  refine succeeds_lift_bind resultSpace ((succeeds_reserve _).bind fun _ => ?_)
  refine (succeeds_emit _).bind fun _ => (succeeds_takeResult _).bind fun res => ?_
  exact (succeeds_release _).bind fun _ => succeeds_pure res

theorem succeeds_varAddr {id : DeclId} (stored : id ∈ env.plan.storage) (name : String) :
    (env.varAddr id name).Succeeds := by
  obtain ⟨storage, found⟩ :=
    Option.isSome_iff_exists.1 (Std.ExtTreeMap.mem_iff_isSome_getElem?.1 stored)
  have known : env.plan.storageOf id name = .ok storage := by
    rw [MemoryPlan.storageOf, found]
  refine succeeds_lift_bind known ?_
  split
  · exact succeeds_pure _
  · exact succeeds_compute _
  · exact succeeds_compute _
  · exact succeeds_compute _

theorem succeeds_load {addr : Gen Reg} (place : addr.Succeeds) (ty : Ty) :
    (do loadFrom ty (← addr)).Succeeds :=
  place.bind fun _ => succeeds_loadFrom _ _

theorem succeeds_var (ty : Ty) {id : DeclId} (stored : id ∈ env.plan.storage) (name : String) :
    (env.var ty id name).Succeeds true := by
  refine Lowered.succeeds_ofType (fun _ => rfl) ?_ fun _ => succeeds_varAddr stored name
  split
  · exact succeeds_answer _
  · exact succeeds_load (succeeds_varAddr stored name) ty

theorem succeeds_index {ty arrayTy : Ty} {array position : Lowered} {object another : Bool}
    (base : array.Succeeds object) (number : position.Succeeds another)
    (indexable : arrayTy.isPointer = false → object = true)
    (sized : ∃ size, env.layout.size ty = .ok size) :
    (env.index ty arrayTy array position).Succeeds true := by
  obtain ⟨size, known⟩ := sized
  have rest : ∀ base : Reg, (do
      let number ← position.val
      let size ← Gen.lift (env.layout.size ty)
      let res ← Gen.freshReg
      Gen.emit [.loadImm res (.ofNat size), .arith .mul res number res, .arith .add res base res]
      return res).Succeeds :=
    fun base => number.val.bind fun _ => succeeds_lift_bind known (succeeds_compute _)
  suffices place : (env.index ty arrayTy array position).addr.Succeeds from
    Lowered.succeeds_ofType (fun _ => rfl) (succeeds_load place ty) fun _ => place
  unfold index Lowered.ofType
  dsimp only
  split
  · exact base.val.bind rest
  · next unpointed => exact (base.addr (indexable (by simpa using unpointed))).bind rest

theorem succeeds_field {ty : Ty} {struct : String} {owner : Lowered} {name : String} {offset : Nat}
    (base : owner.Succeeds true) (placed : env.layout.fieldOffset struct name = .ok offset) :
    (env.field ty (.struct struct) owner name).Succeeds true := by
  have place : (env.field ty (.struct struct) owner name).addr.Succeeds :=
    (base.addr rfl).bind fun _ => succeeds_lift_bind placed (succeeds_compute _)
  exact Lowered.succeeds_ofType (fun _ => rfl) (succeeds_load place ty) fun _ => place

theorem succeeds_assign {target : Expr} {lhs rhs : Lowered} {object : Bool}
    (left : lhs.Succeeds true) (right : rhs.Succeeds object)
    (structs : target.ty.isStruct = true → object = true)
    (sized : ∃ size, env.layout.size target.ty = .ok size) :
    (env.assign target.ty target lhs rhs).Succeeds true := by
  refine Lowered.succeeds_ofType (fun _ => rfl) (right.val.bind fun value => ?_)
    fun _ => (left.addr rfl).bind fun dst => ?_
  · split
    · exact (succeeds_emit _).bind fun _ => succeeds_pure _
    · exact (left.addr rfl).bind fun dst => (succeeds_emit _).bind fun _ => succeeds_pure _
  · split
    · next struct =>
      obtain ⟨size, known⟩ := sized
      refine (right.addr (structs struct)).bind fun src => succeeds_lift_bind known ?_
      exact (succeeds_copyBytes _ _ _ _ _).bind fun _ => succeeds_pure _
    · refine right.val.bind fun value => ?_
      split
      · exact (succeeds_emit _).bind fun _ => succeeds_pure _
      · exact (succeeds_emit _).bind fun _ => succeeds_pure _

end Env

namespace Program.WellFormed

open Gen

variable {program : Program} {entry : String} {plan : MemoryPlan} {fn : FunDef}

/-- What an expression of a function, its types, literals and references can rely on. -/
structure Supports (program : Program) (plan : MemoryPlan) (fn : FunDef) (e : Expr) : Prop where
  fits : e.Fits program fn
  objects : e.ty.isScalar = false → e.isObject = true
  types : ∀ ty ∈ e.types, ∃ size, (Layout.ofProgram program).size ty = .ok size
  literals : ∀ text ∈ e.stringLiteral?, text ∈ plan.strings
  visible : ∀ decl ∈ program.visible fn, decl.id ∈ plan.storage

theorem supports (formed : program.WellFormed entry)
    (planned : program.memoryPlan (program.promotion 0).1 = .ok plan)
    (defined : fn ∈ program.functions) {e : Expr} (inside : e ∈ fn.body.exprs) :
    Supports program plan fn e where
  fits := formed.fits fn defined e inside
  objects := formed.objects fn defined e inside
  types ty named := formed.exists_size (List.mem_flatMap.2 ⟨_, mem_functions.1 defined,
    List.mem_append_right _ (List.mem_flatMap.2 ⟨e, inside, named⟩)⟩)
  literals text same := (serves_memoryPlan planned _ (mem_functions.1 defined)).strings fn rfl text
    (List.mem_filterMap.2 ⟨e, inside, same⟩)
  visible decl seen := by
    have own := serves_memoryPlan planned _ (mem_functions.1 defined)
    rcases List.mem_append.1 seen with outer | inner
    · rcases List.mem_append.1 outer with global | param
      · exact (serves_memoryPlan planned _ (mem_globals.1 global)).ids _ (List.mem_singleton_self _)
      · exact own.ids _ (List.mem_append_left _ (List.mem_map_of_mem param))
    · exact own.ids _ (List.mem_append_right _ (List.mem_map_of_mem inner))

theorem succeeds_call (formed : program.WellFormed entry) {ty : Ty} {name : String}
    {args : List Arg} (known : name ∈ program.callable)
    (vals : ∀ arg ∈ args, arg.val.Succeeds)
    (sized : ∀ arg ∈ args, ∃ size, (Layout.ofProgram program).size arg.ty = .ok size) :
    ((program.env plan).call ty name args).Succeeds true := by
  unfold Env.call
  cases own : (program.env plan).service? name with
  | some service =>
    exact ⟨Env.succeeds_callService ty name vals, fun _ => Env.succeeds_callService ty name vals⟩
  | none =>
    obtain ⟨decl, listed, signed⟩ := exists_signature known own
    obtain ⟨returned, params⟩ := types_of_signature listed
    obtain ⟨space, argSpace⟩ := formed.exists_slotsSize params
    obtain ⟨result, resultSpace⟩ := formed.exists_slotSize returned
    have code := Env.succeeds_callFunction signed argSpace resultSpace vals sized
    exact ⟨code, fun _ => code⟩

mutual

theorem succeeds_lower (formed : program.WellFormed entry) :
    (e : Expr) → (∀ part ∈ e.subterms, Supports program plan fn part) →
      (e.lower (program.env plan)).Succeeds e.isObject
  | .intLit ty value, given =>
    Lowered.succeeds_ofType (given _ List.mem_cons_self).objects (succeeds_compute _)
      fun object => nomatch object
  | .charLit ty value, given =>
    Lowered.succeeds_ofType (given _ List.mem_cons_self).objects
      (succeeds_character (given _ List.mem_cons_self).fits) fun object => nomatch object
  | .strLit ty text, given => by
    obtain ⟨label, found⟩ := Option.isSome_iff_exists.1 (Std.ExtTreeMap.mem_iff_isSome_getElem?.1
      ((given _ List.mem_cons_self).literals text rfl))
    have known : plan.stringLabel text = .ok label := by rw [MemoryPlan.stringLabel, found]
    have place : (do addressOfLabel (← Gen.lift (plan.stringLabel text))).Succeeds :=
      succeeds_lift_bind known (succeeds_compute _)
    exact Lowered.succeeds_ofType (fun _ => rfl) place fun _ => place
  | .var ty id name, given => by
    have here := given _ List.mem_cons_self
    obtain ⟨decl, seen, rfl, -⟩ := here.fits
    exact Env.succeeds_var ty (here.visible decl seen) name
  | .call ty name args, given => by
    have parts := formed.succeeds_lowerArgs args fun part member =>
      given part (List.mem_cons_of_mem _ member)
    exact formed.succeeds_call (given _ List.mem_cons_self).fits
      (fun arg member => (parts arg member).1) fun arg member => (parts arg member).2
  | .binOp ty op lhs rhs, given => by
    have here := given _ List.mem_cons_self
    simp only [Expr.subterms, List.forall_mem_cons, List.forall_mem_append] at given
    have code := succeeds_operator op (formed.succeeds_lower lhs given.2.1).val
      (formed.succeeds_lower rhs given.2.2).val
    exact Lowered.succeeds_ofType here.objects code fun object => nomatch object
  | .index ty array position, given => by
    have here := given _ List.mem_cons_self
    simp only [Expr.subterms, List.forall_mem_cons, List.forall_mem_append] at given
    refine Env.succeeds_index (formed.succeeds_lower array given.2.1)
      (formed.succeeds_lower position given.2.2) (fun unpointed => ?_)
      (here.types ty List.mem_cons_self)
    have shape : array.ty.isArray = true :=
      here.fits.resolve_right fun pointed => by rw [unpointed] at pointed; cases pointed
    exact (given.2.1 array array.mem_subterms).objects (by simp [Ty.isScalar, shape])
  | .field ty owner name, given => by
    have here := given _ List.mem_cons_self
    have parts := fun part member => given part (List.mem_cons_of_mem _ member)
    obtain ⟨struct, offset, same, placed⟩ := formed.exists_fieldOffset here.fits
    have object : owner.isObject = true :=
      (parts owner owner.mem_subterms).objects (by rw [same]; rfl)
    have base := formed.succeeds_lower owner parts
    rw [object] at base
    unfold Expr.lower
    rw [same]
    exact Env.succeeds_field base placed
  | .deref ty pointer, given =>
    have place := (formed.succeeds_lower pointer fun part member =>
      given part (List.mem_cons_of_mem _ member)).val
    Lowered.succeeds_ofType (fun _ => rfl) (Env.succeeds_load place ty) fun _ => place
  | .addrOf ty operand, given =>
    have place := (formed.succeeds_lower operand fun part member =>
      given part (List.mem_cons_of_mem _ member)).addr
        (Expr.isObject_of_isPlace (given _ List.mem_cons_self).fits)
    Lowered.succeeds_ofType (given _ List.mem_cons_self).objects place fun _ => place
  | .sizeOf ty measured, given => by
    have here := given _ List.mem_cons_self
    obtain ⟨size, known⟩ := here.types measured (List.mem_cons_of_mem _ List.mem_cons_self)
    exact Lowered.succeeds_ofType here.objects (succeeds_lift_bind known (succeeds_compute _))
      fun object => nomatch object
  | .cast ty operand, given =>
    Lowered.succeeds_ofType (given _ List.mem_cons_self).objects (formed.succeeds_lower operand
      fun part member => given part (List.mem_cons_of_mem _ member)).val fun object => nomatch object
  | .assign ty lhs rhs, given => by
    have here := given _ List.mem_cons_self
    simp only [Expr.subterms, List.forall_mem_cons, List.forall_mem_append] at given
    obtain ⟨place, rfl, same⟩ := here.fits
    have left := formed.succeeds_lower lhs given.2.1
    rw [Expr.isObject_of_isPlace place] at left
    refine Env.succeeds_assign left (formed.succeeds_lower rhs given.2.2) (fun struct => ?_)
      (here.types _ List.mem_cons_self)
    exact (given.2.2 rhs rhs.mem_subterms).objects (by simp [Ty.isScalar, same, struct])

theorem succeeds_lowerArgs (formed : program.WellFormed entry) : (args : List Expr) →
    (∀ part ∈ Expr.listSubterms args, Supports program plan fn part) →
      ∀ arg ∈ Expr.lowerArgs (program.env plan) args, arg.val.Succeeds ∧
        ∃ size, (Layout.ofProgram program).size arg.ty = .ok size
  | [], _, _, member => nomatch member
  | first :: rest, given, arg, member => by
    rw [Expr.listSubterms, List.forall_mem_append] at given
    rcases List.mem_cons.1 member with rfl | later
    · exact ⟨(formed.succeeds_lower first given.1).val, (given.1 first first.mem_subterms).types _
        first.ty_mem_types⟩
    · exact formed.succeeds_lowerArgs rest given.2 arg later

end

/-! ## Statements -/

theorem succeeds_returnValue {env : Env} {ty : Ty} {val : Gen Reg} (value : val.Succeeds)
    (sized : ∃ size, env.layout.size ty = .ok size) (epilogue : Label) :
    (env.returnValue ty val epilogue).Succeeds := by
  refine value.bind fun reg => ?_
  split
  · obtain ⟨size, known⟩ := sized
    exact succeeds_lift_bind known ((succeeds_copyBytes _ _ _ _ _).bind fun _ => succeeds_emit _)
  split
  · exact (succeeds_answer ()).bind fun _ => succeeds_emit _
  · exact (succeeds_emit _).bind fun _ => succeeds_emit _

mutual

theorem succeeds_stmt (formed : program.WellFormed entry) (epilogue : Label)
    (labels : Option LoopLabels) : (stmt : Stmt) →
    (∀ part ∈ stmt.exprs, Supports program plan fn part) →
      stmt.jumpsInLoops labels.isSome = true →
      (stmt.lower (program.env plan) epilogue labels).Succeeds
  | .block _ stmts, given, jumps => formed.succeeds_stmts epilogue labels stmts given jumps
  | .loop cond body, given, jumps => by
    rw [Stmt.exprs, List.forall_mem_append] at given
    refine succeeds_freshLabel.bind fun n => (succeeds_label _).bind fun _ => ?_
    refine (formed.succeeds_lower cond given.1).val.bind fun _ => (succeeds_emit _).bind fun _ => ?_
    refine (succeeds_label _).bind fun _ => ?_
    refine (formed.succeeds_stmt epilogue (some _) body given.2 jumps).bind fun _ => ?_
    exact (succeeds_emit _).bind fun _ => succeeds_label _
  | .branch cond yes none, given, jumps => by
    rw [Stmt.exprs, List.forall_mem_append] at given
    refine succeeds_freshLabel.bind fun n => ?_
    refine (formed.succeeds_lower cond given.1).val.bind fun _ => (succeeds_emit _).bind fun _ => ?_
    exact (formed.succeeds_stmt epilogue labels yes given.2 jumps).bind fun _ => succeeds_label _
  | .branch cond yes (some no), given, jumps => by
    rw [Stmt.exprs, List.forall_mem_append, List.forall_mem_append] at given
    rw [Stmt.jumpsInLoops, Bool.and_eq_true] at jumps
    refine succeeds_freshLabel.bind fun n => ?_
    refine (formed.succeeds_lower cond given.1.1).val.bind fun _ => (succeeds_emit _).bind fun _ => ?_
    refine (formed.succeeds_stmt epilogue labels yes given.1.2 jumps.1).bind fun _ => ?_
    refine (succeeds_emit _).bind fun _ => (succeeds_label _).bind fun _ => ?_
    exact (formed.succeeds_stmt epilogue labels no given.2 jumps.2).bind fun _ => succeeds_label _
  | .ret none, _, _ => succeeds_emit _
  | .ret (some value), given, _ =>
    succeeds_returnValue (formed.succeeds_lower value given).val
      ((given value value.mem_subterms).types _ value.ty_mem_types) epilogue
  | .eval expr, given, _ =>
    (formed.succeeds_lower expr given).val.bind fun _ => succeeds_pure ()
  | .breakLoop, _, jumps => by
    cases labels with
    | none => cases jumps
    | some labels => exact succeeds_emit _
  | .continueLoop, _, jumps => by
    cases labels with
    | none => cases jumps
    | some labels => exact succeeds_emit _

theorem succeeds_stmts (formed : program.WellFormed entry) (epilogue : Label)
    (labels : Option LoopLabels) : (stmts : List Stmt) →
    (∀ part ∈ Stmt.listExprs stmts, Supports program plan fn part) →
      Stmt.allJumpInLoops labels.isSome stmts = true →
      (Stmt.lowerAll (program.env plan) epilogue labels stmts).Succeeds
  | [], _, _ => succeeds_answer ()
  | first :: rest, given, jumps => by
    rw [Stmt.listExprs, List.forall_mem_append] at given
    rw [Stmt.allJumpInLoops, Bool.and_eq_true] at jumps
    exact (formed.succeeds_stmt epilogue labels first given.1 jumps.1).bind fun _ =>
      formed.succeeds_stmts epilogue labels rest given.2 jumps.2

end

/-! ## Functions -/

theorem succeeds_lowerFunction (formed : program.WellFormed entry)
    (planned : program.memoryPlan (program.promotion 0).1 = .ok plan)
    (defined : fn ∈ program.functions) : ((program.env plan).lowerFunction fn).Succeeds := by
  have body := formed.succeeds_stmts (.epilogue fn.name) none fn.body.stmts
    (fun part inside => formed.supports planned defined inside) (formed.jumps fn defined)
  refine (succeeds_label _).bind fun _ => ?_
  refine ((succeeds_emit _).bind fun _ => (succeeds_reserve _).bind fun _ => succeeds_emit _).bind
    fun _ => body.bind fun _ => ?_
  exact (succeeds_label _).bind fun _ => succeeds_emit _

theorem exists_lowerFunctions (formed : program.WellFormed entry)
    (planned : program.memoryPlan (program.promotion 0).1 = .ok plan) {functions : List FunDef}
    (defined : functions ⊆ program.functions) (supply : Supply) :
    ∃ sections, (program.env plan).lowerFunctions supply functions = .ok sections := by
  induction functions generalizing supply with
  | nil => exact ⟨[], rfl⟩
  | cons fn rest ih =>
    obtain ⟨generated, runs⟩ :=
      formed.succeeds_lowerFunction planned (defined List.mem_cons_self) supply
    obtain ⟨later, others⟩ := ih (fun other member => defined (List.mem_cons_of_mem _ member))
      generated.supply
    exact ⟨_, bind_eq_ok.2 ⟨generated, runs, bind_eq_ok.2 ⟨later, others, rfl⟩⟩⟩

end Program.WellFormed

namespace Program

theorem generate_wellFormed {program : Program} {entry : String}
    (formed : program.WellFormed entry) :
    ∃ generated, program.generate entry = .ok generated := by
  obtain ⟨plan, planned⟩ := formed.exists_memoryPlan (program.promotion 0).1
  obtain ⟨functions, lowers⟩ := formed.exists_lowerFunctions planned (List.Subset.refl _)
    { nextReg := (program.promotion 0).2, nextLabel := 0 }
  let generated : Assembly :=
    { data := plan.data
      sections := entrySection entry :: functions ++ program.stubs.map Service.stub }
  refine ⟨generated, bind_eq_ok.2 ⟨plan, planned, ?_⟩⟩
  exact (if_pos formed.entry).trans (bind_eq_ok.2 ⟨functions, lowers, rfl⟩)

/-- Structs in structs, in arrays, and behind pointers to themselves, passed, returned and assigned;
variables of all kinds, string literals, and jumps out of nested loops. -/
def tracks : Program :=
  let point := Ty.struct "point"
  let line := Ty.struct "line"
  let first : VarDecl := { id := 1, name := "first", ty := line }
  let shown : VarDecl := { id := 2, name := "shown", ty := .array .char 4 }
  let origin : VarDecl := { id := 3, name := "origin", ty := point }
  let turns : VarDecl := { id := 4, name := "turns", ty := .int }
  let here : VarDecl := { id := 5, name := "here", ty := point }
  let there : VarDecl := { id := 6, name := "there", ty := .pointer line }
  { decls :=
      [ .struct
          { name := "point"
            fields :=
              [{ id := 10, name := "x", ty := .int }, { id := 11, name := "tag", ty := .char }] },
        .struct
          { name := "line"
            fields :=
              [ { id := 12, name := "ends", ty := .array point 2 },
                { id := 13, name := "next", ty := .pointer line } ] },
        .var first, .var shown,
        .funDecl
          { name := "print_s", ret := .void
            params := [{ id := 14, name := "s", ty := .pointer .char }] },
        .funDef
          { name := "shift", ret := point, params := [origin]
            body :=
              { vars := []
                stmts :=
                  [ .eval (.assignment (.field .char (.ofDecl origin) "tag") (.ofChar 'a')),
                    .ret (some (.ofDecl origin)) ] } },
        .funDef
          { name := "main", ret := .int, params := []
            body :=
              { vars := [turns, there]
                stmts :=
                  [ .eval (.assignment (.ofDecl there) (.addressOf (.ofDecl first))),
                    .loop (.ofOperands .lt (.ofDecl turns) (.sizeOfType line))
                      (.block [here]
                        [ .eval (.assignment (.ofDecl here) (.call point "shift"
                            [.elementOf (.field (.array point 2) (.valueAt (.ofDecl there)) "ends")
                              (.ofDecl turns)])),
                          .branch
                            (.ofOperands .or (.field .int (.ofDecl here) "x") (.ofDecl turns))
                            .breakLoop (some .continueLoop),
                          .eval (.call .void "print_s" [.cast (.pointer .char) (.ofString "turn")]),
                          .eval (.assignment (.elementOf (.ofDecl shown) (.ofInt 0)) (.ofChar 'b')) ]),
                    .ret (some (.ofDecl turns)) ] } } ] }

theorem wellFormed_tracks : tracks.WellFormed "main" where
  entry := by decide
  declared := by decide
  finite := finite_of_rank (fun name => if name = "line" then 1 else 0) (by decide)
  fits := by decide
  objects := by decide
  jumps := by decide

theorem generate_wellFormed_tracks :
    tracks.WellFormed "main" ∧ ∃ generated, tracks.generate "main" = .ok generated :=
  ⟨wellFormed_tracks, generate_wellFormed wellFormed_tracks⟩

end Program

end MipsBackend
