import MipsBackend.Proofs.Lowering.Fragments

/-!
# What code mentions

The code of a function mentions registers that it draws itself and the registers of the variables in
its scope, and the only addresses that it loads are those of global variables in scope and of string
literals (`Stmt.mentions_lowerAll`).
-/

namespace MipsBackend

/-- The registers that code may mention, and the labels whose address it may load. -/
structure Scope where
  regs : VReg → Prop
  data : Label → Prop

@[simp] def Instr.address? : Instr → Option Label
  | loadAddr _ label => some label
  | _ => none

namespace Scope

variable (scope : Scope)

def Has : Reg → Prop
  | .phys _ => True
  | .virt reg => scope.regs reg

@[simp] theorem has_phys (reg : PhysReg) : scope.Has (.phys reg) := trivial

@[simp] theorem has_virt (reg : VReg) : scope.Has (.virt reg) ↔ scope.regs reg := Iff.rfl

structure Allows (instr : Instr) : Prop where
  uses : ∀ reg ∈ instr.uses, scope.Has reg
  writes : ∀ reg ∈ instr.def?, scope.Has reg
  loads : ∀ label ∈ instr.address?, scope.data label

variable {scope}

theorem Allows.operand {instr : Instr} (allowed : scope.Allows instr) {reg : VReg}
    (mentioned : reg ∈ instr.virtualOperands) : scope.regs reg := by
  rcases List.mem_append.1 mentioned with used | written
  · exact allowed.uses _ (mem_virtuals.1 used)
  · obtain ⟨found, known, same⟩ := Option.bind_eq_some_iff.1 (Option.mem_toList.1 written)
    exact allowed.writes _ (Reg.virtual?_eq_some.1 same ▸ known)

@[simp] theorem allows_iff {instr : Instr} : scope.Allows instr ↔
    (∀ reg ∈ instr.uses, scope.Has reg) ∧ (∀ reg ∈ instr.def?, scope.Has reg) ∧
      ∀ label ∈ instr.address?, scope.data label :=
  ⟨fun allowed => ⟨allowed.uses, allowed.writes, allowed.loads⟩,
    fun ⟨uses, writes, loads⟩ => ⟨uses, writes, loads⟩⟩

end Scope

namespace Gen

variable {scope : Scope} {given : Prop} {α β : Type}

/-- The run draws registers upwards. If they are in scope, so is all that its code mentions, and the
answer is as promised. -/
structure Mentioned (scope : Scope) (given : Prop) (answers : α → Prop) (supply : Supply)
    (generated : Generated α) : Prop where
  grows : supply.nextReg ≤ generated.supply.nextReg
  allowed : given →
    (∀ reg, supply.nextReg ≤ reg → reg < generated.supply.nextReg → scope.regs reg) →
    (∀ instr, .instr instr ∈ generated.code → scope.Allows instr) ∧ answers generated.value

/-- What holds of every run, if what is `given` holds of the registers that it works on. -/
def Mentions (scope : Scope) (given : Prop) (answers : α → Prop) (gen : Gen α) : Prop :=
  ∀ supply generated, gen.run supply = .ok generated →
    Mentioned scope given answers supply generated

theorem Mentions.bind {known : α → Prop} {answers : β → Prop} {first : Gen α} {next : α → Gen β}
    (left : first.Mentions scope given known)
    (right : ∀ value, (next value).Mentions scope (given ∧ known value) answers) :
    (first >>= next).Mentions scope given answers := by
  intro supply generated runs
  obtain ⟨before, after, here, later, rfl⟩ := run_bind.1 runs
  have one := left _ _ here
  have two := right _ _ _ later
  refine ⟨Nat.le_trans one.grows two.grows, fun holds drawn => ?_⟩
  obtain ⟨first, value⟩ := one.allowed holds fun reg lower upper =>
    drawn reg lower (Nat.lt_of_lt_of_le upper two.grows)
  obtain ⟨second, answer⟩ := two.allowed ⟨holds, value⟩ fun reg lower upper =>
    drawn reg (Nat.le_trans one.grows lower) upper
  refine ⟨fun instr member => ?_, answer⟩
  rcases List.mem_append.1 member with here | there
  · exact first instr here
  · exact second instr there

theorem mentions_pure {answers : α → Prop} {value : α} (holds : given → answers value) :
    (pure value : Gen α).Mentions scope given answers := by
  intro supply generated runs
  cases runs
  exact ⟨Nat.le_refl _, fun known _ => ⟨fun _ member => (nomatch member), holds known⟩⟩

theorem mentions_answer {answers : α → Prop} {value : α} (holds : given → answers value) :
    (answer value).Mentions scope given answers :=
  mentions_pure holds

theorem mentions_fail {answers : α → Prop} (violation : Violation) :
    (fail violation : Gen α).Mentions scope given answers :=
  fun _ _ runs => nomatch runs

theorem mentions_lift (result : Except Violation α) :
    (lift result).Mentions scope given fun value => result = .ok value := by
  cases result with
  | ok value => exact mentions_answer fun _ => rfl
  | error violation => exact mentions_fail violation

theorem mentions_freshReg : freshReg.Mentions scope given scope.Has := by
  intro supply generated runs
  cases runs
  exact ⟨Nat.le_succ _, fun _ drawn =>
    ⟨fun _ member => (nomatch member), drawn _ (Nat.le_refl _) (Nat.lt_succ_self _)⟩⟩

theorem mentions_freshLabel : freshLabel.Mentions scope given fun _ => True := by
  intro supply generated runs
  cases runs
  exact ⟨Nat.le_refl _, fun _ _ => ⟨fun _ member => (nomatch member), trivial⟩⟩

theorem mentions_label (here : Label) : (label here).Mentions scope given fun _ => True := by
  intro supply generated runs
  cases runs
  exact ⟨Nat.le_refl _, fun _ _ => ⟨fun _ member => by simp at member, trivial⟩⟩

theorem mentions_emit {instrs : List Instr}
    (allowed : given → ∀ instr ∈ instrs, scope.Allows instr) :
    (emit instrs).Mentions scope given fun _ => True := by
  intro supply generated runs
  cases runs
  refine ⟨Nat.le_refl _, fun known _ => ⟨fun instr member => ?_, trivial⟩⟩
  obtain ⟨found, here, same⟩ := List.mem_map.1 member
  exact TextItem.instr.inj same ▸ allowed known found here

theorem mentions_compute {instrs : Reg → List Instr}
    (allowed : given → ∀ res, scope.Has res → ∀ instr ∈ instrs res, scope.Allows instr) :
    (do
      let res ← freshReg
      emit (instrs res)
      return res).Mentions scope given scope.Has :=
  mentions_freshReg.bind fun res =>
    (mentions_emit fun known => allowed known.1 res known.2).bind fun _ =>
      mentions_pure fun known => known.1.2

/-! ## Operators -/

theorem mentions_reserve (bytes : Nat) : (reserve bytes).Mentions scope given fun _ => True := by
  unfold reserve
  split
  · exact mentions_emit fun _ => by simp [Instr.adjustStack, Instr.uses, Instr.def?]
  · exact mentions_answer fun _ => trivial

theorem mentions_release (bytes : Nat) : (release bytes).Mentions scope given fun _ => True := by
  unfold release
  split
  · exact mentions_emit fun _ => by simp [Instr.adjustStack, Instr.uses, Instr.def?]
  · exact mentions_answer fun _ => trivial

theorem mentions_copyBytes {src dst : Reg} (known : given → scope.Has src ∧ scope.Has dst)
    (srcOffset dstOffset : Int32) (size : Nat) :
    (copyBytes src srcOffset dst dstOffset size).Mentions scope given fun _ => True := by
  refine mentions_freshReg.bind fun byte => mentions_emit fun facts instr member => ?_
  obtain ⟨offset, -, inside⟩ := List.mem_flatMap.1 member
  have ends := known facts.1
  simp only [List.mem_cons, List.not_mem_nil, or_false] at inside
  rcases inside with rfl | rfl <;> simp [Instr.uses, Instr.def?, ends, facts.2]

theorem mentions_loadFrom (ty : Ty) {addr : Reg} (known : given → scope.Has addr) :
    (loadFrom ty addr).Mentions scope given scope.Has :=
  mentions_compute fun facts res drawn => by simp [Instr.uses, Instr.def?, known facts, drawn]

theorem mentions_constant (value : Int32) : (constant value).Mentions scope given scope.Has :=
  mentions_compute fun _ res drawn => by simp [Instr.uses, Instr.def?, drawn]

theorem mentions_addressOfLabel {label : Label} (known : given → scope.data label) :
    (addressOfLabel label).Mentions scope given scope.Has :=
  mentions_compute fun facts res drawn => by simp [Instr.uses, Instr.def?, drawn, known facts]

theorem mentions_character (c : Char) : (character c).Mentions scope given scope.Has := by
  unfold character
  split
  · exact mentions_compute fun _ res drawn => by simp [Instr.uses, Instr.def?, drawn]
  · exact mentions_fail _

theorem allows_operatorCode (op : BinOp) {res lhs rhs : Reg} (drawn : scope.Has res)
    (left : scope.Has lhs) (right : scope.Has rhs) :
    ∀ instr ∈ operatorCode op res lhs rhs, scope.Allows instr := by
  cases op <;> simp [operatorCode, Instr.uses, Instr.def?, drawn, left, right]

theorem mentions_shortCircuit {kind : ShortCircuit} {lhs rhs : Gen Reg}
    (left : ∀ given, lhs.Mentions scope given scope.Has)
    (right : ∀ given, rhs.Mentions scope given scope.Has) :
    (shortCircuit kind lhs rhs).Mentions scope given scope.Has := by
  refine mentions_freshLabel.bind fun n => (left _).bind fun first =>
    mentions_freshReg.bind fun res => ?_
  refine (mentions_emit fun facts => ?_).bind fun _ => (right _).bind fun second => ?_
  · simp [Instr.uses, Instr.def?, facts.1.2]
  refine (mentions_emit fun facts => ?_).bind fun _ => (mentions_label _).bind fun _ => ?_
  · simp [Instr.uses, Instr.def?, facts.2, facts.1.1.2]
  refine (mentions_emit fun facts => ?_).bind fun _ => (mentions_label _).bind fun _ => ?_
  · simp [Instr.uses, Instr.def?, facts.1.1.1.1.2]
  exact mentions_pure fun facts => facts.1.1.1.1.1.1.2

theorem mentions_operator (op : BinOp) {lhs rhs : Gen Reg}
    (left : ∀ given, lhs.Mentions scope given scope.Has)
    (right : ∀ given, rhs.Mentions scope given scope.Has) :
    (operator op lhs rhs).Mentions scope given scope.Has := by
  unfold operator
  split
  · exact mentions_shortCircuit left right
  · exact mentions_shortCircuit left right
  · exact (left _).bind fun first => (right _).bind fun second => mentions_compute
      fun facts res drawn => allows_operatorCode op drawn facts.1.2 facts.2

end Gen

/-! ## Expressions -/

structure Lowered.Mentions (scope : Scope) (code : Lowered) : Prop where
  addr : ∀ given, code.addr.Mentions scope given scope.Has
  val : ∀ given, code.val.Mentions scope given scope.Has

namespace Lowered

variable {scope : Scope}

theorem mentions_ofType {ty : Ty} {addr val : Gen Reg}
    (first : ∀ given, addr.Mentions scope given scope.Has)
    (second : ∀ given, val.Mentions scope given scope.Has) : (ofType ty addr val).Mentions scope := by
  refine ⟨first, ?_⟩
  unfold ofType
  dsimp only
  split
  · exact second
  · exact first

end Lowered

namespace Env

/-- What a reference to one of the variables, or a string literal, leads to is in scope. -/
structure Sees (env : Env) (scope : Scope) (ids : DeclId → Prop) : Prop where
  promoted : ∀ (id : DeclId) (reg : VReg), ids id → env.promotion[id]? = some reg → scope.regs reg
  stored : ∀ (id : DeclId) (reg : VReg), ids id → env.plan.storage[id]? = some (.register reg) →
    scope.regs reg
  global : ∀ (id : DeclId) (label : Label), ids id → env.plan.storage[id]? = some (.global label) →
    scope.data label
  string : ∀ (text : String) (label : Label), env.plan.strings[text]? = some label →
    scope.data label

variable {env : Env} {scope : Scope} {ids : DeclId → Prop} {given : Prop}

open Gen

theorem storageOf_eq_ok {plan : MemoryPlan} {id : DeclId} {name : String} {storage : Storage}
    (known : plan.storageOf id name = .ok storage) : plan.storage[id]? = some storage := by
  unfold MemoryPlan.storageOf at known
  split at known
  · cases known
    assumption
  · cases known

theorem stringLabel_eq_ok {plan : MemoryPlan} {text : String} {label : Label}
    (known : plan.stringLabel text = .ok label) : plan.strings[text]? = some label := by
  unfold MemoryPlan.stringLabel at known
  split at known
  · cases known
    assumption
  · cases known

theorem mentions_storeArgs {args : List Arg}
    (vals : ∀ arg ∈ args, ∀ given, arg.val.Mentions scope given scope.Has) (offset : Int32) :
    (env.storeArgs offset args).Mentions scope given fun _ => True := by
  induction args generalizing offset given with
  | nil => exact mentions_answer fun _ => trivial
  | cons arg above ih =>
    have later : ∀ given offset, (env.storeArgs offset above).Mentions scope given fun _ => True :=
      fun _ => ih fun other member => vals other (List.mem_cons_of_mem _ member)
    refine (vals arg List.mem_cons_self _).bind fun reg => ?_
    split
    · refine (mentions_lift _).bind fun size => ?_
      exact (mentions_copyBytes (fun facts => ⟨facts.1.2, scope.has_phys .sp⟩) _ _ _).bind
        fun _ => later _ _
    · refine (mentions_emit fun facts => ?_).bind fun _ => later _ _
      simp [Instr.uses, Instr.def?, facts.2]

theorem mentions_callService (ret : Ty) (name : String) {args : List Arg}
    (vals : ∀ arg ∈ args, ∀ given, arg.val.Mentions scope given scope.Has) :
    (callService ret name args).Mentions scope given scope.Has := by
  have result : ∀ given, (do
      emit [.call (.function name)]
      if ret.isVoid then return Reg.zero
      else
        let res ← freshReg
        emit [.move res .v0]
        return res).Mentions scope given scope.Has := by
    refine fun given => (mentions_emit fun _ => ?_).bind fun _ => ?_
    · simp [Instr.uses, Instr.def?]
    split
    · exact mentions_pure fun _ => trivial
    · exact mentions_compute fun _ res drawn => by simp [Instr.move, Instr.uses, Instr.def?, drawn]
  cases args with
  | nil =>
    exact (@mentions_answer scope given _ (fun _ => True) () fun _ => trivial).bind
      fun _ => result _
  | cons first rest =>
    refine (vals first List.mem_cons_self _).bind fun reg => (mentions_emit fun facts => ?_).bind
      fun _ => result _
    simp [Instr.move, Instr.uses, Instr.def?, facts.2]

theorem mentions_takeResult (ret : Ty) : (takeResult ret).Mentions scope given scope.Has := by
  unfold takeResult
  split
  · exact mentions_answer fun _ => trivial
  split
  · exact mentions_compute fun _ res drawn => by simp [Instr.uses, Instr.def?, drawn]
  · exact mentions_loadFrom _ fun _ => trivial

theorem mentions_callFunction (name : String) {args : List Arg}
    (vals : ∀ arg ∈ args, ∀ given, arg.val.Mentions scope given scope.Has) :
    (env.callFunction name args).Mentions scope given scope.Has := by
  refine (mentions_lift _).bind fun signature => (mentions_lift _).bind fun space => ?_
  refine (mentions_reserve space).bind fun _ => (mentions_storeArgs (fun arg member =>
    vals arg (List.mem_reverse.1 member)) 0).bind fun _ => ?_
  refine (mentions_lift _).bind fun result => (mentions_reserve result).bind fun _ => ?_
  refine (mentions_emit fun _ => ?_).bind fun _ => (mentions_takeResult _).bind fun res => ?_
  · simp [Instr.uses, Instr.def?]
  exact (mentions_release _).bind fun _ => mentions_pure fun facts => facts.1.2

theorem mentions_call (ret : Ty) (name : String) {args : List Arg}
    (vals : ∀ arg ∈ args, ∀ given, arg.val.Mentions scope given scope.Has) :
    (env.call ret name args).Mentions scope := by
  unfold call
  cases env.service? name with
  | some service => exact ⟨fun _ => mentions_callService ret name vals,
      fun _ => mentions_callService ret name vals⟩
  | none => exact ⟨fun _ => mentions_callFunction name vals,
      fun _ => mentions_callFunction name vals⟩

theorem mentions_load {addr : Gen Reg} (place : ∀ given, addr.Mentions scope given scope.Has)
    (ty : Ty) : (do loadFrom ty (← addr)).Mentions scope given scope.Has :=
  (place _).bind fun _ => mentions_loadFrom _ fun facts => facts.2

section

variable (sees : env.Sees scope ids)

include sees

theorem mentions_varAddr {id : DeclId} (named : ids id) (name : String) :
    (env.varAddr id name).Mentions scope given scope.Has := by
  refine (mentions_lift _).bind fun storage => ?_
  split
  · exact mentions_pure fun facts => sees.stored id _ named (storageOf_eq_ok facts.2)
  · exact mentions_addressOfLabel fun facts => sees.global id _ named (storageOf_eq_ok facts.2)
  · exact mentions_compute fun _ res drawn => by simp [Instr.lw, Instr.uses, Instr.def?, drawn]
  · exact mentions_compute fun _ res drawn => by simp [Instr.uses, Instr.def?, drawn]

theorem mentions_var (ty : Ty) {id : DeclId} (named : ids id) (name : String) :
    (env.var ty id name).Mentions scope := by
  refine Lowered.mentions_ofType (fun _ => mentions_varAddr sees named name) fun given => ?_
  split
  · next reg promoted => exact mentions_answer fun _ => sees.promoted id reg named promoted
  · exact mentions_load (fun _ => mentions_varAddr sees named name) ty

theorem has_promotedReg? {e : Expr} (named : ∀ id, e.declId? = some id → ids id) {reg : Reg}
    (promoted : env.promotedReg? e = some reg) : scope.Has reg := by
  obtain ⟨v, found, rfl⟩ := Option.map_eq_some_iff.1 promoted
  obtain ⟨id, reference, known⟩ := Option.bind_eq_some_iff.1 found
  exact sees.promoted id v (named id reference) known

theorem mentions_assign (ty : Ty) {target : Expr} (named : ∀ id, target.declId? = some id → ids id)
    {lhs rhs : Lowered} (left : lhs.Mentions scope) (right : rhs.Mentions scope) :
    (env.assign ty target lhs rhs).Mentions scope := by
  refine Lowered.mentions_ofType (fun _ => (left.addr _).bind fun dst => ?_)
    fun _ => (right.val _).bind fun value => ?_
  · split
    · refine (right.addr _).bind fun src => (mentions_lift _).bind fun size => ?_
      exact (mentions_copyBytes (fun facts => ⟨facts.1.2, facts.1.1.2⟩) _ _ _).bind
        fun _ => mentions_pure fun facts => facts.1.1.1.2
    · refine (right.val _).bind fun value => ?_
      split
      · refine (mentions_emit fun facts => ?_).bind fun _ => mentions_pure fun facts => facts.1.2
        simp [Instr.move, Instr.uses, Instr.def?, facts.2, facts.1.2]
      · refine (mentions_emit fun facts => ?_).bind fun _ => mentions_pure fun facts => facts.1.1.2
        simp [Instr.uses, Instr.def?, facts.2, facts.1.2]
  · split
    · next reg promoted =>
      refine (mentions_emit fun facts => ?_).bind fun _ => mentions_pure fun facts => facts.1.2
      simp [Instr.move, Instr.uses, Instr.def?, facts.2, has_promotedReg? sees named promoted]
    · refine (left.addr _).bind fun dst => (mentions_emit fun facts => ?_).bind
        fun _ => mentions_pure fun facts => facts.1.1.2
      simp [Instr.uses, Instr.def?, facts.2, facts.1.2]

end

theorem mentions_index (ty arrayTy : Ty) {array position : Lowered} (base : array.Mentions scope)
    (number : position.Mentions scope) : (env.index ty arrayTy array position).Mentions scope := by
  have rest : ∀ given, ∀ base : Reg, (do
      let number ← position.val
      let size ← Gen.lift (env.layout.size ty)
      let res ← Gen.freshReg
      Gen.emit [.loadImm res (.ofNat size), .arith .mul res number res, .arith .add res base res]
      return res).Mentions scope (given ∧ scope.Has base) scope.Has := by
    refine fun given base => (number.val _).bind fun _ => (mentions_lift _).bind fun _ => ?_
    exact mentions_compute fun facts res drawn => by
      simp [Instr.uses, Instr.def?, drawn, facts.1.2, facts.1.1.2]
  suffices place : ∀ given, (env.index ty arrayTy array position).addr.Mentions scope given scope.Has
    from Lowered.mentions_ofType place fun _ => mentions_load place ty
  intro given
  unfold index Lowered.ofType
  dsimp only
  split
  · exact (base.val _).bind fun base => rest given base
  · exact (base.addr _).bind fun base => rest given base

theorem mentions_field (ty ownerTy : Ty) {owner : Lowered} (base : owner.Mentions scope)
    (name : String) : (env.field ty ownerTy owner name).Mentions scope := by
  suffices place : ∀ given, (env.field ty ownerTy owner name).addr.Mentions scope given scope.Has
    from Lowered.mentions_ofType place fun _ => mentions_load place ty
  refine fun given => (base.addr _).bind fun _ => ?_
  split
  · refine (mentions_lift _).bind fun _ => ?_
    exact mentions_compute fun facts res drawn => by
      simp [Instr.uses, Instr.def?, drawn, facts.1.2]
  · exact mentions_fail _

end Env

namespace Expr

open Gen

variable {env : Env} {scope : Scope} {ids : DeclId → Prop}

def Names (ids : DeclId → Prop) (e : Expr) : Prop :=
  ∀ part ∈ e.subterms, ∀ id, part.declId? = some id → ids id

theorem mem_subterms (e : Expr) : e ∈ e.subterms := by
  cases e <;> exact List.mem_cons_self

mutual

theorem mentions_lower (sees : env.Sees scope ids) :
    (e : Expr) → e.Names ids → (e.lower env).Mentions scope
  | intLit _ value, _ =>
    Lowered.mentions_ofType (fun _ => mentions_fail _) fun _ => mentions_constant value
  | charLit _ value, _ =>
    Lowered.mentions_ofType (fun _ => mentions_fail _) fun _ => mentions_character value
  | strLit _ text, _ =>
    have place := fun given => (mentions_lift (env.plan.stringLabel text)).bind fun label =>
      @mentions_addressOfLabel scope (given ∧ _) label fun facts =>
        sees.string text label (Env.stringLabel_eq_ok facts.2)
    Lowered.mentions_ofType place place
  | var ty id name, named => Env.mentions_var sees ty (named _ List.mem_cons_self id rfl) name
  | call ty name args, named =>
    Env.mentions_call ty name (mentions_lowerArgs sees args fun part member =>
      named part (List.mem_cons_of_mem _ member))
  | binOp _ op lhs rhs, named => by
    simp only [Names, subterms, List.forall_mem_cons, List.forall_mem_append] at named
    exact Lowered.mentions_ofType (fun _ => mentions_fail _) fun _ => mentions_operator op
      (lhs.mentions_lower sees named.2.1).val (rhs.mentions_lower sees named.2.2).val
  | index ty array position, named => by
    simp only [Names, subterms, List.forall_mem_cons, List.forall_mem_append] at named
    exact Env.mentions_index ty array.ty (array.mentions_lower sees named.2.1)
      (position.mentions_lower sees named.2.2)
  | field ty owner name, named =>
    Env.mentions_field ty owner.ty (owner.mentions_lower sees fun part member =>
      named part (List.mem_cons_of_mem _ member)) name
  | deref ty pointer, named =>
    have place := (pointer.mentions_lower sees fun part member =>
      named part (List.mem_cons_of_mem _ member)).val
    Lowered.mentions_ofType place fun _ => Env.mentions_load place ty
  | addrOf _ operand, named =>
    have place := (operand.mentions_lower sees fun part member =>
      named part (List.mem_cons_of_mem _ member)).addr
    Lowered.mentions_ofType place place
  | sizeOf _ _, _ =>
    Lowered.mentions_ofType (fun _ => mentions_fail _) fun _ =>
      (mentions_lift _).bind fun _ => mentions_constant _
  | cast _ operand, named =>
    have code := operand.mentions_lower sees fun part member =>
      named part (List.mem_cons_of_mem _ member)
    Lowered.mentions_ofType code.addr code.val
  | assign ty lhs rhs, named => by
    simp only [Names, subterms, List.forall_mem_cons, List.forall_mem_append] at named
    exact Env.mentions_assign sees ty (named.2.1 lhs lhs.mem_subterms)
      (lhs.mentions_lower sees named.2.1) (rhs.mentions_lower sees named.2.2)

theorem mentions_lowerArgs (sees : env.Sees scope ids) :
    (args : List Expr) → (∀ part ∈ listSubterms args, ∀ id, part.declId? = some id → ids id) →
      ∀ arg ∈ lowerArgs env args, ∀ given, arg.val.Mentions scope given scope.Has
  | [], _, _, member => nomatch member
  | first :: rest, named, arg, member => by
    rw [listSubterms, List.forall_mem_append] at named
    rcases List.mem_cons.1 member with rfl | later
    · exact (first.mentions_lower sees named.1).val
    · exact mentions_lowerArgs sees rest named.2 arg later

end

end Expr

/-! ## Statements -/

namespace Stmt

open Gen

variable {env : Env} {scope : Scope} {ids : DeclId → Prop} {epilogue : Label}

theorem mentions_returnValue (ty : Ty) {val : Gen Reg} {given : Prop}
    (value : ∀ given, val.Mentions scope given scope.Has) :
    (env.returnValue ty val epilogue).Mentions scope given fun _ => True := by
  have leave : ∀ given, (emit [.jump epilogue]).Mentions scope given fun _ => True :=
    fun _ => mentions_emit fun _ => by simp [Instr.uses, Instr.def?]
  refine (value _).bind fun reg => ?_
  split
  · refine (mentions_lift _).bind fun size => (mentions_copyBytes (fun facts => ?_) _ _ _).bind
      fun _ => leave _
    exact ⟨facts.1.2, scope.has_phys .fp⟩
  split
  · exact (@mentions_answer scope _ _ (fun _ => True) () fun _ => trivial).bind fun _ => leave _
  · refine (mentions_emit fun facts => ?_).bind fun _ => leave _
    simp [Instr.uses, Instr.def?, facts.2]

theorem mentions_skipUnless {given : Prop} {reg : Reg} (known : given → scope.Has reg)
    (target : Label) :
    (emit [.branchZero .beqz reg target]).Mentions scope given fun _ => True :=
  mentions_emit fun facts => by simp [Instr.uses, Instr.def?, known facts]

theorem mentions_jump {given : Prop} (target : Label) :
    (emit [.jump target]).Mentions scope given fun _ => True :=
  mentions_emit fun _ => by simp [Instr.uses, Instr.def?]

mutual

theorem mentions_lower (sees : env.Sees scope ids) (labels : Option LoopLabels) (given : Prop) :
    (stmt : Stmt) → (∀ part ∈ stmt.exprs, ∀ id, part.declId? = some id → ids id) →
      (stmt.lower env epilogue labels).Mentions scope given fun _ => True
  | block _ stmts, named => mentions_lowerAll sees labels given stmts named
  | loop cond body, named => by
    rw [exprs, List.forall_mem_append] at named
    refine mentions_freshLabel.bind fun n => (mentions_label _).bind fun _ => ?_
    refine ((cond.mentions_lower sees named.1).val _).bind fun reg => ?_
    refine (mentions_skipUnless (fun facts => facts.2) _).bind fun _ => ?_
    refine (mentions_label _).bind fun _ => (body.mentions_lower sees _ _ named.2).bind fun _ => ?_
    exact (mentions_jump _).bind fun _ => mentions_label _
  | branch cond yes none, named => by
    rw [exprs, List.forall_mem_append] at named
    refine mentions_freshLabel.bind fun n => ?_
    refine ((cond.mentions_lower sees named.1).val _).bind fun reg => ?_
    refine (mentions_skipUnless (fun facts => facts.2) _).bind fun _ => ?_
    exact (yes.mentions_lower sees labels _ named.2).bind fun _ => mentions_label _
  | branch cond yes (some no), named => by
    rw [exprs, List.forall_mem_append, List.forall_mem_append] at named
    refine mentions_freshLabel.bind fun n => ?_
    refine ((cond.mentions_lower sees named.1.1).val _).bind fun reg => ?_
    refine (mentions_skipUnless (fun facts => facts.2) _).bind fun _ => ?_
    refine (yes.mentions_lower sees labels _ named.1.2).bind fun _ => (mentions_jump _).bind fun _ => ?_
    refine (mentions_label _).bind fun _ => ?_
    exact (no.mentions_lower sees labels _ named.2).bind fun _ => mentions_label _
  | ret none, _ => mentions_jump epilogue
  | ret (some value), named => mentions_returnValue value.ty (value.mentions_lower sees named).val
  | eval expr, named =>
    ((expr.mentions_lower sees named).val _).bind fun _ => mentions_pure fun _ => trivial
  | breakLoop, _ => by
    cases labels with
    | none => exact mentions_fail _
    | some labels => exact mentions_jump labels.done
  | continueLoop, _ => by
    cases labels with
    | none => exact mentions_fail _
    | some labels => exact mentions_jump labels.next

theorem mentions_lowerAll (sees : env.Sees scope ids) (labels : Option LoopLabels) (given : Prop) :
    (stmts : List Stmt) → (∀ part ∈ listExprs stmts, ∀ id, part.declId? = some id → ids id) →
      (lowerAll env epilogue labels stmts).Mentions scope given fun _ => True
  | [], _ => mentions_answer fun _ => trivial
  | first :: rest, named => by
    rw [listExprs, List.forall_mem_append] at named
    exact (first.mentions_lower sees labels _ named.1).bind fun _ =>
      mentions_lowerAll sees labels _ rest named.2

end

end Stmt

end MipsBackend
