import MipsBackend.Proofs.Lowering.Bodies
import MipsBackend.Proofs.Lowering.Mentions
import MipsBackend.Proofs.Lowering.Pieces
import MipsBackend.Proofs.Temporaries.Reads

/-!
# Code of expressions writes its results

The code of an expression reads no register but those of variables and those that it has written: a
read of any other register that is due in front of the code is still due behind it, and the register
is not the one that holds the result (`Expr.postpones_lower`). So on every way through the code the
result has been written.
-/

namespace MipsBackend

namespace Gen

variable {watch : Watch} {given : Prop} {α β : Type}

/-- Wherever in the section its code stands: a read that is due at the start is still due at the end,
and the answer is as promised, if what is `given` holds of the registers that it works on. -/
def Postpones (watch : Watch) (given : Prop) (answers : α → Prop) (gen : Gen α) : Prop :=
  ∀ ⦃supply : Supply⦄ ⦃generated : Generated α⦄ ⦃edges node : Nat⦄, given →
    gen.run supply = .ok generated → watch.code.Places node generated.code →
    watch.Due edges node →
    watch.Due edges (node + instrCount generated.code) ∧ answers generated.value

theorem Postpones.bind {known : α → Prop} {answers : β → Prop} {first : Gen α} {next : α → Gen β}
    (left : first.Postpones watch given known)
    (right : ∀ value, (next value).Postpones watch (given ∧ known value) answers) :
    (first >>= next).Postpones watch given answers := by
  intro supply generated edges node holds runs placed due
  obtain ⟨before, after, here, later, rfl⟩ := run_bind.1 runs
  obtain ⟨middle, value⟩ := left holds here placed.left due
  obtain ⟨last, answer⟩ := right _ ⟨holds, value⟩ later placed.right middle
  rw [instrCount_append, ← Nat.add_assoc]
  exact ⟨last, answer⟩

/-- Forgets the answer. -/
theorem Postpones.mono {known : α → Prop} {gen : Gen α} (postpones : gen.Postpones watch given known) :
    gen.Postpones watch given fun _ => True :=
  fun _ _ _ _ holds runs placed due => ⟨(postpones holds runs placed due).1, trivial⟩

theorem postpones_pure {answers : α → Prop} {value : α} (holds : given → answers value) :
    (pure value : Gen α).Postpones watch given answers := by
  intro supply generated edges node known runs placed due
  cases runs
  exact ⟨due, holds known⟩

theorem postpones_answer {answers : α → Prop} {value : α} (holds : given → answers value) :
    (answer value).Postpones watch given answers :=
  postpones_pure holds

theorem postpones_fail {answers : α → Prop} (violation : Violation) :
    (fail violation : Gen α).Postpones watch given answers := by
  intro supply generated edges node known runs
  cases runs

theorem postpones_lift (result : Except Violation α) :
    (lift result).Postpones watch given fun value => result = .ok value := by
  cases result with
  | ok value => exact postpones_answer fun _ => rfl
  | error violation => exact postpones_fail violation

theorem postpones_freshReg : freshReg.Postpones watch given fun _ => True := by
  intro supply generated edges node known runs placed due
  cases runs
  exact ⟨due, trivial⟩

theorem postpones_emit {instrs : List Instr} (ordinary : instrs.all Instr.isOrdinary = true)
    (unread : given → ¬ Instr.ReadFirst (.virt watch.reg) instrs) :
    (emit instrs).Postpones watch given fun _ =>
      ∀ instr ∈ instrs, some (.virt watch.reg) ≠ instr.def? := by
  intro supply generated edges node known runs placed due
  cases runs
  have unbranched : ∀ instr ∈ instrs, instr.branchTarget? = none := by
    intro instr member
    have both := List.all_eq_true.1 ordinary instr member
    rw [Instr.isOrdinary, Bool.and_eq_true] at both
    exact Option.isNone_iff_eq_none.1 both.2
  obtain ⟨kept, later⟩ := due.straight placed unbranched (unread known)
  rw [instrCount_map]
  exact ⟨later, kept⟩

/-- A result register is written on the way. -/
theorem postpones_compute {instrs : Reg → List Instr}
    (ordinary : ∀ res, (instrs res).all Instr.isOrdinary = true)
    (writes : ∀ res, ∃ instr ∈ instrs res, instr.def? = some res)
    (unread : given → ∀ res, ¬ Instr.ReadFirst (.virt watch.reg) (instrs res)) :
    (do
      let res ← freshReg
      emit (instrs res)
      return res).Postpones watch given watch.Other := by
  refine postpones_freshReg.bind fun res => ?_
  refine (postpones_emit (ordinary res) fun facts => unread facts.1 res).bind fun _ => ?_
  refine postpones_pure fun facts same => ?_
  obtain ⟨instr, member, written⟩ := writes res
  exact facts.2 instr member (written ▸ congrArg some same)

/-- One instruction that computes a result. -/
theorem postpones_instr {instr : Reg → Instr} (ordinary : ∀ res, (instr res).isOrdinary = true)
    (writes : ∀ res, (instr res).def? = some res)
    (unread : given → ∀ res, .virt watch.reg ∉ (instr res).uses) :
    (do
      let res ← freshReg
      emit [instr res]
      return res).Postpones watch given watch.Other :=
  postpones_compute (fun res => by simp [ordinary res])
    (fun res => ⟨_, List.mem_singleton_self _, writes res⟩)
    fun known res => by simp [unread known res]

/-! ## Operators -/

theorem postpones_reserve (bytes : Nat) : (reserve bytes).Postpones watch given fun _ => True := by
  unfold reserve
  split
  · exact (postpones_emit rfl fun _ => by simp [Instr.adjustStack, Instr.uses]).mono
  · exact postpones_answer fun _ => trivial

theorem postpones_release (bytes : Nat) : (release bytes).Postpones watch given fun _ => True := by
  unfold release
  split
  · exact (postpones_emit rfl fun _ => by simp [Instr.adjustStack, Instr.uses]).mono
  · exact postpones_answer fun _ => trivial

/-- Each byte is loaded before it is stored. -/
theorem postpones_copyBytes {src dst : Reg} (known : given → watch.Other src ∧ watch.Other dst)
    (srcOffset dstOffset : Int32) (size : Nat) :
    (copyBytes src srcOffset dst dstOffset size).Postpones watch given fun _ => True := by
  refine postpones_freshReg.bind fun byte => (postpones_emit ?_ fun facts => ?_).mono
  · rw [List.all_flatMap]
    exact List.all_eq_true.2 fun _ _ => rfl
  · have source : .virt watch.reg ≠ src := (known facts.1).1
    have target : .virt watch.reg ≠ dst := (known facts.1).2
    induction byteOffsets size with
    | nil => exact Instr.readFirst_nil
    | cons offset rest ih =>
      rw [List.flatMap_cons]
      exact Instr.not_readFirst_append (by simp [Instr.uses, Instr.def?, source, target]) ih

theorem postpones_loadFrom (ty : Ty) {addr : Reg} (known : given → watch.Other addr) :
    (loadFrom ty addr).Postpones watch given watch.Other :=
  postpones_instr (fun _ => rfl) (fun _ => rfl) fun facts _ => by
    simpa [Instr.uses] using known facts

theorem postpones_constant (value : Int32) : (constant value).Postpones watch given watch.Other :=
  postpones_instr (fun _ => rfl) (fun _ => rfl) fun _ _ => List.not_mem_nil

theorem postpones_addressOfLabel (label : Label) :
    (addressOfLabel label).Postpones watch given watch.Other :=
  postpones_instr (fun _ => rfl) (fun _ => rfl) fun _ _ => List.not_mem_nil

theorem postpones_character (c : Char) : (character c).Postpones watch given watch.Other := by
  unfold character
  split
  · exact postpones_instr (fun _ => rfl) (fun _ => rfl) fun _ _ => by simp [Instr.uses]
  · exact postpones_fail _

theorem not_readFirst_operatorCode {op : BinOp} {reg : VReg} {lhs rhs : Reg}
    (left : .virt reg ≠ lhs) (right : .virt reg ≠ rhs) (res : Reg) :
    ¬ Instr.ReadFirst (.virt reg) (operatorCode op res lhs rhs) := by
  cases op <;> simp [operatorCode, Instr.uses, Instr.def?, left, right]

theorem exists_write_operatorCode {op : BinOp} (strict : isStrict op = true) (res lhs rhs : Reg) :
    ∃ instr ∈ operatorCode op res lhs rhs, instr.def? = some res := by
  revert strict
  cases op <;> simp [isStrict, operatorCode, Instr.def?]

/-- Whichever way leads to the end of a short circuit, it writes the result. -/
theorem postpones_shortCircuit {kind : ShortCircuit} {lhs rhs : Gen Reg}
    (left : ∀ given, lhs.Postpones watch given watch.Other)
    (right : ∀ given, rhs.Postpones watch given watch.Other) :
    (shortCircuit kind lhs rhs).Postpones watch given watch.Other := by
  intro supply generated edges node known runs placed due
  obtain ⟨one, two, lowersLeft, lowersRight, answers, -, whole⟩ := run_shortCircuit runs
  rw [whole] at placed
  let tail := node + instrCount one.code + 1 + instrCount two.code
  have ending := placed.right.tail.right
  have decided := watch.labelled.node_of_places ending.tail.tail.tail
  have done := watch.labelled.node_of_places ending.tail.tail.tail.behindLabel.tail
  have count : node + instrCount generated.code = tail + 4 := by
    simp only [whole, ShortCircuit.code, instrCount_append, instrCount_instr, instrCount_label,
      instrCount_nil, tail]
    omega
  rw [count, answers]
  -- Both branches out of the short circuit lead here, to the write of the decided result.
  have settles : ∀ fewer ≤ edges, watch.Due fewer (tail + 3) →
      watch.Due edges (tail + 4) ∧ watch.Other (.virt one.supply.nextReg) := by
    intro fewer bound due
    obtain ⟨kept, later⟩ := @Watch.Due.straight watch [_] _ _ due
      (Section.Places.left ending.tail.tail.tail.behindLabel) (by simp [Instr.branchTarget?])
      (by simp [Instr.uses])
    exact ⟨later.mono bound, by simpa [Instr.def?] using kept⟩
  obtain ⟨tested, other⟩ := left True trivial lowersLeft placed.left due
  obtain ⟨fewer, bound, stays | leaves⟩ := tested.branch placed.right.instr other decided
  · obtain ⟨retested, another⟩ := right True trivial lowersRight placed.right.tail.left stays
    obtain ⟨less, small, stays | leaves⟩ := retested.branch ending.instr another decided
    · obtain ⟨kept, jumps⟩ := @Watch.Due.straight watch [_] _ _ stays
        (Section.Places.left ending.tail) (by simp [Instr.branchTarget?]) (by simp [Instr.uses])
      obtain ⟨least, final, succ, stands, next⟩ := jumps.jump ending.tail.tail.instr
      obtain rfl := Option.some.inj (done.symm.trans stands)
      exact ⟨next.mono (by omega), by simpa [Instr.def?] using kept⟩
    · exact settles less (by omega) leaves
  · exact settles fewer (Nat.le_of_lt bound) leaves

theorem postpones_operator (op : BinOp) {lhs rhs : Gen Reg}
    (left : ∀ given, lhs.Postpones watch given watch.Other)
    (right : ∀ given, rhs.Postpones watch given watch.Other) :
    (operator op lhs rhs).Postpones watch given watch.Other := by
  unfold operator
  split
  · exact postpones_shortCircuit left right
  · exact postpones_shortCircuit left right
  · next notOr notAnd =>
    have strict : isStrict op = true := by
      cases op <;> first | rfl | contradiction
    exact (left _).bind fun first => (right _).bind fun second => postpones_compute
      (fun res => isOrdinary_operatorCode op res first second)
      (fun res => exists_write_operatorCode strict res first second)
      fun facts res => not_readFirst_operatorCode facts.1.2 facts.2 res

end Gen

/-! ## Expressions -/

structure Lowered.Postpones (watch : Watch) (code : Lowered) : Prop where
  addr : ∀ given, code.addr.Postpones watch given watch.Other
  val : ∀ given, code.val.Postpones watch given watch.Other

theorem Lowered.postpones_ofType {watch : Watch} {ty : Ty} {addr val : Gen Reg}
    (first : ∀ given, addr.Postpones watch given watch.Other)
    (second : ∀ given, val.Postpones watch given watch.Other) :
    (ofType ty addr val).Postpones watch := by
  refine ⟨first, ?_⟩
  unfold ofType
  dsimp only
  split
  · exact second
  · exact first

namespace Env

/-- No variable lives in the watched register. -/
structure Spares (env : Env) (watch : Watch) : Prop where
  promoted : ∀ (id : DeclId) (reg : VReg), env.promotion[id]? = some reg → watch.reg ≠ reg
  stored : ∀ (id : DeclId) (reg : VReg), env.plan.storage[id]? = some (.register reg) →
    watch.reg ≠ reg

variable {env : Env} {watch : Watch} {given : Prop}

open Gen

theorem postpones_storeArgs {args : List Arg}
    (vals : ∀ arg ∈ args, ∀ given, arg.val.Postpones watch given watch.Other) (offset : Int32) :
    (env.storeArgs offset args).Postpones watch given fun _ => True := by
  induction args generalizing offset given with
  | nil => exact postpones_answer fun _ => trivial
  | cons arg above ih =>
    have later : ∀ given offset, (env.storeArgs offset above).Postpones watch given fun _ => True :=
      fun _ => ih fun other member => vals other (List.mem_cons_of_mem _ member)
    refine (vals arg List.mem_cons_self _).bind fun reg => ?_
    split
    · refine (postpones_lift _).bind fun size => ?_
      exact (postpones_copyBytes (fun facts => ⟨facts.1.2, by simp⟩) _ _ _).bind fun _ => later _ _
    · refine (postpones_emit rfl fun facts => ?_).bind fun _ => later _ _
      simpa [Instr.uses] using facts.2

theorem postpones_callService (ret : Ty) (name : String) {args : List Arg}
    (vals : ∀ arg ∈ args, ∀ given, arg.val.Postpones watch given watch.Other) :
    (callService ret name args).Postpones watch given watch.Other := by
  have result : ∀ given, (do
      emit [.call (.function name)]
      if ret.isVoid then return Reg.zero
      else
        let res ← freshReg
        emit [.move res .v0]
        return res).Postpones watch given watch.Other := by
    refine fun given => (postpones_emit rfl fun _ => by simp [Instr.uses]).bind fun _ => ?_
    split
    · exact postpones_pure fun _ => by simp
    · exact postpones_instr (fun _ => rfl) (fun _ => rfl) fun _ _ => by simp [Instr.move, Instr.uses]
  cases args with
  | nil =>
    exact (@postpones_answer watch given _ (fun _ => True) () fun _ => trivial).bind
      fun _ => result _
  | cons first rest =>
    refine (vals first List.mem_cons_self _).bind fun reg => (postpones_emit rfl fun facts => ?_).bind
      fun _ => result _
    simpa [Instr.move, Instr.uses] using facts.2

theorem postpones_takeResult (ret : Ty) :
    (takeResult ret).Postpones watch given watch.Other := by
  unfold takeResult
  split
  · exact postpones_answer fun _ => by simp
  split
  · exact postpones_instr (fun _ => rfl) (fun _ => rfl) fun _ _ => by simp [Instr.uses]
  · exact postpones_loadFrom _ fun _ => by simp

theorem postpones_callFunction (name : String) {args : List Arg}
    (vals : ∀ arg ∈ args, ∀ given, arg.val.Postpones watch given watch.Other) :
    (env.callFunction name args).Postpones watch given watch.Other := by
  refine (postpones_lift _).bind fun signature => (postpones_lift _).bind fun space => ?_
  refine (postpones_reserve space).bind fun _ => (postpones_storeArgs (fun arg member =>
    vals arg (List.mem_reverse.1 member)) 0).bind fun _ => ?_
  refine (postpones_lift _).bind fun result => (postpones_reserve result).bind fun _ => ?_
  refine (postpones_emit rfl fun _ => by simp [Instr.uses]).bind fun _ => ?_
  refine (postpones_takeResult _).bind fun res => (postpones_release _).bind fun _ => ?_
  exact postpones_pure fun facts => facts.1.2

theorem postpones_call (ret : Ty) (name : String) {args : List Arg}
    (vals : ∀ arg ∈ args, ∀ given, arg.val.Postpones watch given watch.Other) :
    (env.call ret name args).Postpones watch := by
  unfold call
  cases env.service? name with
  | some service => exact ⟨fun _ => postpones_callService ret name vals,
      fun _ => postpones_callService ret name vals⟩
  | none => exact ⟨fun _ => postpones_callFunction name vals,
      fun _ => postpones_callFunction name vals⟩

theorem postpones_load {addr : Gen Reg} (place : ∀ given, addr.Postpones watch given watch.Other)
    (ty : Ty) : (do loadFrom ty (← addr)).Postpones watch given watch.Other :=
  (place _).bind fun _ => postpones_loadFrom _ fun facts => facts.2

section

variable (spares : env.Spares watch)

include spares

theorem postpones_varAddr (id : DeclId) (name : String) :
    (env.varAddr id name).Postpones watch given watch.Other := by
  refine (postpones_lift _).bind fun storage => ?_
  split
  · exact postpones_pure fun facts same =>
      spares.stored id _ (storageOf_eq_ok facts.2) (Reg.virt.inj same)
  · exact postpones_addressOfLabel _
  · exact postpones_instr (fun _ => rfl) (fun _ => rfl) fun _ _ => by simp [Instr.lw, Instr.uses]
  · exact postpones_instr (fun _ => rfl) (fun _ => rfl) fun _ _ => by simp [Instr.uses]

theorem postpones_var (ty : Ty) (id : DeclId) (name : String) :
    (env.var ty id name).Postpones watch := by
  refine Lowered.postpones_ofType (fun _ => postpones_varAddr spares id name) fun given => ?_
  split
  · next reg promoted =>
    exact postpones_answer fun _ same => spares.promoted id reg promoted (Reg.virt.inj same)
  · exact postpones_load (fun _ => postpones_varAddr spares id name) ty

end

theorem postpones_assign (ty : Ty) (target : Expr) {lhs rhs : Lowered} (left : lhs.Postpones watch)
    (right : rhs.Postpones watch) : (env.assign ty target lhs rhs).Postpones watch := by
  refine Lowered.postpones_ofType (fun _ => (left.addr _).bind fun dst => ?_)
    fun _ => (right.val _).bind fun value => ?_
  · split
    · refine (right.addr _).bind fun src => (postpones_lift _).bind fun size => ?_
      exact (postpones_copyBytes (fun facts => ⟨facts.1.2, facts.1.1.2⟩) _ _ _).bind
        fun _ => postpones_pure fun facts => facts.1.1.1.2
    · refine (right.val _).bind fun value => ?_
      split
      · refine (postpones_emit rfl fun facts => ?_).bind fun _ => postpones_pure fun facts => facts.1.2
        simpa [Instr.move, Instr.uses] using facts.2
      · refine (postpones_emit rfl fun facts => ?_).bind fun _ =>
          postpones_pure fun facts => facts.1.1.2
        have value : .virt watch.reg ≠ value := facts.2
        have place : .virt watch.reg ≠ dst := facts.1.2
        simp [Instr.uses, value, place]
  · split
    · refine (postpones_emit rfl fun facts => ?_).bind fun _ => postpones_pure fun facts => facts.1.2
      simpa [Instr.move, Instr.uses] using facts.2
    · refine (left.addr _).bind fun dst => (postpones_emit rfl fun facts => ?_).bind
        fun _ => postpones_pure fun facts => facts.1.1.2
      have place : .virt watch.reg ≠ dst := facts.2
      have value : .virt watch.reg ≠ value := facts.1.2
      simp [Instr.uses, value, place]

theorem postpones_index (ty arrayTy : Ty) {array position : Lowered} (base : array.Postpones watch)
    (number : position.Postpones watch) : (env.index ty arrayTy array position).Postpones watch := by
  have rest : ∀ given, ∀ base : Reg, (do
      let number ← position.val
      let size ← Gen.lift (env.layout.size ty)
      let res ← Gen.freshReg
      Gen.emit [.loadImm res (.ofNat size), .arith .mul res number res, .arith .add res base res]
      return res).Postpones watch (given ∧ watch.Other base) watch.Other := by
    refine fun given base => (number.val _).bind fun number => (postpones_lift _).bind fun _ => ?_
    refine postpones_compute (fun _ => rfl) (fun _ => ⟨_, List.mem_cons_self, rfl⟩) fun facts res => ?_
    have place : .virt watch.reg ≠ base := facts.1.1.2
    have position : .virt watch.reg ≠ number := facts.1.2
    simp [Instr.uses, Instr.def?, place, position]
  suffices place : ∀ given,
      (env.index ty arrayTy array position).addr.Postpones watch given watch.Other
    from Lowered.postpones_ofType place fun _ => postpones_load place ty
  intro given
  unfold index Lowered.ofType
  dsimp only
  split
  · exact (base.val _).bind fun base => rest given base
  · exact (base.addr _).bind fun base => rest given base

theorem postpones_field (ty ownerTy : Ty) {owner : Lowered} (base : owner.Postpones watch)
    (name : String) : (env.field ty ownerTy owner name).Postpones watch := by
  suffices place : ∀ given, (env.field ty ownerTy owner name).addr.Postpones watch given watch.Other
    from Lowered.postpones_ofType place fun _ => postpones_load place ty
  refine fun given => (base.addr _).bind fun _ => ?_
  split
  · refine (postpones_lift _).bind fun _ => ?_
    exact postpones_instr (fun _ => rfl) (fun _ => rfl) fun facts res => by
      simpa [Instr.uses] using facts.1.2
  · exact postpones_fail _

end Env

namespace Expr

open Gen

variable {env : Env} {watch : Watch}

mutual

theorem postpones_lower (spares : env.Spares watch) : (e : Expr) → (e.lower env).Postpones watch
  | intLit _ value =>
    Lowered.postpones_ofType (fun _ => postpones_fail _) fun _ => postpones_constant value
  | charLit _ value =>
    Lowered.postpones_ofType (fun _ => postpones_fail _) fun _ => postpones_character value
  | strLit _ text =>
    have place := fun given => (@postpones_lift watch given _ (env.plan.stringLabel text)).bind
      fun label => postpones_addressOfLabel label
    Lowered.postpones_ofType place place
  | var ty id name => Env.postpones_var spares ty id name
  | call ty name args => Env.postpones_call ty name (postpones_lowerArgs spares args)
  | binOp _ op lhs rhs =>
    Lowered.postpones_ofType (fun _ => postpones_fail _) fun _ => postpones_operator op
      (lhs.postpones_lower spares).val (rhs.postpones_lower spares).val
  | index ty array position =>
    Env.postpones_index ty array.ty (array.postpones_lower spares) (position.postpones_lower spares)
  | field ty owner name => Env.postpones_field ty owner.ty (owner.postpones_lower spares) name
  | deref ty pointer =>
    have place := (pointer.postpones_lower spares).val
    Lowered.postpones_ofType place fun _ => Env.postpones_load place ty
  | addrOf _ operand =>
    have place := (operand.postpones_lower spares).addr
    Lowered.postpones_ofType place place
  | sizeOf _ _ =>
    Lowered.postpones_ofType (fun _ => postpones_fail _) fun _ =>
      (postpones_lift _).bind fun _ => postpones_constant _
  | cast _ operand =>
    have code := operand.postpones_lower spares
    Lowered.postpones_ofType code.addr code.val
  | assign ty lhs rhs =>
    Env.postpones_assign ty lhs (lhs.postpones_lower spares) (rhs.postpones_lower spares)

theorem postpones_lowerArgs (spares : env.Spares watch) :
    (args : List Expr) → ∀ arg ∈ lowerArgs env args, ∀ given,
      arg.val.Postpones watch given watch.Other
  | [], _, member => nomatch member
  | first :: rest, arg, member => by
    rcases List.mem_cons.1 member with rfl | later
    · exact (first.postpones_lower spares).val
    · exact postpones_lowerArgs spares rest arg later

end

end Expr

end MipsBackend
