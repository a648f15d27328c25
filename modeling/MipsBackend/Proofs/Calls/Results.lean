import MipsBackend.Proofs.Lowering.Composition
import MipsBackend.Proofs.Lowering.Grammar

/-!
# Results of calls are read in time

When a call is over, a struct that it returned is below the stack pointer, where the next call may
overwrite it. From the call to the instructions that read a part of the result, or copy it to its
place, there is no other call, and the stack pointer is left alone (`Expr.PartOfCall.read`). This is
only so if no index on the way to that part makes a call, which would run after the one that returned
the struct.
-/

namespace MipsBackend

def Uncalling (code : List TextItem) : Prop :=
  ∀ instr, .instr instr ∈ code → instr.isCall = false

instance : Compositional Uncalling where
  uncalling _ quiet := quiet
  append _ _ left right instr member := (List.mem_append.1 member).elim (left instr) (right instr)

/-- The code makes no call and does not move the stack pointer. -/
def LeavesStack (code : List TextItem) : Prop :=
  ∀ instr, .instr instr ∈ code → instr.isCall = false ∧ instr.def? ≠ some .sp

namespace LeavesStack

theorem nil : LeavesStack [] := fun _ member => nomatch member

theorem append {first second : List TextItem} (left : LeavesStack first)
    (right : LeavesStack second) : LeavesStack (first ++ second) := fun instr member =>
  (List.mem_append.1 member).elim (left instr) (right instr)

theorem cons {instr : Instr} {rest : List TextItem} (uncalling : instr.isCall = false)
    (still : instr.def? ≠ some .sp) (later : LeavesStack rest) :
    LeavesStack (.instr instr :: rest) := by
  intro other member
  rcases List.mem_cons.1 member with same | inside
  · cases same
    exact ⟨uncalling, still⟩
  · exact later other inside

theorem label {label : Label} {rest : List TextItem} (later : LeavesStack rest) :
    LeavesStack (.label label :: rest) := by
  intro other member
  rcases List.mem_cons.1 member with same | inside
  · cases same
  · exact later other inside

end LeavesStack

theorem Instr.def?_of_isComputation {instr : Instr} (computes : instr.isComputation = true) :
    instr.def? ≠ some .sp := by
  intro writes
  simp [isComputation, writes] at computes

/-- The code of an expression moves the stack pointer in calls only. -/
theorem ExprCode.leavesStack {env : Env} {first last : Nat} {code : List TextItem}
    (shape : ExprCode env first code last) (uncalling : Uncalling code) : LeavesStack code := by
  induction shape with
  | nothing => exact .nil
  | append _ _ left right =>
    exact (left fun instr member => uncalling instr (List.mem_append_left _ member)).append
      (right fun instr member => uncalling instr (List.mem_append_right _ member))
  | computation computes =>
    exact .cons (uncalling _ List.mem_cons_self) (Instr.def?_of_isComputation computes) .nil
  | service known => cases uncalling _ List.mem_cons_self
  | @call _ _ _ name decl space result args take own signed argSpace resultSpace _ _ _ _ =>
    have calls := uncalling (.call (.function name)) (by simp [callItems])
    cases calls
  | @shortCircuit _ _ _ kind known lhs rhs _ _ _ _ _ left right =>
    have inside : ∀ instr, .instr instr ∈ lhs ∨ .instr instr ∈ rhs → instr.isCall = false := by
      intro instr member
      refine uncalling instr ?_
      rcases member with member | member <;> simp [Gen.ShortCircuit.code, member]
    exact (left fun instr member => inside instr (.inl member)).append (.cons rfl nofun
      ((right fun instr member => inside instr (.inr member)).append (.cons rfl nofun
        (.cons rfl nofun (.cons rfl nofun (.label (.cons rfl nofun (.label .nil))))))))

/-! ## Reading a result -/

namespace Gen

variable {env : Env} {α β : Type} {call : Gen Reg}

/-- Starts with the code of the call, and leaves the stack alone from there on. -/
def ReadsAfter (gen : Gen α) (call : Gen Reg) : Prop :=
  ∀ supply generated, gen.run supply = .ok generated → ∃ own rest, call.run supply = .ok own ∧
    generated.code = own.code ++ rest ∧ LeavesStack rest

theorem readsAfter_self (call : Gen Reg) : call.ReadsAfter call :=
  fun _ generated runs => ⟨generated, [], runs, (List.append_nil _).symm, .nil⟩

theorem ReadsAfter.bind {first : Gen α} {next : α → Gen β} {answers : β → Prop}
    (reads : first.ReadsAfter call) (writes : ∀ value, (next value).Writes env answers)
    (uncalling : ∀ value, (next value).Yields Uncalling) : (first >>= next).ReadsAfter call := by
  intro supply generated runs
  obtain ⟨before, after, here, later, rfl⟩ := run_bind.1 runs
  obtain ⟨own, rest, calls, code, leaves⟩ := reads _ _ here
  refine ⟨own, rest ++ after.code, calls, ?_, leaves.append ?_⟩
  · rw [code, List.append_assoc]
  · exact (writes _ _ _ later).code.leavesStack (uncalling _ _ _ later)

end Gen

structure Lowered.ReadsAfter (code : Lowered) (call : Gen Reg) : Prop where
  addr : code.addr.ReadsAfter call
  val : code.val.ReadsAfter call

/-- What is read from a place after a call is loaded at once. -/
theorem Lowered.readsAfter_place (env : Env) {call : Gen Reg} (ty : Ty) {addr : Gen Reg}
    (place : addr.ReadsAfter call) :
    (ofType ty addr do Gen.loadFrom ty (← addr)).ReadsAfter call := by
  refine ⟨place, ?_⟩
  unfold ofType
  dsimp only
  split
  · exact place.bind (fun base => @Gen.writes_loadFrom env ty base) fun _ => Gen.yields_loadFrom _ _
  · exact place

namespace Expr

/-- The expression is a call, or a field or an element of a part of its result. No index on the way
makes a call. -/
inductive PartOfCall (ret : Ty) (name : String) (args : List Expr) : Expr → Prop
  | whole : PartOfCall ret name args (.call ret name args)
  | member (ty : Ty) {owner : Expr} (field : String) (base : PartOfCall ret name args owner) :
      PartOfCall ret name args (.field ty owner field)
  | element (ty : Ty) {array position : Expr} (base : PartOfCall ret name args array)
      (uncalled : ∀ ty other args, .call ty other args ∉ position.subterms) :
      PartOfCall ret name args (.index ty array position)

theorem yields_uncalling (env : Env) {e : Expr}
    (uncalled : ∀ ty name args, .call ty name args ∉ e.subterms) :
    (e.lower env).Yields Uncalling :=
  e.yields_lower (fun ty name args member => absurd member (uncalled ty name args))
    (List.Subset.refl _)

variable {env : Env} {ret : Ty} {name : String} {args : List Expr} {e : Expr}

/-- From the end of the call on, the code that reads a part of its result leaves the stack alone. -/
theorem PartOfCall.read (part : e.PartOfCall ret name args) :
    (e.lower env).ReadsAfter ((call ret name args).lower env).val := by
  induction part with
  | whole => exact ⟨Gen.readsAfter_self _, Gen.readsAfter_self _⟩
  | @member ty owner field base reads =>
    have writes := env.writes_member owner.ty field
    have quiet := @Env.yields_member env Uncalling _ owner.ty field
    exact Lowered.readsAfter_place env ty (reads.addr.bind writes quiet)
  | @element ty array position base uncalled reads =>
    have writes := env.writes_element ty (position.writes_lower env).val
    have quiet := @Env.yields_element env Uncalling _ ty _ (yields_uncalling env uncalled).val
    refine Lowered.readsAfter_place env ty ?_
    dsimp only
    split
    · exact reads.val.bind writes quiet
    · exact reads.addr.bind writes quiet

end Expr

/-! ## Moving a result -/

/-- A copy from the place that was computed reads the result before the stack is used again. -/
theorem Gen.ReadsAfter.copied {gen call : Gen Reg} (env : Env) (reads : gen.ReadsAfter call)
    {src dst : Reg} {srcOffset dstOffset : Int32} {size : Nat} {supply middle : Supply}
    {computed : Generated Reg} {moved : Generated Unit} (computes : gen.run supply = .ok computed)
    (copies : (copyBytes src srcOffset dst dstOffset size).run middle = .ok moved) :
    ∃ own rest, call.run supply = .ok own ∧ computed.code ++ moved.code = own.code ++ rest ∧
      LeavesStack rest := by
  obtain ⟨own, rest, calls, split, leaves⟩ := reads _ _ computes
  have wrote := @writes_copyBytes env src srcOffset dst dstOffset size _ _ copies
  refine ⟨own, rest ++ moved.code, calls, ?_, leaves.append (wrote.code.leavesStack
    (yields_copyBytes src srcOffset dst dstOffset size _ _ copies))⟩
  rw [split, List.append_assoc]

section Moves

variable {env : Env} {ret : Ty} {name : String} {args : List Expr} {e : Expr} {supply : Supply}

/-- A struct argument is stored before the arguments above it are evaluated. -/
theorem Env.read_argument (part : e.PartOfCall ret name args) (struct : e.ty.isStruct = true)
    {offset : Int32} {above : List Arg} {generated : Generated Unit}
    (runs : (env.storeArgs offset ({ ty := e.ty, val := (e.lower env).val } :: above)).run supply =
      .ok generated) :
    ∃ own rest, ∃ size walk, ∃ later : Generated Unit,
      ((Expr.call ret name args).lower env).val.run supply = .ok own ∧
      env.layout.size e.ty = .ok size ∧
      (env.storeArgs (offset + .ofNat (alignUp size 4)) above).run walk = .ok later ∧
      generated.code = own.code ++ (rest ++ later.code) ∧ LeavesStack rest := by
  obtain ⟨computed, stored, computes, runsStore, -, whole⟩ := Gen.run_bind_code runs
  rw [if_pos struct] at runsStore
  obtain ⟨size, measured, runsCopy⟩ := Gen.run_lift_bind.1 runsStore
  obtain ⟨copied, later, copies, walks, -, code⟩ := Gen.run_bind_code runsCopy
  obtain ⟨own, rest, calls, split, leaves⟩ := part.read.val.copied env computes copies
  refine ⟨own, rest, size, _, later, calls, measured, walks, ?_, leaves⟩
  rw [whole, code, ← List.append_assoc, split, List.append_assoc]

theorem Env.read_returnValue (part : e.PartOfCall ret name args) (struct : e.ty.isStruct = true)
    {epilogue : Label} {generated : Generated Unit}
    (runs : (env.returnValue e.ty (e.lower env).val epilogue).run supply = .ok generated) :
    ∃ own rest, ((Expr.call ret name args).lower env).val.run supply = .ok own ∧
      generated.code = own.code ++ rest ∧ LeavesStack rest := by
  obtain ⟨computed, stored, computes, runsStore, -, whole⟩ := Gen.run_bind_code runs
  rw [if_pos struct] at runsStore
  obtain ⟨size, measured, runsCopy⟩ := Gen.run_lift_bind.1 runsStore
  obtain ⟨copied, left, copies, jumps, -, code⟩ := Gen.run_bind_code runsCopy
  obtain ⟨own, rest, calls, split, leaves⟩ := part.read.val.copied env computes copies
  have leave : LeavesStack [.instr (.jump epilogue)] := .cons rfl nofun .nil
  refine ⟨own, rest ++ [.instr (.jump epilogue)], calls, ?_, leaves.append leave⟩
  rw [whole, code, Gen.run_emit jumps, ← List.append_assoc, split, List.append_assoc]
  rfl

theorem Expr.read_assign (part : e.PartOfCall ret name args) {target : Expr}
    (struct : target.ty.isStruct = true) {ty : Ty} {generated : Generated Reg}
    (runs : ((assign ty target e).lower env).addr.run supply = .ok generated) :
    ∃ dst own rest, (target.lower env).addr.run supply = .ok dst ∧
      ((call ret name args).lower env).val.run dst.supply = .ok own ∧
      generated.code = dst.code ++ (own.code ++ rest) ∧ LeavesStack rest := by
  obtain ⟨dst, moved, places, runsMove, -, whole⟩ := Gen.run_bind_code runs
  rw [if_pos struct] at runsMove
  obtain ⟨computed, stored, computes, runsStore, -, code⟩ := Gen.run_bind_code runsMove
  obtain ⟨size, measured, runsCopy⟩ := Gen.run_lift_bind.1 runsStore
  obtain ⟨copied, left, copies, answers, -, copyCode⟩ := Gen.run_bind_code runsCopy
  cases answers
  obtain ⟨own, rest, calls, split, leaves⟩ := part.read.addr.copied env computes copies
  refine ⟨dst, own, rest, places, calls, ?_, leaves⟩
  rw [whole, code, copyCode, List.append_nil, split]

end Moves

end MipsBackend
