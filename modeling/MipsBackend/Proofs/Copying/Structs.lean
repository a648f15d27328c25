import MipsBackend.Proofs.Calls.Agreement
import MipsBackend.Proofs.Copying.Bytes
import MipsBackend.Proofs.Lowering.Registers

/-!
# Copying structs

Assignments, arguments and results that are structs are copied, each by code that moves exactly the
bytes of its type (`Env.MovesStructs`). The register that a copy works with is drawn behind those
that hold the two addresses, so it is none of them.
-/

namespace MipsBackend

/-! ## Answers -/

namespace Program

variable {program : Program} {plan : MemoryPlan}

theorem sees_below (planned : program.memoryPlan (program.promotion 0).1 = .ok plan) {bound : VReg}
    (above : (program.promotion 0).2 ≤ bound) :
    (program.env plan).Sees { regs := (· < bound), data := fun _ => True } fun _ => True := by
  have below : ∀ (id : DeclId) (reg : VReg), (program.promotion 0).1[id]? = some reg →
      reg < bound := fun id reg known =>
    Nat.lt_of_lt_of_le ((program.distinct_promotion 0).below id reg known) above
  exact ⟨fun id reg _ known => below id reg known,
    fun id reg _ known => below id reg ((lists_memoryPlan planned).register id reg known),
    fun _ _ _ _ => trivial, fun _ _ _ => trivial⟩

end Program

namespace Gen

/-- If the supply begins at a bound or above, it only grows, and the answer is no register that it
is still to give out. -/
def Settles (least : VReg) (gen : Gen Reg) : Prop :=
  ∀ supply generated, gen.run supply = .ok generated → least ≤ supply.nextReg →
    supply.nextReg ≤ generated.supply.nextReg ∧
      ∀ reg, generated.supply.nextReg ≤ reg → generated.value ≠ .virt reg

theorem settles_of_mentions {least : VReg} {gen : Gen Reg}
    (mentions : ∀ bound, least ≤ bound →
      gen.Mentions { regs := (· < bound), data := fun _ => True } True
        (Scope.Has { regs := (· < bound), data := fun _ => True })) : gen.Settles least := by
  intro supply generated runs above
  have grows := (mentions least (Nat.le_refl least) supply generated runs).grows
  have known := (mentions generated.supply.nextReg (Nat.le_trans above grows) supply generated
    runs).allowed trivial fun reg _ upper => upper
  refine ⟨grows, fun reg later same => ?_⟩
  have below := known.2
  rw [same, Scope.has_virt] at below
  exact Nat.lt_irrefl reg (Nat.lt_of_lt_of_le below later)

end Gen

structure Lowered.Settles (least : VReg) (code : Lowered) : Prop where
  addr : code.addr.Settles least
  val : code.val.Settles least

theorem Expr.settles_lower {program : Program} {plan : MemoryPlan}
    (planned : program.memoryPlan (program.promotion 0).1 = .ok plan) (e : Expr) :
    (e.lower (program.env plan)).Settles (program.promotion 0).2 := by
  have mentions := fun bound above =>
    e.mentions_lower (@Program.sees_below program plan planned bound above) fun _ _ _ _ => trivial
  exact ⟨Gen.settles_of_mentions fun bound above => (mentions bound above).addr True,
    Gen.settles_of_mentions fun bound above => (mentions bound above).val True⟩

/-! ## The copies of structs -/

namespace Env

/-- Code that copies exactly the bytes of a type, from the address in one register to an offset from
the address in another. -/
def CopiesStruct (env : Env) (ty : Ty) (byte : VReg) (src dst : Reg) (offset : Int32)
    (code : List TextItem) : Prop :=
  ∃ size instrs, env.layout.size ty = .ok size ∧ code = instrs.map .instr ∧
    (size < 2 ^ 31 → Copies byte src 0 dst offset size instrs)

/-- What code with the supply does about structs. -/
structure MovesStructs (env : Env) (supply : Supply) : Prop where
  /-- Both addresses are computed, and the right struct is then copied to the left address. -/
  assign : ∀ ty lhs rhs generated, lhs.ty.isStruct = true →
    ((Expr.assign ty lhs rhs).lower env).addr.run supply = .ok generated →
    ∃ left right copy, (lhs.lower env).addr.run supply = .ok left ∧
      (rhs.lower env).addr.run left.supply = .ok right ∧
      generated.code = left.code ++ (right.code ++ copy) ∧ generated.value = left.value ∧
      env.CopiesStruct lhs.ty right.supply.nextReg right.value left.value 0 copy
  /-- Assignments of structs have no other code. -/
  value : ∀ ty lhs rhs, ty.isStruct = true →
    ((Expr.assign ty lhs rhs).lower env).val = ((Expr.assign ty lhs rhs).lower env).addr
  /-- Behind the code of a struct argument, the struct is copied to its slot. The arguments behind
  it lie below. -/
  argument : ∀ ty name before arg behind generated, arg.ty.isStruct = true →
    env.service? name = none →
    ((Expr.call ty name (before ++ arg :: behind)).lower env).val.run supply = .ok generated →
    ∃ walk start computed copy front rest, supply.nextReg ≤ walk.nextReg ∧
      (arg.lower env).val.run walk = .ok computed ∧
      generated.code = front ++ (computed.code ++ (copy ++ rest)) ∧
      env.CopiesStruct arg.ty computed.supply.nextReg computed.value .sp start copy ∧
      ∀ slots, env.layout.Slots (behind.map Expr.ty) slots →
        (∀ other ∈ behind, other.ty.isVoid = false) → start = .ofNat slots.sum
  /-- A struct that is returned is copied to the place of the result. -/
  result : ∀ value epilogue labels generated, value.ty.isStruct = true →
    ((Stmt.ret (some value)).lower env epilogue labels).run supply = .ok generated →
    ∃ computed copy, (value.lower env).val.run supply = .ok computed ∧
      generated.code = computed.code ++ (copy ++ [.instr (.jump epilogue)]) ∧
      env.CopiesStruct value.ty computed.supply.nextReg computed.value .fp resultOffset copy

variable {env : Env} {least : VReg}

/-- The size is looked up, and then that many bytes are copied through a register that is drawn for
it. -/
theorem run_copyStruct {β : Type} {ty : Ty} {src dst : Reg} {offset : Int32} {next : Nat → Gen β}
    {supply : Supply} {generated : Generated β}
    (runs : (do
      let size ← Gen.lift (env.layout.size ty)
      Gen.copyBytes src 0 dst offset size
      next size).run supply = .ok generated)
    (own : src ≠ .virt supply.nextReg) (other : dst ≠ .virt supply.nextReg) :
    ∃ size walk copy rest, (next size).run walk = .ok rest ∧ generated.value = rest.value ∧
      generated.code = copy ++ rest.code ∧
      env.CopiesStruct ty supply.nextReg src dst offset copy := by
  obtain ⟨size, measured, runsCopy⟩ := Gen.run_lift_bind.1 runs
  obtain ⟨copied, rest, copies, goesOn, value, code⟩ := Gen.run_bind_code runsCopy
  cases copies
  exact ⟨size, _, _, rest, goesOn, value, code, size, _, measured, rfl, fun small =>
    copies_copyCode small own other⟩

theorem assign_moves {lhs rhs : Expr} (left : (lhs.lower env).Settles least)
    (right : (rhs.lower env).Settles least) (struct : lhs.ty.isStruct = true) {ty : Ty}
    {supply : Supply} (above : least ≤ supply.nextReg) {generated : Generated Reg}
    (runs : ((Expr.assign ty lhs rhs).lower env).addr.run supply = .ok generated) :
    ∃ left right copy, (lhs.lower env).addr.run supply = .ok left ∧
      (rhs.lower env).addr.run left.supply = .ok right ∧
      generated.code = left.code ++ (right.code ++ copy) ∧ generated.value = left.value ∧
      env.CopiesStruct lhs.ty right.supply.nextReg right.value left.value 0 copy := by
  obtain ⟨dst, moved, places, runsMove, value, whole⟩ := Gen.run_bind_code runs
  rw [if_pos struct] at runsMove
  obtain ⟨src, stored, computes, runsStore, answer, code⟩ := Gen.run_bind_code runsMove
  obtain ⟨grown, first⟩ := left.addr _ _ places above
  obtain ⟨further, second⟩ := right.addr _ _ computes (Nat.le_trans above grown)
  obtain ⟨size, _, copy, rest, answers, back, copyCode, copies⟩ :=
    run_copyStruct runsStore (second _ (Nat.le_refl _)) (first _ further)
  cases answers
  refine ⟨dst, src, copy, places, computes, ?_, value.trans (answer.trans back), copies⟩
  rw [whole, code, copyCode, List.append_nil]

theorem result_moves {value : Expr} (settles : (value.lower env).Settles least)
    (struct : value.ty.isStruct = true) {epilogue : Label} {supply : Supply}
    (above : least ≤ supply.nextReg) {generated : Generated Unit}
    (runs : (env.returnValue value.ty (value.lower env).val epilogue).run supply = .ok generated) :
    ∃ computed copy, (value.lower env).val.run supply = .ok computed ∧
      generated.code = computed.code ++ (copy ++ [.instr (.jump epilogue)]) ∧
      env.CopiesStruct value.ty computed.supply.nextReg computed.value .fp resultOffset copy := by
  obtain ⟨computed, stored, computes, runsStore, -, whole⟩ := Gen.run_bind_code runs
  rw [if_pos struct] at runsStore
  have fresh := (settles.val _ _ computes above).2 _ (Nat.le_refl _)
  obtain ⟨size, _, copy, rest, jumps, -, code, copies⟩ := run_copyStruct runsStore fresh nofun
  refine ⟨computed, copy, computes, ?_, copies⟩
  rw [whole, code, Gen.run_emit jumps]
  rfl

/-- However an argument is stored, the walk goes on behind its slot. -/
theorem run_storeArgs_step {arg : Arg} {later : List Arg} {start : Int32} {supply : Supply}
    {generated : Generated Unit}
    (runs : (env.storeArgs start (arg :: later)).run supply = .ok generated) :
    ∃ computed next own rest slot, arg.val.run supply = .ok computed ∧
      computed.supply.nextReg ≤ next.nextReg ∧
      (env.storeArgs (start + .ofNat slot) later).run next = .ok rest ∧
      generated.code = computed.code ++ (own ++ rest.code) ∧
      (arg.ty.isVoid = false → env.layout.slotSize arg.ty = .ok slot) := by
  obtain ⟨computed, stored, computes, runsStore, -, whole⟩ := Gen.run_bind_code runs
  split at runsStore
  · next struct =>
    obtain ⟨size, measured, runsCopy⟩ := Gen.run_lift_bind.1 runsStore
    obtain ⟨copied, rest, copies, walks, -, code⟩ := Gen.run_bind_code runsCopy
    cases copies
    exact ⟨computed, _, _, rest, _, computes, Nat.le_succ _, walks, by rw [whole, code],
      fun _ => Layout.slotSize_of_struct struct measured⟩
  · next other =>
    have plain : arg.ty.isStruct = false := by simpa using other
    obtain ⟨emitted, rest, emits, walks, -, code⟩ := Gen.run_bind_code runsStore
    cases emits
    exact ⟨computed, _, _, rest, 4, computes, Nat.le_refl _, walks, by rw [whole, code],
      fun nonvoid => Layout.slotSize_of_not_struct plain nonvoid⟩

theorem run_storeArgs_append {lower upper : List Arg} {start : Int32}
    (settles : ∀ arg ∈ lower, arg.val.Settles least) {supply : Supply}
    (above : least ≤ supply.nextReg) {generated : Generated Unit}
    (runs : (env.storeArgs start (lower ++ upper)).run supply = .ok generated) :
    ∃ walk middle front rest, supply.nextReg ≤ walk.nextReg ∧
      (env.storeArgs middle upper).run walk = .ok rest ∧ generated.code = front ++ rest.code ∧
      ∀ slots, env.layout.Slots (lower.map Arg.ty) slots →
        (∀ arg ∈ lower, arg.ty.isVoid = false) → middle = start + .ofNat slots.sum := by
  induction lower generalizing start supply generated with
  | nil =>
    refine ⟨supply, start, [], generated, Nat.le_refl _, runs, rfl, fun slots sized _ => ?_⟩
    cases sized
    exact (Int32.add_zero start).symm
  | cons arg lower ih =>
    obtain ⟨computed, next, own, left, slot, computes, drawn, walks, whole, known⟩ :=
      run_storeArgs_step runs
    have within := Nat.le_trans (settles arg List.mem_cons_self _ _ computes above).1 drawn
    obtain ⟨walk, middle, front, rest, reached, goes, split, starts⟩ :=
      ih (fun other member => settles other (List.mem_cons_of_mem arg member))
        (Nat.le_trans above within) walks
    refine ⟨walk, middle, computed.code ++ (own ++ front), rest, Nat.le_trans within reached, goes,
      ?_, fun slots sized nonvoid => ?_⟩
    · rw [whole, split, List.append_assoc, List.append_assoc]
    · cases sized with
      | cons here all =>
        obtain rfl := Except.ok.inj ((known (nonvoid arg List.mem_cons_self)).symm.trans here)
        rw [starts _ all fun other member => nonvoid other (List.mem_cons_of_mem arg member),
          List.sum_cons, Int32.ofNat_add, Int32.add_assoc]

theorem argument_moves {lower upper : List Arg} {arg : Arg} {start : Int32}
    (settles : ∀ other ∈ lower, other.val.Settles least) (own : arg.val.Settles least)
    (struct : arg.ty.isStruct = true) {supply : Supply} (above : least ≤ supply.nextReg)
    {generated : Generated Unit}
    (runs : (env.storeArgs start (lower ++ arg :: upper)).run supply = .ok generated) :
    ∃ walk middle computed copy front rest, supply.nextReg ≤ walk.nextReg ∧
      arg.val.run walk = .ok computed ∧
      generated.code = front ++ (computed.code ++ (copy ++ rest)) ∧
      env.CopiesStruct arg.ty computed.supply.nextReg computed.value .sp middle copy ∧
      ∀ slots, env.layout.Slots (lower.map Arg.ty) slots →
        (∀ other ∈ lower, other.ty.isVoid = false) → middle = start + .ofNat slots.sum := by
  obtain ⟨walk, middle, front, there, reached, stores, split, starts⟩ :=
    run_storeArgs_append settles above runs
  obtain ⟨computed, stored, computes, runsStore, -, whole⟩ := Gen.run_bind_code stores
  rw [if_pos struct] at runsStore
  have fresh := (own _ _ computes (Nat.le_trans above reached)).2 _ (Nat.le_refl _)
  obtain ⟨size, _, copy, rest, -, -, code, copies⟩ := run_copyStruct runsStore fresh nofun
  refine ⟨walk, middle, computed, copy, front, rest.code, reached, computes, ?_, copies, starts⟩
  rw [split, whole, code]

theorem movesStructs (settles : ∀ e : Expr, (e.lower env).Settles least) {supply : Supply}
    (above : least ≤ supply.nextReg) : env.MovesStructs supply where
  assign ty lhs rhs generated struct runs :=
    assign_moves (settles lhs) (settles rhs) struct above runs
  value ty lhs rhs struct := by
    have aggregate : ty.isScalar = false := by rw [Ty.isScalar, struct]; rfl
    simp only [Expr.lower, Env.assign, Lowered.ofType, aggregate, Bool.false_eq_true, if_false]
  argument ty name before arg behind generated struct foreign runs := by
    rw [(Expr.lower_call foreign ty _).2] at runs
    obtain ⟨_, _, _, stored, _, -, -, -, stores, -, whole⟩ := run_callFunction_parts runs
    have around : ∃ left right, generated.code = left ++ (stored.code ++ right) :=
      ⟨_, _, by rw [whole]⟩
    obtain ⟨left, right, surrounded⟩ := around
    rw [Expr.lowerArgs_eq_map, ← List.map_reverse, List.reverse_append, List.reverse_cons,
      List.append_assoc, List.map_append] at stores
    have parts : ∀ other ∈ behind.reverse.map fun e => Arg.mk e.ty (e.lower env).val,
        other.val.Settles least := fun other member => by
      obtain ⟨e, -, rfl⟩ := List.mem_map.1 member
      exact (settles e).val
    obtain ⟨walk, start, computed, copy, front, rest, reached, computes, code, copied, starts⟩ :=
      argument_moves parts (settles arg).val struct above stores
    refine ⟨walk, start, computed, copy, left ++ front, rest ++ right, reached, computes, ?_,
      copied, fun slots sized nonvoid => ?_⟩
    · simp only [surrounded, code, List.append_assoc]
    · have known := sized.reverse
      rw [← List.map_reverse] at known
      rw [starts slots.reverse (by rwa [List.map_map]) fun other member => by
        obtain ⟨e, listed, rfl⟩ := List.mem_map.1 member
        exact nonvoid e (List.mem_reverse.1 listed), List.sum_reverse, Int32.zero_add]
  result value epilogue labels generated struct runs :=
    result_moves (settles value) struct above runs

end Env

/-! ## The theorem -/

/-- Copying bytes is exact for all registers but the one that the copy draws, and structs are moved
by such copies, wherever their assignment, call or return stands in a program. Offsets from 0 on that
with the size add up to less than `2 ^ 31` are a special case. -/
theorem copying_exact :
    (∀ (src dst : Reg) (srcOffset dstOffset : Int32) (size : Nat) (supply : Supply),
      size < 2 ^ 31 → src ≠ .virt supply.nextReg → dst ≠ .virt supply.nextReg →
      ∃ generated instrs,
        (Gen.copyBytes src srcOffset dst dstOffset size).run supply = .ok generated ∧
        generated.code = instrs.map .instr ∧
        Copies supply.nextReg src srcOffset dst dstOffset size instrs) ∧
    ∀ (program : Program) (plan : MemoryPlan) (supply : Supply),
      program.memoryPlan (program.promotion 0).1 = .ok plan →
      (program.promotion 0).2 ≤ supply.nextReg → (program.env plan).MovesStructs supply := by
  refine ⟨fun src dst srcOffset dstOffset size supply small own other => ?_,
    fun program plan supply planned above => ?_⟩
  · exact ⟨_, _, Gen.copyBytes_run .., rfl, copies_copyCode small own other⟩
  · exact Env.movesStructs (Expr.settles_lower planned) above

/-- Assigns and returns a struct of three bytes that is passed by value. -/
def colours : Program :=
  let rgb : Ty := .struct "rgb"
  { decls :=
      [ .struct
          { name := "rgb"
            fields := [{ id := 1, name := "r", ty := .char }, { id := 2, name := "g", ty := .char },
              { id := 3, name := "b", ty := .char }] },
        .var { id := 4, name := "last", ty := rgb },
        .funDef
          { name := "keep", ret := rgb, params := [{ id := 5, name := "colour", ty := rgb }]
            body :=
              { vars := []
                stmts :=
                  [ .eval (.assign rgb (.var rgb 4 "last") (.var rgb 5 "colour")),
                    .ret (some (.var rgb 5 "colour")) ] } } ] }

theorem copying_exact_colours :
    (∃ generated instrs, (Gen.copyBytes .sp 0 .fp 4 3).run { nextReg := 0, nextLabel := 0 } =
        .ok generated ∧ generated.code = instrs.map .instr ∧ Copies 0 .sp 0 .fp 4 3 instrs) ∧
    ∃ (plan : MemoryPlan) (left right : Generated Reg) (instrs : List Instr),
      colours.memoryPlan (colours.promotion 0).1 = .ok plan ∧
      ((Expr.var (.struct "rgb") 4 "last").lower (colours.env plan)).addr.run
        { nextReg := 0, nextLabel := 0 } = .ok left ∧
      ((Expr.var (.struct "rgb") 5 "colour").lower (colours.env plan)).addr.run left.supply =
        .ok right ∧
      Copies right.supply.nextReg right.value 0 left.value 0 3 instrs := by
  refine ⟨copying_exact.1 .sp .fp 0 4 3 { nextReg := 0, nextLabel := 0 } (by decide) nofun nofun,
    ?_⟩
  have succeeds : (do
      let plan ← colours.memoryPlan (colours.promotion 0).1
      let generated ← ((Expr.assign (.struct "rgb") (.var (.struct "rgb") 4 "last")
        (.var (.struct "rgb") 5 "colour")).lower (colours.env plan)).addr.run
          { nextReg := 0, nextLabel := 0 }
      return generated.supply.nextReg).toBool = true := by decide +kernel
  obtain ⟨_, both⟩ := exists_ok_of_toBool succeeds
  obtain ⟨plan, planned, rest⟩ := bind_eq_ok.1 both
  obtain ⟨generated, runs, -⟩ := bind_eq_ok.1 rest
  have moves := copying_exact.2 colours plan { nextReg := 0, nextLabel := 0 } planned
    (by decide +kernel)
  obtain ⟨left, right, copy, first, second, -, -, size, instrs, measured, -, copies⟩ :=
    moves.assign _ _ _ generated rfl runs
  have three : (Layout.ofProgram colours).size (.struct "rgb") = .ok 3 := by decide +kernel
  obtain rfl := Except.ok.inj (measured.symm.trans three)
  exact ⟨plan, left, right, instrs, planned, first, second, copies (by decide)⟩

end MipsBackend
