import MipsBackend.Lowering.Program
import MipsBackend.Proofs.Calls.Bytes
import MipsBackend.Proofs.Calls.Places
import MipsBackend.Proofs.Tables

/-!
# Caller and callee agree on the stack

Seen from the callee, whose frame pointer is one word below the stack pointer of the call, the
result lies at 4 and the parameters behind it, the last one lowest. Seen from the caller, whose
stack pointer is moved down by the result in between, the parameters lie at the same places.
-/

namespace MipsBackend

/-! ## Frames -/

theorem read_fp_enterFrame {platform : Platform} {machine : Machine} {space : Nat}
    {supply : Supply} {enter : Generated Unit}
    (runs : (enterFrame space).run supply = .ok enter) :
    (platform.perform machine (Section.instructions { items := enter.code })).read .fp =
      machine.read .sp + (-4 : Int32).toBitVec := by
  obtain ⟨_, _, pushes, runsReserve, -, first⟩ := Gen.run_bind_code runs
  obtain ⟨_, _, reserves, marks, -, second⟩ := Gen.run_bind_code runsReserve
  have code : enter.code =
      ([.adjustStack (-4), .sw .fp 0 .sp, .arithImm .addiu .fp .sp 0, .adjustStack (-4),
        .sw .ra 0 .sp] ++ (reserveCode space ++ [.marker .save]) : List Instr).map .instr := by
    rw [first, second, Gen.run_emit pushes, Gen.run_reserve reserves, Gen.run_emit marks,
      List.map_append, List.map_append]
  rw [code, Section.instructions_map]
  unfold reserveCode
  split <;> simp [Platform.perform, Instr.adjustStack, Instr.sw, Instr.change, Machine.apply,
    Machine.write, Machine.read, ImmOp.eval]

theorem read_sp_leaveFrame {platform : Platform} {machine : Machine} {supply : Supply}
    {leave : Generated Unit} (runs : leaveFrame.run supply = .ok leave) :
    (platform.perform machine (Section.instructions { items := leave.code })).read .sp =
      machine.read .fp + (4 : Int32).toBitVec := by
  rw [Gen.run_emit runs, Section.instructions_map]
  simp [Platform.perform, Instr.lw, Instr.change, Machine.apply, Machine.write, Machine.read,
    ImmOp.eval]

/-! ## Signatures -/

namespace Env

theorem signature_ofProgram {program : Program} {promotion : Promotion} {plan : MemoryPlan}
    {fn : FunDef} (defined : fn ∈ program.functions) :
    ∃ decl ∈ program.signatures, decl.name = fn.name ∧
      (ofProgram program promotion plan).signature fn.name = .ok decl :=
  have listed : fn.toFunDecl ∈ program.signatures :=
    List.mem_filterMap.2 ⟨_, Program.mem_functions.1 defined, rfl⟩
  exists_signature (List.mem_map_of_mem listed)

theorem service?_ofProgram {program : Program} {promotion : Promotion} {plan : MemoryPlan}
    {fn : FunDef} (defined : fn ∈ program.functions) :
    (ofProgram program promotion plan).service? fn.name = none :=
  if_pos (List.mem_map_of_mem defined)

end Env

theorem Expr.lowerArgs_eq_map (env : Env) (args : List Expr) :
    lowerArgs env args = args.map fun arg => { ty := arg.ty, val := (arg.lower env).val } := by
  induction args with
  | nil => rfl
  | cons first rest ih => rw [lowerArgs, ih, List.map_cons]

theorem Expr.lowerArgs_types (env : Env) (args : List Expr) :
    (lowerArgs env args).map Arg.ty = args.map Expr.ty := by
  rw [lowerArgs_eq_map, List.map_map]
  rfl

theorem Expr.lower_call {env : Env} {name : String} (service : env.service? name = none) (ty : Ty)
    (args : List Expr) :
    ((call ty name args).lower env).addr = env.callFunction name (lowerArgs env args) ∧
      ((call ty name args).lower env).val = env.callFunction name (lowerArgs env args) := by
  simp only [lower, Env.call, service, and_self]

/-! ## The agreement -/

/-- What the code of a call and the function that it calls agree on. The arguments and their slots
are listed from the lowest on, which is the last argument. -/
structure CallCode.Agrees (program : Program) (env : Env) (fn : FunDef) (args : List Expr)
    (res : Reg) (slots : List Nat) (call : CallCode) : Prop where
  sized : env.layout.Slots (fn.params.reverse.map VarDecl.ty) slots
  space : env.layout.slotsSize fn.params = .ok call.space
  result : env.layout.slotSize fn.ret = .ok call.result
  covered : ∀ byte, (∃ j, InSlot slots j byte) ↔ byte < call.space
  disjoint : ∀ i j byte, InSlot slots i byte → InSlot slots j byte → i = j
  count : call.args.length = args.length
  /-- An argument is stored in its slot. -/
  stored : ∀ (j : Nat) (arg : Expr), args.reverse[j]? = some arg → ∃ value store bytes,
    call.args[j]? = some (value, store) ∧
      Env.StoresArg env.layout { ty := arg.ty, val := (arg.lower env).val }
        (.ofNat (slotStart slots j)) value store ∧
      env.layout.passedBytes arg.ty = .ok bytes ∧
      slotStart slots j + bytes ≤ slotStart slots (j + 1) ∧
      ∀ b : Int, b ∈ store.flatMap (Instr.writesAt .sp) ↔
        slotStart slots j ≤ b ∧ b < slotStart slots j + bytes
  /-- The callee finds a parameter where the caller stored the argument. -/
  placed : ∃ places, env.layout.paramPlaces (4 + call.result) fn.params.reverse = .ok places ∧
    ∀ (j : Nat) (param : VarDecl), fn.params.reverse[j]? = some param → ∃ offset : Int32,
      .ofNat (slotStart slots j) + 4 + .ofNat call.result = offset ∧
      (slotStart slots j < slotStart slots (j + 1) →
        offset.toInt = slotStart slots j + 4 + call.result) ∧
      places[j]? = some (param.id, .frame offset param.ty.isArray) ∧
      (program.ids.count param.id = 1 →
        env.plan.storage[param.id]? = some (.frame offset param.ty.isArray))
  /-- A return writes the bytes of its value inside the place for the result. -/
  returned : ∀ (value : Expr) (epilogue : Label) (labels : Option LoopLabels) (supply : Supply)
    (back : Generated Unit), value.ty = fn.ret →
    ((Stmt.ret (some value)).lower env epilogue labels).run supply = .ok back →
    ∃ computed store bytes, (value.lower env).val.run supply = .ok computed ∧
      back.code = computed.code ++ store.map .instr ++ [.instr (.jump epilogue)] ∧
      Puts env.layout fn.ret computed.value .fp 4 store ∧
      env.layout.passedBytes fn.ret = .ok bytes ∧ bytes ≤ call.result ∧
      ∀ b : Int, b ∈ store.flatMap (Instr.writesAt .fp) ↔ 4 ≤ b ∧ b < 4 + bytes
  /-- The caller takes the address of a struct, and reads the same bytes of everything else. -/
  taken : Takes fn.ret res call.take ∧ (fn.ret.isStruct = false → ∀ bytes,
    env.layout.passedBytes fn.ret = .ok bytes →
    ∀ b : Int, b ∈ call.take.flatMap (Instr.readsAt .sp) ↔ 0 ≤ b ∧ b < bytes)
  /-- Distances from the two pointers differ by a word. -/
  framed : ∀ (platform : Platform) (machine : Machine) (space : Nat) (supply : Supply)
    (enter leave : Generated Unit),
    ((enterFrame space).run supply = .ok enter →
      (platform.perform machine (Section.instructions { items := enter.code })).read .fp =
        machine.read .sp + (-4 : Int32).toBitVec) ∧
    (leaveFrame.run supply = .ok leave →
      (platform.perform machine (Section.instructions { items := leave.code })).read .sp =
        machine.read .fp + (4 : Int32).toBitVec)
  released : stackChange (reserveCode call.space) = -(call.space : Int) ∧
    stackChange (reserveCode call.result) = -(call.result : Int) ∧
    stackChange (releaseCode (call.space + call.result)) = call.space + call.result

namespace Layout

variable {layout : Layout}

theorem exists_passedBytes {ty : Ty} {slot : Nat} (sized : layout.slotSize ty = .ok slot) :
    ∃ bytes, layout.passedBytes ty = .ok bytes := by
  unfold passedBytes
  split
  · next struct =>
    cases known : layout.size ty with
    | ok size => exact ⟨_, rfl⟩
    | error violation =>
      have byValue : ty.isArray = false := by
        cases ty <;> first | rfl | cases struct
      simp [slotSize, byValue, known, Except.map] at sized
  split
  · exact ⟨0, rfl⟩
  · exact ⟨_, rfl⟩

theorem slotsSize_congr {params others : List VarDecl}
    (same : params.map VarDecl.ty = others.map VarDecl.ty) :
    layout.slotsSize params = layout.slotsSize others := by
  induction params generalizing others with
  | nil =>
    cases others with
    | nil => rfl
    | cons other rest => cases same
  | cons first rest ih =>
    cases others with
    | nil => cases same
    | cons other later =>
      rw [List.map_cons, List.map_cons, List.cons.injEq] at same
      rw [slotsSize, slotsSize, same.1, ih same.2]

theorem Slots.start_bound {tys : List Ty} {slots : List Nat} (sized : layout.Slots tys slots)
    {result j : Nat} (small : slots.sum + result < 2 ^ 31)
    (filled : slotStart slots j < slotStart slots (j + 1)) :
    slotStart slots j + 4 + result < 2 ^ 31 := by
  have inside := slotStart_le_sum slots (j + 1)
  have bound : j < slots.length := by
    by_contra outside
    have full := slotStart_mono slots (Nat.le_of_not_lt outside)
    have upper := slotStart_le_sum slots (j + 1)
    rw [slotStart_length] at full
    omega
  have here : slots[j]? = some slots[j] := List.getElem?_eq_getElem bound
  have width : 4 ∣ slots[j] := by
    have typed : j < tys.length := sized.length_eq ▸ bound
    obtain ⟨slot, found, known⟩ := sized.getElem? (List.getElem?_eq_getElem typed)
    obtain rfl := Option.some.inj (here.symm.trans found)
    exact dvd_slotSize known
  have next := slotStart_succ here
  have positive : 0 < slots[j] := by omega
  have least := Nat.le_of_dvd positive width
  omega

end Layout

namespace Env

theorem StoresArg.mem_writes {layout : Layout} {tys : List Ty} {slots : List Nat} {arg : Arg}
    {j : Nat} {value : List TextItem} {store : List Instr} (sized : layout.Slots tys slots)
    (here : tys[j]? = some arg.ty) (small : slots.sum < 2 ^ 31)
    (stores : StoresArg layout arg (.ofNat (slotStart slots j)) value store) :
    ∃ bytes, layout.passedBytes arg.ty = .ok bytes ∧
      slotStart slots j + bytes ≤ slotStart slots (j + 1) ∧
      ∀ b : Int, b ∈ store.flatMap (Instr.writesAt .sp) ↔
        slotStart slots j ≤ b ∧ b < slotStart slots j + bytes := by
  obtain ⟨slot, found, known⟩ := sized.getElem? here
  obtain ⟨bytes, passed⟩ := Layout.exists_passedBytes known
  have fits := Layout.passedBytes_le_slotSize passed known
  have next := slotStart_succ found
  have inside := slotStart_le_sum slots (j + 1)
  obtain ⟨_, computed, -, -, puts⟩ := stores
  exact ⟨bytes, passed, by omega, puts.mem_writes passed (by omega)⟩

theorem returnValue_writes {env : Env} {ty : Ty} {val : Gen Reg} {epilogue : Label} {result : Nat}
    {supply : Supply} {back : Generated Unit} (sized : env.layout.slotSize ty = .ok result)
    (small : result < 2 ^ 31)
    (runs : (env.returnValue ty val epilogue).run supply = .ok back) :
    ∃ computed store bytes, val.run supply = .ok computed ∧
      back.code = computed.code ++ store.map .instr ++ [.instr (.jump epilogue)] ∧
      Puts env.layout ty computed.value .fp 4 store ∧
      env.layout.passedBytes ty = .ok bytes ∧ bytes ≤ result ∧
      ∀ b : Int, b ∈ store.flatMap (Instr.writesAt .fp) ↔ 4 ≤ b ∧ b < 4 + bytes := by
  obtain ⟨computed, store, computes, puts, whole⟩ := run_returnValue runs
  obtain ⟨bytes, passed⟩ := Layout.exists_passedBytes sized
  have fits := Layout.passedBytes_le_slotSize passed sized
  have words : result + 4 ≤ 2 ^ 31 := by
    obtain ⟨count, rfl⟩ := Layout.dvd_slotSize sized
    omega
  have offset : resultOffset = .ofNat 4 := rfl
  have writes := (offset ▸ puts).mem_writes passed (by omega)
  exact ⟨computed, store, bytes, computes, whole, puts, passed, fits, writes⟩

end Env

namespace Program

theorem param_placed {program : Program} {promotion : Promotion} {plan : MemoryPlan} {fn : FunDef}
    {slots : List Nat} {result : Nat} (planned : program.memoryPlan promotion = .ok plan)
    (defined : fn ∈ program.functions)
    (sized : (Layout.ofProgram program).Slots (fn.params.reverse.map VarDecl.ty) slots)
    (resultSpace : (Layout.ofProgram program).slotSize fn.ret = .ok result)
    (small : slots.sum + result < 2 ^ 31) :
    ∃ places, (Layout.ofProgram program).paramPlaces (4 + result) fn.params.reverse = .ok places ∧
      ∀ (j : Nat) (param : VarDecl), fn.params.reverse[j]? = some param → ∃ offset : Int32,
        .ofNat (slotStart slots j) + 4 + .ofNat result = offset ∧
        (slotStart slots j < slotStart slots (j + 1) →
          offset.toInt = slotStart slots j + 4 + result) ∧
        places[j]? = some (param.id, .frame offset param.ty.isArray) ∧
        (program.ids.count param.id = 1 →
          plan.storage[param.id]? = some (.frame offset param.ty.isArray)) := by
  obtain ⟨places, placed, positions⟩ := Layout.paramPlaces_eq_ok sized (4 + result)
  have returned : (Layout.ofProgram program).resultSize fn.ret = .ok result :=
    (Layout.resultSize_eq_slotSize fn.ret).trans resultSpace
  refine ⟨places, placed, fun j param here => ?_⟩
  have position := positions j param here
  refine ⟨.ofNat (4 + result + slotStart slots j), ?_, fun filled => ?_, position, fun once => ?_⟩
  · have four : (4 : Int32) = .ofNat 4 := rfl
    rw [four, ← Int32.ofNat_add, ← Int32.ofNat_add]
    congr 1
    omega
  · have bound := sized.start_bound small filled
    rw [Int32.toInt_ofNat_of_lt (by omega)]
    omega
  · exact storage_param planned defined returned placed position once

/-- The code of every call to a function of the program agrees with the function. -/
theorem call_agrees {program : Program} {promotion : Promotion} {plan : MemoryPlan} {fn : FunDef}
    {space result : Nat} (planned : program.memoryPlan promotion = .ok plan)
    (defined : fn ∈ program.functions) (nonvoid : ∀ param ∈ fn.params, param.ty.isVoid = false)
    (declared : ∀ decl ∈ program.signatures, decl.name = fn.name →
      decl.ret = fn.ret ∧ decl.params.map VarDecl.ty = fn.params.map VarDecl.ty)
    (argSpace : (Layout.ofProgram program).slotsSize fn.params = .ok space)
    (resultSpace : (Layout.ofProgram program).slotSize fn.ret = .ok result)
    (small : space + result < 2 ^ 31) {ty : Ty} {args : List Expr}
    (typed : args.map Expr.ty = fn.params.map VarDecl.ty) {code : Gen Reg}
    (mode : code = ((Expr.call ty fn.name args).lower (.ofProgram program promotion plan)).addr ∨
      code = ((Expr.call ty fn.name args).lower (.ofProgram program promotion plan)).val)
    {supply : Supply} {generated : Generated Reg} (runs : code.run supply = .ok generated) :
    ∃ call slots, generated.code = CallCode.items call fn.name ∧
      call.Agrees program (.ofProgram program promotion plan) fn args generated.value slots := by
  let env := Env.ofProgram program promotion plan
  obtain ⟨decl, listed, named, signed⟩ :=
    @Env.signature_ofProgram program promotion plan fn defined
  obtain ⟨sameRet, sameParams⟩ := declared decl listed named
  have calls : (env.callFunction fn.name (Expr.lowerArgs env args)).run supply = .ok generated := by
    obtain ⟨addr, val⟩ := Expr.lower_call (Env.service?_ofProgram defined : env.service? _ = none)
      ty args
    rcases mode with rfl | rfl
    · rwa [addr] at runs
    · rwa [val] at runs
  obtain ⟨upward, sizedUp, total⟩ := Layout.slotsSize_eq_ok_iff.1 argSpace
  have sized : env.layout.Slots (fn.params.reverse.map VarDecl.ty) upward.reverse := by
    rw [List.map_reverse]
    exact sizedUp.reverse
  have sum : space = upward.reverse.sum := by rw [List.sum_reverse, total]
  have types : (Expr.lowerArgs env args).map Arg.ty = fn.params.map VarDecl.ty :=
    (Expr.lowerArgs_types env args).trans typed
  have argTypes : (Expr.lowerArgs env args).reverse.map Arg.ty =
      fn.params.reverse.map VarDecl.ty := by
    rw [List.map_reverse, types, List.map_reverse]
  have argsNonvoid : ∀ arg ∈ Expr.lowerArgs env args, arg.ty.isVoid = false := by
    intro arg member
    have among : arg.ty ∈ fn.params.map VarDecl.ty := types ▸ List.mem_map_of_mem member
    obtain ⟨param, inside, same⟩ := List.mem_map.1 among
    exact same ▸ nonvoid param inside
  obtain ⟨call, whole, rfl, rfl, takes, count, stores⟩ := Env.run_callFunction signed
    ((Layout.slotsSize_congr sameParams).trans argSpace) (sameRet ▸ resultSpace)
    (argTypes ▸ sized) argsNonvoid calls
  rw [sameRet] at takes
  refine ⟨call, upward.reverse, whole, ?_⟩
  exact
    { sized
      space := argSpace
      result := resultSpace
      covered := fun byte => sum ▸ exists_inSlot_iff upward.reverse byte
      disjoint := fun _ _ _ first second => first.unique second
      count := by rw [count, Expr.lowerArgs_eq_map, List.length_map]
      stored := by
        intro j arg here
        have lowered : (Expr.lowerArgs env args).reverse[j]? =
            some { ty := arg.ty, val := (arg.lower env).val } := by
          rw [Expr.lowerArgs_eq_map, ← List.map_reverse, List.getElem?_map, here, Option.map_some]
        have kind : (fn.params.reverse.map VarDecl.ty)[j]? = some arg.ty := by
          rw [← argTypes, List.getElem?_map, lowered, Option.map_some]
        obtain ⟨value, store, found, stored⟩ := stores j _ lowered
        obtain ⟨bytes, passed, inside, writes⟩ := stored.mem_writes sized kind (by omega)
        exact ⟨value, store, bytes, found, stored, passed, inside, writes⟩
      placed := param_placed planned defined sized resultSpace (by omega)
      returned := by
        intro value epilogue labels supply back same runs
        simp only [Stmt.lower, same] at runs
        exact Env.returnValue_writes resultSpace (by omega) runs
      taken := ⟨takes, fun plain bytes passed => takes.mem_reads plain passed⟩
      framed := fun _ _ _ _ _ _ => ⟨read_fp_enterFrame, read_sp_leaveFrame⟩
      released := ⟨stackChange_reserveCode (by omega), stackChange_reserveCode (by omega),
        stackChange_releaseCode small⟩ }

/-- Has a parameter of each kind: a character, a struct, an array and a pointer. -/
def pick : FunDef :=
  { name := "pick", ret := .char
    params :=
      [ { id := 5, name := "mark", ty := .char }, { id := 6, name := "from", ty := .struct "pair" },
        { id := 7, name := "among", ty := .array .int 3 },
        { id := 8, name := "at", ty := .pointer .int } ]
    body :=
      { vars := []
        stmts := [.ret (some (.field .char (.var (.struct "pair") 6 "from") "c"))] } }

def picking : Program :=
  { decls :=
      [ .struct
          { name := "pair"
            fields := [{ id := 1, name := "n", ty := .int }, { id := 2, name := "c", ty := .char }] },
        .var { id := 3, name := "p", ty := .struct "pair" },
        .var { id := 4, name := "xs", ty := .array .int 3 },
        .funDecl pick.toFunDecl, .funDef pick ] }

def pickArgs : List Expr :=
  let xs : Expr := .var (.array .int 3) 4 "xs"
  [ .ofChar 'x', .var (.struct "pair") 3 "p", xs, .addressOf (.elementOf xs (.ofInt 1)) ]

theorem call_agrees_pick : ∃ plan generated,
    picking.memoryPlan (picking.promotion 0).1 = .ok plan ∧
      ((Expr.call .char "pick" pickArgs).lower
        (.ofProgram picking (picking.promotion 0).1 plan)).val.run
          { nextReg := 0, nextLabel := 0 } = .ok generated ∧
      (Layout.ofProgram picking).slotsSize pick.params = .ok 20 ∧
      (Layout.ofProgram picking).slotSize pick.ret = .ok 4 ∧
      ∃ call slots, generated.code = CallCode.items call "pick" ∧
        call.Agrees picking (.ofProgram picking (picking.promotion 0).1 plan) pick pickArgs
          generated.value slots := by
  have argSpace : (Layout.ofProgram picking).slotsSize pick.params = .ok 20 := by decide +kernel
  have resultSpace : (Layout.ofProgram picking).slotSize pick.ret = .ok 4 := by decide +kernel
  have succeeds : (do
      let plan ← picking.memoryPlan (picking.promotion 0).1
      let generated ← ((Expr.call .char "pick" pickArgs).lower
        (.ofProgram picking (picking.promotion 0).1 plan)).val.run
          { nextReg := 0, nextLabel := 0 }
      return generated.supply.nextReg).toBool = true := by decide +kernel
  obtain ⟨_, both⟩ := exists_ok_of_toBool succeeds
  obtain ⟨plan, planned, rest⟩ := bind_eq_ok.1 both
  obtain ⟨generated, runs, -⟩ := bind_eq_ok.1 rest
  have defined : pick ∈ picking.functions := List.mem_cons_self
  have nonvoid : ∀ param ∈ pick.params, param.ty.isVoid = false := by decide
  have declared : ∀ decl ∈ picking.signatures, decl.name = pick.name →
      decl.ret = pick.ret ∧ decl.params.map VarDecl.ty = pick.params.map VarDecl.ty := by
    decide
  have agreed := call_agrees planned defined nonvoid declared argSpace resultSpace (by decide)
    (rfl : pickArgs.map Expr.ty = pick.params.map VarDecl.ty) (.inr rfl) runs
  exact ⟨plan, generated, planned, runs, argSpace, resultSpace, agreed⟩

end Program

end MipsBackend
