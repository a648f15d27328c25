import MipsBackend.Proofs.Calls.Slots
import MipsBackend.Proofs.Lowering.Fragments

/-!
# The code of calls and returns

A call reserves the block of its arguments, computes and stores them from the lowest on, reserves
the place for the result, jumps, takes the result and releases both blocks (`CallCode.items`). A
return puts the result into its place the way the caller stores an argument (`Puts`).
-/

namespace MipsBackend

/-! ## Shapes -/

def copyCode (byte src : Reg) (srcOffset : Int32) (dst : Reg) (dstOffset : Int32) (size : Nat) :
    List Instr :=
  (Gen.byteOffsets size).flatMap fun offset =>
    [.load .lb byte (srcOffset + offset) src, .store .sb byte (dstOffset + offset) dst]

/-- Instructions that put a value into memory. The register holds the address of a struct, and the
value of everything else. -/
inductive Puts (layout : Layout) (ty : Ty) (reg base : Reg) (offset : Int32) : List Instr → Prop
  | struct {byte : Reg} {size : Nat} (struct : ty.isStruct = true)
      (known : layout.size ty = .ok size) :
      Puts layout ty reg base offset (copyCode byte reg 0 base offset size)
  | nothing (void : ty.isVoid = true) : Puts layout ty reg base offset []
  | scalar (plain : ty.isStruct = false) (nonvoid : ty.isVoid = false) :
      Puts layout ty reg base offset [.store ty.storeOp reg offset base]

/-- Instructions that take a result from the top of the stack into a register: a struct by its
address. -/
inductive Takes (ty : Ty) : Reg → List Instr → Prop
  | struct {res : Reg} (struct : ty.isStruct = true) : Takes ty res [.arith .add res .zero .sp]
  | nothing (void : ty.isVoid = true) : Takes ty .zero []
  | scalar {res : Reg} (plain : ty.isStruct = false) (nonvoid : ty.isVoid = false) :
      Takes ty res [.load ty.loadOp res 0 .sp]

def reserveCode (bytes : Nat) : List Instr :=
  if 0 < wrapped bytes then [.adjustStack (-.ofNat bytes)] else []

def releaseCode (bytes : Nat) : List Instr :=
  if 0 < wrapped bytes then [.adjustStack (.ofNat bytes)] else []

/-- The parts of a call that are not the same for all calls. -/
structure CallCode where
  space : Nat
  result : Nat
  /-- Code for the value of each argument and code that stores it, the lowest argument first. -/
  args : List (List TextItem × List Instr)
  take : List Instr

def CallCode.argItems (args : List (List TextItem × List Instr)) : List TextItem :=
  args.flatMap fun (value, store) => value ++ store.map .instr

def CallCode.items (call : CallCode) (name : String) : List TextItem :=
  (reserveCode call.space).map .instr ++ argItems call.args ++
    (reserveCode call.result).map .instr ++ [.instr (.call (.function name))] ++
    call.take.map .instr ++ (releaseCode (call.space + call.result)).map .instr

/-! ## Runs -/

namespace Gen

theorem run_emit {instrs : List Instr} {supply : Supply} {generated : Generated Unit}
    (runs : (emit instrs).run supply = .ok generated) :
    generated.code = instrs.map .instr := by
  cases runs
  rfl

theorem run_reserve {bytes : Nat} {supply : Supply} {generated : Generated Unit}
    (runs : (reserve bytes).run supply = .ok generated) :
    generated.code = (reserveCode bytes).map .instr := by
  unfold reserve at runs
  unfold reserveCode
  split at runs
  · next positive => rw [run_emit runs, if_pos positive]
  · next none =>
    cases runs
    rw [if_neg none]
    rfl

theorem run_release {bytes : Nat} {supply : Supply} {generated : Generated Unit}
    (runs : (release bytes).run supply = .ok generated) :
    generated.code = (releaseCode bytes).map .instr := by
  unfold release at runs
  unfold releaseCode
  split at runs
  · next positive => rw [run_emit runs, if_pos positive]
  · next none =>
    cases runs
    rw [if_neg none]
    rfl

theorem run_reserve_supply {bytes : Nat} {supply : Supply} {generated : Generated Unit}
    (runs : (reserve bytes).run supply = .ok generated) : generated.supply = supply := by
  unfold reserve at runs
  split at runs <;> cases runs <;> rfl

theorem run_release_supply {bytes : Nat} {supply : Supply} {generated : Generated Unit}
    (runs : (release bytes).run supply = .ok generated) : generated.supply = supply := by
  unfold release at runs
  split at runs <;> cases runs <;> rfl

theorem run_copyBytes {src dst : Reg} {srcOffset dstOffset : Int32} {size : Nat} {supply : Supply}
    {generated : Generated Unit}
    (runs : (copyBytes src srcOffset dst dstOffset size).run supply = .ok generated) :
    ∃ byte, generated.code = (copyCode byte src srcOffset dst dstOffset size).map .instr := by
  obtain ⟨fresh, copied, drawn, rest, rfl⟩ := run_bind.1 runs
  cases drawn
  exact ⟨.virt supply.nextReg, run_emit rest⟩

end Gen

namespace Env

open Gen

theorem run_takeResult {ret : Ty} {supply : Supply} {generated : Generated Reg}
    (runs : (takeResult ret).run supply = .ok generated) :
    ∃ take, Takes ret generated.value take ∧ generated.code = take.map .instr := by
  unfold takeResult at runs
  split at runs
  · next void =>
    cases runs
    exact ⟨[], .nothing void, rfl⟩
  split at runs
  · next struct =>
    cases runs
    exact ⟨_, .struct struct, rfl⟩
  · next nonvoid plain =>
    cases runs
    exact ⟨_, .scalar (by simpa using plain) (by simpa using nonvoid), rfl⟩

/-- The code of an argument: some run of its own generator, and instructions that store its value at
an offset from the stack pointer. -/
def StoresArg (layout : Layout) (arg : Arg) (offset : Int32) (value : List TextItem)
    (store : List Instr) : Prop :=
  ∃ supply computed, arg.val.run supply = .ok computed ∧ value = computed.code ∧
    Puts layout arg.ty computed.value .sp offset store

theorem run_storeArgs_cons {env : Env} {arg : Arg} {above : List Arg} {start slot : Nat}
    {supply : Supply} {generated : Generated Unit} (sized : env.layout.slotSize arg.ty = .ok slot)
    (nonvoid : arg.ty.isVoid = false)
    (runs : (env.storeArgs (.ofNat start) (arg :: above)).run supply = .ok generated) :
    ∃ computed store walk rest, arg.val.run supply = .ok computed ∧
      Puts env.layout arg.ty computed.value .sp (.ofNat start) store ∧
      (env.storeArgs (.ofNat (start + slot)) above).run walk = .ok rest ∧
      generated.code = computed.code ++ (store.map .instr ++ rest.code) := by
  obtain ⟨computed, stored, computes, runsStore, -, whole⟩ := run_bind_code runs
  -- The walk goes on behind the slot of the argument, however it is stored.
  split at runsStore
  · next struct =>
    obtain ⟨size, measured, runsCopy⟩ := run_lift_bind.1 runsStore
    obtain ⟨copied, rest, copies, walks, -, code⟩ := run_bind_code runsCopy
    obtain ⟨byte, same⟩ := run_copyBytes copies
    have behind : slot = alignUp size 4 :=
      Except.ok.inj (sized.symm.trans (Layout.slotSize_of_struct struct measured))
    rw [← Int32.ofNat_add, ← behind] at walks
    refine ⟨computed, copyCode byte computed.value 0 .sp (.ofNat start) size, _, rest, computes,
      .struct struct measured, walks, ?_⟩
    rw [whole, code, same]
  · next other =>
    have plain : arg.ty.isStruct = false := by simpa using other
    obtain ⟨emitted, rest, emits, walks, -, code⟩ := run_bind_code runsStore
    have behind : slot = 4 :=
      Except.ok.inj (sized.symm.trans (Layout.slotSize_of_not_struct plain nonvoid))
    have next : Int32.ofNat start + 4 = .ofNat (start + slot) := by
      rw [behind, Int32.ofNat_add]
      rfl
    rw [next] at walks
    refine ⟨computed, _, _, rest, computes, .scalar plain nonvoid, walks, ?_⟩
    rw [whole, code, run_emit emits]

theorem run_storeArgs {env : Env} {args : List Arg} {slots : List Nat} {start : Nat}
    {supply : Supply} {generated : Generated Unit}
    (sized : env.layout.Slots (args.map Arg.ty) slots)
    (nonvoid : ∀ arg ∈ args, arg.ty.isVoid = false)
    (runs : (env.storeArgs (.ofNat start) args).run supply = .ok generated) :
    ∃ parts, generated.code = CallCode.argItems parts ∧ parts.length = args.length ∧
      ∀ (j : Nat) (arg : Arg), args[j]? = some arg → ∃ value store,
        parts[j]? = some (value, store) ∧
          StoresArg env.layout arg (.ofNat (start + slotStart slots j)) value store := by
  induction args generalizing slots start supply generated with
  | nil =>
    cases runs
    exact ⟨[], rfl, rfl, fun _ _ here => (nomatch here)⟩
  | cons arg above ih =>
    cases sized with
    | @cons _ slot _ slots known all =>
      have later : ∀ other ∈ above, other.ty.isVoid = false :=
        fun other member => nonvoid other (List.mem_cons_of_mem arg member)
      obtain ⟨computed, store, _, _, computes, puts, walks, whole⟩ :=
        run_storeArgs_cons known (nonvoid arg List.mem_cons_self) runs
      obtain ⟨parts, same, count, positions⟩ := ih all later walks
      refine ⟨(computed.code, store) :: parts, ?_, congrArg (· + 1) count, fun j other here => ?_⟩
      · rw [whole, same, CallCode.argItems, CallCode.argItems, List.flatMap_cons,
          List.append_assoc]
      · cases j with
        | zero =>
          cases here
          exact ⟨_, _, rfl, _, computed, computes, rfl, puts⟩
        | succ j =>
          rw [List.getElem?_cons_succ] at here ⊢
          rw [slotStart_cons_succ, ← Nat.add_assoc]
          exact positions j other here

theorem run_callFunction_parts {env : Env} {name : String} {args : List Arg} {supply : Supply}
    {generated : Generated Reg} (runs : (env.callFunction name args).run supply = .ok generated) :
    ∃ decl space result stored taken, env.signature name = .ok decl ∧
      env.layout.slotsSize decl.params = .ok space ∧ env.layout.slotSize decl.ret = .ok result ∧
      (env.storeArgs 0 args.reverse).run supply = .ok stored ∧
      (takeResult decl.ret).run stored.supply = .ok taken ∧
      generated = { taken with
        code := (reserveCode space).map .instr ++ (stored.code ++ ((reserveCode result).map .instr ++
          .instr (.call (.function name)) ::
            (taken.code ++ (releaseCode (space + result)).map .instr))) } := by
  obtain ⟨decl, signed, runsSpace⟩ := run_lift_bind.1 runs
  obtain ⟨space, argSpace, runsReserve⟩ := run_lift_bind.1 runsSpace
  obtain ⟨_, _, reserves, runsArgs, rfl⟩ := run_bind.1 runsReserve
  obtain ⟨stored, _, stores, runsResult, rfl⟩ := run_bind.1 runsArgs
  obtain ⟨result, resultSpace, runsReserve⟩ := run_lift_bind.1 runsResult
  obtain ⟨_, _, reservesResult, runsCall, rfl⟩ := run_bind.1 runsReserve
  obtain ⟨_, _, calls, runsTake, rfl⟩ := run_bind.1 runsCall
  cases calls
  obtain ⟨taken, _, takes, runsRelease, rfl⟩ := run_bind.1 runsTake
  obtain ⟨_, _, releases, answers, rfl⟩ := run_bind.1 runsRelease
  cases answers
  rw [run_reserve_supply reserves] at stores
  rw [run_reserve_supply reservesResult] at takes
  refine ⟨decl, space, result, stored, taken, signed, argSpace, resultSpace, stores, takes, ?_⟩
  simp only [run_reserve reserves, run_reserve reservesResult, run_release releases,
    run_release_supply releases, List.append_nil, List.map_cons, List.map_nil, List.cons_append,
    List.nil_append]

theorem run_callFunction {env : Env} {name : String} {args : List Arg} {decl : FunDecl}
    {space result : Nat} {slots : List Nat} {supply : Supply} {generated : Generated Reg}
    (signed : env.signature name = .ok decl)
    (argSpace : env.layout.slotsSize decl.params = .ok space)
    (resultSpace : env.layout.slotSize decl.ret = .ok result)
    (sized : env.layout.Slots (args.reverse.map Arg.ty) slots)
    (nonvoid : ∀ arg ∈ args, arg.ty.isVoid = false)
    (runs : (env.callFunction name args).run supply = .ok generated) :
    ∃ call : CallCode, generated.code = call.items name ∧ call.space = space ∧
      call.result = result ∧ Takes decl.ret generated.value call.take ∧
      call.args.length = args.length ∧
      ∀ (j : Nat) (arg : Arg), args.reverse[j]? = some arg → ∃ value store,
        call.args[j]? = some (value, store) ∧
          StoresArg env.layout arg (.ofNat (slotStart slots j)) value store := by
  obtain ⟨_, _, _, stored, taken, found, measured, measuredResult, stores, takes, rfl⟩ :=
    run_callFunction_parts runs
  obtain rfl := Except.ok.inj (signed.symm.trans found)
  obtain rfl := Except.ok.inj (argSpace.symm.trans measured)
  obtain rfl := Except.ok.inj (resultSpace.symm.trans measuredResult)
  obtain ⟨parts, code, count, positions⟩ := @run_storeArgs env args.reverse slots 0 _ _ sized
    (fun arg member => nonvoid arg (List.mem_reverse.1 member)) stores
  obtain ⟨take, answers, takeCode⟩ := run_takeResult takes
  refine ⟨{ space, result, args := parts, take }, ?_, rfl, rfl, answers, ?_, ?_⟩
  · simp only [CallCode.items, code, takeCode, List.append_assoc, List.cons_append,
      List.nil_append]
  · rw [count, List.length_reverse]
  · simpa only [Nat.zero_add] using positions

theorem run_returnValue {env : Env} {ty : Ty} {val : Gen Reg} {epilogue : Label} {supply : Supply}
    {generated : Generated Unit}
    (runs : (env.returnValue ty val epilogue).run supply = .ok generated) :
    ∃ computed store, val.run supply = .ok computed ∧
      Puts env.layout ty computed.value .fp resultOffset store ∧
      generated.code = computed.code ++ store.map .instr ++ [.instr (.jump epilogue)] := by
  obtain ⟨computed, stored, computes, runsStore, -, whole⟩ := run_bind_code runs
  refine ⟨computed, ?_⟩
  rw [whole]
  split at runsStore
  · next struct =>
    obtain ⟨size, measured, runsCopy⟩ := run_lift_bind.1 runsStore
    obtain ⟨_, _, copies, jumps, -, code⟩ := run_bind_code runsCopy
    obtain ⟨byte, copied⟩ := run_copyBytes copies
    refine ⟨copyCode byte computed.value 0 .fp resultOffset size, computes,
      .struct struct measured, ?_⟩
    rw [code, copied, run_emit jumps, List.append_assoc]
    rfl
  · next other =>
    have plain : ty.isStruct = false := by simpa using other
    split at runsStore
    · next void =>
      obtain ⟨_, _, answers, jumps, -, code⟩ := run_bind_code runsStore
      cases answers
      refine ⟨[], computes, .nothing void, ?_⟩
      rw [code, run_emit jumps, List.map_nil, List.append_nil]
      rfl
    · next another =>
      have nonvoid : ty.isVoid = false := by simpa using another
      obtain ⟨_, _, stores, jumps, -, code⟩ := run_bind_code runsStore
      refine ⟨_, computes, .scalar plain nonvoid, ?_⟩
      rw [code, run_emit stores, run_emit jumps, List.append_assoc]
      rfl

end Env

end MipsBackend
