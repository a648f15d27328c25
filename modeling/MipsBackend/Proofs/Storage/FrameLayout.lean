import MipsBackend.Proofs.Calls.Bytes
import MipsBackend.Proofs.Calls.Places
import MipsBackend.Proofs.Lowering.Pieces

/-!
# The layout of frames

Around the frame pointer lie the saved frame pointer and return address, above them the result and
the parameters, and below them the local variables that have no register. Parameters are walked from
the lowest up, local variables from the highest down. The slots of both walks tile their parts of the
frame, and no two things in the frame share a byte.
-/

namespace MipsBackend

/-! ## Local variables -/

namespace Layout

variable {layout : Layout} {promotion : Promotion}

/-- The slots of local variables, of which those with a register need no space. -/
def LocalSlots (layout : Layout) (promotion : Promotion) (decls : List VarDecl)
    (slots : List Nat) : Prop :=
  List.Forall₂ (fun decl slot =>
    if promotion[decl.id]?.isSome then slot = 0
    else ∃ size, layout.size decl.ty = .ok size ∧ slot = alignUp size 4) decls slots

theorem LocalSlots.dvd {decls : List VarDecl} {slots : List Nat}
    (sized : layout.LocalSlots promotion decls slots) : ∀ slot ∈ slots, 4 ∣ slot := by
  induction sized with
  | nil => exact fun _ member => nomatch member
  | cons here _ ih =>
    refine List.forall_mem_cons.2 ⟨?_, ih⟩
    split at here
    · exact here ▸ Nat.dvd_zero 4
    · obtain ⟨size, -, rfl⟩ := here
      exact dvd_alignUp size (by decide)

theorem LocalSlots.getElem? {decls : List VarDecl} {slots : List Nat}
    (sized : layout.LocalSlots promotion decls slots) {j : Nat} {decl : VarDecl}
    (here : decls[j]? = some decl) (kept : promotion[decl.id]? = none) :
    ∃ size, layout.size decl.ty = .ok size ∧ slots[j]? = some (alignUp size 4) := by
  induction sized generalizing j with
  | nil => cases here
  | cons known _ ih =>
    cases j with
    | zero =>
      cases here
      rw [kept, if_neg (by simp)] at known
      obtain ⟨size, found, rfl⟩ := known
      exact ⟨size, found, rfl⟩
    | succ j => exact ih here

theorem LocalSlots.zero_of_promoted {decls : List VarDecl} {slots : List Nat}
    (sized : layout.LocalSlots promotion decls slots) {j : Nat} {decl : VarDecl}
    (here : decls[j]? = some decl) (promoted : promotion[decl.id]? ≠ none) :
    slots[j]? = some 0 := by
  induction sized generalizing j with
  | nil => cases here
  | cons known _ ih =>
    cases j with
    | zero =>
      cases here
      rw [if_pos (Option.isSome_iff_ne_none.2 promoted)] at known
      rw [List.getElem?_cons_zero, known]
    | succ j => exact ih here

theorem localPlaces_eq_ok {space total : Nat} {decls : List VarDecl} {places : Places}
    (placed : layout.localPlaces promotion space decls = .ok (places, total)) :
    ∃ slots, layout.LocalSlots promotion decls slots ∧ total = space + slots.sum ∧
      ∀ j decl, decls[j]? = some decl → promotion[decl.id]? = none →
        (decl.id, Storage.frame (.ofInt (-4 - (space + slotStart slots (j + 1) : Nat))) false) ∈
          places := by
  induction decls generalizing space places with
  | nil =>
    cases placed
    exact ⟨[], .nil, rfl, fun _ _ here => nomatch here⟩
  | cons first below ih =>
    unfold localPlaces at placed
    split at placed
    · next reg promoted =>
      obtain ⟨⟨found, bottom⟩, others, joins⟩ := bind_eq_ok.1 placed
      cases joins
      obtain ⟨slots, sized, rfl, positions⟩ := ih others
      refine ⟨0 :: slots, .cons (by simp [promoted]) sized, by simp, fun j decl here kept => ?_⟩
      cases j with
      | zero =>
        cases here
        cases promoted.symm.trans kept
      | succ j =>
        have later := positions j decl here kept
        rw [slotStart_cons_succ, Nat.zero_add]
        exact List.mem_cons_of_mem _ later
    · next kept =>
      obtain ⟨size, known, walks⟩ := bind_eq_ok.1 placed
      obtain ⟨⟨found, bottom⟩, others, joins⟩ := bind_eq_ok.1 walks
      cases joins
      obtain ⟨slots, sized, rfl, positions⟩ := ih others
      refine ⟨alignUp size 4 :: slots, .cons (by simpa [kept] using ⟨size, known, rfl⟩) sized,
        by rw [List.sum_cons, Nat.add_assoc], fun j decl here own => ?_⟩
      cases j with
      | zero =>
        cases here
        simp
      | succ j =>
        have later := positions j decl here own
        rw [slotStart_cons_succ, ← Nat.add_assoc]
        exact List.mem_cons_of_mem _ later

end Layout

/-! ## Frames -/

/-- What lies in the frame of a function; its parameters and variables by their positions. -/
inductive FrameItem where
  | savedFrame | savedReturn | result
  | param (position : Nat)
  | var (position : Nat)
deriving DecidableEq, Repr

namespace MemoryPlan

/-- An item lies in so many bytes from an offset to the frame pointer on. -/
inductive Occupies (layout : Layout) (promotion : Promotion) (plan : MemoryPlan) (fn : FunDef) :
    FrameItem → Int → Nat → Prop
  | savedFrame : Occupies layout promotion plan fn .savedFrame 0 4
  | savedReturn : Occupies layout promotion plan fn .savedReturn (-4) 4
  | result {size : Nat} (sized : layout.slotSize fn.ret = .ok size) :
      Occupies layout promotion plan fn .result 4 size
  | param {j size : Nat} {decl : VarDecl} {offset : Int32} {byReference : Bool}
      (here : fn.params[j]? = some decl)
      (placed : plan.storage[decl.id]? = some (.frame offset byReference))
      (sized : layout.slotSize decl.ty = .ok size) :
      Occupies layout promotion plan fn (.param j) offset.toInt size
  | var {j size : Nat} {decl : VarDecl} {offset : Int32} {byReference : Bool}
      (here : fn.body.locals[j]? = some decl) (kept : promotion[decl.id]? = none)
      (placed : plan.storage[decl.id]? = some (.frame offset byReference))
      (sized : layout.size decl.ty = .ok size) :
      Occupies layout promotion plan fn (.var j) offset.toInt (alignUp size 4)

/-- The bytes of a frame: its two saved registers, variables, result and parameters. -/
def frameBytes (layout : Layout) (plan : MemoryPlan) (fn : FunDef) : Except Violation Nat := do
  let result ← layout.slotSize fn.ret
  let params ← layout.slotsSize fn.params
  return 8 + plan.spaceOf fn.name + result + params

structure FrameLayout (layout : Layout) (promotion : Promotion) (plan : MemoryPlan) (fn : FunDef) :
    Prop where
  result : ∃ size, plan.Occupies layout promotion fn .result 4 size
  params : ∀ j < fn.params.length, ∃ start size,
    plan.Occupies layout promotion fn (.param j) start size
  vars : ∀ j decl, fn.body.locals[j]? = some decl → promotion[decl.id]? = none →
    ∃ start size, plan.Occupies layout promotion fn (.var j) start size
  aligned : ∀ item start size, plan.Occupies layout promotion fn item start size → 4 ∣ start
  disjoint : ∀ item start size other another more, item ≠ other →
    plan.Occupies layout promotion fn item start size →
    plan.Occupies layout promotion fn other another more →
    ∀ byte : Int, ¬ (start ≤ byte ∧ byte < start + size ∧ another ≤ byte ∧ byte < another + more)
  tiled : ∀ byte : Int, (∃ j start size, plan.Occupies layout promotion fn (.var j) start size ∧
    start ≤ byte ∧ byte < start + size) ↔ -4 - (plan.spaceOf fn.name : Int) ≤ byte ∧ byte < -4
  /-- The prologue moves the stack pointer to the lowest of these bytes. -/
  reserved : stackChange (enterCode (plan.spaceOf fn.name)) = -4 + (-4 - plan.spaceOf fn.name)

/-! ## The walks over a frame -/

/-- The slots of the result, of the parameters from the lowest up, and of the variables from the
highest down. -/
structure FrameSlots (layout : Layout) (promotion : Promotion) (plan : MemoryPlan) (fn : FunDef)
    (resultSlot : Nat) (paramSlots varSlots : List Nat) : Prop where
  result : layout.slotSize fn.ret = .ok resultSlot
  params : layout.Slots (fn.params.reverse.map VarDecl.ty) paramSlots
  vars : layout.LocalSlots promotion fn.body.locals varSlots
  space : plan.spaceOf fn.name = varSlots.sum
  paramPlaced : ∀ (j : Nat) (decl : VarDecl), fn.params.reverse[j]? = some decl →
    plan.storage[decl.id]? =
      some (.frame (.ofNat (4 + resultSlot + slotStart paramSlots j)) decl.ty.isArray)
  varPlaced : ∀ (j : Nat) (decl : VarDecl), fn.body.locals[j]? = some decl →
    promotion[decl.id]? = none →
    plan.storage[decl.id]? = some (.frame (.ofInt (-4 - (slotStart varSlots (j + 1) : Nat))) false)

variable {layout : Layout} {promotion : Promotion} {plan : MemoryPlan} {fn : FunDef}
  {resultSlot : Nat} {paramSlots varSlots : List Nat}

theorem FrameSlots.frameBytes
    (slots : plan.FrameSlots layout promotion fn resultSlot paramSlots varSlots) :
    plan.frameBytes layout fn = .ok (8 + varSlots.sum + resultSlot + paramSlots.sum) := by
  have sized : layout.slotsSize fn.params = .ok paramSlots.sum := by
    refine Layout.slotsSize_eq_ok_iff.2 ⟨paramSlots.reverse, ?_, (List.sum_reverse paramSlots).symm⟩
    have upward := slots.params.reverse
    rwa [List.map_reverse, List.reverse_reverse] at upward
  rw [MemoryPlan.frameBytes, slots.result, sized, slots.space]
  rfl

def InPart (fn : FunDef) (resultSlot : Nat) (paramSlots varSlots : List Nat) (byte : Int) :
    FrameItem → Prop
  | .savedFrame => 0 ≤ byte ∧ byte < 4
  | .savedReturn => -4 ≤ byte ∧ byte < 0
  | .result => 4 ≤ byte ∧ byte < 4 + resultSlot
  | .param j => 4 + resultSlot ≤ byte ∧ j < fn.params.length ∧
      InSlot paramSlots (fn.params.length - 1 - j) (byte - 4 - resultSlot).toNat
  | .var j => byte < -4 ∧ InSlot varSlots j (-5 - byte).toNat

theorem InPart.unique {byte : Int} {item other : FrameItem}
    (first : InPart fn resultSlot paramSlots varSlots byte item)
    (second : InPart fn resultSlot paramSlots varSlots byte other) : item = other := by
  cases item <;> cases other <;> simp only [InPart] at first second <;> try first | rfl | omega
  · have same := first.2.2.unique second.2.2
    congr 1
    omega
  · rw [first.2.unique second.2]

section Small

variable (slots : plan.FrameSlots layout promotion fn resultSlot paramSlots varSlots)
  (small : 8 + varSlots.sum + resultSlot + paramSlots.sum < 2 ^ 31)

include slots small

theorem FrameSlots.param_iff {j : Nat} {start : Int} {size : Nat} :
    plan.Occupies layout promotion fn (.param j) start size ↔
      j < fn.params.length ∧ paramSlots[fn.params.length - 1 - j]? = some size ∧
        start = 4 + resultSlot + slotStart paramSlots (fn.params.length - 1 - j) := by
  have reversed (bound : j < fn.params.length) (decl : VarDecl) :
      fn.params[j]? = some decl ↔ fn.params.reverse[fn.params.length - 1 - j]? = some decl := by
    rw [List.getElem?_reverse (by omega)]
    congr! 2
    omega
  have below := slotStart_le_sum paramSlots (fn.params.length - 1 - j)
  have exactly : (Int32.ofNat (4 + resultSlot + slotStart paramSlots
      (fn.params.length - 1 - j))).toInt =
        4 + resultSlot + slotStart paramSlots (fn.params.length - 1 - j) := by
    rw [Int32.toInt_ofNat_of_lt (by omega)]
    omega
  have slot (bound : j < fn.params.length) (decl : VarDecl) (here : fn.params[j]? = some decl) :=
    have typed : (fn.params.reverse.map VarDecl.ty)[fn.params.length - 1 - j]? = some decl.ty := by
      rw [List.getElem?_map, (reversed bound decl).1 here, Option.map_some]
    slots.params.getElem? typed
  constructor
  · intro occupies
    cases occupies with
    | @param _ _ decl offset _ here placed sized =>
      have bound := (List.getElem?_eq_some_iff.1 here).1
      rw [slots.paramPlaced _ decl ((reversed bound decl).1 here)] at placed
      obtain ⟨found, known, same⟩ := slot bound decl here
      obtain rfl := Except.ok.inj (sized.symm.trans same)
      cases placed
      exact ⟨bound, known, exactly⟩
  · rintro ⟨bound, known, rfl⟩
    have here : fn.params[j]? = some fn.params[j] := List.getElem?_eq_getElem bound
    obtain ⟨found, same, sized⟩ := slot bound _ here
    obtain rfl := Option.some.inj (known.symm.trans same)
    have placed := slots.paramPlaced _ _ ((reversed bound _).1 here)
    exact exactly ▸ .param here placed sized

theorem FrameSlots.var_iff {j : Nat} {start : Int} {size : Nat} :
    plan.Occupies layout promotion fn (.var j) start size ↔
      ∃ decl, fn.body.locals[j]? = some decl ∧ promotion[decl.id]? = none ∧
        varSlots[j]? = some size ∧ start = -4 - (slotStart varSlots (j + 1) : Int) := by
  have below := slotStart_le_sum varSlots (j + 1)
  have exactly : (Int32.ofInt (-4 - (slotStart varSlots (j + 1) : Nat))).toInt =
      -4 - (slotStart varSlots (j + 1) : Int) :=
    Int32.toInt_ofInt_of_le (by omega) (by omega)
  constructor
  · intro occupies
    cases occupies with
    | @var _ _ decl offset _ here kept placed sized =>
      rw [slots.varPlaced j decl here kept] at placed
      obtain ⟨found, same, known⟩ := slots.vars.getElem? here kept
      obtain rfl := Except.ok.inj (sized.symm.trans same)
      cases placed
      exact ⟨decl, here, kept, known, exactly⟩
  · rintro ⟨decl, here, kept, known, rfl⟩
    obtain ⟨found, sized, same⟩ := slots.vars.getElem? here kept
    obtain rfl := Option.some.inj (known.symm.trans same)
    exact exactly ▸ .var here kept (slots.varPlaced j decl here kept) sized

theorem FrameSlots.inPart {item : FrameItem} {start : Int} {size : Nat}
    (occupies : plan.Occupies layout promotion fn item start size) {byte : Int}
    (lower : start ≤ byte) (upper : byte < start + size) :
    InPart fn resultSlot paramSlots varSlots byte item := by
  cases item with
  | savedFrame =>
    cases occupies
    exact ⟨lower, upper⟩
  | savedReturn =>
    cases occupies
    exact ⟨lower, upper⟩
  | result =>
    cases occupies with
    | result sized =>
      obtain rfl := Except.ok.inj (sized.symm.trans slots.result)
      exact ⟨lower, upper⟩
  | param j =>
    obtain ⟨bound, known, rfl⟩ := (slots.param_iff small).1 occupies
    have next := slotStart_succ known
    exact ⟨by omega, bound, (List.getElem?_eq_some_iff.1 known).1, by omega, by omega⟩
  | var j =>
    obtain ⟨decl, -, -, known, rfl⟩ := (slots.var_iff small).1 occupies
    have next := slotStart_succ known
    exact ⟨by omega, (List.getElem?_eq_some_iff.1 known).1, by omega, by omega⟩

theorem FrameSlots.tiled (byte : Int) :
    (∃ j start size, plan.Occupies layout promotion fn (.var j) start size ∧
      start ≤ byte ∧ byte < start + size) ↔
      -4 - (plan.spaceOf fn.name : Int) ≤ byte ∧ byte < -4 := by
  rw [slots.space]
  constructor
  · rintro ⟨j, start, size, occupies, lower, upper⟩
    obtain ⟨below, inside⟩ := slots.inPart small occupies lower upper
    have bound := (exists_inSlot_iff varSlots _).1 ⟨j, inside⟩
    omega
  · rintro ⟨lower, upper⟩
    obtain ⟨j, inside⟩ := (exists_inSlot_iff varSlots (-5 - byte).toNat).2 (by omega)
    have listed : j < fn.body.locals.length := slots.vars.length_eq ▸ inside.1
    have here : fn.body.locals[j]? = some fn.body.locals[j] := List.getElem?_eq_getElem listed
    have kept : promotion[fn.body.locals[j].id]? = none := by
      by_contra promoted
      have next := slotStart_succ (slots.vars.zero_of_promoted here promoted)
      have empty := inside.2
      omega
    obtain ⟨size, sized, known⟩ := slots.vars.getElem? here kept
    have next := slotStart_succ known
    have within := inside.2
    exact ⟨j, _, _, (slots.var_iff small).2 ⟨_, here, kept, known, rfl⟩, by omega, by omega⟩

theorem FrameSlots.frameLayout : plan.FrameLayout layout promotion fn where
  result := ⟨resultSlot, .result slots.result⟩
  params j bound := by
    have sameLength := slots.params.length_eq
    rw [List.length_map, List.length_reverse] at sameLength
    have inside : fn.params.length - 1 - j < paramSlots.length := by omega
    exact ⟨_, _, (slots.param_iff small).2 ⟨bound, List.getElem?_eq_getElem inside, rfl⟩⟩
  vars j decl here kept := by
    obtain ⟨size, -, known⟩ := slots.vars.getElem? here kept
    exact ⟨_, _, (slots.var_iff small).2 ⟨decl, here, kept, known, rfl⟩⟩
  aligned item start size occupies := by
    cases item with
    | savedFrame | savedReturn | result =>
      cases occupies
      decide
    | param j =>
      obtain ⟨-, -, rfl⟩ := (slots.param_iff small).1 occupies
      have result := Layout.dvd_slotSize slots.result
      have before := dvd_slotStart slots.params.dvd (fn.params.length - 1 - j)
      omega
    | var j =>
      obtain ⟨decl, -, -, -, rfl⟩ := (slots.var_iff small).1 occupies
      have before := dvd_slotStart slots.vars.dvd (j + 1)
      omega
  disjoint item start size other another more differ first second byte := by
    rintro ⟨lower, upper, bottom, top⟩
    exact differ ((slots.inPart small first lower upper).unique (slots.inPart small second bottom top))
  tiled := slots.tiled small
  reserved := by
    rw [slots.space, enterCode]
    have reserved := stackChange_reserveCode (show varSlots.sum < 2 ^ 31 by omega)
    unfold stackChange at reserved ⊢
    rw [List.map_append, List.sum_append, reserved]
    simp [Instr.stackChange, Instr.adjustStack, Instr.sw]
    omega

end Small

end MemoryPlan

namespace Program

theorem frameSlots_function {program : Program} {promotion : Promotion} {plan : MemoryPlan}
    {fn : FunDef} (ids : program.ids.Nodup)
    (names : (program.functions.map fun fn => fn.name).Nodup)
    (planned : program.memoryPlan promotion = .ok plan) (defined : fn ∈ program.functions) :
    ∃ resultSlot paramSlots varSlots,
      plan.FrameSlots (.ofProgram program) promotion fn resultSlot paramSlots varSlots := by
  obtain ⟨result, params, locals, space, returned, placed, others, stored, reserved⟩ :=
    places_function planned defined
  obtain ⟨paramSlots, sized⟩ := Layout.slots_of_paramPlaces placed
  obtain ⟨places, again, positions⟩ := Layout.paramPlaces_eq_ok sized (4 + result)
  obtain rfl := Except.ok.inj (placed.symm.trans again)
  obtain ⟨varSlots, kept, rfl, varPositions⟩ := Layout.localPlaces_eq_ok others
  have once : ∀ id, id ∈ (Decl.funDef fn).ids → program.ids.count id = 1 := fun id =>
    count_ids ids (mem_functions.1 defined)
  refine ⟨result, paramSlots, varSlots,
    ⟨(Layout.resultSize_eq_slotSize fn.ret).symm.trans returned, sized, kept,
      (reserved names).trans (Nat.zero_add _), fun j decl here => ?_, fun j decl here own => ?_⟩⟩
  · refine stored decl.id _ (List.mem_append_left _ (List.mem_of_getElem? (positions j decl here)))
      (once _ (List.mem_append_left _ (List.mem_map_of_mem ?_)))
    exact List.mem_reverse.1 (List.mem_of_getElem? here)
  · have place := varPositions j decl here own
    rw [Nat.zero_add] at place
    exact stored decl.id _ (List.mem_append_right _ place)
      (once _ (List.mem_append_right _ (List.mem_map_of_mem (List.mem_of_getElem? here))))

/-- In every planned program that declares each variable and defines each function once, nothing in
the frame of a function overlaps, all offsets are whole words, and the variables that have no
register tile exactly the space that the function reserves. -/
theorem frames_disjoint {program : Program} {next : VReg} {plan : MemoryPlan} {fn : FunDef}
    (ids : program.ids.Nodup) (names : (program.functions.map fun fn => fn.name).Nodup)
    (planned : program.memoryPlan (program.promotion next).1 = .ok plan)
    (defined : fn ∈ program.functions) :
    ∃ bytes, plan.frameBytes (.ofProgram program) fn = .ok bytes ∧
      (bytes < 2 ^ 31 → plan.FrameLayout (.ofProgram program) (program.promotion next).1 fn) := by
  obtain ⟨resultSlot, paramSlots, varSlots, slots⟩ := frameSlots_function ids names planned defined
  exact ⟨_, slots.frameBytes, slots.frameLayout⟩

/-- Has parameters of several sizes, and in nested blocks variables with a register, without one
because of their type, and without one because their address is taken. -/
def survey : FunDef :=
  let taken : VarDecl := { id := 8, name := "taken", ty := .char }
  let kept : VarDecl := { id := 7, name := "kept", ty := .int }
  { name := "survey", ret := .struct "pair"
    params :=
      [ { id := 3, name := "mark", ty := .char }, { id := 4, name := "from", ty := .struct "pair" },
        { id := 5, name := "among", ty := .array .int 3 } ]
    body :=
      { vars := [{ id := 6, name := "whole", ty := .struct "pair" }, kept]
        stmts :=
          [ .loop (.ofDecl kept)
              (.block [taken]
                [ .eval (.addressOf (.ofDecl taken)),
                  .branch (.ofDecl kept)
                    (.block [{ id := 9, name := "word", ty := .array .char 5 }] [])
                    (some (.block [{ id := 10, name := "last", ty := .char }] [])) ]) ] } }

def surveying : Program :=
  { decls :=
      [ .struct
          { name := "pair"
            fields := [{ id := 1, name := "n", ty := .int }, { id := 2, name := "c", ty := .char }] },
        .var { id := 1, name := "total", ty := .int }, .funDef survey ] }

theorem frames_disjoint_survey : ∃ plan,
    surveying.ids.Nodup ∧ (surveying.functions.map fun fn => fn.name).Nodup ∧
      surveying.memoryPlan (surveying.promotion 0).1 = .ok plan ∧ survey ∈ surveying.functions ∧
      plan.frameBytes (.ofProgram surveying) survey = .ok 52 ∧
      plan.FrameLayout (.ofProgram surveying) (surveying.promotion 0).1 survey := by
  have ids : surveying.ids.Nodup := by decide
  have names : (surveying.functions.map fun fn => fn.name).Nodup := by decide
  have counted : (do
      let plan ← surveying.memoryPlan (surveying.promotion 0).1
      plan.frameBytes (.ofProgram surveying) survey) = .ok 52 := by decide +kernel
  obtain ⟨plan, planned, framed⟩ := bind_eq_ok.1 counted
  have defined : survey ∈ surveying.functions := List.mem_cons_self
  obtain ⟨bytes, known, layout⟩ := frames_disjoint ids names planned defined
  obtain rfl := Except.ok.inj (framed.symm.trans known)
  exact ⟨plan, ids, names, planned, defined, framed, layout (by decide)⟩

end Program

end MipsBackend
