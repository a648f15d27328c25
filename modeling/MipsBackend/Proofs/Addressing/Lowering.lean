import MipsBackend.Proofs.Addressing.Denotation
import MipsBackend.Proofs.Scalar.Evaluation
import MipsBackend.Proofs.WellFormed.Lowering

/-!
# Addresses are computed as places denote them

Address mode and value mode call each other, and which of them an array goes through depends on
static types. One induction over places and values covers both: the code of each part leaves the word
that the part denotes, and changes nothing but registers that it draws (`Denotes.lowers`).
-/

namespace MipsBackend

def Lowered.part (code : Lowered) : Mode → Gen Reg
  | .place => code.addr
  | .value => code.val

/-! ## Loads -/

theorem Ty.eval_loadOp {ty : Ty} (scalar : ty.isScalar = true) (memory : Memory) (place : Word) :
    ty.loadOp.eval memory place = ty.contents memory place := by
  rw [contents, if_pos scalar, loadOp]
  split <;> rfl

theorem Ty.contents_aggregate {ty : Ty} (aggregate : ty.isScalar = false) (memory : Memory)
    (place : Word) : ty.contents memory place = place := by
  rw [contents, aggregate]
  rfl

/-- The value of a place is loaded from it, or is the place itself. -/
def Lowered.Loads (code : Lowered) (ty : Ty) : Prop :=
  code.val = if ty.isScalar then do Gen.loadFrom ty (← code.addr) else code.addr

namespace Expr.Denotes

variable {program : Program} {plan : MemoryPlan} {fn : FunDef} {e : Expr}

theorem loads (denotes : e.Denotes program plan fn .place) :
    (e.lower (program.env plan)).Loads e.ty := by
  cases denotes with
  | text interned => rfl
  | @stored decl name seen kept =>
    have unpromoted : (program.env plan).promotion[decl.id]? = none := kept
    unfold Lowered.Loads lower Env.var Lowered.ofType
    rw [unpromoted]
    rfl
  | element typed base number sized => rfl
  | offset typed base number sized => rfl
  | member typed base placed => rfl
  | target base => rfl

theorem value_eq {address : Label → Word} {machine : Machine}
    (denotes : e.Denotes program plan fn .place) :
    (e.denote (program.surroundings plan fn address machine)).value =
      (e.denote (program.surroundings plan fn address machine)).place.map
        (e.ty.contents machine.memory) := by
  cases denotes with
  | text interned => rfl
  | @stored decl name seen kept =>
    have unheld : (program.surroundings plan fn address machine).held? decl.id = none := by
      simp [Program.surroundings, kept]
    simp only [denote, unheld]
    rfl
  | element typed base number sized => rfl
  | offset typed base number sized => rfl
  | member typed base placed => rfl
  | target base => rfl

theorem place_of_value {address : Label → Word} {machine : Machine} {word : Word}
    (denotes : e.Denotes program plan fn .place) (aggregate : e.ty.isScalar = false)
    (known : (e.denote (program.surroundings plan fn address machine)).value = some word) :
    (e.denote (program.surroundings plan fn address machine)).place = some word := by
  rw [denotes.value_eq] at known
  obtain ⟨place, here, rfl⟩ := Option.map_eq_some_iff.1 known
  rw [here, Ty.contents_aggregate aggregate]

end Expr.Denotes

/-! ## Address arithmetic -/

/-- The instructions of an index, on registers that were drawn before the result. -/
theorem Platform.perform_index (platform : Platform) {base number res : VReg} (size : Int32)
    (before : base < res) (below : number < res) (machine : Machine) :
    platform.perform machine
        [.loadImm (.virt res) size, .arith .mul (.virt res) (.virt number) (.virt res),
          .arith .add (.virt res) (.virt base) (.virt res)] =
      machine.write (.virt res) (machine.virt base + machine.virt number * size.toBitVec) := by
  simp only [perform_cons, perform_nil, Instr.change, Machine.apply, Machine.write, Machine.read,
    ArithOp.eval, Function.update_self, Function.update_idem,
    Function.update_of_ne (Nat.ne_of_lt before), Function.update_of_ne (Nat.ne_of_lt below)]

namespace Gen

variable {setting : Setting}

theorem evaluates_index {array position : Gen Reg} {base number : Word}
    (left : array.Evaluates setting base) (right : position.Evaluates setting number)
    {extent : Except Violation Nat} {size : Nat} (sized : extent = .ok size) :
    (do
      let base ← array
      let number ← position
      let size ← Gen.lift extent
      let res ← Gen.freshReg
      Gen.emit [.loadImm res (.ofNat size), .arith .mul res number res, .arith .add res base res]
      return res).Evaluates setting (base + number * BitVec.ofNat 32 size) := by
  refine left.bind fun {_ first} above below => (right.holding above below _).bind
    fun {_ second} beyond within => evaluates_lift_bind sized (evaluates_compute
      (fun _ => by simp [Instr.isStraight]) fun {machine res} drawn holds => ?_)
  have before : first < res := below.trans_le (beyond.trans drawn)
  have known : machine.virt first = base := holds.1.2
  have other : machine.virt second = number := holds.2
  rw [Platform.perform_index _ _ before (within.trans_le drawn), known, other]
  exact ⟨.write machine res _, by rw [Machine.virt_write_virt, if_pos rfl]; rfl⟩

theorem evaluates_field {owner : Gen Reg} {base : Word} (left : owner.Evaluates setting base)
    {found : Except Violation Nat} {offset : Nat} (placed : found = .ok offset) :
    (do
      let base ← owner
      let offset ← Gen.lift found
      let res ← Gen.freshReg
      Gen.emit [.arithImm .addi res base (.ofNat offset)]
      return res).Evaluates setting (base + BitVec.ofNat 32 offset) := by
  refine left.bind fun {_ reg} above below => evaluates_lift_bind placed
    (evaluates_instr (fun _ => rfl) fun {machine res} _ holds => ?_)
  have known : machine.read (.virt reg) = base := holds.2
  rw [Instr.change, known]
  rfl

theorem evaluates_character {value : Char} (ascii : value.toNat < 128) :
    (character value).Evaluates setting (BitVec.ofNat 32 value.toNat) := by
  unfold character
  rw [if_pos ascii]
  refine evaluates_instr (fun _ => rfl) fun {machine res} _ _ => ?_
  have zero : machine.read .zero = 0 := rfl
  rw [Instr.change, zero]
  exact congrArg (Change.reg (.virt res)) (BitVec.zero_add _)

theorem evaluates_join {env : Env} {op : BinOp} {lhs rhs : Gen Reg}
    (writes : rhs.Writes env Reg.IsAnswer) {left right : Option Word} {word : Word}
    (joins : op.join? left right = some word)
    (first : ∀ x, left = some x → lhs.Evaluates setting x)
    (second : ∀ y, right = some y → rhs.Evaluates setting y) :
    (operator op lhs rhs).Evaluates setting word := by
  obtain ⟨x, known, rest⟩ := Option.bind_eq_some_iff.1 joins
  have evaluates : lhs.Evaluates setting (Int32.ofBitVec x).toBitVec := first x known
  cases decides : op.decided? (.ofBitVec x) with
  | some value =>
    rw [decides] at rest
    cases rest
    exact evaluates_decided writes evaluates decides
  | none =>
    rw [decides] at rest
    obtain ⟨y, also, result⟩ := Option.bind_eq_some_iff.1 rest
    split at result
    · cases result
    · cases result
      have later : rhs.Evaluates setting (Int32.ofBitVec y).toBitVec := second y also
      exact evaluates_operator writes evaluates decides later

end Gen

/-! ## Expressions -/

theorem Lowered.val_ofType {ty : Ty} (scalar : ty.isScalar = true) (addr val : Gen Reg) :
    (ofType ty addr val).val = val :=
  if_pos scalar

theorem Env.addr_index (env : Env) (ty : Ty) {arrayTy : Ty} (array position : Lowered) {mode : Mode}
    (typed : arrayTy.isPointer = decide (mode = .value)) :
    (env.index ty arrayTy array position).addr = (do
      let base ← array.part mode
      let number ← position.val
      let size ← Gen.lift (env.layout.size ty)
      let res ← Gen.freshReg
      Gen.emit [.loadImm res (.ofNat size), .arith .mul res number res, .arith .add res base res]
      return res) := by
  unfold index
  rw [typed]
  cases mode <;> rfl

namespace Expr

/-- The code of a part exists, and leaves the word that the part denotes. -/
structure Lowers (program : Program) (plan : MemoryPlan) (fn : FunDef) (mode : Mode) (e : Expr) :
    Prop where
  succeeds : ((e.lower (program.env plan)).part mode).Succeeds
  evaluates : ∀ (platform : Platform) {code : Section} (labelled : code.Labelled) (stop : Nat)
    (machine : Machine) {word : Word},
    (e.denote (program.surroundings plan fn platform.address machine)).part mode = some word →
    ((e.lower (program.env plan)).part mode).Evaluates
      (.start platform labelled stop (program.promotion 0).2 machine) word

variable {program : Program} {plan : MemoryPlan} {fn : FunDef}

theorem Lowers.of_code {mode : Mode} {e : Expr} {gen : Gen Reg}
    (code : (e.lower (program.env plan)).part mode = gen) (succeeds : gen.Succeeds)
    (evaluates : ∀ (platform : Platform) {code : Section} (labelled : code.Labelled) (stop : Nat)
      (machine : Machine) {word : Word},
      (e.denote (program.surroundings plan fn platform.address machine)).part mode = some word →
      gen.Evaluates (.start platform labelled stop (program.promotion 0).2 machine) word) :
    Lowers program plan fn mode e := by
  subst code
  exact ⟨succeeds, evaluates⟩

theorem lowers_text {length : UInt64} {text : String} (interned : text ∈ plan.strings) :
    Lowers program plan fn .place (.strLit (.array .char length) text) := by
  obtain ⟨label, found⟩ := Option.isSome_iff_exists.1
    (Std.ExtTreeMap.mem_iff_isSome_getElem?.1 interned)
  have known : plan.stringLabel text = .ok label := by rw [MemoryPlan.stringLabel, found]
  refine ⟨Gen.succeeds_lift_bind known (Gen.succeeds_compute _), fun platform _ _ _ _ _ here => ?_⟩
  have same : plan.strings[text]?.map platform.address = some _ := here
  rw [found] at same
  cases same
  exact Gen.evaluates_lift_bind known (Gen.evaluates_addressOfLabel label)

/-- An index starts from the value of what is indexed, whichever mode its code comes from. -/
theorem lowers_index {elem : Ty} {array position : Expr} {mode : Mode} {size : Nat}
    (typed : array.ty.isPointer = decide (mode = .value)) (names : array.ty.element? = some elem)
    (base : ∀ {address machine word},
      (array.denote (program.surroundings plan fn address machine)).value = some word →
      (array.denote (program.surroundings plan fn address machine)).part mode = some word)
    (left : array.Lowers program plan fn mode) (right : position.Lowers program plan fn .value)
    (sized : (Layout.ofProgram program).size elem = .ok size) :
    Lowers program plan fn .place (.index elem array position) := by
  refine .of_code ((program.env plan).addr_index elem _ _ typed)
    (left.succeeds.bind fun _ => right.succeeds.bind fun _ =>
      Gen.succeeds_lift_bind sized (Gen.succeeds_compute _))
    fun platform _ labelled stop machine word here => ?_
  obtain ⟨first, one, rest⟩ := Option.bind_eq_some_iff.1 here
  obtain ⟨second, two, result⟩ := Option.bind_eq_some_iff.1 rest
  rw [names, Option.bind_eq_bind, Option.bind_some] at result
  have known : (program.surroundings plan fn platform.address machine).layout.size elem = .ok size :=
    sized
  rw [known] at result
  cases result
  exact Gen.evaluates_index (left.evaluates platform labelled stop machine (base one))
    (right.evaluates platform labelled stop machine two) sized

theorem lowers_member {ty : Ty} {struct : String} {owner : Expr} {name : String} {offset : Nat}
    (typed : owner.ty = .struct struct) (base : owner.Lowers program plan fn .place)
    (placed : (Layout.ofProgram program).fieldOffset struct name = .ok offset) :
    Lowers program plan fn .place (.field ty owner name) := by
  have code : ((field ty owner name).lower (program.env plan)).part .place = (do
      let base ← (owner.lower (program.env plan)).addr
      let offset ← Gen.lift ((Layout.ofProgram program).fieldOffset struct name)
      let res ← Gen.freshReg
      Gen.emit [.arithImm .addi res base (.ofNat offset)]
      return res) := by
    change (Env.field _ ty owner.ty _ name).addr = _
    rw [typed]
    rfl
  refine .of_code code (base.succeeds.bind fun _ => Gen.succeeds_lift_bind placed
    (Gen.succeeds_compute _)) fun platform _ labelled stop machine word here => ?_
  obtain ⟨place, one, result⟩ := Option.bind_eq_some_iff.1 here
  rw [typed] at result
  have known : (program.surroundings plan fn platform.address machine).layout.fieldOffset struct name =
      .ok offset := placed
  simp only [known] at result
  cases result
  exact Gen.evaluates_field (base.evaluates platform labelled stop machine one) placed

theorem lowers_target {ty : Ty} {pointer : Expr} (base : pointer.Lowers program plan fn .value) :
    Lowers program plan fn .place (.deref ty pointer) :=
  ⟨base.succeeds, base.evaluates⟩

theorem lowers_number {ty : Ty} (scalar : ty.isScalar = true) (value : Int32) :
    Lowers program plan fn .value (.intLit ty value) := by
  refine .of_code (Lowered.val_ofType scalar _ _) (Gen.succeeds_compute _)
    fun platform _ labelled stop machine word here => ?_
  cases here
  exact Gen.evaluates_constant value

theorem lowers_character {ty : Ty} (scalar : ty.isScalar = true) {value : Char}
    (ascii : value.toNat < 128) : Lowers program plan fn .value (.charLit ty value) := by
  refine .of_code (Lowered.val_ofType scalar _ _) (Gen.succeeds_character ascii)
    fun platform _ labelled stop machine word here => ?_
  cases here
  exact Gen.evaluates_character ascii

theorem lowers_size {ty measured : Ty} {size : Nat} (scalar : ty.isScalar = true)
    (sized : (Layout.ofProgram program).size measured = .ok size) :
    Lowers program plan fn .value (.sizeOf ty measured) := by
  refine .of_code (Lowered.val_ofType scalar _ _)
    (Gen.succeeds_lift_bind sized (Gen.succeeds_compute _))
    fun platform _ labelled stop machine word here => ?_
  have known : ((Layout.ofProgram program).size measured).toOption.map (BitVec.ofNat 32) =
      some word := here
  rw [sized] at known
  cases known
  exact Gen.evaluates_lift_bind sized (Gen.evaluates_constant _)

theorem lowers_promoted {ty : Ty} {id : DeclId} {name : String} {reg : VReg}
    (scalar : ty.isScalar = true) (found : (program.promotion 0).1[id]? = some reg) :
    Lowers program plan fn .value (.var ty id name) := by
  have code : ((var ty id name).lower (program.env plan)).part .value = Gen.answer (.virt reg) := by
    have promoted : (program.env plan).promotion[id]? = some reg := found
    refine (Lowered.val_ofType scalar _ _).trans ?_
    rw [promoted]
  refine .of_code code (Gen.succeeds_answer _) fun platform _ labelled stop machine word here => ?_
  have held : (program.surroundings plan fn platform.address machine).held? id =
      some (machine.virt reg) := by simp [Program.surroundings, found]
  simp only [denote, held] at here
  cases here
  have below := (program.distinct_promotion 0).below id reg found
  refine Gen.evaluates_answer below fun {later} untouched => ?_
  exact Machine.Untouched.virt untouched reg below

theorem lowers_operator {ty : Ty} {op : BinOp} {lhs rhs : Expr} (scalar : ty.isScalar = true)
    (left : lhs.Lowers program plan fn .value) (right : rhs.Lowers program plan fn .value) :
    Lowers program plan fn .value (.binOp ty op lhs rhs) := by
  refine .of_code (Lowered.val_ofType scalar _ _)
    (Gen.succeeds_operator op left.succeeds right.succeeds)
    fun platform _ labelled stop machine word here => ?_
  exact Gen.evaluates_join (rhs.writes_lower _).val here
    (fun _ => left.evaluates platform labelled stop machine)
    fun _ => right.evaluates platform labelled stop machine

theorem lowers_address {ty : Ty} {operand : Expr} (place : operand.Lowers program plan fn .place) :
    Lowers program plan fn .value (.addrOf ty operand) :=
  .of_code (ite_self _) place.succeeds place.evaluates

/-- Value mode loads a scalar from its place; an aggregate is answered by its place. -/
theorem lowers_contents {e : Expr} (denotes : e.Denotes program plan fn .place)
    (place : e.Lowers program plan fn .place) : Lowers program plan fn .value e := by
  refine .of_code denotes.loads ?_ fun platform _ labelled stop machine word here => ?_
  · split
    · exact Env.succeeds_load place.succeeds _
    · exact place.succeeds
  · have value := denotes.value_eq.symm.trans here
    obtain ⟨base, known, rfl⟩ := Option.map_eq_some_iff.1 value
    have evaluates := place.evaluates platform labelled stop machine known
    split
    · next scalar =>
      rw [← Ty.eval_loadOp scalar]
      exact Gen.Evaluates.load evaluates (fun {later} untouched => Machine.Untouched.memory untouched) _
    · next aggregate =>
      rw [Ty.contents_aggregate (by simpa using aggregate)]
      exact evaluates

/-! ## Variables in memory -/

section Function

variable (ids : program.ids.Nodup)
  (planned : program.memoryPlan (program.promotion 0).1 = .ok plan) (defined : fn ∈ program.functions)

include ids planned defined

theorem lowers_stored {decl : VarDecl} (seen : decl ∈ program.visible fn)
    (kept : (program.promotion 0).1[decl.id]? = none) (name : String) :
    Lowers program plan fn .place (.var decl.ty decl.id name) := by
  have place : ∀ around : Surroundings, around.held? decl.id = none →
      ((var decl.ty decl.id name).denote around).place = around.base? decl.id := by
    intro around unheld
    rw [denote, unheld]
    rfl
  have unheld : ∀ address machine,
      (program.surroundings plan fn address machine).held? decl.id = none := by
    intro address machine
    simp [Program.surroundings, kept]
  rcases Program.storage_visible ids planned defined seen kept with ⟨found, global, stored⟩ |
      ⟨inside, offset, stored⟩
  · refine .of_code (Env.varAddr_of_global stored name) (Gen.succeeds_compute _)
      fun platform _ labelled stop machine word here => ?_
    have known := (place _ (unheld _ _)).symm.trans here
    simp only [Program.surroundings, Program.base?, global] at known
    cases known
    exact Gen.evaluates_addressOfLabel _
  · refine .of_code (Env.varAddr_of_frame stored name) (Gen.succeeds_compute _)
      fun platform _ labelled stop machine word here => ?_
    have known := (place _ (unheld _ _)).symm.trans here
    simp only [Program.surroundings, Program.base?, inside, stored] at known
    cases known
    exact Gen.evaluates_slot _ labelled stop _ machine offset _

/-- The code of every part leaves what the part denotes, by induction over places and values. -/
theorem Denotes.lowers {mode : Mode} {e : Expr} (denotes : e.Denotes program plan fn mode) :
    e.Lowers program plan fn mode := by
  induction denotes with
  | text interned => exact lowers_text interned
  | stored seen kept => exact lowers_stored ids planned defined seen kept _
  | element typed base _ sized array position =>
    -- An array stands for its place, so address mode answers what the index starts from.
    refine lowers_index (by rw [typed]; rfl) (by rw [typed]; rfl) (fun known => ?_) array position sized
    exact base.place_of_value (by rw [typed]; rfl) known
  | offset typed _ _ sized pointer position =>
    exact lowers_index (by rw [typed]; rfl) (by rw [typed]; rfl) id pointer position sized
  | member typed _ placed owner => exact lowers_member typed owner placed
  | target _ pointer => exact lowers_target pointer
  | number scalar => exact lowers_number scalar _
  | character scalar ascii => exact lowers_character scalar ascii
  | size scalar sized => exact lowers_size scalar sized
  | promoted scalar found => exact lowers_promoted scalar found
  | operator scalar _ _ left right => exact lowers_operator scalar left right
  | address _ operand => exact lowers_address operand
  | contents place inner => exact lowers_contents place inner

end Function

end Expr

end MipsBackend
