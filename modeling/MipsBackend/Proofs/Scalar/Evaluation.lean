import MipsBackend.Proofs.Lowering.Grammar
import MipsBackend.Proofs.Machine.Placement
import MipsBackend.Proofs.Scalar.Operators

/-!
# Code that evaluates

Code without calls and assignments walks from its start to its end, leaves a word in the register
that it answers, and changes nothing but registers that it drew, hi and lo. What is known about the
machine must not depend on these registers; a register that was drawn before keeps its word, so
behind the code of one part its word is known too (`Setting.holding`).
-/

namespace MipsBackend

/-- Where code stands, and what it can rely on while it leaves the registers below `bound` alone. -/
structure Setting where
  platform : Platform
  code : Section
  labelled : code.Labelled
  stop : Nat
  bound : VReg
  given : Machine → Prop
  stable : ∀ {before after : Machine}, before.Untouched bound after → given before → given after

/-- All is known about the machine that the code starts with. -/
def Setting.start (platform : Platform) {code : Section} (labelled : code.Labelled) (stop : Nat)
    (bound : VReg) (machine : Machine) : Setting where
  platform
  code
  labelled
  stop
  bound
  given := machine.Untouched bound
  stable := fun untouched holds => holds.trans (Nat.le_refl _) untouched

/-- Behind the code of a part, whose word is now known. -/
def Setting.holding (setting : Setting) {bound reg : VReg} (above : setting.bound ≤ bound)
    (below : reg < bound) (word : Word) : Setting :=
  { setting with
    bound
    given := fun machine => setting.given machine ∧ machine.virt reg = word
    stable := fun untouched holds =>
      ⟨setting.stable (untouched.anti above) holds.1, (untouched.virt reg below).trans holds.2⟩ }

/-- A walk through the code of a word, which is in the answered register at its end. -/
structure Evaluated (setting : Setting) (node : Nat) (supply : Supply) (machine : Machine)
    (generated : Generated Reg) (word : Word) (after : Machine) : Prop where
  walk : ∃ n, setting.code.Walk setting.platform setting.stop n (.inside node, machine)
    (.inside (node + instrCount generated.code), after)
  agrees : machine.AgreesOutside supply.nextReg generated.supply.nextReg after
  answer : ∃ reg, generated.value = .virt reg ∧ reg < generated.supply.nextReg ∧
    after.virt reg = word
  grown : supply.nextReg ≤ generated.supply.nextReg

namespace Evaluated

variable {setting : Setting} {node : Nat} {supply : Supply} {machine after : Machine}
  {generated : Generated Reg} {word : Word}

theorem given (evaluated : Evaluated setting node supply machine generated word after)
    (above : setting.bound ≤ supply.nextReg) (holds : setting.given machine) :
    setting.given after :=
  setting.stable (evaluated.agrees.untouched above) holds

theorem read (evaluated : Evaluated setting node supply machine generated word after) :
    after.read generated.value = word := by
  obtain ⟨reg, named, -, holds⟩ := evaluated.answer
  rw [named, Machine.read_virt, holds]

end Evaluated

/-! ## Addresses of variables -/

namespace Env

variable {env : Env}

theorem varAddr_of_global {id : DeclId} {label : Label}
    (stored : env.plan.storage[id]? = some (.global label)) (name : String) :
    env.varAddr id name = Gen.addressOfLabel label := by
  have known : env.plan.storageOf id name = .ok (.global label) := by
    rw [MemoryPlan.storageOf, stored]
  rw [varAddr, known]
  rfl

theorem varAddr_of_frame {id : DeclId} {offset : Int32} {byReference : Bool}
    (stored : env.plan.storage[id]? = some (.frame offset byReference)) (name : String) :
    env.varAddr id name = (do
      let res ← Gen.freshReg
      Gen.emit [if byReference then .lw res offset .fp else .arithImm .addi res .fp offset]
      return res) := by
  have known : env.plan.storageOf id name = .ok (.frame offset byReference) := by
    rw [MemoryPlan.storageOf, stored]
  rw [varAddr, known]
  cases byReference <;> rfl

end Env

/-! ## Computations -/

namespace Gen

/-- Wherever in the section and with whatever registers its code is generated, the computation
answers the word. -/
def Evaluates (setting : Setting) (gen : Gen Reg) (word : Word) : Prop :=
  ∀ ⦃supply : Supply⦄ ⦃generated : Generated Reg⦄ ⦃node : Nat⦄ ⦃machine : Machine⦄,
    setting.bound ≤ supply.nextReg → gen.run supply = .ok generated →
    setting.code.Places node generated.code → node + instrCount generated.code ≤ setting.stop →
    setting.given machine →
    ∃ after, Evaluated setting node supply machine generated word after

variable {setting : Setting}

theorem Evaluates.holding {gen : Gen Reg} {word : Word} (evaluates : gen.Evaluates setting word)
    {bound reg : VReg} (above : setting.bound ≤ bound) (below : reg < bound) (other : Word) :
    gen.Evaluates (setting.holding above below other) word := by
  intro supply generated node machine drawn runs placed fits holds
  obtain ⟨after, evaluated⟩ := evaluates (above.trans drawn) runs placed fits holds.1
  exact ⟨after, evaluated.walk, evaluated.agrees, evaluated.answer, evaluated.grown⟩

theorem Evaluates.bind {first : Gen Reg} {next : Reg → Gen Reg} {one word : Word}
    (left : first.Evaluates setting one)
    (right : ∀ {bound reg : VReg} (above : setting.bound ≤ bound) (below : reg < bound),
      (next (.virt reg)).Evaluates (setting.holding above below one) word) :
    (first >>= next).Evaluates setting word := by
  intro supply generated node machine drawn runs placed fits holds
  obtain ⟨before, behind, lowers, continues, rfl⟩ := run_bind.1 runs
  rw [instrCount_append, ← Nat.add_assoc] at fits
  obtain ⟨middle, here⟩ := left drawn lowers placed.left (by omega) holds
  obtain ⟨reg, named, below, known⟩ := here.answer
  rw [named] at continues
  -- What follows draws its registers behind the first one, which so keeps its word.
  obtain ⟨after, there⟩ := right (drawn.trans here.grown) below (Nat.le_refl _) continues placed.right
    fits ⟨here.given drawn holds, known⟩
  obtain ⟨_, first⟩ := here.walk
  obtain ⟨_, second⟩ := there.walk
  have walk := first.trans second
  rw [Nat.add_assoc, ← instrCount_append] at walk
  exact ⟨after, ⟨_, walk⟩, (here.agrees.mono (Nat.le_refl _) there.grown).trans
    (there.agrees.mono here.grown (Nat.le_refl _)), there.answer, here.grown.trans there.grown⟩

theorem evaluates_answer {reg : VReg} {word : Word} (below : reg < setting.bound)
    (known : ∀ {machine}, setting.given machine → machine.virt reg = word) :
    (answer (.virt reg)).Evaluates setting word := by
  intro supply generated node machine drawn runs _ _ holds
  cases runs
  exact ⟨machine, ⟨0, .none⟩, .refl _ _ machine,
    ⟨reg, rfl, Nat.lt_of_lt_of_le below drawn, known holds⟩, Nat.le_refl _⟩

theorem run_compute {instrs : Reg → List Instr} {supply : Supply} {generated : Generated Reg}
    (runs : (do
      let res ← freshReg
      emit (instrs res)
      return res).run supply = .ok generated) :
    generated =
      { value := .virt supply.nextReg
        code := (instrs (.virt supply.nextReg)).map .instr
        supply := { supply with nextReg := supply.nextReg + 1 } } := by
  obtain ⟨_, _, draws, rest, rfl⟩ := run_bind.1 runs
  cases draws
  obtain ⟨_, _, writes, answers, rfl⟩ := run_bind.1 rest
  cases writes
  cases answers
  simp only [List.nil_append, List.append_nil]

theorem evaluates_compute {instrs : Reg → List Instr} {word : Word}
    (straight : ∀ res, ∀ instr ∈ instrs res, instr.isStraight = true)
    (computes : ∀ {machine} {res : VReg}, setting.bound ≤ res → setting.given machine →
      machine.AgreesOutside res (res + 1) (setting.platform.perform machine (instrs (.virt res))) ∧
        (setting.platform.perform machine (instrs (.virt res))).virt res = word) :
    (do
      let res ← freshReg
      emit (instrs res)
      return res).Evaluates setting word := by
  intro supply generated node machine drawn runs placed fits holds
  obtain rfl := run_compute runs
  rw [instrCount_map] at fits
  obtain ⟨agrees, known⟩ := computes drawn holds
  have walk := @Section.Walk.straight setting.platform setting.code setting.stop _ node placed.holds
    (straight _) fits machine
  rw [← instrCount_map (instrs (.virt supply.nextReg))] at walk
  exact ⟨_, ⟨_, walk⟩, agrees, ⟨_, rfl, Nat.lt_succ_self _, known⟩, Nat.le_succ _⟩

theorem evaluates_lift_bind {α : Type} {result : Except Violation α} {value : α}
    {next : α → Gen Reg} {word : Word} (known : result = .ok value)
    (right : (next value).Evaluates setting word) : (lift result >>= next).Evaluates setting word := by
  intro supply generated node machine drawn runs placed fits holds
  obtain ⟨found, same, continues⟩ := run_lift_bind.1 runs
  obtain rfl := Except.ok.inj (known.symm.trans same)
  exact right drawn continues placed fits holds

/-! ## Single instructions -/

theorem evaluates_instr {instr : Reg → Instr} {word : Word}
    (straight : ∀ res, (instr res).isStraight = true)
    (changes : ∀ {machine} {res : VReg}, setting.bound ≤ res → setting.given machine →
      (instr (.virt res)).change setting.platform.address machine = .reg (.virt res) word) :
    (do
      let res ← freshReg
      emit [instr res]
      return res).Evaluates setting word := by
  refine evaluates_compute (fun res => by simpa using straight res) fun {machine res} above holds => ?_
  rw [Platform.perform_cons, Platform.perform_nil, changes above holds]
  exact ⟨.write machine res word, by rw [Machine.apply, Machine.virt_write_virt, if_pos rfl]⟩

theorem evaluates_constant (value : Int32) : (constant value).Evaluates setting value.toBitVec :=
  evaluates_instr (fun _ => rfl) fun _ _ => rfl

theorem evaluates_addressOfLabel (label : Label) :
    (addressOfLabel label).Evaluates setting (setting.platform.address label) :=
  evaluates_instr (fun _ => rfl) fun _ _ => rfl

theorem Evaluates.load {addr : Gen Reg} {place : Word} (evaluates : addr.Evaluates setting place)
    {memory : Memory} (known : ∀ {machine}, setting.given machine → machine.memory = memory)
    (ty : Ty) : (do loadFrom ty (← addr)).Evaluates setting (ty.loadOp.eval memory place) := by
  refine evaluates.bind fun above below => evaluates_instr (fun _ => rfl) fun _ holds => ?_
  have zero : place + (0 : Int32).toBitVec = place := BitVec.add_zero place
  rw [Instr.change, Machine.read_virt, holds.2, known holds.1, zero]

/-- The address of a variable of the frame, or of the array whose address the variable holds. -/
theorem evaluates_slot (platform : Platform) {code : Section} (labelled : code.Labelled) (stop : Nat)
    (bound : VReg) (machine : Machine) (offset : Int32) (byReference : Bool) :
    (do
      let res ← freshReg
      emit [if byReference then .lw res offset .fp else .arithImm .addi res .fp offset]
      return res).Evaluates (.start platform labelled stop bound machine)
        (if byReference then machine.memory.word (machine.phys .fp + offset.toBitVec)
        else machine.phys .fp + offset.toBitVec) := by
  refine evaluates_instr (fun _ => by split <;> rfl) fun {later res} _ untouched => ?_
  have frame : later.read .fp = machine.phys .fp := congrFun untouched.phys .fp
  have memory : later.memory = machine.memory := untouched.memory
  split
  · rw [Instr.lw, Instr.change, frame, memory]
    rfl
  · rw [Instr.change, frame]
    rfl

/-! ## Operators -/

theorem evaluates_strict {op : BinOp} (strict : isStrict op = true) {lhs rhs : Gen Reg}
    {x y : Int32} (left : lhs.Evaluates setting x.toBitVec)
    (right : rhs.Evaluates setting y.toBitVec) :
    (operator op lhs rhs).Evaluates setting (op.result x y).toBitVec := by
  have both : operator op lhs rhs = (do
      let left ← lhs
      let right ← rhs
      let res ← freshReg
      emit (operatorCode op res left right)
      return res) := by
    cases op <;> first | rfl | cases strict
  rw [both]
  refine left.bind fun {_ first} above below => (right.holding above below _).bind fun {_ second} _ _ =>
    evaluates_compute (fun _ => isStraight_operatorCode) fun {machine _} _ holds => ?_
  have known : machine.read (.virt first) = x.toBitVec := holds.1.2
  have other : machine.read (.virt second) = y.toBitVec := holds.2
  exact perform_operatorCode _ strict known other _

/-- The end of a short circuit, behind the right operand or where the left one decides. -/
theorem walk_endings {kind : ShortCircuit} {number : Nat} {rightReg : Reg} {res : VReg} {node : Nat}
    (placed : setting.code.Places node
      [.instr (.branchZero kind.test rightReg (.branch kind.decidedLabel number)),
        .instr (.loadImm (.virt res) kind.undecided), .instr (.jump (.branch kind.endLabel number)),
        .label (.branch kind.decidedLabel number), .instr (.loadImm (.virt res) kind.decided),
        .label (.branch kind.endLabel number)])
    (below : node + 4 ≤ setting.stop) (machine : Machine) :
    (∃ n, setting.code.Walk setting.platform setting.stop n (.inside (node + 3), machine)
      (.inside (node + 4), machine.write (.virt res) kind.decided.toBitVec)) ∧
    (∀ holds, kind.test.holds (machine.read rightReg) = holds →
      ∃ n, setting.code.Walk setting.platform setting.stop n (.inside node, machine)
        (.inside (node + 4), machine.write (.virt res) (kind.result holds).toBitVec)) := by
  have decided := setting.labelled.node_of_places placed.tail.tail.tail
  have done := setting.labelled.node_of_places placed.tail.tail.tail.behindLabel.tail
  have yes := @Section.Walk.straight setting.platform setting.code setting.stop
    [.loadImm (.virt res) kind.decided] (node + 3)
    (@Section.Places.left _ _ [_] _ placed.tail.tail.tail.behindLabel).holds
    (by simp [Instr.isStraight]) below machine
  refine ⟨⟨_, yes⟩, fun holds tested => ?_⟩
  cases holds with
  | true => exact ⟨_, (Section.Walk.taken (by omega) placed.instr tested decided).trans yes⟩
  | false =>
    have skip : setting.code.Walk setting.platform setting.stop 1 (.inside node, machine)
        (.inside (node + 1), machine) :=
      .skipped (by omega) placed.instr tested
    have no := @Section.Walk.straight setting.platform setting.code setting.stop
      [.loadImm (.virt res) kind.undecided] (node + 1)
      (@Section.Places.left _ _ [_] _ placed.tail).holds (by simp [Instr.isStraight])
      (by simp only [List.length_singleton]; omega) machine
    have leave := @Section.Walk.jump setting.platform setting.code setting.stop _ _ _
      (machine.write (.virt res) kind.undecided.toBitVec) (by omega) placed.tail.tail.instr done
    exact ⟨_, (skip.trans no).trans leave⟩

theorem evaluates_shortCircuit {env : Env} {kind : ShortCircuit} {lhs rhs : Gen Reg}
    (writes : rhs.Writes env Reg.IsAnswer) {x : Int32} {holds : Bool}
    (left : lhs.Evaluates setting x.toBitVec)
    (right : kind.decides x = true ∧ holds = true ∨ kind.decides x = false ∧
      ∃ y : Int32, rhs.Evaluates setting y.toBitVec ∧ kind.decides y = holds) :
    (shortCircuit kind lhs rhs).Evaluates setting (kind.result holds).toBitVec := by
  intro supply generated node machine drawn runs placed fits known
  obtain ⟨one, two, lowersLeft, lowersRight, answers, behind, whole⟩ := run_shortCircuit runs
  rw [whole] at placed fits
  simp only [ShortCircuit.code, instrCount_append, instrCount_instr, instrCount_label,
    instrCount_nil] at fits
  have drawn' : setting.bound ≤ ({ supply with nextLabel := supply.nextLabel + 1 } : Supply).nextReg :=
    drawn
  obtain ⟨middle, computed⟩ := left drawn' lowersLeft placed.left (by omega) known
  obtain ⟨_, walkLeft⟩ := computed.walk
  have count : instrCount generated.code = instrCount one.code + (instrCount two.code + 5) := by
    rw [whole]
    simp only [ShortCircuit.code, instrCount_append, instrCount_instr, instrCount_label,
      instrCount_nil]
  have test : setting.code.instructions[node + instrCount one.code]? =
      some (.branchZero kind.test one.value (.branch kind.decidedLabel supply.nextLabel)) :=
    placed.right.instr
  have grown : supply.nextReg ≤ one.supply.nextReg := computed.grown
  let res := one.supply.nextReg
  have later : res + 1 ≤ two.supply.nextReg := (writes _ _ lowersRight).regs
  -- However control gets to the end, the result is in its register there.
  suffices reaches : ∃ last, machine.AgreesOutside supply.nextReg two.supply.nextReg last ∧
      ∃ n, setting.code.Walk setting.platform setting.stop n (.inside node, machine)
        (.inside (node + instrCount one.code + 1 + instrCount two.code + 4),
          last.write (.virt res) (kind.result holds).toBitVec) by
    obtain ⟨last, agrees, n, walk⟩ := reaches
    refine ⟨last.write (.virt res) (kind.result holds).toBitVec, ⟨n, ?_⟩, ?_,
      ⟨res, answers, ?_, ?_⟩, ?_⟩
    · rw [count]
      convert walk using 3
      omega
    · rw [behind]
      exact agrees.trans ((Machine.AgreesOutside.write last res _).mono grown later)
    · rw [behind]
      exact later
    · rw [Machine.virt_write_virt, if_pos rfl]
    · rw [behind]
      exact grown.trans ((Nat.le_succ _).trans later)
  have endings := placed.right.tail.right
  have kept : machine.AgreesOutside supply.nextReg two.supply.nextReg middle :=
    computed.agrees.mono (Nat.le_refl _) ((Nat.le_succ _).trans later)
  rcases right with ⟨decides, rfl⟩ | ⟨decides, y, evaluates, rfl⟩
  · have tested : kind.test.holds (middle.read one.value) = true := by
      rw [computed.read]
      exact decides
    have skip := @Section.Walk.taken setting.platform setting.code setting.stop _ _ _ _ _ middle
      (by omega) test tested (setting.labelled.node_of_places endings.tail.tail.tail)
    obtain ⟨n, finish⟩ := (walk_endings endings (by omega) middle).1
    exact ⟨middle, kept, _, (walkLeft.trans skip).trans finish⟩
  · have tested : kind.test.holds (middle.read one.value) = false := by
      rw [computed.read]
      exact decides
    have skip := @Section.Walk.skipped setting.platform setting.code setting.stop _ _ _ _ middle
      (by omega) test tested
    obtain ⟨last, second⟩ := evaluates ((drawn'.trans grown).trans (Nat.le_succ _)) lowersRight
      placed.right.tail.left (by omega) (computed.given drawn' known)
    obtain ⟨_, walkRight⟩ := second.walk
    obtain ⟨n, finish⟩ := (walk_endings endings (by omega) last).2 (kind.decides y)
      (by rw [second.read]; rfl)
    exact ⟨last, kept.trans (second.agrees.mono (grown.trans (Nat.le_succ _)) (Nat.le_refl _)), _,
      ((walkLeft.trans skip).trans walkRight).trans finish⟩

section Operator

variable {env : Env} {op : BinOp} {lhs rhs : Gen Reg} {x : Int32}
  (writes : rhs.Writes env Reg.IsAnswer) (left : lhs.Evaluates setting x.toBitVec)

include writes left

theorem evaluates_decided {value : Int32} (decides : op.decided? x = some value) :
    (operator op lhs rhs).Evaluates setting value.toBitVec := by
  unfold BinOp.decided? at decides
  split at decides
  · next disjunction =>
    cases decides
    obtain ⟨rfl, nonzero⟩ := disjunction
    exact evaluates_shortCircuit writes left (.inl ⟨by simp [ShortCircuit.decides_or, nonzero], rfl⟩)
  split at decides
  · next conjunction =>
    cases decides
    obtain ⟨rfl, zero⟩ := conjunction
    exact evaluates_shortCircuit writes left (.inl ⟨by simp [ShortCircuit.decides_and, zero], rfl⟩)
  · cases decides

theorem evaluates_operator {y : Int32} (undecided : op.decided? x = none)
    (right : rhs.Evaluates setting y.toBitVec) :
    (operator op lhs rhs).Evaluates setting (op.result x y).toBitVec := by
  by_cases strict : isStrict op = true
  · exact evaluates_strict strict left right
  cases op with
  | or =>
    have zero : x = 0 := by simpa [BinOp.decided?] using undecided
    have joined := @evaluates_shortCircuit setting env .or lhs rhs writes x (ShortCircuit.decides .or y)
      left (.inr ⟨by simp [ShortCircuit.decides_or, zero], y, right, rfl⟩)
    rw [ShortCircuit.result_or] at joined
    have same : BinOp.result .or x y = truth (y ≠ 0) := by simp [BinOp.result, zero]
    rw [same]
    exact joined
  | and =>
    have nonzero : x ≠ 0 := by simpa [BinOp.decided?] using undecided
    have joined := @evaluates_shortCircuit setting env .and lhs rhs writes x
      (ShortCircuit.decides .and y) left
      (.inr ⟨by simp [ShortCircuit.decides_and, nonzero], y, right, rfl⟩)
    rw [ShortCircuit.result_and] at joined
    have same : BinOp.result .and x y = truth (y ≠ 0) := by simp [BinOp.result, nonzero]
    rw [same]
    exact joined
  | _ => exact absurd rfl strict

end Operator

end Gen

end MipsBackend
