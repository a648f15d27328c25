import MipsBackend.Proofs.Activation.Layout

/-!
# Calls are transparent

A run of an allocated function from its first instruction to its return gives the caller all its
registers and all spill slots of the program back, if the functions that it calls do so too. A run of
a function that calls itself meets all that this asks (`Program.run_factored`); without care for the
slots of other sections it is wrong (`Program.not_callTransparent_poking`).
-/

namespace MipsBackend

/-- The activation of a function that is called while the stack pointer is at `top`. -/
def Activation.ofCall (platform : Platform) (slots : List VReg) (saved : SavedState) (space : Nat)
    (top : Word) : Activation :=
  { platform, slots, saved, frame := frameWords top space saved }

theorem runsBody_functionSection {env : Env} {first last : Nat} {name : String} {space : Nat}
    {body : List TextItem} {assignment : Assignment} {activation : Activation}
    (shape : StmtCode env (.epilogue name) none first body last)
    (ready : (functionSection name space body).Ready)
    (saved : activation.saved = assignment.savedState (functionSection name space body))
    (allocatable : assignment.Allocatable)
    (covers : assignment.Covers (functionSection name space body))
    (owned : ∀ virt ∈ assignment.slots (functionSection name space body), virt ∈ activation.slots)
    (separate : activation.Separate)
    (called : ∀ target, .call target ∈
        (assignment.rewritten (functionSection name space body)).instructions →
      ∀ before after, activation.platform.called target before after →
        activation.platform.Transparent activation.slots before after) :
    activation.RunsBody assignment (functionSection name space body)
      (assignment.rewritten (functionSection name space body)) (.epilogue name) body
      (enterCode space ++ activation.saved.save).length
      ((enterCode space ++ activation.saved.save).length +
        instrCount (body.flatMap (assignment.itemCode activation.saved))) where
  saved := saved
  proper := saved ▸ Assignment.proper_savedState allocatable owned
  allocatable := allocatable
  covers := covers
  inside _ member := shape.inBody member
  listed instr member := by
    rw [instructions_functionSection]
    refine List.mem_append_right _ (List.mem_cons_of_mem _ (List.mem_append_left _ ?_))
    exact List.mem_filterMap.2 ⟨_, member, rfl⟩
  level := shape.level
  labelled :=
    ⟨by rw [Assignment.labels_rewritten]; exact (labelled_functionSection shape name space).distinct,
      (Assignment.allocated_rewritten ready covers).ends⟩
  placed := ⟨_, assignment.places_rewritten_functionSection name space body saved⟩
  ends := rfl
  separate := separate
  called := called

/-- Every run of the section from its first instruction on, however it branches, loops and returns,
leaves by the return address that it was called with, and leaves `$ra`, `$sp`, `$fp`, the allocatable
registers and the slots with the values of the call. Of the called functions this asks the same, and
of the body that it spares what belongs to the activation. -/
def Section.CallTransparent (code : Section)
    (spares : Activation → Instr → Machine → Machine → Prop) (slots : List VReg) (saved : SavedState)
    (space start stop : Nat) : Prop :=
  ∀ platform : Platform,
    (∀ label, .call label ∈ code.instructions → ∀ before after,
      platform.called label before after → platform.Transparent slots before after) →
    ∀ (before after : Machine) (target : Word),
      let activation := Activation.ofCall platform slots saved space (before.phys .sp)
      activation.Separate →
      Relation.ReflTransGen (activation.GuardedStep (spares activation) code start stop)
        (.inside 0, before) (.outside target, after) →
      target = before.phys .ra ∧ after.phys .ra = before.phys .ra ∧
        platform.Transparent slots before after

/-- Every function of an allocated program is transparent to its callers, for its own slots and for
any others of the program. -/
theorem Program.activation_transparent {program : Program} {entry : String} {generated : Assembly}
    (generates : program.generate entry = .ok generated) (pass : Pass) {n : Nat} {fn : FunDef}
    (here : program.functions[n]? = some fn) :
    ∃ allocated plan source assignment start stop,
      pass.apply generated = (allocated, .ok ()) ∧
      program.memoryPlan (program.promotion 0).1 = .ok plan ∧
      pass.Rewrites generated allocated (n + 1) source assignment ∧
      (assignment.rewritten source).Framed (plan.spaceOf fn.name) (assignment.savedState source)
        start stop ∧
      ∀ slots, (∀ virt ∈ assignment.slots source, virt ∈ slots) →
        (assignment.rewritten source).CallTransparent Activation.Spares slots
          (assignment.savedState source) (plan.spaceOf fn.name) start stop := by
  obtain ⟨plan, supply, body, planned, -, lowers, placed⟩ := program.section_generate generates here
  have ready := ready_generate generates
  obtain ⟨allocated, applied, -⟩ := pass.apply_ready ready
  obtain ⟨assignment, rewrites⟩ := pass.rewrites ready applied placed
  let source := functionSection fn.name (plan.spaceOf fn.name) body.code
  have framed := assignment.framed_rewritten_functionSection fn.name (plan.spaceOf fn.name) body.code
    rfl
  refine ⟨allocated, plan, source, assignment, _, _, applied, planned, rewrites, framed, ?_⟩
  intro slots owned platform called before after target activation separate run
  have runs : activation.RunsBody assignment source (assignment.rewritten source)
      (.epilogue fn.name) body.code _ _ :=
    runsBody_functionSection lowers.wrote.code (ready _ (List.mem_of_getElem? placed)) rfl
      (Pass.allocatable rewrites.assigned) (Pass.covers rewrites.assigned) owned separate called
  exact runs.transparent rfl rfl framed.enters framed.holds run

/-! ## Computed runs -/

section

variable {activation : Activation} {looks : Instr → Machine → Machine → Bool}
  {spares : Instr → Machine → Machine → Prop} {address : Label → Word} {code : Section}
  {start stop : Nat}

/-- Looks at the steps between start and stop. -/
def Section.guards (looks : Instr → Machine → Machine → Bool) (code : Section) (start stop : Nat) :
    Config → Config → Bool
  | (.outside _, _), _ => true
  | (.inside node, before), (_, after) => node < start || stop ≤ node ||
    code.instructions[node]?.all fun made => looks made before after

theorem Activation.run_of_guards (quiet : activation.platform = .quiet address)
    (sound : ∀ made before after,
      after = before.apply (made.change activation.platform.address before) →
      looks made before after = true → spares made before after)
    {n : Nat} {first last : Config}
    (advances : code.advance (code.guards looks start stop) address n first = some last) :
    Relation.ReflTransGen (activation.GuardedStep spares code start stop) first last := by
  refine Section.run_of_advance (fun here there next guards => ?_) advances
  refine ⟨quiet ▸ Section.step_of_next? next, fun node made inside from_start below listed => ?_⟩
  obtain ⟨point, before⟩ := here
  obtain ⟨succ, after⟩ := there
  obtain rfl : point = .inside node := inside
  obtain ⟨instr, here, rest⟩ := Option.bind_eq_some_iff.1 next
  obtain ⟨point, -, joins⟩ := Option.bind_eq_some_iff.1 rest
  obtain rfl := Option.some.inj (here.symm.trans listed)
  cases joins
  have looked : looks instr before (before.apply (instr.change address before)) = true := by
    simpa [Section.guards, listed, Nat.not_lt.2 from_start, Nat.not_le.2 below] using guards
  exact sound instr before _ (by rw [quiet]; rfl) looked

/-- Whether the instruction stores nothing but a word, apart from the frame and from the slots of
other sections. -/
def Activation.storesAside (activation : Activation) (made : Instr) (before : Machine) : Bool :=
  match made.change activation.platform.address before with
  | .store .sw addr _ => (activation.frame.all fun word => decide (WordsApart word addr)) &&
    activation.slots.all fun virt => decide (virt ∈ activation.saved.slots) ||
      decide (WordsApart (activation.platform.slotAt virt) addr)
  | .store .sb _ _ => false
  | _ => true

theorem Activation.spares_of_storesAside {made : Instr} {before : Machine}
    (aside : activation.storesAside made before = true) :
    activation.Spares made before
      (before.apply (made.change activation.platform.address before)) := by
  unfold storesAside at aside
  split at aside
  · next addr value change =>
    rw [change]
    simp only [Bool.and_eq_true, List.all_eq_true, Bool.or_eq_true, decide_eq_true_eq] at aside
    obtain ⟨frame, slots⟩ := aside
    exact ⟨fun word member => Memory.word_storeWord_of_apart (frame word member),
      fun _ _ _ virt listed free =>
        Memory.word_storeWord_of_apart ((slots virt listed).resolve_left free)⟩
  · cases aside
  · next other =>
    have same : (before.apply (made.change activation.platform.address before)).memory =
        before.memory := by
      cases change : made.change activation.platform.address before with
      | store op => cases op <;> simp_all
      | reg dst => cases dst <;> rfl
      | _ => rfl
    exact ⟨fun _ _ => by rw [same], fun _ _ _ _ _ _ => by rw [same]⟩

/-- Whether the words of the frame and the slots lie apart from each other. -/
def Activation.liesApart (activation : Activation) : Bool :=
  decide (activation.frame.Pairwise WordsApart) &&
    (activation.frame.all fun word => activation.slots.all fun virt =>
      decide (WordsApart word (activation.platform.slotAt virt))) &&
    activation.slots.all fun virt => activation.slots.all fun other => virt = other ||
      decide (WordsApart (activation.platform.slotAt virt) (activation.platform.slotAt other))

theorem Activation.separate_of_liesApart (apart : activation.liesApart = true) :
    activation.Separate := by
  simp only [liesApart, Bool.and_eq_true, List.all_eq_true, Bool.or_eq_true, decide_eq_true_eq]
    at apart
  obtain ⟨⟨stack, between⟩, slots⟩ := apart
  exact ⟨stack, between, fun virt member other listed differ =>
    (slots virt member other listed).resolve_left differ⟩

theorem Platform.transparent_quiet (slots : List VReg) {label : Label} {before after : Machine}
    (called : (Platform.quiet address).called label before after) :
    (Platform.quiet address).Transparent slots before after := by
  obtain rfl : after = before := called
  exact ⟨⟨fun _ _ => rfl, fun _ _ => rfl⟩, rfl, rfl⟩

end

namespace Program

def factorialOf : FunDef :=
  let n : VarDecl := { id := 1, name := "n", ty := .int }
  let one := Expr.ofInt 1
  { name := "factorial", ret := .int, params := [n]
    body :=
      { vars := []
        stmts :=
          [ .branch (.ofOperands .le (.ofDecl n) one) (.ret (some one)) none,
            .ret (some (.ofOperands .mul (.ofDecl n)
              (.call .int "factorial" [.ofOperands .sub (.ofDecl n) one]))) ] } }

/-- Calls itself while an operand of the product waits in a register. -/
def factorial : Program :=
  { decls :=
      [ .funDef factorialOf,
        .funDef
          { name := "main", ret := .int, params := []
            body :=
              { vars := []
                stmts := [ .ret (some (.call .int "factorial" [.ofInt 5])) ] } } ] }

/-- The code of `factorial` before allocation. Generating it takes a whole compilation, which only
computation should look into. -/
@[irreducible]
def factorialSource : Section :=
  ((factorial.generate "main").toOption.bind (·.sections[1]?)).getD { items := [] }

def factored : Section := (Assignment.allSpilled factorialSource.registers).rewritten factorialSource

/-- The slots of the program lie one behind the other. -/
def slotInRow (label : Label) : Word :=
  .ofNat 32 (4096 + 4 * (List.range 15).findIdx fun virt => label = .spill virt)

/-- The argument is two, and the factorial of one lies where the called function would put it.
Registers and slots hold values that the caller may still need. -/
def beforeFactorial : Machine :=
  { phys := fun reg => if reg = .sp then 2147418112 else if reg = .ra then 4194304 else 7
    virt := fun _ => 0
    hi := 0
    lo := 0
    memory := Memory.storeWord (Memory.storeWord (fun _ => 9) 2147418116 2) 2147418044 1 }

def factorialActivation : Activation :=
  .ofCall (.quiet slotInRow) (List.range 15)
    ((Assignment.allSpilled factorialSource.registers).savedState factorialSource) 0
    (beforeFactorial.phys .sp)

theorem separate_factorial : factorialActivation.Separate :=
  Activation.separate_of_liesApart (by decide +kernel)

theorem run_factored : ∃ after,
    Relation.ReflTransGen
      (factorialActivation.GuardedStep factorialActivation.Spares factored 57 138)
      (.inside 0, beforeFactorial) (.outside 4194304, after) ∧
    after.memory.word (beforeFactorial.phys .sp) = 2 := by
  have computed : (factored.advance (factored.guards
      (fun made before _ => factorialActivation.storesAside made before) 57 138) slotInRow 187
      (.inside 0, beforeFactorial)).map (fun last =>
        (last.1, last.2.memory.word (beforeFactorial.phys .sp))) = some (.outside 4194304, 2) := by
    decide +kernel
  obtain ⟨⟨point, after⟩, advances, ends⟩ := Option.map_eq_some_iff.1 computed
  obtain ⟨rfl, product⟩ := Prod.mk.inj ends
  refine ⟨after, Activation.run_of_guards rfl ?_ advances, product⟩
  rintro made before _ rfl aside
  exact Activation.spares_of_storesAside aside

theorem generate_factorial : ∃ generated, factorial.generate "main" = .ok generated ∧
    generated.sections[1]? = some factorialSource := by
  have succeeds : (factorial.generate "main").toBool = true := by decide +kernel
  have listed : ((factorial.generate "main").toOption.bind (·.sections[1]?)).isSome = true := by
    decide +kernel
  obtain ⟨generated, generates⟩ := exists_ok_of_toBool succeeds
  obtain ⟨source, found⟩ := Option.isSome_iff_exists.1 listed
  refine ⟨generated, generates, ?_⟩
  rw [factorialSource, found, Option.getD_some]
  rwa [generates] at found

theorem activation_transparent_factorial :
    ∃ generated, factorial.generate "main" = .ok generated ∧
      factorial.functions[0]? = some factorialOf ∧
      ∃ allocated plan source assignment start stop,
        Pass.naive.apply generated = (allocated, .ok ()) ∧
        factorial.memoryPlan (factorial.promotion 0).1 = .ok plan ∧
        Pass.naive.Rewrites generated allocated 1 source assignment ∧
        (assignment.rewritten source).Framed (plan.spaceOf factorialOf.name)
          (assignment.savedState source) start stop ∧
        (∀ slots, (∀ virt ∈ assignment.slots source, virt ∈ slots) →
          (assignment.rewritten source).CallTransparent Activation.Spares slots
            (assignment.savedState source) (plan.spaceOf factorialOf.name) start stop) ∧
        ∃ after, factorialActivation.Separate ∧
          Relation.ReflTransGen (factorialActivation.GuardedStep factorialActivation.Spares
            (assignment.rewritten source) start stop)
            (.inside 0, beforeFactorial) (.outside (beforeFactorial.phys .ra), after) ∧
          after.memory.word (beforeFactorial.phys .sp) = 2 ∧
          after.phys .ra = beforeFactorial.phys .ra ∧
          (Platform.quiet slotInRow).Transparent (List.range 15) beforeFactorial after := by
  obtain ⟨generated, generates, listed⟩ := generate_factorial
  obtain ⟨allocated, plan, source, assignment, start, stop, applied, planned, rewrites, framed,
    transparent⟩ := activation_transparent generates .naive
      (rfl : factorial.functions[0]? = some factorialOf)
  refine ⟨generated, generates, rfl, allocated, plan, source, assignment, start, stop, applied,
    planned, rewrites, framed, transparent, ?_⟩
  obtain rfl := Option.some.inj (rewrites.before.symm.trans listed)
  obtain rfl := Except.ok.inj rewrites.assigned
  have space : plan.spaceOf factorialOf.name = 0 := by
    have computed : (factorial.memoryPlan (factorial.promotion 0).1).toOption.map
        (·.spaceOf factorialOf.name) = some 0 := by decide +kernel
    rw [planned] at computed
    exact Option.some.inj computed
  rw [space] at framed transparent
  obtain rfl : start = 57 := framed.starts.trans (by decide +kernel)
  obtain rfl : stop = 138 := by
    have count : factored.instructions.length = 194 := by decide +kernel
    have left := congrArg List.length framed.leaves
    have behind : (((Assignment.allSpilled factorialSource.registers).savedState
        factorialSource).restore ++ returnCode).length = 56 := by decide +kernel
    rw [List.length_drop, behind] at left
    have whole : factored.instructions.length - stop = 56 := left
    omega
  obtain ⟨after, run, product⟩ := run_factored
  have owned : ∀ virt ∈ (Assignment.allSpilled factorialSource.registers).slots factorialSource,
      virt ∈ List.range 15 := by
    decide +kernel
  obtain ⟨-, kept, same⟩ := transparent (List.range 15) owned (.quiet slotInRow)
    (fun _ _ _ _ => Platform.transparent_quiet _) beforeFactorial after 4194304 separate_factorial run
  exact ⟨after, separate_factorial, run, product, kept, same⟩

end Program

/-! ## Stores into slots of other functions -/

/-- Asks of the body that it does not write the frame, and lets it store into any slot. -/
def Activation.SparesFrame (activation : Activation) (_ : Instr) (before after : Machine) : Prop :=
  ∀ word ∈ activation.frame, after.memory.word word = before.memory.word word

namespace Program

def pokeOf : FunDef :=
  { name := "poke", ret := .void, params := []
    body :=
      { vars := []
        stmts :=
          [ .eval (.assignment (.valueAt (.cast (.pointer .int) (.ofInt 8192))) (.ofInt 7)) ] } }

/-- While `main` keeps its variable in a slot, it calls a function that stores to some address. -/
def poking : Program :=
  let kept : VarDecl := { id := 1, name := "kept", ty := .int }
  { decls :=
      [ .funDef pokeOf,
        .funDef
          { name := "main", ret := .int, params := []
            body :=
              { vars := [kept]
                stmts :=
                  [ .eval (.assignment (.ofDecl kept) (.ofInt 1)), .eval (.call .void "poke" []),
                    .ret (some (.ofDecl kept)) ] } } ] }

def pokeCode : List TextItem :=
  [ .instr (.loadImm (.virt 1) 7), .instr (.loadImm (.virt 2) 8192),
    .instr (.sw (.virt 1) 0 (.virt 2)) ]

def pokeSource : Section := functionSection "poke" 0 pokeCode

def poked : Section := (Assignment.allSpilled pokeSource.registers).rewritten pokeSource

/-- The slots of `poke` lie one behind the other, and that of the variable where `poke` stores. -/
def slotAddress (label : Label) : Word :=
  if label = .spill 1 then 4096 else if label = .spill 2 then 4100 else 8192

def beforePoke : Machine :=
  { phys := fun reg => if reg = .sp then 2147418112 else 0
    virt := fun _ => 0
    hi := 0
    lo := 0
    memory := fun _ => 0 }

def pokeActivation : Activation :=
  .ofCall (.quiet slotAddress) [0, 1, 2]
    ((Assignment.allSpilled pokeSource.registers).savedState pokeSource) 0 (beforePoke.phys .sp)

theorem separate_poke : pokeActivation.Separate :=
  Activation.separate_of_liesApart (by decide +kernel)

theorem run_poked : ∃ after,
    Relation.ReflTransGen (pokeActivation.GuardedStep pokeActivation.SparesFrame poked 13 24)
      (.inside 0, beforePoke) (.outside 0, after) ∧
    after.memory.word (pokeActivation.platform.slotAt 0) = 7 := by
  have computed : (poked.advance (poked.guards (fun _ before after => pokeActivation.frame.all
      fun word => after.memory.word word = before.memory.word word) 13 24) slotAddress 36
      (.inside 0, beforePoke)).map (fun last =>
        (last.1, last.2.memory.word (pokeActivation.platform.slotAt 0))) = some (.outside 0, 7) := by
    decide +kernel
  obtain ⟨⟨point, after⟩, advances, ends⟩ := Option.map_eq_some_iff.1 computed
  obtain ⟨rfl, stored⟩ := Prod.mk.inj ends
  refine ⟨after, Activation.run_of_guards rfl ?_ advances, stored⟩
  intro _ before after _ spares word member
  exact of_decide_eq_true (List.all_eq_true.1 spares word member)

theorem framed_poked : poked.Framed 0
    ((Assignment.allSpilled pokeSource.registers).savedState pokeSource) 13 24 := by
  let assignment := Assignment.allSpilled pokeSource.registers
  let saved := assignment.savedState pokeSource
  have start : (enterCode 0 ++ saved.save).length = 13 := by decide +kernel
  have count : instrCount (pokeCode.flatMap (assignment.itemCode saved)) = 11 := by decide +kernel
  have framed : poked.Framed 0 saved (enterCode 0 ++ saved.save).length
      ((enterCode 0 ++ saved.save).length +
        instrCount (pokeCode.flatMap (assignment.itemCode saved))) :=
    assignment.framed_rewritten_functionSection "poke" 0 pokeCode rfl
  rwa [count, start] at framed

theorem generate_poking : ∃ generated, poking.generate "main" = .ok generated ∧
    generated.sections[1]? = some pokeSource ∧
    ∀ virt ∈ [0, 1, 2], .label (.spill virt) ∈ (Pass.naive.apply generated).1.data := by
  have succeeds : (poking.generate "main").toBool = true := by decide +kernel
  have code : (poking.generate "main").toOption.bind (·.sections[1]?) = some pokeSource := by
    decide +kernel
  have data : ((poking.generate "main").toOption.all fun generated => [0, 1, 2].all fun virt =>
      .label (.spill virt) ∈ (Pass.naive.apply generated).1.data) = true := by decide +kernel
  obtain ⟨generated, generates⟩ := exists_ok_of_toBool succeeds
  rw [generates] at code data
  rw [Except.toOption, Option.all_some] at data
  exact ⟨generated, generates, code,
    fun virt member => of_decide_eq_true (List.all_eq_true.1 data virt member)⟩

theorem memoryPlan_poking : ∃ plan,
    poking.memoryPlan (poking.promotion 0).1 = .ok plan ∧ plan.spaceOf pokeOf.name = 0 := by
  have succeeds : (poking.memoryPlan (poking.promotion 0).1).toBool = true := by decide +kernel
  have space : (poking.memoryPlan (poking.promotion 0).1).toOption.map (·.spaceOf pokeOf.name) =
      some 0 := by decide +kernel
  obtain ⟨plan, planned⟩ := exists_ok_of_toBool succeeds
  rw [planned] at space
  exact ⟨plan, planned, Option.some.inj space⟩

/-- A function that spares its frame may still change a slot of the program. -/
theorem not_callTransparent_poking :
    ∃ generated allocated plan source assignment start stop,
      poking.generate "main" = .ok generated ∧ poking.functions[0]? = some pokeOf ∧
      Pass.naive.apply generated = (allocated, .ok ()) ∧
      poking.memoryPlan (poking.promotion 0).1 = .ok plan ∧
      Pass.naive.Rewrites generated allocated 1 source assignment ∧
      (assignment.rewritten source).Framed (plan.spaceOf pokeOf.name) (assignment.savedState source)
        start stop ∧
      (∀ virt ∈ [0, 1, 2], .label (.spill virt) ∈ allocated.data) ∧
      ¬ (assignment.rewritten source).CallTransparent Activation.SparesFrame [0, 1, 2]
        (assignment.savedState source) (plan.spaceOf pokeOf.name) start stop := by
  obtain ⟨generated, generates, placed, slots⟩ := generate_poking
  obtain ⟨plan, planned, space⟩ := memoryPlan_poking
  have ready := ready_generate generates
  obtain ⟨allocated, applied, -⟩ := Pass.naive.apply_ready ready
  obtain ⟨assignment, rewrites⟩ := Pass.naive.rewrites ready applied placed
  obtain rfl := Except.ok.inj rewrites.assigned
  rw [applied] at slots
  refine ⟨generated, allocated, plan, pokeSource, _, 13, 24, generates, rfl, applied, planned,
    rewrites, space ▸ framed_poked, slots, fun transparent => ?_⟩
  rw [space] at transparent
  obtain ⟨after, run, stored⟩ := run_poked
  have kept := (transparent (.quiet slotAddress) (fun _ _ _ _ => Platform.transparent_quiet _)
    beforePoke after 0 separate_poke run).2.2.word 0 (by decide)
  exact absurd (stored.symm.trans kept) (by decide)

end Program

end MipsBackend
