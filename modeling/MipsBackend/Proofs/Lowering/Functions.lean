import MipsBackend.Proofs.Lowering.Labels

/-!
# Sections of functions

The generated program has a section for each function, behind the entry code and in the order of the
functions. It consists of the prologue, the code of the body between the two markers, and the
epilogue.
-/

namespace MipsBackend

/-- The section of a function that reserves `space` bytes for its local variables. -/
def functionSection (name : String) (space : Nat) (body : List TextItem) : Section :=
  { items := functionItems name ((enterCode space).map .instr) body }

def leaveCode : List Instr :=
  [.marker .restore, .arithImm .addiu .sp .fp 4, .lw .ra (-4) .fp, .lw .fp 0 .fp, .jumpReg .ra]

/-- The body of a function's section lies between the marker that saves registers and the epilogue. -/
structure Section.HasBody (code : Section) (name : String) (start stop : Nat) : Prop where
  saved : ∃ entered, start = entered + 1 ∧ code.instructions[entered]? = some (.marker .save)
  ended : labelledNode? (.epilogue name) 0 code.items = some stop

section Layout

variable (name : String) (space : Nat) (body : List TextItem)

theorem places_functionSection :
    (functionSection name space body).Places (enterCode space).length
      (.instr (.marker .save) :: (body ++ .label (.epilogue name) :: leaveCode.map .instr)) :=
  ⟨.label (.function name) :: (enterCode space).map .instr, [],
    by simp [functionSection, functionItems, leaveCode], by simp⟩

theorem instructions_functionSection :
    (functionSection name space body).instructions =
      enterCode space ++ .marker .save :: (body.filterMap TextItem.instr? ++ leaveCode) := by
  have enter : ((enterCode space).map TextItem.instr).filterMap TextItem.instr? = enterCode space :=
    Section.instructions_map (enterCode space)
  simp only [Section.instructions, functionSection, functionItems, leaveCode, List.cons_append,
    List.nil_append, List.append_assoc, List.filterMap_cons, List.filterMap_append,
    List.filterMap_nil, enter, TextItem.instr?]

theorem unbranched_functionSection {node : Nat} {instr : Instr}
    (behind : (enterCode space).length + 1 + instrCount body ≤ node)
    (here : (functionSection name space body).instructions[node]? = some instr) :
    instr.branchTarget? = none := by
  have bound :
      (enterCode space ++ [Instr.marker .save] ++ body.filterMap TextItem.instr?).length ≤ node := by
    rw [List.length_append, List.length_append, List.length_singleton]
    exact behind
  rw [instructions_functionSection, List.append_cons, ← List.append_assoc,
    List.getElem?_append_right bound] at here
  have last := List.mem_of_getElem? here
  simp only [leaveCode, List.mem_cons, List.not_mem_nil, or_false] at last
  rcases last with rfl | rfl | rfl | rfl | rfl <;> rfl

end Layout

namespace Env

/-- Where a run of the supply lowers the body of a function. -/
def LowersBody (env : Env) (fn : FunDef) (supply : Supply) (body : Generated Unit) : Prop :=
  (Stmt.lowerAll env (.epilogue fn.name) none fn.body.stmts).run supply = .ok body

theorem run_enterFrame_code {space : Nat} {supply : Supply} {generated : Generated Unit}
    (runs : (enterFrame space).run supply = .ok generated) :
    generated.supply = supply ∧
      generated.code = (enterCode space).map .instr ++ [.instr (.marker .save)] := by
  obtain ⟨_, _, pushes, rest, rfl⟩ := Gen.run_bind.1 runs
  cases pushes
  obtain ⟨_, _, reserves, marks, rfl⟩ := Gen.run_bind.1 rest
  have kept := Gen.run_reserve_supply reserves
  cases marks
  refine ⟨kept, ?_⟩
  simp only [Gen.run_reserve reserves, enterCode, List.map_append, List.append_assoc, List.map_cons,
    List.map_nil]

theorem run_lowerFunction_body {env : Env} {fn : FunDef} {supply : Supply}
    {generated : Generated Unit} (runs : (env.lowerFunction fn).run supply = .ok generated) :
    ∃ body, env.LowersBody fn supply body ∧ generated.supply = body.supply ∧
      { items := generated.code } =
        functionSection fn.name (env.plan.spaceOf fn.name) body.code := by
  obtain ⟨_, _, named, runsFrame, rfl⟩ := Gen.run_bind.1 runs
  cases named
  obtain ⟨entered, _, enters, runsBody, rfl⟩ := Gen.run_bind.1 runsFrame
  obtain ⟨kept, code⟩ := run_enterFrame_code enters
  obtain ⟨body, _, lowers, runsEnd, rfl⟩ := Gen.run_bind.1 runsBody
  rw [kept] at lowers
  obtain ⟨_, _, labelled, leaves, rfl⟩ := Gen.run_bind.1 runsEnd
  cases labelled
  cases leaves
  refine ⟨body, lowers, rfl, ?_⟩
  simp only [code, functionSection, functionItems, List.map_cons, List.map_nil, List.cons_append,
    List.nil_append, List.append_assoc]

theorem LowersBody.wrote {env : Env} {fn : FunDef} {supply : Supply} {body : Generated Unit}
    (lowers : env.LowersBody fn supply body) :
    Stmt.Wrote env (.epilogue fn.name) none supply body :=
  Stmt.writes_lowerAll env _ none fn.body.stmts supply body lowers

theorem lowerFunctions_getElem? {env : Env} {functions : List FunDef} {supply : Supply}
    {sections : List Section} (lowers : env.lowerFunctions supply functions = .ok sections) {n : Nat}
    {fn : FunDef} (here : functions[n]? = some fn) :
    ∃ start body, supply.nextReg ≤ start.nextReg ∧ env.LowersBody fn start body ∧
      sections[n]? = some (functionSection fn.name (env.plan.spaceOf fn.name) body.code) := by
  induction functions generalizing supply sections n with
  | nil => cases here
  | cons first rest ih =>
    obtain ⟨generated, runs, walks⟩ := bind_eq_ok.1 lowers
    obtain ⟨later, others, joins⟩ := bind_eq_ok.1 walks
    cases joins
    obtain ⟨body, own, behind, whole⟩ := run_lowerFunction_body runs
    cases n with
    | zero =>
      cases here
      exact ⟨supply, body, Nat.le_refl _, own, congrArg some whole⟩
    | succ n =>
      obtain ⟨start, found, grown, lowers, placed⟩ := ih others here
      rw [behind] at grown
      exact ⟨start, found, own.wrote.regs.trans grown, lowers, placed⟩

end Env

theorem labelled_functionSection {env : Env} {epilogue : Label} {labels : Option LoopLabels}
    {first last : Nat} {body : List TextItem}
    (shape : StmtCode env epilogue labels first body last) (name : String) (space : Nat) :
    (functionSection name space body).Labelled :=
  labelled_functionItems shape.numbered

/-- The environment that the functions of a program are lowered in. -/
def Program.env (program : Program) (plan : MemoryPlan) : Env :=
  .ofProgram program (program.promotion 0).1 plan

/-- The library functions that the generated program brings along. -/
def Program.stubs (program : Program) : List Service :=
  Service.all.filter fun service => !program.defines service.name

namespace Program

variable {program : Program} {plan : MemoryPlan} {name : String}

theorem defines_iff : program.defines name = true ↔ ∃ fn ∈ program.functions, fn.name = name := by
  simp [defines]

theorem service?_env : (program.env plan).service? name =
    if program.defines name = true then none else Service.ofName? name := by
  rw [Env.service?]
  simp only [env, Env.ofProgram, List.mem_map, defines_iff]

theorem mem_stubs_iff {service : Service} :
    service ∈ program.stubs ↔ program.defines service.name = false := by
  have listed : service ∈ Service.all := by cases service <;> decide
  simp [stubs, listed]

theorem section_generate {entry : String} {generated : Assembly}
    (generates : program.generate entry = .ok generated) {n : Nat} {fn : FunDef}
    (here : program.functions[n]? = some fn) :
    ∃ plan supply body, program.memoryPlan (program.promotion 0).1 = .ok plan ∧
      (program.promotion 0).2 ≤ supply.nextReg ∧ (program.env plan).LowersBody fn supply body ∧
      generated.sections[n + 1]? =
        some (functionSection fn.name (plan.spaceOf fn.name) body.code) := by
  obtain ⟨plan, functions, planned, lowers, rfl⟩ := generate_eq_ok generates
  obtain ⟨supply, body, grown, own, placed⟩ := Env.lowerFunctions_getElem? lowers here
  refine ⟨plan, supply, body, planned, grown, own, ?_⟩
  have bound := (List.getElem?_eq_some_iff.1 placed).1
  rw [List.cons_append, List.getElem?_cons_succ, List.getElem?_append_left bound]
  exact placed

end Program

end MipsBackend
