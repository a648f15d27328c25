import MipsBackend.Lowering.Program
import MipsBackend.Proofs.Assignment.Expansion
import MipsBackend.Proofs.Lowering.Bodies

/-!
# Generated sections

Every section of a generated program is ready for allocation: its markers are well placed, its
branches go to labels of its own, and its last item is an instruction, which all labels stand
before.
-/

namespace MipsBackend

/-- What allocation needs to find in a section. -/
structure Section.Ready (code : Section) : Prop where
  marked : code.checkMarkers = .ok ()
  targets : ∀ instr ∈ code.instructions, ∀ target, instr.branchTarget? = some target →
    target ∈ code.labels
  ends : ∃ before last, code.items = before ++ [.instr last] ∧ last.marker? = none

/-! ## Functions -/

/-- The code of a function around its body. -/
def functionItems (name : String) (enter body : List TextItem) : List TextItem :=
  .label (.function name) :: enter ++ [.instr (.marker .save)] ++ body ++
    [.label (.epilogue name), .instr (.marker .restore),
      .instr (.arithImm .addiu .sp .fp 4), .instr (.lw .ra (-4) .fp), .instr (.lw .fp 0 .fp),
      .instr (.jumpReg .ra)]

theorem run_enterFrame {localSpace : Nat} {supply : Supply} {generated : Generated Unit}
    (runs : (enterFrame localSpace).run supply = .ok generated) :
    ∃ enter, Fragment [] enter ∧ generated.code = enter ++ [.instr (.marker .save)] := by
  obtain ⟨first, later, pushes, rest, rfl⟩ := Gen.run_bind.1 runs
  obtain ⟨second, marks, reserves, marked, rfl⟩ := Gen.run_bind.1 rest
  cases marked
  refine ⟨first.code ++ second.code, .append ?_ ?_, (List.append_assoc ..).symm⟩
  · refine Gen.fragments_emit ?_ _ _ pushes
    simp [Gen.Fits, Instr.adjustStack, Instr.sw, Instr.marker?, Instr.branchTarget?]
  · exact Gen.fragments_reserve localSpace _ _ reserves

theorem Env.run_lowerFunction {env : Env} {fn : FunDef} {supply : Supply}
    {generated : Generated Unit} (runs : (env.lowerFunction fn).run supply = .ok generated) :
    ∃ enter body, Fragment [] enter ∧ Fragment [.epilogue fn.name] body ∧
      generated.code = functionItems fn.name enter body := by
  obtain ⟨_, _, named, runsFrame, rfl⟩ := Gen.run_bind.1 runs
  cases named
  obtain ⟨entered, _, enters, runsBody, rfl⟩ := Gen.run_bind.1 runsFrame
  obtain ⟨enter, plain, same⟩ := run_enterFrame enters
  obtain ⟨body, _, lowers, runsEnd, rfl⟩ := Gen.run_bind.1 runsBody
  obtain ⟨_, _, labelled, leaves, rfl⟩ := Gen.run_bind.1 runsEnd
  cases labelled
  cases leaves
  refine ⟨enter, body.code, plain, ?_, ?_⟩
  · exact Stmt.fragments_lowerAll env _ none fn.body.stmts _ _ lowers
  · simp only [same, functionItems, List.map_cons, List.map_nil, List.cons_append,
      List.nil_append, List.append_assoc]

theorem markers_append (first second : List TextItem) :
    Section.markers { items := first ++ second } =
      Section.markers { items := first } ++ Section.markers { items := second } := by
  simp only [Section.markers, Section.instructions, List.filterMap_append]

theorem Fragment.markers_eq_nil {outer : List Label} {code : List TextItem}
    (fragment : Fragment outer code) : Section.markers { items := code } = [] := by
  rw [Section.markers, List.filterMap_eq_nil_iff]
  intro instr member
  exact fragment.unmarked instr (Section.mem_instructions.1 member)

theorem markers_functionItems {name : String} {enter body : List TextItem}
    (plain : Section.markers { items := enter } = [])
    (clean : Section.markers { items := body } = []) :
    Section.markers { items := functionItems name enter body } = [.save, .restore] := by
  unfold functionItems
  rw [markers_append, markers_append, markers_append, clean]
  have first : Section.markers { items := .label (.function name) :: enter } = [] := plain
  rw [first]
  rfl

theorem ready_functionItems {name : String} {enter body : List TextItem}
    (plain : Fragment [] enter) (inside : Fragment [.epilogue name] body) :
    Section.Ready { items := functionItems name enter body } where
  marked := by
    rw [Section.checkMarkers, markers_functionItems plain.markers_eq_nil inside.markers_eq_nil]
  targets := by
    intro instr member target branches
    rw [Section.mem_instructions] at member
    rw [Section.mem_labels]
    simp only [functionItems, List.mem_append, List.mem_cons, TextItem.instr.injEq, reduceCtorEq,
      List.not_mem_nil, false_or, or_false] at member ⊢
    rcases member with ((entering | rfl) | running) | rfl | rfl | rfl | rfl | rfl
    · rcases plain.targets instr target entering branches with known | own
      · cases known
      · exact .inl (.inl (.inr own))
    · cases branches
    · rcases inside.targets instr target running branches with known | own
      · exact .inr (congrArg TextItem.label (List.mem_singleton.1 known))
      · exact .inl (.inr own)
    all_goals cases branches
  ends := ⟨.label (.function name) :: enter ++ [.instr (.marker .save)] ++ body ++
    [.label (.epilogue name), .instr (.marker .restore),
      .instr (.arithImm .addiu .sp .fp 4), .instr (.lw .ra (-4) .fp), .instr (.lw .fp 0 .fp)],
    .jumpReg .ra, by simp [functionItems], rfl⟩

/-! ## Programs -/

theorem ready_entrySection (entry : String) : (entrySection entry).Ready where
  marked := rfl
  targets := by
    intro instr member target branches
    simp only [entrySection, Section.mem_instructions, List.mem_cons, TextItem.instr.injEq,
      reduceCtorEq, List.not_mem_nil, false_or, or_false] at member
    rcases member with rfl | rfl | rfl <;> cases branches
  ends := ⟨[.label .start, .instr (.call (.function entry)), .instr (.loadImm .v0 Service.exitCode)],
    .syscall, rfl, rfl⟩

theorem ready_stub (service : Service) : service.stub.Ready where
  marked := rfl
  targets := by
    intro instr member target branches
    simp only [Service.stub, Section.mem_instructions, List.mem_cons, TextItem.instr.injEq,
      reduceCtorEq, List.not_mem_nil, false_or, or_false] at member
    rcases member with rfl | rfl | rfl <;> cases branches
  ends := ⟨[.label (.function service.name), .instr (.loadImm .v0 service.code), .instr .syscall],
    .jumpReg .ra, rfl, rfl⟩

theorem Env.ready_lowerFunctions {env : Env} {functions : List FunDef} {supply : Supply}
    {sections : List Section} (lowers : env.lowerFunctions supply functions = .ok sections) :
    ∀ code ∈ sections, code.Ready := by
  induction functions generalizing supply sections with
  | nil =>
    cases lowers
    exact fun _ member => nomatch member
  | cons fn rest ih =>
    obtain ⟨generated, first, walks⟩ := bind_eq_ok.1 lowers
    obtain ⟨later, others, joins⟩ := bind_eq_ok.1 walks
    cases joins
    obtain ⟨enter, body, plain, inside, same⟩ := run_lowerFunction first
    intro code member
    rcases List.mem_cons.1 member with rfl | listed
    · rw [same]
      exact ready_functionItems plain inside
    · exact ih others code listed

theorem Program.generate_eq_ok {program : Program} {entry : String} {generated : Assembly}
    (generates : program.generate entry = .ok generated) :
    ∃ plan functions, program.memoryPlan (program.promotion 0).1 = .ok plan ∧
      (Env.ofProgram program (program.promotion 0).1 plan).lowerFunctions
        { nextReg := (program.promotion 0).2, nextLabel := 0 } program.functions = .ok functions ∧
      generated =
        { data := plan.data
          sections := entrySection entry :: functions ++
            (Service.all.filter fun service => !program.defines service.name).map Service.stub } := by
  obtain ⟨plan, planned, lowering⟩ := bind_eq_ok.1 generates
  split at lowering
  · obtain ⟨functions, lowers, joins⟩ := bind_eq_ok.1 lowering
    exact ⟨plan, functions, planned, lowers, (Except.ok.inj joins).symm⟩
  · cases lowering

theorem Program.ready_generate {program : Program} {entry : String} {generated : Assembly}
    (generates : program.generate entry = .ok generated) :
    ∀ code ∈ generated.sections, code.Ready := by
  obtain ⟨plan, functions, -, lowers, rfl⟩ := generate_eq_ok generates
  intro code member
  rcases List.mem_append.1 member with first | stubs
  · rcases List.mem_cons.1 first with rfl | listed
    · exact ready_entrySection entry
    · exact Env.ready_lowerFunctions lowers code listed
  · obtain ⟨service, -, rfl⟩ := List.mem_map.1 stubs
    exact ready_stub service

end MipsBackend
