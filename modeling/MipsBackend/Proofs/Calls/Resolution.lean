import MipsBackend.Proofs.Calls.Sites
import MipsBackend.Proofs.Linking
import MipsBackend.Proofs.Tables

/-!
# Where calls go

A jump to a function reaches code that expects the convention of the caller: a stub of a library
function if the caller passes registers, and a function of the program otherwise
(`Program.calls_resolved`). The only functions that may be missing from the generated program are
those that the source declares without defining them.
-/

namespace MipsBackend

theorem Service.ofName?_eq_some_iff {service : Service} {name : String} :
    ofName? name = some service ↔ service.name = name := by
  constructor
  · intro found
    simpa using List.find?_some found
  · rintro rfl
    cases service <;> rfl

/-- Who jumps to a function. -/
inductive Origin where
  | entry
  | call (convention : Convention)
deriving DecidableEq, Repr

namespace Program

/-- The jump to a function between two parts of a section of the generated program. -/
inductive Jump (program : Program) (plan : MemoryPlan) (entry : String) :
    Origin → String → Section → List TextItem → List TextItem → Prop
  | entry {before after : List TextItem} :
      Jump program plan entry .entry entry (entrySection entry) before after
  | call {fn : FunDef} {supply : Supply} {body : Generated Unit} {name : String}
      {convention : Convention} {before after : List TextItem} (defined : fn ∈ program.functions)
      (lowers : (program.env plan).LowersBody fn supply body)
      (site : (program.env plan).Site fn.body.exprs name convention before after) :
      Jump program plan entry (.call convention) name
        (functionSection fn.name (plan.spaceOf fn.name) body.code) before after

/-- The generated program contains a library function of the name. -/
def BringsAlong (program : Program) (name : String) : Prop :=
  ∃ service ∈ program.stubs, service.name = name

/-- The program declares a function that neither it nor the library defines. -/
structure Omits (program : Program) (name : String) : Prop where
  declared : name ∈ program.signatures.map FunDecl.name
  undefined : program.defines name = false
  foreign : Service.ofName? name = none

/-- A jump to a function leads to a section that expects its origin. It leads nowhere only if the
source omits the function. -/
structure Resolves (program : Program) (sections functions : List Section) (origin : Origin)
    (name : String) : Prop where
  exists_home : (∃ home ∈ sections, .function name ∈ home.labels) ∨
    origin = .call .stack ∧ program.Omits name
  library : ∀ home ∈ sections, .function name ∈ home.labels →
    (home ∈ program.stubs.map Service.stub ↔ origin = .call .registers)
  own : ∀ home ∈ sections, .function name ∈ home.labels →
    (home ∈ functions ↔ origin = .call .stack ∨ origin = .entry)

variable {program : Program} {plan : MemoryPlan} {entry name : String}

/-! ## Names of functions -/

theorem not_bringsAlong (defined : program.defines name = true) : ¬ program.BringsAlong name := by
  rintro ⟨service, listed, rfl⟩
  rw [mem_stubs_iff.1 listed] at defined
  cases defined

theorem bringsAlong_iff (undefined : program.defines name = false) :
    program.BringsAlong name ↔ Service.ofName? name ≠ none := by
  rw [Option.ne_none_iff_exists']
  constructor
  · rintro ⟨service, -, same⟩
    exact ⟨service, Service.ofName?_eq_some_iff.2 same⟩
  · rintro ⟨service, found⟩
    obtain rfl := Service.ofName?_eq_some_iff.1 found
    exact ⟨service, mem_stubs_iff.2 undefined, rfl⟩

theorem convention_env : (program.env plan).convention name = .registers ↔
    program.BringsAlong name := by
  cases found : program.defines name with
  | true => simp [Env.convention, service?_env, found, not_bringsAlong found]
  | false => simp [Env.convention, service?_env, found, bringsAlong_iff found]

/-! ## Sections that define functions -/

theorem function_mem_labels {fn : FunDef} {supply : Supply} {body : Generated Unit} {space : Nat}
    (lowers : (program.env plan).LowersBody fn supply body) :
    .function name ∈ (functionSection fn.name space body.code).labels ↔ fn.name = name := by
  rw [functionSection, labels_functionItems, List.mem_cons, List.mem_append, List.mem_singleton,
    Label.function_injective.eq_iff]
  constructor
  · rintro (same | inside | ends)
    · exact same.symm
    · obtain ⟨number, -, -, branches⟩ := lowers.wrote.code.numbered.within _ inside
      exact absurd branches.opening (by rw [Label.opening_function]; decide)
    · have clash := congrArg Label.opening ends
      rw [Label.opening_function, Label.opening_epilogue] at clash
      exact absurd clash (by decide)
  · exact fun same => .inl same.symm

theorem function_mem_stub {service : Service} :
    .function name ∈ service.stub.labels ↔ service.name = name := by
  have labels : service.stub.labels = [.function service.name] := rfl
  rw [labels, List.mem_singleton, Label.function_injective.eq_iff, eq_comm]

theorem bringsAlong_of_home {home : Section} (stub : home ∈ program.stubs.map Service.stub)
    (labelled : .function name ∈ home.labels) : program.BringsAlong name := by
  obtain ⟨service, listed, rfl⟩ := List.mem_map.1 stub
  exact ⟨service, listed, function_mem_stub.1 labelled⟩

theorem function_not_mem_entrySection : .function name ∉ (entrySection entry).labels := by
  have labels : (entrySection entry).labels = [.start] := rfl
  rw [labels, List.mem_singleton]
  intro same
  have clash := congrArg Label.opening same
  rw [Label.opening_function, Label.opening_start] at clash
  exact absurd clash (by decide)

section

variable {supply : Supply} {functions : List Section}
  (lowers : (program.env plan).lowerFunctions supply program.functions = .ok functions)

include lowers

theorem defines_of_home {home : Section} (member : home ∈ functions)
    (labelled : .function name ∈ home.labels) : program.defines name = true := by
  obtain ⟨fn, defined, _, _, lowersBody, rfl⟩ := Env.mem_lowerFunctions lowers member
  exact defines_iff.2 ⟨fn, defined, (function_mem_labels lowersBody).1 labelled⟩

theorem exists_home_of_defines (defined : program.defines name = true) :
    ∃ home ∈ functions, .function name ∈ home.labels := by
  obtain ⟨fn, listed, same⟩ := defines_iff.1 defined
  obtain ⟨n, here⟩ := List.getElem?_of_mem listed
  obtain ⟨_, body, -, lowersBody, placed⟩ := Env.lowerFunctions_getElem? lowers here
  exact ⟨_, List.mem_of_getElem? placed, (function_mem_labels lowersBody).2 same⟩

theorem home_cases {home : Section}
    (member : home ∈ entrySection entry :: functions ++ program.stubs.map Service.stub)
    (labelled : .function name ∈ home.labels) :
    home ∈ functions ∧ program.defines name = true ∨
      home ∈ program.stubs.map Service.stub ∧ program.BringsAlong name := by
  rcases List.mem_append.1 member with first | stub
  · rcases List.mem_cons.1 first with rfl | own
    · exact absurd labelled function_not_mem_entrySection
    · exact .inl ⟨own, defines_of_home lowers own labelled⟩
  · exact .inr ⟨stub, bringsAlong_of_home stub labelled⟩

end

/-! ## Jumps -/

theorem Jump.registers_iff {origin : Origin} {code : Section} {before after : List TextItem}
    (jump : program.Jump plan entry origin name code before after)
    (enters : program.defines entry = true) :
    origin = .call .registers ↔ program.BringsAlong name := by
  cases jump with
  | entry => exact iff_of_false nofun (not_bringsAlong enters)
  | call defined lowers site => rw [Origin.call.injEq, ← site.chosen, convention_env]

theorem Jump.resolves {origin : Origin} {code : Section} {before after : List TextItem}
    {supply : Supply} {functions : List Section}
    (jump : program.Jump plan entry origin name code before after)
    (enters : program.defines entry = true)
    (lowers : (program.env plan).lowerFunctions supply program.functions = .ok functions) :
    program.Resolves (entrySection entry :: functions ++ program.stubs.map Service.stub) functions
      origin name := by
  have registers := jump.registers_iff enters
  have others : origin = .call .stack ∨ origin = .entry ↔ origin ≠ .call .registers := by
    cases origin with
    | entry => simp
    | call convention => cases convention <;> simp
  refine ⟨?_, fun home member labelled => ?_, fun home member labelled => ?_⟩
  · cases found : program.defines name with
    | true =>
      obtain ⟨home, own, labelled⟩ := exists_home_of_defines lowers found
      exact .inl ⟨home, List.mem_append_left _ (List.mem_cons_of_mem _ own), labelled⟩
    | false =>
      cases jump with
      | entry =>
        rw [found] at enters
        cases enters
      | @call _ _ _ _ convention _ _ _ _ site =>
        cases convention with
        | registers =>
          obtain ⟨service, listed, same⟩ := registers.1 rfl
          exact .inl ⟨service.stub, List.mem_append_right _ (List.mem_map_of_mem listed),
            function_mem_stub.2 same⟩
        | stack =>
          -- The size of the arguments is taken from a signature, so there is one.
          obtain ⟨chosen, _, _, _, _, -, passes, -, -⟩ := site
          refine .inr ⟨rfl, ?_, found, ?_⟩
          · cases passes with
            | stack signed => exact Env.declared_of_signature signed
          · simpa [Env.convention, service?_env, found] using chosen
  · rw [registers]
    rcases home_cases lowers member labelled with ⟨own, defined⟩ | ⟨stub, library⟩
    · refine iff_of_false (fun stub => not_bringsAlong defined ?_) (not_bringsAlong defined)
      exact bringsAlong_of_home stub labelled
    · exact iff_of_true stub library
  · rw [others, ne_eq, registers]
    rcases home_cases lowers member labelled with ⟨own, defined⟩ | ⟨stub, library⟩
    · exact iff_of_true own (not_bringsAlong defined)
    · refine iff_of_false (fun own => ?_) (not_not_intro library)
      exact not_bringsAlong (defines_of_home lowers own labelled) library

end Program

theorem Env.sited_functionSection {env : Env} {nodes : List Expr} {body : List TextItem}
    (sited : env.Sited nodes body) (name : String) (space : Nat) :
    env.Sited nodes (functionSection name space body).items := by
  have enter : (enterCode space ++ [Instr.marker .save]).all (!·.isCall) = true := by
    rw [enterCode, List.all_append, List.all_append, uncalling_reserveCode]
    rfl
  have front : env.Sited nodes ([.label (.function name)] ++
      (enterCode space ++ [Instr.marker .save]).map .instr) :=
    .append (Compositional.uncalling _ fun _ member => by simp at member) (Gen.holds_instrs enter)
  have back : env.Sited nodes ([.label (.epilogue name)] ++ leaveCode.map .instr) :=
    .append (Compositional.uncalling _ fun _ member => by simp at member) (Gen.holds_instrs rfl)
  have whole := (front.append sited).append back
  rwa [List.map_append] at whole

namespace Program

variable {program : Program} {entry : String} {generated : Assembly}

theorem defines_entry (generates : program.generate entry = .ok generated) :
    program.defines entry = true := by
  obtain ⟨plan, -, lowering⟩ := bind_eq_ok.1 generates
  split at lowering
  · assumption
  · cases lowering

theorem exists_jump {plan : MemoryPlan} {supply : Supply} {functions : List Section}
    (lowers : (program.env plan).lowerFunctions supply program.functions = .ok functions)
    {code : Section}
    (member : code ∈ entrySection entry :: functions ++ program.stubs.map Service.stub)
    {before after : List TextItem} {target : Label}
    (split : code.items = before ++ .instr (.call target) :: after) :
    ∃ name, target = .function name ∧
      ∃ origin, program.Jump plan entry origin name code before after := by
  have calls : .instr (.call target) ∈ code.items :=
    split ▸ List.mem_append_right _ List.mem_cons_self
  rcases List.mem_append.1 member with first | stub
  · rcases List.mem_cons.1 first with rfl | own
    · refine ⟨entry, ?_, .entry, .entry⟩
      simpa [entrySection] using calls
    · obtain ⟨fn, defined, _, body, lowersBody, rfl⟩ := Env.mem_lowerFunctions lowers own
      obtain ⟨name, convention, named, site⟩ :=
        Env.sited_functionSection (Env.sited_lowerAll lowersBody) _ _ _ _ _ split
      exact ⟨name, named, .call convention, .call defined lowersBody site⟩
  · obtain ⟨service, -, rfl⟩ := List.mem_map.1 stub
    simp [Service.stub] at calls

/-- Every jump to a function comes from the entry code or from a call in the source, and leads to a
section of the kind that its origin expects. Only a function that the source omits may be missing. -/
theorem calls_resolved (generates : program.generate entry = .ok generated) :
    ∃ plan functions, program.memoryPlan (program.promotion 0).1 = .ok plan ∧
      (program.env plan).lowerFunctions { nextReg := (program.promotion 0).2, nextLabel := 0 }
        program.functions = .ok functions ∧
      generated.sections = entrySection entry :: functions ++ program.stubs.map Service.stub ∧
      ∀ code ∈ generated.sections, ∀ before target after,
        code.items = before ++ .instr (.call target) :: after → ∃ name, target = .function name ∧
          (∃ origin, program.Jump plan entry origin name code before after) ∧
          ∀ origin, program.Jump plan entry origin name code before after →
            program.Resolves generated.sections functions origin name := by
  have enters := defines_entry generates
  obtain ⟨plan, functions, planned, lowers, rfl⟩ := generate_eq_ok generates
  refine ⟨plan, functions, planned, lowers, rfl, fun code member before target after split => ?_⟩
  obtain ⟨name, named, origin, jump⟩ := exists_jump lowers member split
  exact ⟨name, named, ⟨origin, jump⟩, fun origin jump => jump.resolves enters lowers⟩

/-- Calls of library functions, of a function that is defined later, and of one that takes the place
of a library function. -/
def relaying : Program :=
  let value : VarDecl := { id := 1, name := "value", ty := .int }
  let letter : VarDecl := { id := 2, name := "letter", ty := .char }
  let given : VarDecl := { id := 3, name := "given", ty := .int }
  { decls :=
      [ .funDecl { name := "read_i", ret := .int, params := [] },
        .funDecl { name := "print_i", ret := .void, params := [value] },
        .funDef
          { name := "print_c", ret := .void, params := [letter], body := { vars := [], stmts := [] } },
        .funDef
          { name := "main", ret := .int, params := []
            body :=
              { vars := []
                stmts :=
                  [ .eval (.call .void "print_i" [.call .int "read_i" []]),
                    .eval (.call .void "print_c" [.ofChar 'x']),
                    .ret (some (.call .int "same" [.ofInt 3])) ] } },
        .funDef
          { name := "same", ret := .int, params := [given]
            body := { vars := [], stmts := [.ret (some (.ofDecl given))] } } ] }

theorem calls_resolved_relaying : ∃ generated, relaying.generate "main" = .ok generated ∧
    generated.instructions.filter Instr.isCall =
      [.call (.function "main"), .call (.function "read_i"), .call (.function "print_i"),
        .call (.function "print_c"), .call (.function "same")] ∧
    ∃ plan functions, relaying.memoryPlan (relaying.promotion 0).1 = .ok plan ∧
      (relaying.env plan).lowerFunctions { nextReg := (relaying.promotion 0).2, nextLabel := 0 }
        relaying.functions = .ok functions ∧
      generated.sections = entrySection "main" :: functions ++ relaying.stubs.map Service.stub ∧
      ∀ code ∈ generated.sections, ∀ before target after,
        code.items = before ++ .instr (.call target) :: after → ∃ name, target = .function name ∧
          (∃ origin, relaying.Jump plan "main" origin name code before after) ∧
          ∀ origin, relaying.Jump plan "main" origin name code before after →
            relaying.Resolves generated.sections functions origin name := by
  have succeeds : (relaying.generate "main").toBool = true := by decide +kernel
  have calls : (relaying.generate "main").toOption.map
      (fun generated => generated.instructions.filter Instr.isCall) =
        some [.call (.function "main"), .call (.function "read_i"), .call (.function "print_i"),
          .call (.function "print_c"), .call (.function "same")] := by
    decide +kernel
  obtain ⟨generated, generates⟩ := exists_ok_of_toBool succeeds
  rw [generates] at calls
  exact ⟨generated, generates, Option.some.inj calls, calls_resolved generates⟩

/-- A program that calls a function that it only declares. -/
def unfinished : Program :=
  { decls :=
      [ .funDecl { name := "helper", ret := .void, params := [] },
        .funDef
          { name := "main", ret := .void, params := []
            body := { vars := [], stmts := [.eval (.call .void "helper" [])] } } ] }

theorem not_defined_unfinished : ∃ generated, unfinished.generate "main" = .ok generated ∧
    .call (.function "helper") ∈ generated.instructions ∧
    ∀ home ∈ generated.sections, .function "helper" ∉ home.labels := by
  have succeeds : (unfinished.generate "main").toBool = true := by decide +kernel
  have dangling : (unfinished.generate "main").toOption.all (fun generated =>
      .call (.function "helper") ∈ generated.instructions ∧
        ∀ home ∈ generated.sections, .function "helper" ∉ home.labels) = true := by
    decide +kernel
  obtain ⟨generated, generates⟩ := exists_ok_of_toBool succeeds
  rw [generates] at dangling
  exact ⟨generated, generates, of_decide_eq_true dangling⟩

end Program

end MipsBackend
