import MipsBackend.Compile
import MipsBackend.Proofs.Allocator
import MipsBackend.Proofs.Lowering.Registers

/-!
# Linking

A compiled program can be linked: no label is defined twice, and every address that it loads is that
of one object of the data section. Allocation keeps the labels and the loads of the generated
program, and adds the spill slots of all sections, which have no register in common.
-/

namespace MipsBackend

/-! ## Generated programs -/

theorem Env.mem_lowerFunctions {env : Env} {functions : List FunDef} {supply : Supply}
    {sections : List Section} (lowers : env.lowerFunctions supply functions = .ok sections)
    {code : Section} (member : code ∈ sections) :
    ∃ fn ∈ functions, ∃ start body, env.LowersBody fn start body ∧
      code = functionSection fn.name (env.plan.spaceOf fn.name) body.code := by
  induction functions generalizing supply sections with
  | nil =>
    cases lowers
    cases member
  | cons fn rest ih =>
    obtain ⟨generated, runs, walks⟩ := bind_eq_ok.1 lowers
    obtain ⟨later, others, joins⟩ := bind_eq_ok.1 walks
    cases joins
    rcases List.mem_cons.1 member with rfl | listed
    · obtain ⟨body, own, -, whole⟩ := run_lowerFunction_body runs
      exact ⟨fn, List.mem_cons_self, supply, body, own, whole⟩
    · obtain ⟨other, defined, found⟩ := ih others listed
      exact ⟨other, List.mem_cons_of_mem _ defined, found⟩

theorem within_entrySection (scope : Scope) (entry : String) :
    (entrySection entry).Within scope := by
  have code : (entrySection entry).instructions =
      [.call (.function entry), .loadImm .v0 Service.exitCode, .syscall] := rfl
  rw [Section.Within, code]
  simp [Instr.uses, Instr.def?]

theorem within_stub (scope : Scope) (service : Service) : service.stub.Within scope := by
  have code : service.stub.instructions =
      [.loadImm .v0 service.code, .syscall, .jumpReg .ra] := rfl
  rw [Section.Within, code]
  simp [Instr.uses, Instr.def?]

/-- A program whose parts fit together. -/
structure Assembly.Linked (program : Assembly) : Prop where
  distinct : program.labels.Nodup
  resolved : ∀ code ∈ program.sections, ∀ instr ∈ code.instructions, ∀ label ∈ instr.address?,
    label ∈ dataLabels program.data

namespace Program

variable {program : Program} {entry : String} {generated : Assembly}

theorem apart_generate (generates : program.generate entry = .ok generated)
    (ids : program.ids.Nodup) (bound : program.Scoped) :
    generated.sections.Pairwise Section.Apart := by
  obtain ⟨plan, functions, planned, lowers, rfl⟩ := generate_eq_ok generates
  let nowhere : Scope := { regs := fun _ => False, data := fun _ => False }
  refine List.pairwise_append.2 ⟨List.pairwise_cons.2 ⟨fun code _ reg here => ?_,
    apart_functions ids bound planned lowers⟩, ?_, fun code _ stub listed reg _ there => ?_⟩
  · exact ((within_entrySection nowhere entry).registers here).elim
  · refine List.pairwise_map.2 (List.pairwise_of_forall fun service _ reg here => ?_)
    exact ((within_stub nowhere service).registers here).elim
  · obtain ⟨service, -, rfl⟩ := List.mem_map.1 listed
    exact (within_stub nowhere service).registers there

theorem linked_generate (generates : program.generate entry = .ok generated)
    (names : (program.functions.map fun fn => fn.name).Nodup)
    (globals : (program.globals.map fun decl => decl.name).Nodup) (bound : program.Scoped) :
    generated.Linked := by
  refine ⟨(labels_generate generates names globals).1, ?_⟩
  obtain ⟨plan, functions, planned, lowers, rfl⟩ := generate_eq_ok generates
  let data : Scope := { regs := fun _ => True, data := (· ∈ dataLabels plan.data) }
  have within : ∀ code ∈ entrySection entry :: functions ++ program.stubs.map Service.stub,
      ∀ instr ∈ code.instructions, ∀ label ∈ instr.address?, label ∈ dataLabels plan.data := by
    intro code member
    rcases List.mem_append.1 member with first | stub
    · rcases List.mem_cons.1 first with rfl | listed
      · exact fun instr inside => (within_entrySection data entry instr inside).loads
      · obtain ⟨fn, defined, start, body, lowersBody, rfl⟩ := Env.mem_lowerFunctions lowers listed
        exact fun instr inside =>
          ((within_scope bound planned defined lowersBody).2 instr inside).loads
    · obtain ⟨service, -, rfl⟩ := List.mem_map.1 stub
      exact fun instr inside => (within_stub data service instr inside).loads
  exact within

end Program

/-! ## Allocation -/

theorem Instr.address?_mapRegisters (rename : Role → Reg → Reg) (instr : Instr) :
    (instr.mapRegisters rename).address? = instr.address? := by
  cases instr <;> rfl

namespace Assignment

variable {assignment : Assignment} {code : Section}

theorem dataLabels_slotData (assignment : Assignment) (code : Section) :
    dataLabels (assignment.slotData code) = (assignment.slots code).map Label.spill := by
  have objects : ∀ regs : List VReg,
      dataLabels (regs.flatMap fun reg => DataItem.object (.spill reg) [.space wordSize]) =
        regs.map Label.spill := by
    intro regs
    induction regs with
    | nil => rfl
    | cons reg rest ih =>
      rw [List.flatMap_cons, dataLabels_append, dataLabels_object, ih]
      rfl
  unfold slotData
  split
  · next none =>
    rw [slots, none]
    rfl
  · exact objects (assignment.slots code)

theorem address?_loadSlot {scratch : PhysReg} {reg : VReg} {instr : Instr}
    (member : instr ∈ loadSlot scratch reg) : ∀ label ∈ instr.address?, label = .spill reg := by
  simp only [loadSlot, List.mem_cons, List.not_mem_nil, or_false] at member
  rcases member with rfl | rfl <;> simp [Instr.lw, eq_comm]

theorem address?_storeSlot {src addr : PhysReg} {reg : VReg} {instr : Instr}
    (member : instr ∈ storeSlot src addr reg) : ∀ label ∈ instr.address?, label = .spill reg := by
  simp only [storeSlot, List.mem_cons, List.not_mem_nil, or_false] at member
  rcases member with rfl | rfl <;> simp [Instr.sw, eq_comm]

theorem address?_pushWord {src : PhysReg} {instr : Instr} (member : instr ∈ pushWord src) :
    instr.address? = none := by
  simp only [pushWord, List.mem_cons, List.not_mem_nil, or_false] at member
  rcases member with rfl | rfl <;> rfl

theorem address?_popWord {dst : PhysReg} {instr : Instr} (member : instr ∈ popWord dst) :
    instr.address? = none := by
  simp only [popWord, List.mem_cons, List.not_mem_nil, or_false] at member
  rcases member with rfl | rfl <;> rfl

theorem address?_save {state : SavedState} {instr : Instr} (member : instr ∈ state.save) :
    ∀ label ∈ instr.address?, ∃ reg ∈ state.slots, label = .spill reg := by
  intro label loads
  rcases List.mem_append.1 member with regs | slots
  · obtain ⟨reg, -, inside⟩ := List.mem_flatMap.1 regs
    rw [address?_pushWord inside] at loads
    cases loads
  · obtain ⟨reg, listed, inside⟩ := List.mem_flatMap.1 slots
    rcases List.mem_append.1 inside with loaded | pushes
    · exact ⟨reg, listed, address?_loadSlot loaded label loads⟩
    · rw [address?_pushWord pushes] at loads
      cases loads

theorem address?_restore {state : SavedState} {instr : Instr} (member : instr ∈ state.restore) :
    ∀ label ∈ instr.address?, ∃ reg ∈ state.slots, label = .spill reg := by
  intro label loads
  rcases List.mem_append.1 member with slots | regs
  · obtain ⟨reg, listed, inside⟩ := List.mem_flatMap.1 slots
    rcases List.mem_append.1 inside with pops | stores
    · rw [address?_popWord pops] at loads
      cases loads
    · exact ⟨reg, List.mem_reverse.1 listed, address?_storeSlot stores label loads⟩
  · obtain ⟨reg, -, inside⟩ := List.mem_flatMap.1 regs
    rw [address?_popWord inside] at loads
    cases loads

theorem address?_expansion {source instr : Instr} (listed : source ∈ code.instructions)
    (member : instr ∈ assignment.expansion source) :
    ∀ label ∈ instr.address?, label ∈ source.address? ∨
      ∃ reg ∈ assignment.slots code, label = .spill reg := by
  have slot : ∀ reg ∈ source.virtualOperands, assignment.home? reg = some .slot →
      reg ∈ assignment.slots code := fun reg mentioned home =>
    mem_slots.2 ⟨Section.mem_registers.2 ⟨source, listed, mentioned⟩, (home?_eq_slot_iff.1 home).2⟩
  intro label loads
  rcases List.mem_append.1 member with loaded | rest
  · obtain ⟨⟨reg, scratch⟩, paired, inside⟩ := List.mem_flatMap.1 loaded
    have reads : reg ∈ assignment.spilledReads source :=
      map_fst_spilledUses assignment source ▸ List.mem_map_of_mem (f := Prod.fst) paired
    obtain ⟨read, home⟩ := List.mem_filter.1 reads
    exact .inr ⟨reg, slot reg (List.mem_append_left _ (List.mem_eraseDups.1 read))
      (by simpa using home), address?_loadSlot inside label loads⟩
  rcases List.mem_cons.1 rest with rfl | stored
  · rw [Instr.address?_mapRegisters] at loads
    exact .inl loads
  · unfold storeBack at stored
    split at stored
    · cases stored
    · next reg written =>
      split at stored
      · next home =>
        exact .inr ⟨reg, slot reg (List.mem_append_right _ (by simp [written])) home,
          address?_storeSlot stored label loads⟩
      · cases stored

theorem address?_rewritten {instr : Instr}
    (member : instr ∈ (assignment.rewritten code).instructions) :
    ∀ label ∈ instr.address?, (∃ source ∈ code.instructions, label ∈ source.address?) ∨
      ∃ reg ∈ assignment.slots code, label = .spill reg := by
  intro label loads
  rw [instructions_rewritten] at member
  obtain ⟨source, listed, inside⟩ := List.mem_flatMap.1 member
  unfold instrCode at inside
  split at inside
  · exact .inr (address?_save inside label loads)
  · exact .inr (address?_restore inside label loads)
  · exact (address?_expansion listed inside label loads).imp_left fun own => ⟨source, listed, own⟩

end Assignment

/-! ## Passes -/

namespace Pass

variable {pass : Pass}

/-- Allocation gives the sections spill slots of their own, and they load the addresses of these. -/
structure Spills (sections allocated : List Section) (data after : List DataItem)
    (regs : List VReg) : Prop where
  data : dataLabels after = dataLabels data ++ regs.map Label.spill
  labels : allocated.flatMap Section.labels = sections.flatMap Section.labels
  mentioned : ∀ reg ∈ regs, ∃ code ∈ sections, reg ∈ code.registers
  distinct : sections.Pairwise Section.Apart → regs.Nodup
  loads : ∀ code ∈ allocated, ∀ instr ∈ code.instructions, ∀ label ∈ instr.address?,
    (∃ code ∈ sections, ∃ source ∈ code.instructions, label ∈ source.address?) ∨
      ∃ reg ∈ regs, label = .spill reg

theorem spills_applyAll {sections allocated : List Section} (ready : ∀ code ∈ sections, code.Ready)
    {data after : List DataItem} (applied : pass.applyAll sections data = (after, .ok allocated)) :
    ∃ regs, Spills sections allocated data after regs := by
  induction sections generalizing data after allocated with
  | nil =>
    cases applied
    exact ⟨[], by simp, rfl, by simp, fun _ => List.nodup_nil, fun _ member => nomatch member⟩
  | cons code rest ih =>
    have here := ready code List.mem_cons_self
    have behind : ∀ code ∈ rest, code.Ready := fun code member =>
      ready code (List.mem_cons_of_mem _ member)
    obtain ⟨assignment, assigned⟩ := here.exists_assignment pass
    obtain ⟨slots, others, later, -⟩ := pass.applyAll_ready behind (data ++ assignment.slotData code)
    obtain ⟨regs, spills⟩ := ih behind later
    rw [pass.applyAll_cons assigned here.marked, later] at applied
    cases applied
    have own : ∀ reg ∈ assignment.slots code, reg ∈ code.registers := fun reg member =>
      (Assignment.mem_slots.1 member).1
    refine ⟨assignment.slots code ++ regs, ?_, ?_, ?_, fun apart => ?_, ?_⟩
    · rw [spills.data, dataLabels_append, Assignment.dataLabels_slotData, List.map_append,
        List.append_assoc]
    · rw [List.flatMap_cons, List.flatMap_cons, Assignment.labels_rewritten, spills.labels]
    · refine List.forall_mem_append.2 ⟨fun reg member => ⟨code, List.mem_cons_self, own reg member⟩,
        fun reg member => ?_⟩
      obtain ⟨other, listed, inside⟩ := spills.mentioned reg member
      exact ⟨other, List.mem_cons_of_mem _ listed, inside⟩
    · obtain ⟨first, separate⟩ := List.pairwise_cons.1 apart
      refine List.nodup_append'.2 ⟨assignment.nodup_slots code, spills.distinct separate,
        fun reg mine theirs => ?_⟩
      obtain ⟨other, listed, inside⟩ := spills.mentioned reg theirs
      exact first other listed reg (own reg mine) inside
    · refine List.forall_mem_cons.2 ⟨fun instr inside label loads => ?_,
        fun other listed instr inside label loads => ?_⟩
      · rcases Assignment.address?_rewritten inside label loads with kept | ⟨reg, member, same⟩
        · exact .inl ⟨code, List.mem_cons_self, kept⟩
        · exact .inr ⟨reg, List.mem_append_left _ member, same⟩
      · rcases spills.loads other listed instr inside label loads with
          ⟨source, member, kept⟩ | ⟨reg, member, same⟩
        · exact .inl ⟨source, List.mem_cons_of_mem _ member, kept⟩
        · exact .inr ⟨reg, List.mem_append_right _ member, same⟩

theorem linked_apply {program allocated : Assembly} (linked : program.Linked)
    (ready : ∀ code ∈ program.sections, code.Ready)
    (apart : program.sections.Pairwise Section.Apart)
    (unspilled : ∀ reg, Label.spill reg ∉ program.labels)
    (applied : pass.apply program = (allocated, .ok ())) : allocated.Linked := by
  obtain ⟨slots, sections, all, -⟩ := pass.applyAll_ready ready program.data
  rw [apply, all] at applied
  cases applied
  obtain ⟨regs, spills⟩ := spills_applyAll ready all
  refine ⟨?_, fun code member instr inside label loads => ?_⟩
  · have parts : (Assembly.labels { data := program.data ++ slots, sections }).Perm
        (program.labels ++ regs.map Label.spill) := by
      rw [Assembly.labels, Assembly.labels, spills.data, spills.labels, List.append_assoc,
        List.append_assoc]
      exact List.perm_append_comm.append_left _
    rw [parts.nodup_iff, List.nodup_append']
    refine ⟨linked.distinct, (spills.distinct apart).map Label.spill_injective,
      fun label here there => ?_⟩
    obtain ⟨reg, -, rfl⟩ := List.mem_map.1 there
    exact unspilled reg here
  · rw [spills.data, List.mem_append]
    rcases spills.loads code member instr inside label loads with
      ⟨before, listed, source, kept, known⟩ | ⟨reg, listed, rfl⟩
    · exact .inl (linked.resolved before listed source kept label known)
    · exact .inr (List.mem_map_of_mem listed)

end Pass

namespace Program

theorem compile_eq_ok {program : Program} {options : Options} {assembly : Assembly}
    (compiles : program.compile options = .ok assembly) :
    ∃ generated, program.generate options.entryPoint = .ok generated ∧
      options.allocator.apply generated = (assembly, .ok ()) := by
  obtain ⟨generated, generates, allocates⟩ := bind_eq_ok.1 compiles
  refine ⟨generated, generates, ?_⟩
  split at allocates
  · next allocated applied =>
    cases allocates
    exact applied
  · cases allocates

/-- In the assembly of a program that declares each variable and defines each name once, and refers
only to variables in scope, no label is defined twice, and every address that is loaded is that of
exactly one object of the data section. -/
theorem labels_unique {program : Program} {options : Options} {assembly : Assembly}
    (ids : program.ids.Nodup) (names : (program.functions.map fun fn => fn.name).Nodup)
    (globals : (program.globals.map fun decl => decl.name).Nodup) (bound : program.Scoped)
    (compiles : program.compile options = .ok assembly) :
    assembly.labels.Nodup ∧ ∀ dst label, .loadAddr dst label ∈ assembly.instructions →
      (dataLabels assembly.data).count label = 1 := by
  obtain ⟨generated, generates, allocates⟩ := compile_eq_ok compiles
  have linked := linked_generate generates names globals bound
  have final : assembly.Linked := by
    unfold AllocatorKind.apply at allocates
    split at allocates
    · cases allocates
      exact linked
    · exact Pass.linked_apply linked (ready_generate generates) (apart_generate generates ids bound)
        (labels_generate generates names globals).2 allocates
  refine ⟨final.distinct, fun dst label member => ?_⟩
  obtain ⟨code, listed, inside⟩ := List.mem_flatMap.1 member
  exact List.count_eq_one_of_mem (List.nodup_append'.1 final.distinct).1
    (final.resolved code listed _ inside label rfl)

/-- Two functions with a loop, branches and short circuits, a global variable, and three uses of two
string literals. -/
def counting : Program :=
  let turns : VarDecl := { id := 1, name := "turns", ty := .int }
  let text : VarDecl := { id := 2, name := "text", ty := .pointer .char }
  let limit : VarDecl := { id := 3, name := "limit", ty := .int }
  let say (name : String) (text : Expr) : Stmt :=
    .eval (.call .void name [.cast (.pointer .char) text])
  { decls :=
      [ .var turns,
        .funDecl { name := "print_s", ret := .void, params := [{ text with id := 100 }] },
        .funDef
          { name := "shout", ret := .void, params := [text]
            body :=
              { vars := []
                stmts :=
                  [ .branch (.ofOperands .or (.ofDecl turns) (.ofDecl turns))
                      (say "print_s" (.ofDecl text)) (some (say "print_s" (.ofString "first"))) ] } },
        .funDef
          { name := "main", ret := .int, params := []
            body :=
              { vars := [limit]
                stmts :=
                  [ .eval (.assignment (.ofDecl limit) (.ofInt 3)),
                    .loop
                      (.ofOperands .and (.ofOperands .lt (.ofDecl turns) (.ofDecl limit)) (.ofInt 1))
                      (.block []
                        [ say "shout" (.ofString "next"), say "shout" (.ofString "first"),
                          .eval (.assignment (.ofDecl turns)
                            (.ofOperands .add (.ofDecl turns) (.ofInt 1))) ]),
                    .ret (some (.ofDecl turns)) ] } } ] }

theorem labels_unique_counting : ∃ assembly,
    counting.ids.Nodup ∧ (counting.functions.map fun fn => fn.name).Nodup ∧
      (counting.globals.map fun decl => decl.name).Nodup ∧ counting.Scoped ∧
      counting.compile { allocator := .naive } = .ok assembly ∧ assembly.labels.Nodup ∧
      ∀ dst label, .loadAddr dst label ∈ assembly.instructions →
        (dataLabels assembly.data).count label = 1 := by
  have ids : counting.ids.Nodup := by decide
  have names : (counting.functions.map fun fn => fn.name).Nodup := by decide
  have globals : (counting.globals.map fun decl => decl.name).Nodup := by decide
  have bound : counting.Scoped := by decide
  have succeeds : (counting.compile { allocator := .naive }).toBool = true := by decide +kernel
  obtain ⟨assembly, compiles⟩ := exists_ok_of_toBool succeeds
  exact ⟨assembly, ids, names, globals, bound, compiles,
    labels_unique ids names globals bound compiles⟩

end Program

end MipsBackend
