import MipsBackend.Proofs.Assignment.Outcome
import MipsBackend.Proofs.Linking

/-!
# Objects of the data section

The data of a compiled program are its global variables and string literals, as planning comes
across them, and behind these the spill slots of its sections. Each object ends at a multiple of the
word size: variables and literals are padded up to one, and a slot is a word. So each object starts
at one as well, although nothing is aligned before an object.
-/

namespace MipsBackend

/-! ## Addresses -/

/-- The address behind a directive that stands at the given one. -/
def Directive.behind (address : Nat) : Directive → Nat
  | space bytes => address + bytes
  | align exponent => roundUp address (2 ^ exponent)
  | asciiz text => address + text.utf8ByteSize + 1

/-- The addresses of all labels in order, and last the address behind the data. -/
def landmarks (address : Nat) : List DataItem → List Nat
  | [] => [address]
  | .label _ :: rest => address :: landmarks address rest
  | .directive directive :: rest => landmarks (directive.behind address) rest
  | .comment _ :: rest => landmarks address rest

def DataItem.isComment : DataItem → Bool
  | comment _ => true
  | label _ | directive _ => false

/-- The data without comments. -/
def bareData (data : List DataItem) : List DataItem := data.filter (!·.isComment)

@[simp] theorem bareData_append (first second : List DataItem) :
    bareData (first ++ second) = bareData first ++ bareData second :=
  List.filter_append ..

theorem landmarks_bareData (address : Nat) (data : List DataItem) :
    landmarks address (bareData data) = landmarks address data := by
  induction data generalizing address with
  | nil => rfl
  | cons item rest ih =>
    cases item <;> simp_all [bareData, landmarks, DataItem.isComment]

theorem dataLabels_bareData (data : List DataItem) : dataLabels (bareData data) = dataLabels data := by
  unfold dataLabels bareData
  rw [List.filterMap_filter]
  refine List.filterMap_congr fun item _ => ?_
  cases item <;> rfl

/-! ## Objects -/

/-- What a label of the data section stands for. -/
inductive DataObject where
  | global (decl : VarDecl) (size : Nat)
  | string (text : String) (number : Nat)
  | slot (reg : VReg)
deriving DecidableEq

namespace DataObject

def label : DataObject → Label
  | global decl _ => .global decl.name
  | string _ number => .string number
  | slot reg => .spill reg

/-- The bytes that the object needs. -/
def size : DataObject → Nat
  | global _ size => size
  | string text _ => text.utf8ByteSize + 1
  | slot _ => wordSize

def directives : DataObject → List Directive
  | global _ size => [.space size, .align 2]
  | string text _ => [.asciiz text, .align 2]
  | slot _ => [.space wordSize]

def items (object : DataObject) : List DataItem := DataItem.object object.label object.directives

def global? : DataObject → Option VarDecl
  | global decl _ => some decl
  | string _ _ | slot _ => none

def string? : DataObject → Option (String × Nat)
  | string text number => some (text, number)
  | global _ _ | slot _ => none

def slot? : DataObject → Option VReg
  | slot reg => some reg
  | global _ _ | string _ _ => none

theorem dataLabels_items (objects : List DataObject) :
    dataLabels (objects.flatMap items) = objects.map label := by
  induction objects with
  | nil => rfl
  | cons object rest ih =>
    rw [List.flatMap_cons, dataLabels_append, ih, items, dataLabels_object]
    rfl

theorem bareData_items (objects : List DataObject) :
    bareData (objects.flatMap items) = objects.flatMap items := by
  induction objects with
  | nil => rfl
  | cons object rest ih =>
    rw [List.flatMap_cons, bareData_append, ih]
    cases object <;> rfl

/-- An object at a multiple of four has its bytes, and what follows is at a multiple of four. -/
theorem landmarks_items (object : DataObject) (rest : List DataItem) {start : Nat}
    (aligned : 4 ∣ start) :
    ∃ stop, landmarks start (object.items ++ rest) = start :: landmarks stop rest ∧ 4 ∣ stop ∧
      start + object.size ≤ stop := by
  cases object with
  | global decl size =>
    exact ⟨_, rfl, dvd_roundUp _ (by decide), le_roundUp (start + size) 4⟩
  | string text number =>
    exact ⟨_, rfl, dvd_roundUp _ (by decide),
      le_roundUp (start + text.utf8ByteSize + 1) 4⟩
  | slot reg => exact ⟨start + 4, rfl, Nat.dvd_add aligned (Nat.dvd_refl 4), Nat.le_refl _⟩

theorem landmarks_objects {objects : List DataObject} {base : Nat} (aligned : 4 ∣ base) {i : Nat}
    {object : DataObject} (here : objects[i]? = some object) :
    ∃ start stop, (landmarks base (objects.flatMap items))[i]? = some start ∧
      (landmarks base (objects.flatMap items))[i + 1]? = some stop ∧ 4 ∣ start ∧
      start + object.size ≤ stop := by
  induction objects generalizing base i with
  | nil => cases here
  | cons first rest ih =>
    obtain ⟨next, marks, follows, enough⟩ := first.landmarks_items (rest.flatMap items) aligned
    rw [List.flatMap_cons, marks]
    cases i with
    | zero =>
      cases here
      refine ⟨base, next, rfl, ?_, aligned, enough⟩
      cases rest with
      | nil => rfl
      | cons second later =>
        obtain ⟨_, others, -⟩ := second.landmarks_items (later.flatMap items) follows
        rw [List.flatMap_cons, others]
        rfl
    | succ i => exact ih follows here

end DataObject

/-! ## Planned objects -/

/-- The different string literals of the functions, in the order of their first use. -/
def Program.literals (program : Program) : List String :=
  (program.functions.flatMap fun fn => fn.body.strings).eraseDups

theorem eraseDups_snoc (texts : List String) (text : String) :
    (texts ++ [text]).eraseDups = texts.eraseDups ++ if text ∈ texts then [] else [text] := by
  rw [List.eraseDups_append]
  congr 1
  split <;> simp_all [List.removeAll, List.eraseDups_cons]

namespace MemoryPlan

/-- The plan lays out the objects: the globals, and the literals numbered without repeats. -/
structure Lays (layout : Layout) (globals : List VarDecl) (texts : List String)
    (objects : List DataObject) (plan : MemoryPlan) : Prop where
  data : plan.data = objects.flatMap DataObject.items
  globals : objects.filterMap DataObject.global? = globals
  sizes : ∀ decl size, .global decl size ∈ objects → layout.size decl.ty = .ok size
  strings : objects.filterMap DataObject.string? = texts.eraseDups.zipIdx
  slots : objects.filterMap DataObject.slot? = []
  interned : ∀ text, text ∈ plan.strings ↔ text ∈ texts
  count : plan.strings.size = texts.eraseDups.length

variable {layout : Layout} {promotion : Promotion} {globals : List VarDecl} {texts : List String}
  {objects : List DataObject} {plan : MemoryPlan}

theorem lays_empty (layout : Layout) : Lays layout [] [] [] empty := by
  constructor <;> simp [empty]

theorem Lays.intern (lays : plan.Lays layout globals texts objects) (text : String) :
    ∃ objects, (plan.intern text).Lays layout globals (texts ++ [text]) objects := by
  have dups := eraseDups_snoc texts text
  unfold MemoryPlan.intern
  split
  · next known =>
    have listed := (lays.interned text).1 known
    rw [if_pos listed, List.append_nil] at dups
    refine ⟨objects, lays.data, lays.globals, lays.sizes, dups ▸ lays.strings, lays.slots, ?_,
      dups ▸ lays.count⟩
    intro other
    rw [lays.interned, List.mem_append, List.mem_singleton]
    exact ⟨.inl, fun member => member.elim id fun same => same ▸ listed⟩
  · next fresh =>
    have absent := mt (lays.interned text).2 fresh
    rw [if_neg absent] at dups
    refine ⟨objects ++ [.string text plan.strings.size], ?_, ?_, ?_, ?_, ?_, ?_, ?_⟩
    · rw [List.flatMap_append, ← lays.data]
      rfl
    · rw [List.filterMap_append, lays.globals]
      exact List.append_nil _
    · simpa using lays.sizes
    · rw [dups, List.filterMap_append, lays.strings, List.zipIdx_append, lays.count, Nat.zero_add]
      rfl
    · rw [List.filterMap_append, lays.slots]
      rfl
    · intro other
      rw [Std.ExtTreeMap.mem_insert, lays.interned, List.mem_append, List.mem_singleton, or_comm,
        Std.LawfulEqCmp.compare_eq_iff_eq, eq_comm]
    · rw [Std.ExtTreeMap.size_insert, if_neg (by simpa using fresh), dups, List.length_append,
        lays.count]
      rfl

theorem Lays.internAll (lays : plan.Lays layout globals texts objects) (more : List String) :
    ∃ objects, (more.foldl MemoryPlan.intern plan).Lays layout globals (texts ++ more) objects := by
  induction more generalizing plan texts objects with
  | nil => exact ⟨objects, by rwa [List.append_nil]⟩
  | cons text rest ih =>
    obtain ⟨next, step⟩ := lays.intern text
    have all := ih step
    rwa [List.append_assoc] at all

theorem Lays.addGlobal (lays : plan.Lays layout globals texts objects) {decl : VarDecl} {size : Nat}
    (sized : layout.size decl.ty = .ok size) :
    (plan.addGlobal decl size).Lays layout (globals ++ [decl]) texts
      (objects ++ [.global decl size]) where
  data := by
    rw [List.flatMap_append, ← lays.data]
    rfl
  globals := by
    rw [List.filterMap_append, lays.globals]
    rfl
  sizes other bytes member := by
    rcases List.mem_append.1 member with before | last
    · exact lays.sizes other bytes before
    · cases List.mem_singleton.1 last
      exact sized
  strings := by
    rw [List.filterMap_append, lays.strings]
    exact List.append_nil _
  slots := by
    rw [List.filterMap_append, lays.slots]
    rfl
  interned := lays.interned
  count := lays.count

/-- The literals in a declaration. -/
def declTexts : Decl → List String
  | .funDef fn => fn.body.strings
  | .struct _ | .var _ | .funDecl _ => []

theorem Lays.addDecl (lays : plan.Lays layout globals texts objects) {after : MemoryPlan}
    {decl : Decl} (added : plan.addDecl layout promotion decl = .ok after) :
    ∃ objects, after.Lays layout (globals ++ decl.global?.toList) (texts ++ declTexts decl)
      objects := by
  cases decl with
  | struct decl | funDecl decl =>
    cases added
    exact ⟨objects, by simpa [Decl.global?, declTexts] using lays⟩
  | var decl =>
    obtain ⟨size, sized, joins⟩ := bind_eq_ok.1 added
    cases joins
    exact ⟨_, by simpa [Decl.global?, declTexts] using lays.addGlobal sized⟩
  | funDef fn =>
    obtain ⟨result, params, locals, space, -, -, -, rfl⟩ := addFunction_eq_ok added
    have placed : ({ plan.store (params ++ locals) with
        localSpace := (plan.store (params ++ locals)).localSpace.insert fn.name space } :
          MemoryPlan).Lays layout globals texts objects :=
      ⟨lays.data, lays.globals, lays.sizes, lays.strings, lays.slots, lays.interned, lays.count⟩
    rw [Decl.global?, Option.toList_none, List.append_nil]
    exact placed.internAll fn.body.strings

theorem Lays.addDecls (lays : plan.Lays layout globals texts objects) {decls : List Decl}
    {after : MemoryPlan}
    (added : decls.foldlM (MemoryPlan.addDecl layout promotion) plan = .ok after) :
    ∃ objects, after.Lays layout (globals ++ decls.filterMap Decl.global?)
      (texts ++ decls.flatMap declTexts) objects := by
  induction decls generalizing plan globals texts objects with
  | nil =>
    cases added
    exact ⟨objects, by simpa using lays⟩
  | cons decl rest ih =>
    rw [List.foldlM_cons] at added
    obtain ⟨next, first, others⟩ := bind_eq_ok.1 added
    obtain ⟨here, step⟩ := lays.addDecl first
    obtain ⟨all, laid⟩ := ih step others
    refine ⟨all, ?_⟩
    cases known : decl.global? <;> simpa [known, List.append_assoc] using laid

end MemoryPlan

theorem Program.texts_functions (program : Program) :
    program.decls.flatMap MemoryPlan.declTexts =
      program.functions.flatMap fun fn => fn.body.strings := by
  unfold functions
  induction program.decls with
  | nil => rfl
  | cons decl rest ih => cases decl <;> simp [MemoryPlan.declTexts, ih]

theorem Program.lays_memoryPlan {program : Program} {promotion : Promotion} {plan : MemoryPlan}
    (planned : program.memoryPlan promotion = .ok plan) :
    ∃ objects, plan.Lays (.ofProgram program) program.globals
      (program.functions.flatMap fun fn => fn.body.strings) objects := by
  obtain ⟨objects, lays⟩ := (MemoryPlan.lays_empty (.ofProgram program)).addDecls planned
  rw [List.nil_append, List.nil_append, program.texts_functions] at lays
  exact ⟨objects, lays⟩

/-! ## Compiled programs -/

theorem Pass.bareData_slots (pass : Pass) (code : Section) :
    bareData (pass.slots code) =
      ((pass.spilled code).map DataObject.slot).flatMap DataObject.items := by
  have bare : ∀ regs : List VReg,
      bareData (regs.flatMap fun reg => [.label (.spill reg), .directive (.space 4)]) =
        (regs.map DataObject.slot).flatMap DataObject.items := by
    intro regs
    induction regs with
    | nil => rfl
    | cons reg rest ih =>
      rw [List.flatMap_cons, bareData_append, ih]
      rfl
  unfold slots
  split
  · next none => rw [none]; rfl
  · exact bare (pass.spilled code)

theorem Pass.bareData_flatMap_slots (pass : Pass) (sections : List Section) :
    bareData (sections.flatMap pass.slots) =
      ((sections.flatMap pass.spilled).map DataObject.slot).flatMap DataObject.items := by
  induction sections with
  | nil => rfl
  | cons code rest ih =>
    simp only [List.flatMap_cons, bareData_append, List.map_append, List.flatMap_append, ih,
      pass.bareData_slots]

namespace AllocatorKind

/-- The registers of a section for which the allocator adds words to the data. -/
def spilled (kind : AllocatorKind) (code : Section) : List VReg :=
  match kind.pass? with
  | .none => []
  | some pass => pass.spilled code

theorem bareData_apply {kind : AllocatorKind} {program after : Assembly}
    (applied : kind.apply program = (after, .ok ())) :
    bareData after.data = bareData program.data ++
      ((program.sections.flatMap kind.spilled).map DataObject.slot).flatMap DataObject.items := by
  unfold apply at applied
  split at applied
  · next nothing =>
    cases applied
    have spills : kind.spilled = fun _ => [] := by
      funext code
      rw [spilled, nothing]
    simp [spills]
  · next pass found =>
    have spills : kind.spilled = pass.spilled := by
      funext code
      rw [spilled, found]
    rw [pass.data_of_apply applied, bareData_append, pass.bareData_flatMap_slots, spills]

end AllocatorKind

namespace Program

/-- The objects of a program: its globals with the sizes of their types, its literals, and the slots
of the given registers. -/
structure HasObjects (program : Program) (slots : List VReg) (objects : List DataObject) : Prop where
  globals : objects.filterMap DataObject.global? = program.globals
  sizes : ∀ decl size, .global decl size ∈ objects →
    (Layout.ofProgram program).size decl.ty = .ok size
  strings : objects.filterMap DataObject.string? = program.literals.zipIdx
  slots : objects.filterMap DataObject.slot? = slots

theorem hasObjects_plan {program : Program} {plan : MemoryPlan} {objects : List DataObject}
    (lays : plan.Lays (.ofProgram program) program.globals
      (program.functions.flatMap fun fn => fn.body.strings) objects) (regs : List VReg) :
    program.HasObjects regs (objects ++ regs.map .slot) where
  globals := by
    rw [List.filterMap_append, lays.globals, List.filterMap_map]
    simp [Function.comp_def, DataObject.global?]
  sizes decl size member := by
    rcases List.mem_append.1 member with planned | slot
    · exact lays.sizes decl size planned
    · obtain ⟨reg, -, same⟩ := List.mem_map.1 slot
      cases same
  strings := by
    rw [List.filterMap_append, lays.strings, List.filterMap_map]
    simp [Function.comp_def, DataObject.string?, literals]
  slots := by
    rw [List.filterMap_append, lays.slots, List.filterMap_map]
    simp [Function.comp_def, DataObject.slot?]

/-- The data of a compiled program, at an address that is a multiple of four: every label stands for
one of the program's globals, literals and spill slots, it is at a multiple of four, and the next
label, or the end of the data, comes only behind all bytes of its object. -/
theorem data_placed {program : Program} {options : Options} {assembly : Assembly}
    (compiles : program.compile options = .ok assembly) :
    ∃ generated objects, program.generate options.entryPoint = .ok generated ∧
      program.HasObjects (generated.sections.flatMap options.allocator.spilled) objects ∧
      dataLabels assembly.data = objects.map DataObject.label ∧
      ∀ base, 4 ∣ base → ∀ i object, objects[i]? = some object →
        ∃ start stop, (landmarks base assembly.data)[i]? = some start ∧
          (landmarks base assembly.data)[i + 1]? = some stop ∧ 4 ∣ start ∧
          start + object.size ≤ stop := by
  obtain ⟨generated, generates, allocates⟩ := compile_eq_ok compiles
  obtain ⟨plan, functions, planned, -, built⟩ := generate_eq_ok generates
  obtain ⟨objects, lays⟩ := lays_memoryPlan planned
  let regs := generated.sections.flatMap options.allocator.spilled
  have planData : generated.data = objects.flatMap DataObject.items := by
    rw [built, lays.data]
  have bare : bareData assembly.data =
      (objects ++ regs.map DataObject.slot).flatMap DataObject.items := by
    rw [AllocatorKind.bareData_apply allocates, planData, DataObject.bareData_items,
      List.flatMap_append]
  refine ⟨generated, objects ++ regs.map .slot, generates, hasObjects_plan lays regs, ?_, ?_⟩
  · rw [← dataLabels_bareData, bare, DataObject.dataLabels_items]
  · intro base aligned i object here
    rw [← landmarks_bareData, bare]
    exact DataObject.landmarks_objects aligned here

/-- Globals of one, five and nine bytes around a function with two literals of odd lengths. -/
def grades : Program :=
  let best : VarDecl := { id := 1, name := "best", ty := .char }
  let name : VarDecl := { id := 2, name := "name", ty := .array .char 5 }
  let entry : VarDecl := { id := 3, name := "entry", ty := .struct "Entry" }
  let say (text : String) : Stmt :=
    .eval (.call .void "print_s" [.cast (.pointer .char) (.ofString text)])
  { decls :=
      [ .struct
          { name := "Entry"
            fields := [{ id := 10, name := "key", ty := .char },
              { id := 11, name := "text", ty := .array .char 8 }] },
        .var best,
        .funDecl
          { name := "print_s", ret := .void
            params := [{ id := 100, name := "text", ty := .pointer .char }] },
        .var name,
        .funDef
          { name := "main", ret := .int, params := []
            body :=
              { vars := []
                stmts := [say "größer", say "ok\n", say "größer", .ret (some (.ofInt 0))] } },
        .var entry ] }

theorem data_placed_grades : ∃ assembly, grades.compile { allocator := .naive } = .ok assembly ∧
    ∃ generated objects, grades.generate "main" = .ok generated ∧
      grades.HasObjects (generated.sections.flatMap AllocatorKind.naive.spilled) objects ∧
      dataLabels assembly.data = objects.map DataObject.label ∧
      ∀ base, 4 ∣ base → ∀ i object, objects[i]? = some object →
        ∃ start stop, (landmarks base assembly.data)[i]? = some start ∧
          (landmarks base assembly.data)[i + 1]? = some stop ∧ 4 ∣ start ∧
          start + object.size ≤ stop := by
  have succeeds : (grades.compile { allocator := .naive }).toBool = true := by decide +kernel
  obtain ⟨assembly, compiles⟩ := exists_ok_of_toBool succeeds
  obtain ⟨generated, objects, generates, found, labels, places⟩ := data_placed compiles
  exact ⟨assembly, compiles, generated, objects, generates, found, labels, places⟩

end Program

end MipsBackend
