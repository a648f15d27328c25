import MipsBackend.Proofs.Lowering.Functions
import MipsBackend.Proofs.Storage.DataLabels

/-!
# Unique labels

Labels of different kinds begin differently. Labels of one kind differ in a name or in a number, and
code generation uses each name and each number once. So a generated program defines no label twice,
and none that is the label of a spill slot.
-/

namespace MipsBackend

namespace Label

theorem function_injective : Function.Injective function := by
  intro name other same
  simpa [function, String.append_right_inj] using same

theorem epilogue_injective : Function.Injective epilogue := by
  intro name other same
  simpa [epilogue, String.append_right_inj] using same

theorem global_injective : Function.Injective global := by
  intro name other same
  simpa [global, String.append_right_inj] using same

theorem string_injective : Function.Injective string := by
  intro number other same
  simpa [string, String.append_right_inj, Nat.repr_inj] using same

theorem spill_injective : Function.Injective spill := by
  intro reg other same
  simpa [spill, String.append_right_inj, Nat.repr_inj] using same

/-- Labels of one kind: those that begin in certain ways, each once. -/
structure Kind where
  openings : List (List Char)
  labels : List Label
  own : ∀ label ∈ labels, label.opening ∈ openings
  distinct : labels.Nodup

theorem opening_mem_kinds {kinds : List Kind} {label : Label}
    (member : label ∈ kinds.flatMap Kind.labels) : label.opening ∈ kinds.flatMap Kind.openings := by
  obtain ⟨kind, listed, inside⟩ := List.mem_flatMap.1 member
  exact List.mem_flatMap.2 ⟨kind, listed, kind.own label inside⟩

theorem nodup_of_kinds {kinds : List Kind}
    (apart : (kinds.flatMap Kind.openings).Nodup) : (kinds.flatMap Kind.labels).Nodup := by
  induction kinds with
  | nil => exact List.nodup_nil
  | cons kind rest ih =>
    rw [List.flatMap_cons, List.nodup_append'] at apart ⊢
    exact ⟨kind.distinct, ih apart.2.1, fun label here there =>
      apart.2.2 (kind.own label here) (opening_mem_kinds there)⟩

/-- Labels that name something, each of the names once. -/
def Kind.named {α : Type} (opening : List Char) (label : α → Label) (names : List α)
    (begins : ∀ name, (label name).opening = opening) (injective : Function.Injective label)
    (distinct : names.Nodup) : Kind where
  openings := [opening]
  labels := names.map label
  own := by simp [begins]
  distinct := distinct.map injective

end Label

/-! ## Functions -/

theorem Env.labels_lowerFunctions {env : Env} {functions : List FunDef} {supply : Supply}
    {sections : List Section} (lowers : env.lowerFunctions supply functions = .ok sections) :
    ∃ last bodies, Numbered supply.nextLabel last bodies ∧
      (sections.flatMap Section.labels).Perm
        (functions.map (fun fn => .function fn.name) ++
          (functions.map (fun fn => .epilogue fn.name) ++ itemLabels bodies)) := by
  induction functions generalizing supply sections with
  | nil =>
    cases lowers
    exact ⟨_, [], .unlabelled rfl, .refl _⟩
  | cons fn rest ih =>
    obtain ⟨generated, runs, walks⟩ := bind_eq_ok.1 lowers
    obtain ⟨later, others, joins⟩ := bind_eq_ok.1 walks
    cases joins
    obtain ⟨body, own, behind, whole⟩ := run_lowerFunction_body runs
    obtain ⟨last, bodies, numbered, listed⟩ := ih others
    rw [behind] at numbered
    refine ⟨last, body.code ++ bodies, own.wrote.code.numbered.append numbered, ?_⟩
    rw [List.flatMap_cons, whole, functionSection, labels_functionItems]
    rw [List.perm_iff_count] at listed ⊢
    intro label
    have count := listed label
    simp only [List.map_cons, itemLabels_append, List.count_append, List.count_cons,
      List.count_nil] at count ⊢
    omega

/-! ## Programs -/

namespace Program

theorem nodup_functionNames {program : Program}
    (names : (program.functions.map fun fn => fn.name).Nodup) :
    (program.functions.map (fun fn => fn.name) ++ program.stubs.map Service.name).Nodup := by
  have services : (program.stubs.map Service.name).Nodup :=
    List.Nodup.sublist (List.filter_sublist.map _) (by decide : (Service.all.map Service.name).Nodup)
  refine List.nodup_append'.2 ⟨names, services, fun name defined stub => ?_⟩
  obtain ⟨service, listed, rfl⟩ := List.mem_map.1 stub
  rw [mem_stubs_iff, ← Bool.not_eq_true, defines_iff] at listed
  exact listed (List.mem_map.1 defined)

end Program

namespace Assembly

def labels (program : Assembly) : List Label :=
  dataLabels program.data ++ program.sections.flatMap Section.labels

end Assembly

namespace Program

theorem labels_generate {program : Program} {entry : String} {generated : Assembly}
    (generates : program.generate entry = .ok generated)
    (names : (program.functions.map fun fn => fn.name).Nodup)
    (globals : (program.globals.map fun decl => decl.name).Nodup) :
    generated.labels.Nodup ∧ ∀ reg, Label.spill reg ∉ generated.labels := by
  obtain ⟨plan, functions, planned, lowers, rfl⟩ := generate_eq_ok generates
  have data := (lists_memoryPlan planned).data
  obtain ⟨last, bodies, numbered, listed⟩ := Env.labels_lowerFunctions lowers
  let kinds : List Label.Kind :=
    [.named ['v', 'a'] Label.global _ (by simp) Label.global_injective globals,
      .named ['s', 't'] Label.string _ (by simp) Label.string_injective
        (List.nodup_range (n := plan.strings.size)),
      .named ['_', 's'] (fun _ : Unit => Label.start) [()] (by simp) (fun _ _ _ => rfl) (by simp),
      .named ['f', 'u'] Label.function _ (by simp) Label.function_injective
        (nodup_functionNames names),
      .named ['r', 'e'] Label.epilogue _ (by simp) Label.epilogue_injective names,
      { openings := Label.branchOpenings
        labels := itemLabels bodies
        own label member := by
          obtain ⟨number, -, -, branches⟩ := numbered.within label member
          exact branches.opening
        distinct := numbered.distinct }]
  have stubs : (program.stubs.map Service.stub).flatMap Section.labels =
      program.stubs.map fun service => .function service.name := by
    rw [List.flatMap_map, List.map_eq_flatMap]
    rfl
  have all : (Assembly.labels
      { data := plan.data
        sections := entrySection entry :: functions ++ program.stubs.map Service.stub }).Perm
      (kinds.flatMap Label.Kind.labels) := by
    rw [List.perm_iff_count] at data listed ⊢
    intro label
    have first := data label
    have second := listed label
    have entered : (entrySection entry).labels = [.start] := rfl
    simp only [Assembly.labels, kinds, Label.Kind.named, Function.comp_def, stubs, entered,
      stringLabels, List.flatMap_append, List.flatMap_cons, List.flatMap_nil, List.map_append,
      List.map_map, List.map_cons, List.map_nil, List.count_append, List.count_nil]
      at first second ⊢
    omega
  have openings : kinds.flatMap Label.Kind.openings =
      [['v', 'a'], ['s', 't'], ['_', 's'], ['f', 'u'], ['r', 'e']] ++ Label.branchOpenings := rfl
  refine ⟨all.nodup_iff.2 (Label.nodup_of_kinds (openings ▸ by decide)), fun reg member => ?_⟩
  have spilled := Label.opening_mem_kinds (all.mem_iff.1 member)
  rw [openings, Label.opening_spill] at spilled
  exact absurd spilled (by decide)

end Program

end MipsBackend
