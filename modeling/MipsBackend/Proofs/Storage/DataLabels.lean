import Mathlib.Data.List.Perm.Basic
import MipsBackend.Proofs.Calls.Places

/-!
# Labels of the data section

The memory plan lays out one object for each global variable and one for each different string
literal, the literals numbered in the order of their first use. The labels that variables and
literals are looked up by are the labels of these objects (`MemoryPlan.Lists`).
-/

namespace MipsBackend

def DataItem.label? : DataItem → Option Label
  | label here => some here
  | directive _ | comment _ => none

def dataLabels (data : List DataItem) : List Label := data.filterMap DataItem.label?

@[simp] theorem dataLabels_append (first second : List DataItem) :
    dataLabels (first ++ second) = dataLabels first ++ dataLabels second :=
  List.filterMap_append

@[simp] theorem dataLabels_object (label : Label) (directives : List Directive) :
    dataLabels (DataItem.object label directives) = [label] := by
  have none : (directives.map DataItem.directive).filterMap DataItem.label? = [] := by
    rw [List.filterMap_map]
    exact List.filterMap_eq_nil_iff.2 fun _ _ => rfl
  simp only [dataLabels, DataItem.object, List.filterMap_cons, DataItem.label?, none]

/-- The variable that a declaration declares for the whole program. -/
def Decl.global? : Decl → Option VarDecl
  | var decl => some decl
  | struct _ | funDecl _ | funDef _ => none

def Program.globals (program : Program) : List VarDecl := program.decls.filterMap Decl.global?

theorem Program.mem_globals {program : Program} {decl : VarDecl} :
    decl ∈ program.globals ↔ .var decl ∈ program.decls :=
  mem_declared fun decl found => by cases decl <;> simp [Decl.global?]

def stringLabels (number : Nat) : List Label := (List.range number).map Label.string

/-! ## Places of functions -/

theorem Layout.paramPlaces_frame {layout : Layout} {offset : Nat} {params : List VarDecl}
    {places : Places} (placed : layout.paramPlaces offset params = .ok places) :
    ∀ place ∈ places, ∃ offset byReference, place.2 = .frame offset byReference := by
  induction params generalizing offset places with
  | nil =>
    cases placed
    exact fun _ member => nomatch member
  | cons first rest ih =>
    obtain ⟨size, -, walks⟩ := bind_eq_ok.1 placed
    obtain ⟨later, others, joins⟩ := bind_eq_ok.1 walks
    cases joins
    exact List.forall_mem_cons.2 ⟨⟨_, _, rfl⟩, ih others⟩

theorem Layout.localPlaces_register {layout : Layout} {promotion : Promotion} {space total : Nat}
    {decls : List VarDecl} {places : Places}
    (placed : layout.localPlaces promotion space decls = .ok (places, total)) :
    ∀ place ∈ places, (∃ offset, place.2 = .frame offset false) ∨
      ∃ reg, place.2 = .register reg ∧ promotion[place.1]? = some reg := by
  induction decls generalizing space places with
  | nil =>
    cases placed
    exact fun _ member => nomatch member
  | cons decl below ih =>
    unfold localPlaces at placed
    split at placed
    · next reg promoted =>
      obtain ⟨found, others, joins⟩ := bind_eq_ok.1 placed
      cases joins
      exact List.forall_mem_cons.2 ⟨.inr ⟨reg, rfl, promoted⟩, ih others⟩
    · obtain ⟨size, -, walks⟩ := bind_eq_ok.1 placed
      obtain ⟨found, others, joins⟩ := bind_eq_ok.1 walks
      cases joins
      exact List.forall_mem_cons.2 ⟨.inl ⟨_, rfl⟩, ih others⟩

namespace MemoryPlan

theorem mem_of_storage_store {plan : MemoryPlan} {places : Places} {id : DeclId} {place : Storage}
    (known : (plan.store places).storage[id]? = some place) :
    plan.storage[id]? = some place ∨ (id, place) ∈ places := by
  induction places generalizing plan with
  | nil => exact .inl known
  | cons first rest ih =>
    have step : (plan.store (first :: rest)).storage =
        ((plan.store [first]).store rest).storage := plan.storage_store_append [first] rest
    rw [step] at known
    rcases ih known with stored | later
    · simp only [store, List.foldl_cons, List.foldl_nil, Std.ExtTreeMap.getElem?_insert] at stored
      split at stored
      · next same =>
        obtain rfl := Std.LawfulEqCmp.eq_of_compare same
        cases stored
        exact .inr List.mem_cons_self
      · exact .inl stored
    · exact .inr (List.mem_cons_of_mem _ later)

/-- The data of a plan, and what its variables and literals are known by. -/
structure Lists (promotion : Promotion) (globals : List VarDecl) (plan : MemoryPlan) : Prop where
  data : (dataLabels plan.data).Perm
    (globals.map (fun decl => .global decl.name) ++ stringLabels plan.strings.size)
  string : ∀ (text : String) (label : Label), plan.strings[text]? = some label →
    label ∈ stringLabels plan.strings.size
  global : ∀ (id : DeclId) (label : Label), plan.storage[id]? = some (.global label) →
    ∃ decl ∈ globals, label = .global decl.name
  register : ∀ (id : DeclId) (reg : VReg), plan.storage[id]? = some (.register reg) →
    promotion[id]? = some reg

variable {layout : Layout} {promotion : Promotion} {globals : List VarDecl} {plan : MemoryPlan}

theorem lists_empty : empty.Lists promotion [] where
  data := by simp [empty, dataLabels, stringLabels]
  string text label known := by simp [empty] at known
  global id label known := by simp [empty] at known
  register id reg known := by simp [empty] at known

theorem stringLabels_subset {number other : Nat} (le : number ≤ other) :
    stringLabels number ⊆ stringLabels other := by
  rintro label member
  obtain ⟨found, bound, rfl⟩ := List.mem_map.1 member
  exact List.mem_map_of_mem (List.mem_range.2 ((List.mem_range.1 bound).trans_le le))

theorem Lists.intern (lists : plan.Lists promotion globals) (text : String) :
    (plan.intern text).Lists promotion globals := by
  unfold MemoryPlan.intern
  split
  · exact lists
  · next absent =>
    have grown : (plan.strings.insert text (Label.string plan.strings.size)).size =
        plan.strings.size + 1 := by
      rw [Std.ExtTreeMap.size_insert, if_neg (by simpa using absent)]
    have next : stringLabels (plan.strings.size + 1) =
        stringLabels plan.strings.size ++ [Label.string plan.strings.size] := by
      rw [stringLabels, List.range_succ, List.map_append]
      rfl
    refine ⟨?_, fun other label known => ?_, lists.global, lists.register⟩
    · simp only [dataLabels_append, dataLabels_object, grown, next, ← List.append_assoc]
      exact lists.data.append_right _
    · simp only [grown]
      rw [Std.ExtTreeMap.getElem?_insert] at known
      split at known
      · cases known
        exact next ▸ List.mem_append_right _ List.mem_cons_self
      · exact stringLabels_subset (Nat.le_succ _) (lists.string other label known)

theorem Lists.addGlobal (lists : plan.Lists promotion globals) (decl : VarDecl) (size : Nat) :
    (plan.addGlobal decl size).Lists promotion (globals ++ [decl]) where
  data := by
    simp only [MemoryPlan.addGlobal, dataLabels_append, dataLabels_object, List.map_append,
      List.map_cons, List.map_nil, List.append_assoc]
    refine (lists.data.append_right _).trans ?_
    rw [List.append_assoc]
    exact List.perm_append_comm.append_left _
  string := lists.string
  global id label known := by
    rw [MemoryPlan.addGlobal, Std.ExtTreeMap.getElem?_insert] at known
    split at known
    · cases known
      exact ⟨decl, by simp, rfl⟩
    · obtain ⟨found, member, same⟩ := lists.global id label known
      exact ⟨found, List.mem_append_left _ member, same⟩
  register id reg known := by
    rw [MemoryPlan.addGlobal, Std.ExtTreeMap.getElem?_insert] at known
    split at known
    · cases known
    · exact lists.register id reg known

theorem Lists.addFunction (lists : plan.Lists promotion globals) {after : MemoryPlan} {fn : FunDef}
    (added : plan.addFunction layout promotion fn = .ok after) : after.Lists promotion globals := by
  obtain ⟨result, params, locals, space, -, placed, others, rfl⟩ := addFunction_eq_ok added
  have kinds : ∀ place ∈ params ++ locals, (∀ label, place.2 ≠ .global label) ∧
      ∀ reg, place.2 = .register reg → promotion[place.1]? = some reg := by
    refine List.forall_mem_append.2 ⟨fun place member => ?_, fun place member => ?_⟩
    · obtain ⟨offset, byReference, same⟩ := Layout.paramPlaces_frame placed place member
      simp [same]
    · rcases Layout.localPlaces_register others place member with ⟨offset, same⟩ | ⟨reg, same, known⟩
      · simp [same]
      · simp [same, known]
  refine List.foldlRecOn _ _ ?_ fun plan holds text _ => holds.intern text
  refine ⟨lists.data, lists.string, fun id label known => ?_, fun id reg known => ?_⟩
  · rcases mem_of_storage_store known with stored | member
    · exact lists.global id label stored
    · exact absurd rfl ((kinds _ member).1 label)
  · rcases mem_of_storage_store known with stored | member
    · exact lists.register id reg stored
    · exact (kinds _ member).2 reg rfl

theorem Lists.addDecl (lists : plan.Lists promotion globals) {after : MemoryPlan} {decl : Decl}
    (added : plan.addDecl layout promotion decl = .ok after) :
    after.Lists promotion (globals ++ decl.global?.toList) := by
  cases decl with
  | struct decl | funDecl decl =>
    cases added
    rwa [Decl.global?, Option.toList_none, List.append_nil]
  | var decl =>
    obtain ⟨size, -, joins⟩ := bind_eq_ok.1 added
    cases joins
    exact lists.addGlobal decl size
  | funDef fn =>
    rw [Decl.global?, Option.toList_none, List.append_nil]
    exact lists.addFunction added

theorem Lists.addDecls (lists : plan.Lists promotion globals) {decls : List Decl}
    {after : MemoryPlan} (added : decls.foldlM (MemoryPlan.addDecl layout promotion) plan = .ok after) :
    after.Lists promotion (globals ++ decls.filterMap Decl.global?) := by
  induction decls generalizing plan globals with
  | nil =>
    cases added
    rwa [List.filterMap_nil, List.append_nil]
  | cons decl rest ih =>
    rw [List.foldlM_cons] at added
    obtain ⟨next, first, others⟩ := bind_eq_ok.1 added
    have listed := ih (lists.addDecl first) others
    rw [List.append_assoc] at listed
    cases known : decl.global? <;> simpa [known] using listed

end MemoryPlan

theorem Program.lists_memoryPlan {program : Program} {promotion : Promotion} {plan : MemoryPlan}
    (planned : program.memoryPlan promotion = .ok plan) :
    plan.Lists promotion program.globals := by
  have listed := MemoryPlan.lists_empty.addDecls planned
  rwa [List.nil_append] at listed

end MipsBackend
