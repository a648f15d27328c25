import Mathlib.Data.List.Nodup
import MipsBackend.Proofs.Calls.Slots
import MipsBackend.Proofs.Tables
import MipsBackend.Proofs.WellFormed.Basic

/-!
# Extents exist

Where no struct contains itself, a struct nests no deeper than there are structs: on the way into it
no name comes twice. So every type has an extent but those that contain a struct that is not declared,
and in a well-formed program every type has one.
-/

namespace MipsBackend

/-! ## Tables -/

theorem Layout.structs_ofProgram (program : Program) (name : String) :
    (Layout.ofProgram program).structs[name]? = program.struct? name := by
  rw [ofProgram, getElem?_foldl_insert StructDecl.name, Program.struct?]
  simp

/-! ## Types and fields -/

theorem Ty.extent_congr {first second : String → Except Violation Extent} {ty : Ty}
    (same : ∀ name ∈ ty.contained?, first name = second name) : ty.extent first = ty.extent second := by
  induction ty with
  | array elem length ih => rw [extent, extent, ih same]
  | struct name => exact same name rfl
  | _ => rfl

theorem fieldsExtent_congr {first second : String → Except Violation Extent}
    {fields : List VarDecl}
    (same : ∀ field ∈ fields, ∀ name ∈ field.ty.contained?, first name = second name)
    (before : Extent) : fieldsExtent first before fields = fieldsExtent second before fields := by
  induction fields generalizing before with
  | nil => rfl
  | cons field rest ih =>
    rw [fieldsExtent, fieldsExtent, Ty.extent_congr (same field List.mem_cons_self)]
    exact congrArg _ (funext fun extent =>
      ih (fun other member => same other (List.mem_cons_of_mem _ member)) (before.append extent))

section

variable {ofStruct : String → Except Violation Extent} {violation : Violation}

theorem Ty.extent_eq_error {ty : Ty} (fails : ty.extent ofStruct = .error violation) :
    ∃ name ∈ ty.contained?, ofStruct name = .error violation := by
  induction ty with
  | array elem length ih =>
    rcases bind_eq_error.1 fails with inner | ⟨one, -, joins⟩
    · exact ih inner
    · cases joins
  | struct name => exact ⟨name, rfl, fails⟩
  | _ => cases fails

theorem fieldsExtent_eq_error {fields : List VarDecl} {before : Extent}
    (fails : fieldsExtent ofStruct before fields = .error violation) :
    ∃ field ∈ fields, ∃ name ∈ field.ty.contained?, ofStruct name = .error violation := by
  induction fields generalizing before with
  | nil => cases fails
  | cons field rest ih =>
    rcases bind_eq_error.1 fails with here | ⟨extent, -, later⟩
    · exact ⟨field, List.mem_cons_self, Ty.extent_eq_error here⟩
    · obtain ⟨other, member, found⟩ := ih later
      exact ⟨other, List.mem_cons_of_mem _ member, found⟩

end

namespace Program

variable {program : Program} {entry : String}

/-! ## Structs -/

theorem mem_structs {decl : StructDecl} :
    decl ∈ program.structs ↔ .struct decl ∈ program.decls :=
  mem_declared fun decl found => by cases decl <;> simp

theorem exists_struct? {name : String} (declared : name ∈ program.structs.map StructDecl.name) :
    ∃ decl, program.struct? name = some decl := by
  obtain ⟨decl, member, same⟩ := List.mem_map.1 declared
  exact Option.isSome_iff_exists.1
    (List.find?_isSome.2 ⟨decl, List.mem_reverse.2 member, by simpa using same⟩)

theorem struct?_eq_some {name : String} {decl : StructDecl}
    (found : program.struct? name = some decl) : decl ∈ program.structs ∧ decl.name = name :=
  ⟨List.mem_reverse.1 (List.mem_of_find?_eq_some found), by simpa using List.find?_some found⟩

theorem length_le_structs {names : List String} (distinct : names.Nodup)
    (known : ∀ name ∈ names, ∃ decl, program.struct? name = some decl) :
    names.length ≤ (Layout.ofProgram program).structs.size := by
  rw [← Std.ExtTreeMap.length_keys]
  refine distinct.length_le_of_subset fun name member => ?_
  obtain ⟨decl, found⟩ := known name member
  rw [Std.ExtTreeMap.mem_keys, Std.ExtTreeMap.mem_iff_isSome_getElem?, Layout.structs_ofProgram,
    found]
  rfl

theorem mem_types_of_field {decl : StructDecl} (member : decl ∈ program.structs) {field : VarDecl}
    (inside : field ∈ decl.fields) : field.ty ∈ program.types :=
  List.mem_flatMap.2 ⟨_, mem_structs.1 member, List.mem_map_of_mem inside⟩

theorem mem_fieldsOf_struct {name : String} {field : VarDecl} :
    field ∈ program.fieldsOf (.struct name) ↔
      ∃ decl, program.struct? name = some decl ∧ field ∈ decl.fields := by
  cases found : program.struct? name <;> simp [fieldsOf, found]

theorem struct_eq_ok {name : String} {decl : StructDecl}
    (found : program.struct? name = some decl) :
    (Layout.ofProgram program).struct name = .ok decl := by
  rw [Layout.struct, Layout.structs_ofProgram, found]

theorem structExtent_of_none {name : String} (missing : program.struct? name = none) (depth : Nat) :
    (Layout.ofProgram program).structExtent depth name = .error (.undeclaredStruct name) := by
  cases depth <;> rw [Layout.structExtent, Layout.struct, Layout.structs_ofProgram, missing] <;> rfl

theorem structExtent_of_some {name : String} {decl : StructDecl}
    (found : program.struct? name = some decl) (depth : Nat) :
    (Layout.ofProgram program).structExtent (depth + 1) name =
      fieldsExtent ((Layout.ofProgram program).structExtent depth) { size := 0, alignment := 1 }
        decl.fields >>= fun fields => .ok fields.padded := by
  rw [Layout.structExtent, struct_eq_ok found]
  rfl

/-! ## Nested structs -/

/-- No struct contains itself if the structs in it have a lower rank. -/
theorem finite_of_rank (rank : String → Nat)
    (falls : ∀ decl ∈ program.structs, ∀ field ∈ decl.fields, ∀ inner ∈ field.ty.contained?,
      rank inner < rank decl.name) (name : String) :
    ¬ Relation.TransGen program.Contains name name := by
  have step : ∀ outer inner, program.Contains outer inner → rank inner < rank outer := by
    rintro outer inner ⟨field, member, contained⟩
    obtain ⟨decl, found, listed⟩ := mem_fieldsOf_struct.1 member
    obtain ⟨declared, rfl⟩ := struct?_eq_some found
    exact falls decl declared field listed inner contained
  have below : ∀ {outer inner}, Relation.TransGen program.Contains outer inner →
      rank inner < rank outer := by
    intro outer inner path
    induction path with
    | single contains => exact step _ _ contains
    | tail _ contains ih => exact Nat.lt_trans (step _ _ contains) ih
  exact fun cycle => Nat.lt_irrefl _ (below cycle)

/-- The names on the way into a struct are declared and distinct. -/
structure Leads (program : Program) (path : List String) (name : String) : Prop where
  distinct : path.Nodup
  known : ∀ outer ∈ path, ∃ decl, program.struct? outer = some decl
  reaches : ∀ outer ∈ path, Relation.TransGen program.Contains outer name

theorem leads_nil (name : String) : program.Leads [] name :=
  ⟨List.nodup_nil, fun _ member => (nomatch member), fun _ member => nomatch member⟩

section Finite

variable (finite : ∀ name, ¬ Relation.TransGen program.Contains name name)
  {name : String} {path : List String} {depth : Nat}

include finite

theorem Leads.step (leads : program.Leads path name) {decl : StructDecl}
    (found : program.struct? name = some decl) {inner : String}
    (contains : program.Contains name inner) : program.Leads (name :: path) inner where
  distinct := List.nodup_cons.2 ⟨fun member => finite name (leads.reaches name member), leads.distinct⟩
  known := List.forall_mem_cons.2 ⟨⟨decl, found⟩, leads.known⟩
  reaches := List.forall_mem_cons.2
    ⟨.single contains, fun outer member => (leads.reaches outer member).tail contains⟩

/-- There are at most as many as structs, so the depth suffices for all that lie ahead. -/
theorem Leads.room (leads : program.Leads path name) {decl : StructDecl}
    (found : program.struct? name = some decl) :
    path.length < (Layout.ofProgram program).structs.size := by
  have distinct :=
    List.nodup_cons.2 ⟨fun member => finite name (leads.reaches name member), leads.distinct⟩
  exact length_le_structs distinct (List.forall_mem_cons.2 ⟨⟨decl, found⟩, leads.known⟩)

theorem structExtent_eq_error (leads : program.Leads path name)
    (left : path.length + depth = (Layout.ofProgram program).structs.size) {violation : Violation}
    (fails : (Layout.ofProgram program).structExtent depth name = .error violation) :
    ∃ inner, Relation.ReflTransGen program.Contains name inner ∧ program.struct? inner = none ∧
      violation = .undeclaredStruct inner := by
  induction depth generalizing name path with
  | zero =>
    cases found : program.struct? name with
    | none =>
      rw [structExtent_of_none found] at fails
      exact ⟨name, .refl, found, (Except.error.inj fails).symm⟩
    | some decl =>
      have room := leads.room finite found
      omega
  | succ depth ih =>
    cases found : program.struct? name with
    | none =>
      rw [structExtent_of_none found] at fails
      exact ⟨name, .refl, found, (Except.error.inj fails).symm⟩
    | some decl =>
      rw [structExtent_of_some found] at fails
      obtain sized | ⟨_, -, joins⟩ := bind_eq_error.1 fails
      · obtain ⟨field, member, part, contained, inside⟩ := fieldsExtent_eq_error sized
        have contains : program.Contains name part :=
          ⟨field, mem_fieldsOf_struct.2 ⟨decl, found, member⟩, contained⟩
        obtain ⟨inner, path, missing⟩ := ih (leads.step finite found contains)
          (by rw [List.length_cons]; omega) inside
        exact ⟨inner, .head contains path, missing⟩
      · cases joins

theorem structExtent_succ (leads : program.Leads path name)
    (left : path.length + depth = (Layout.ofProgram program).structs.size) :
    (Layout.ofProgram program).structExtent (depth + 1) name =
      (Layout.ofProgram program).structExtent depth name := by
  induction depth generalizing name path with
  | zero =>
    cases found : program.struct? name with
    | none => rw [structExtent_of_none found, structExtent_of_none found]
    | some decl =>
      have room := leads.room finite found
      omega
  | succ depth ih =>
    cases found : program.struct? name with
    | none => rw [structExtent_of_none found, structExtent_of_none found]
    | some decl =>
      have same : ∀ field ∈ decl.fields, ∀ part ∈ field.ty.contained?,
          (Layout.ofProgram program).structExtent (depth + 1) part =
            (Layout.ofProgram program).structExtent depth part := fun field member part contained =>
        ih (leads.step finite found
            ⟨field, mem_fieldsOf_struct.2 ⟨decl, found, member⟩, contained⟩)
          (by rw [List.length_cons]; omega)
      rw [structExtent_of_some found, structExtent_of_some found, fieldsExtent_congr same]

/-- No type lacks an extent but those that contain a struct without a declaration. -/
theorem extent_eq_error {ty : Ty} {violation : Violation}
    (fails : (Layout.ofProgram program).extent ty = .error violation) :
    ∃ name ∈ ty.contained?, ∃ inner, Relation.ReflTransGen program.Contains name inner ∧
      program.struct? inner = none ∧ violation = .undeclaredStruct inner := by
  obtain ⟨name, contained, inside⟩ := Ty.extent_eq_error fails
  exact ⟨name, contained,
    structExtent_eq_error finite (leads_nil name) (Nat.zero_add _) inside⟩

/-- The values of the type consist of declared structs only. -/
def Complete (program : Program) (ty : Ty) : Prop :=
  ∀ name ∈ ty.contained?, ∀ inner, Relation.ReflTransGen program.Contains name inner →
    ∃ decl, program.struct? inner = some decl

omit finite in
theorem complete_of_fields {ty : Ty}
    (here : ∀ name ∈ ty.contained?, ∃ decl, program.struct? name = some decl)
    (fields : ∀ decl ∈ program.structs, ∀ field ∈ decl.fields, ∀ inner ∈ field.ty.contained?,
      ∃ decl, program.struct? inner = some decl) : program.Complete ty := by
  intro name contained inner path
  induction path with
  | refl => exact here name contained
  | tail _ contains _ =>
    obtain ⟨field, member, inside⟩ := contains
    obtain ⟨decl, found, listed⟩ := mem_fieldsOf_struct.1 member
    exact fields decl (struct?_eq_some found).1 field listed _ inside

theorem exists_extent_of_complete {ty : Ty} (complete : program.Complete ty) :
    ∃ extent, (Layout.ofProgram program).extent ty = .ok extent := by
  cases sized : (Layout.ofProgram program).extent ty with
  | ok extent => exact ⟨extent, rfl⟩
  | error violation =>
    obtain ⟨name, contained, inner, path, missing, -⟩ := extent_eq_error finite sized
    obtain ⟨decl, found⟩ := complete name contained inner path
    cases missing.symm.trans found

end Finite

namespace WellFormed

variable (formed : program.WellFormed entry)

include formed

theorem exists_struct?_of_types {ty : Ty} (named : ty ∈ program.types) {name : String}
    (contained : name ∈ ty.contained?) : ∃ decl, program.struct? name = some decl :=
  exists_struct? (formed.declared ty named name (Ty.mem_structs_of_contained contained))

theorem complete {ty : Ty} (named : ty ∈ program.types) : program.Complete ty :=
  complete_of_fields (fun _ => formed.exists_struct?_of_types named)
    fun _ listed _ member _ => formed.exists_struct?_of_types (mem_types_of_field listed member)

theorem exists_extent {ty : Ty} (named : ty ∈ program.types) :
    ∃ extent, (Layout.ofProgram program).extent ty = .ok extent :=
  exists_extent_of_complete formed.finite (formed.complete named)

/-! ## Sizes, slots and offsets -/

theorem exists_size {ty : Ty} (named : ty ∈ program.types) :
    ∃ size, (Layout.ofProgram program).size ty = .ok size := by
  obtain ⟨extent, sized⟩ := formed.exists_extent named
  exact ⟨_, map_eq_ok.2 ⟨extent, sized, rfl⟩⟩

theorem exists_slotSize {ty : Ty} (named : ty ∈ program.types) :
    ∃ size, (Layout.ofProgram program).slotSize ty = .ok size := by
  unfold Layout.slotSize
  split
  · exact ⟨4, rfl⟩
  · obtain ⟨size, sized⟩ := formed.exists_size named
    exact ⟨_, map_eq_ok.2 ⟨size, sized, rfl⟩⟩

theorem exists_slotsSize {decls : List VarDecl} (named : ∀ decl ∈ decls, decl.ty ∈ program.types) :
    ∃ size, (Layout.ofProgram program).slotsSize decls = .ok size := by
  induction decls with
  | nil => exact ⟨0, rfl⟩
  | cons first rest ih =>
    obtain ⟨slot, sized⟩ := formed.exists_slotSize (named first List.mem_cons_self)
    obtain ⟨others, summed⟩ := ih fun decl member => named decl (List.mem_cons_of_mem _ member)
    exact ⟨_, bind_eq_ok.2 ⟨slot, sized, bind_eq_ok.2 ⟨others, summed, rfl⟩⟩⟩

theorem exists_offsetBehind {owner name : String} {fields : List VarDecl}
    (named : ∀ field ∈ fields, field.ty ∈ program.types)
    (listed : name ∈ fields.map VarDecl.name) (before : Nat) :
    ∃ offset, (Layout.ofProgram program).offsetBehind owner name before fields = .ok offset := by
  induction fields generalizing before with
  | nil => cases listed
  | cons field rest ih =>
    obtain ⟨extent, sized⟩ := formed.exists_extent (named field List.mem_cons_self)
    by_cases here : field.name = name
    · exact ⟨_, bind_eq_ok.2 ⟨extent, sized, if_pos here⟩⟩
    · have later : name ∈ rest.map VarDecl.name :=
        (List.mem_cons.1 listed).resolve_left fun same => here same.symm
      obtain ⟨offset, found⟩ := ih (fun other member => named other (List.mem_cons_of_mem _ member))
        later (wrapped (alignUp before extent.alignment + extent.size))
      exact ⟨offset, bind_eq_ok.2 ⟨extent, sized, (if_neg here).trans found⟩⟩

theorem exists_fieldOffset {ty : Ty} {name : String}
    (listed : name ∈ (program.fieldsOf ty).map VarDecl.name) :
    ∃ owner offset, ty = .struct owner ∧
      (Layout.ofProgram program).fieldOffset owner name = .ok offset := by
  cases ty with
  | struct owner =>
    cases found : program.struct? owner with
    | none => simp [fieldsOf, found] at listed
    | some decl =>
      rw [fieldsOf, found] at listed
      have named : ∀ field ∈ decl.fields, field.ty ∈ program.types := fun field member =>
        mem_types_of_field (struct?_eq_some found).1 member
      obtain ⟨offset, placed⟩ := formed.exists_offsetBehind named listed 0
      exact ⟨owner, offset, rfl, bind_eq_ok.2 ⟨decl, struct_eq_ok found, placed⟩⟩
  | _ => cases listed

end WellFormed

end Program

end MipsBackend
