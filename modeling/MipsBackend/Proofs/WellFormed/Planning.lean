import MipsBackend.Proofs.Calls.Places
import MipsBackend.Proofs.WellFormed.Extents

/-!
# Plans of well-formed programs

A well-formed program has a memory plan, and the plan has a place for every variable that a function
may refer to and a label for every string literal in it.
-/

namespace MipsBackend

namespace MemoryPlan

variable {layout : Layout} {promotion : Promotion}

/-! ## What plans keep -/

/-- Variables keep a place, and literals a label. -/
structure Extends (before after : MemoryPlan) : Prop where
  ids : ∀ id ∈ before.storage, id ∈ after.storage
  strings : ∀ text ∈ before.strings, text ∈ after.strings

theorem Extends.refl (plan : MemoryPlan) : plan.Extends plan :=
  ⟨fun _ member => member, fun _ member => member⟩

theorem Extends.trans {first second third : MemoryPlan} (left : first.Extends second)
    (right : second.Extends third) : first.Extends third :=
  ⟨fun id member => right.ids id (left.ids id member),
    fun text member => right.strings text (left.strings text member)⟩

theorem mem_storage_store {plan : MemoryPlan} {places : Places} {id : DeclId} :
    id ∈ (plan.store places).storage ↔ id ∈ plan.storage ∨ id ∈ places.map Prod.fst := by
  induction places generalizing plan with
  | nil => simp [store]
  | cons place rest ih =>
    have step : (plan.store (place :: rest)).storage =
        ((plan.store [place]).store rest).storage := plan.storage_store_append [place] rest
    have here : id ∈ (plan.store [place]).storage ↔ id ∈ plan.storage ∨ id = place.1 := by
      simp only [store, List.foldl_cons, List.foldl_nil, Std.ExtTreeMap.mem_insert,
        Std.LawfulEqCmp.compare_eq_iff_eq]
      rw [or_comm, eq_comm]
    rw [step, ih, here, List.map_cons, List.mem_cons, or_assoc]

theorem mem_strings_intern {plan : MemoryPlan} {text other : String} :
    other ∈ (plan.intern text).strings ↔ other ∈ plan.strings ∨ other = text := by
  unfold intern
  split
  · next known =>
    refine ⟨.inl, ?_⟩
    rintro (listed | rfl)
    · exact listed
    · exact known
  · simp only [Std.ExtTreeMap.mem_insert, Std.LawfulEqCmp.compare_eq_iff_eq]
    rw [or_comm, eq_comm]

theorem mem_strings_interned {plan : MemoryPlan} {texts : List String} {other : String} :
    other ∈ (texts.foldl intern plan).strings ↔ other ∈ plan.strings ∨ other ∈ texts := by
  induction texts generalizing plan with
  | nil => simp
  | cons text rest ih => rw [List.foldl_cons, ih, mem_strings_intern, List.mem_cons, or_assoc]

/-- What a declaration needs of the plan. -/
structure Serves (plan : MemoryPlan) (decl : Decl) : Prop where
  ids : ∀ id ∈ decl.ids, id ∈ plan.storage
  strings : ∀ fn, decl = .funDef fn → ∀ text ∈ fn.body.strings, text ∈ plan.strings

theorem Serves.extend {before after : MemoryPlan} {decl : Decl} (serves : before.Serves decl)
    (grown : before.Extends after) : after.Serves decl :=
  ⟨fun id member => grown.ids id (serves.ids id member),
    fun fn same text member => grown.strings text (serves.strings fn same text member)⟩

theorem mem_storage_addDecl {plan after : MemoryPlan} {decl : Decl}
    (added : plan.addDecl layout promotion decl = .ok after) {id : DeclId} :
    id ∈ after.storage ↔ id ∈ plan.storage ∨ id ∈ decl.ids := by
  cases decl with
  | struct decl | funDecl decl =>
    cases added
    simp [Decl.ids]
  | var decl =>
    obtain ⟨size, -, joins⟩ := bind_eq_ok.1 added
    cases joins
    rw [addGlobal, Std.ExtTreeMap.mem_insert, Std.LawfulEqCmp.compare_eq_iff_eq, Decl.ids,
      List.mem_singleton, or_comm, eq_comm]
  | funDef fn =>
    obtain ⟨result, params, locals, space, -, placed, others, rfl⟩ := addFunction_eq_ok added
    rw [(intern_places _ _).1]
    refine mem_storage_store.trans ?_
    rw [List.map_append, Layout.paramPlaces_ids placed, Layout.localPlaces_ids others,
      List.map_reverse]
    simp [Decl.ids]

theorem addDecl_serves {plan after : MemoryPlan} {decl : Decl}
    (added : plan.addDecl layout promotion decl = .ok after) :
    plan.Extends after ∧ after.Serves decl := by
  have storage : ∀ id, id ∈ after.storage ↔ id ∈ plan.storage ∨ id ∈ decl.ids :=
    fun _ => mem_storage_addDecl added
  have strings : (∀ text ∈ plan.strings, text ∈ after.strings) ∧
      ∀ fn, decl = .funDef fn → ∀ text ∈ fn.body.strings, text ∈ after.strings := by
    cases decl with
    | struct decl | funDecl decl =>
      cases added
      exact ⟨fun _ member => member, fun _ same => nomatch same⟩
    | var decl =>
      obtain ⟨size, -, joins⟩ := bind_eq_ok.1 added
      cases joins
      exact ⟨fun _ member => member, fun _ same => nomatch same⟩
    | funDef fn =>
      obtain ⟨result, params, locals, space, -, placed, others, rfl⟩ := addFunction_eq_ok added
      refine ⟨fun text member => mem_strings_interned.2 (.inl member),
        fun other same text member => ?_⟩
      cases same
      exact mem_strings_interned.2 (.inr member)
  exact ⟨⟨fun id member => (storage id).2 (.inl member), strings.1⟩,
    ⟨fun id member => (storage id).2 (.inr member), strings.2⟩⟩

theorem addDecls_serve {decls : List Decl} {plan after : MemoryPlan}
    (added : decls.foldlM (addDecl layout promotion) plan = .ok after) :
    plan.Extends after ∧ ∀ decl ∈ decls, after.Serves decl := by
  induction decls generalizing plan with
  | nil =>
    cases added
    exact ⟨.refl _, fun _ member => nomatch member⟩
  | cons decl rest ih =>
    rw [List.foldlM_cons] at added
    obtain ⟨next, first, others⟩ := bind_eq_ok.1 added
    obtain ⟨grown, own⟩ := addDecl_serves first
    obtain ⟨later, served⟩ := ih others
    exact ⟨grown.trans later, List.forall_mem_cons.2 ⟨own.extend later, served⟩⟩

end MemoryPlan

/-! ## Plans exist -/

namespace Program.WellFormed

variable {program : Program} {entry : String} (formed : program.WellFormed entry)

include formed

theorem exists_resultSize {ret : Ty} (named : ret ∈ program.types) :
    ∃ size, (Layout.ofProgram program).resultSize ret = .ok size := by
  unfold Layout.resultSize
  split
  · exact ⟨0, rfl⟩
  · exact formed.exists_slotSize named

theorem exists_paramPlaces {params : List VarDecl}
    (named : ∀ param ∈ params, param.ty ∈ program.types) (offset : Nat) :
    ∃ places, (Layout.ofProgram program).paramPlaces offset params = .ok places := by
  induction params generalizing offset with
  | nil => exact ⟨[], rfl⟩
  | cons param above ih =>
    obtain ⟨size, sized⟩ := formed.exists_slotSize (named param List.mem_cons_self)
    obtain ⟨places, placed⟩ := ih (fun other member => named other (List.mem_cons_of_mem _ member))
      (offset + size)
    exact ⟨_, bind_eq_ok.2 ⟨size, sized, bind_eq_ok.2 ⟨places, placed, rfl⟩⟩⟩

theorem exists_localPlaces (promotion : Promotion) {decls : List VarDecl}
    (named : ∀ decl ∈ decls, decl.ty ∈ program.types) (space : Nat) :
    ∃ places, (Layout.ofProgram program).localPlaces promotion space decls = .ok places := by
  induction decls generalizing space with
  | nil => exact ⟨_, rfl⟩
  | cons decl below ih =>
    have later := ih fun other member => named other (List.mem_cons_of_mem _ member)
    unfold Layout.localPlaces
    split
    · obtain ⟨places, placed⟩ := later space
      exact ⟨_, bind_eq_ok.2 ⟨places, placed, rfl⟩⟩
    · obtain ⟨size, sized⟩ := formed.exists_size (named decl List.mem_cons_self)
      obtain ⟨places, placed⟩ := later (space + alignUp size 4)
      exact ⟨_, bind_eq_ok.2 ⟨size, sized, bind_eq_ok.2 ⟨places, placed, rfl⟩⟩⟩

theorem exists_addDecl (promotion : Promotion) {decl : Decl} (listed : decl ∈ program.decls)
    (plan : MemoryPlan) :
    ∃ after, plan.addDecl (.ofProgram program) promotion decl = .ok after := by
  have named : ∀ ty ∈ decl.types, ty ∈ program.types := fun ty member =>
    List.mem_flatMap.2 ⟨decl, listed, member⟩
  cases decl with
  | struct decl | funDecl decl => exact ⟨plan, rfl⟩
  | var decl =>
    obtain ⟨size, sized⟩ := formed.exists_size (named decl.ty (List.mem_singleton_self _))
    exact ⟨_, bind_eq_ok.2 ⟨size, sized, rfl⟩⟩
  | funDef fn =>
    have typed : ∀ decl ∈ fn.params ++ fn.body.locals, decl.ty ∈ program.types :=
      fun decl member => named _ (List.mem_cons_of_mem _ (List.mem_append_left _
        (List.mem_map_of_mem member)))
    obtain ⟨result, returned⟩ := formed.exists_resultSize (named fn.ret List.mem_cons_self)
    have typedParams : ∀ param ∈ fn.params.reverse, param.ty ∈ program.types :=
      fun param member => typed param (List.mem_append_left _ (List.mem_reverse.1 member))
    obtain ⟨params, placed⟩ := formed.exists_paramPlaces typedParams (4 + result)
    obtain ⟨⟨locals, space⟩, others⟩ := formed.exists_localPlaces promotion
      (fun decl member => typed decl (List.mem_append_right _ member)) 0
    exact ⟨_, bind_eq_ok.2 ⟨result, returned, bind_eq_ok.2 ⟨params, placed,
      bind_eq_ok.2 ⟨_, others, rfl⟩⟩⟩⟩

theorem exists_memoryPlan (promotion : Promotion) :
    ∃ plan, program.memoryPlan promotion = .ok plan := by
  have adds : ∀ decls ⊆ program.decls, ∀ plan,
      ∃ after, decls.foldlM (MemoryPlan.addDecl (.ofProgram program) promotion) plan = .ok after := by
    intro decls subset
    induction decls with
    | nil => exact fun plan => ⟨plan, rfl⟩
    | cons decl rest ih =>
      intro plan
      obtain ⟨next, added⟩ := formed.exists_addDecl promotion (subset List.mem_cons_self) plan
      obtain ⟨after, others⟩ := ih (fun other member => subset (List.mem_cons_of_mem _ member)) next
      exact ⟨after, by rw [List.foldlM_cons]; exact bind_eq_ok.2 ⟨next, added, others⟩⟩
  exact adds program.decls (List.Subset.refl _) .empty

omit formed in
theorem serves_memoryPlan {promotion : Promotion} {plan : MemoryPlan}
    (planned : program.memoryPlan promotion = .ok plan) : ∀ decl ∈ program.decls, plan.Serves decl :=
  (MemoryPlan.addDecls_serve planned).2

end Program.WellFormed

end MipsBackend
