import MipsBackend.Proofs.Calls.Slots

/-!
# Places in the memory plan

The plan of a program keeps the place that a function gives to a parameter, as long as no other
declaration has the number of the parameter.
-/

namespace MipsBackend

def Decl.ids : Decl → List DeclId
  | .var decl => [decl.id]
  | .funDef fn => fn.params.map VarDecl.id ++ fn.body.locals.map VarDecl.id
  | .struct _ | .funDecl _ => []

def Program.ids (program : Program) : List DeclId := program.decls.flatMap Decl.ids

namespace Layout

theorem paramPlaces_ids {layout : Layout} {offset : Nat} {params : List VarDecl} {places : Places}
    (placed : layout.paramPlaces offset params = .ok places) :
    places.map Prod.fst = params.map VarDecl.id := by
  induction params generalizing offset places with
  | nil =>
    cases placed
    rfl
  | cons first rest ih =>
    obtain ⟨size, -, walks⟩ := bind_eq_ok.1 placed
    obtain ⟨later, others, joins⟩ := bind_eq_ok.1 walks
    cases joins
    rw [List.map_cons, List.map_cons, ih others]

theorem localPlaces_ids {layout : Layout} {promotion : Promotion} {space total : Nat}
    {decls : List VarDecl} {places : Places}
    (placed : layout.localPlaces promotion space decls = .ok (places, total)) :
    places.map Prod.fst = decls.map VarDecl.id := by
  induction decls generalizing space places with
  | nil =>
    cases placed
    rfl
  | cons decl below ih =>
    unfold localPlaces at placed
    split at placed
    · obtain ⟨found, others, joins⟩ := bind_eq_ok.1 placed
      cases joins
      rw [List.map_cons, List.map_cons, ih others]
    · obtain ⟨size, -, walks⟩ := bind_eq_ok.1 placed
      obtain ⟨found, others, joins⟩ := bind_eq_ok.1 walks
      cases joins
      rw [List.map_cons, List.map_cons, ih others]

end Layout

namespace MemoryPlan

variable {layout : Layout} {promotion : Promotion}

theorem storage_store_append (plan : MemoryPlan) (first second : Places) :
    (plan.store (first ++ second)).storage = ((plan.store first).store second).storage := by
  simp only [store, List.foldl_append]

theorem storage_store_of_not_mem {plan : MemoryPlan} {places : Places} {id : DeclId}
    (absent : id ∉ places.map Prod.fst) :
    (plan.store places).storage[id]? = plan.storage[id]? := by
  induction places generalizing plan with
  | nil => rfl
  | cons place rest ih =>
    rw [List.map_cons, List.mem_cons, not_or] at absent
    have step : (plan.store (place :: rest)).storage =
        ((plan.store [place]).store rest).storage := plan.storage_store_append [place] rest
    have other : compare place.1 id ≠ .eq := by
      rw [ne_eq, Std.LawfulEqCmp.compare_eq_iff_eq]
      exact Ne.symm absent.1
    have kept : (plan.store [place]).storage[id]? = plan.storage[id]? := by
      simp only [store, List.foldl_cons, List.foldl_nil, Std.ExtTreeMap.getElem?_insert, if_neg other]
    rw [step, ih absent.2, kept]

theorem storage_store_of_last {plan : MemoryPlan} {before after : Places} {id : DeclId}
    {place : Storage} (last : id ∉ after.map Prod.fst) :
    (plan.store (before ++ (id, place) :: after)).storage[id]? = some place := by
  have step : (plan.store (before ++ (id, place) :: after)).storage =
      (((plan.store before).store [(id, place)]).store after).storage := by
    rw [storage_store_append]
    exact (plan.store before).storage_store_append [(id, place)] after
  rw [step, storage_store_of_not_mem last]
  simp only [store, List.foldl_cons, List.foldl_nil, Std.ExtTreeMap.getElem?_insert_self]

theorem storage_store_of_once {plan : MemoryPlan} {places : Places} {j : Nat} {id : DeclId}
    {place : Storage} (here : places[j]? = some (id, place))
    (once : (places.map Prod.fst).count id ≤ 1) :
    (plan.store places).storage[id]? = some place := by
  obtain ⟨bound, at_j⟩ := List.getElem?_eq_some_iff.1 here
  have cut : places = places.take j ++ (id, place) :: places.drop (j + 1) := by
    rw [← at_j, ← List.drop_eq_getElem_cons bound, List.take_append_drop]
  rw [cut, List.map_append, List.map_cons, List.count_append, List.count_cons_self] at once
  rw [cut]
  exact storage_store_of_last (List.count_eq_zero.1 (by omega))

theorem intern_places (plan : MemoryPlan) (texts : List String) :
    (texts.foldl intern plan).storage = plan.storage ∧
      (texts.foldl intern plan).localSpace = plan.localSpace := by
  induction texts generalizing plan with
  | nil => exact ⟨rfl, rfl⟩
  | cons text rest ih =>
    rw [List.foldl_cons, (ih _).1, (ih _).2, intern]
    split <;> exact ⟨rfl, rfl⟩

theorem addFunction_eq_ok {plan after : MemoryPlan} {fn : FunDef}
    (added : plan.addFunction layout promotion fn = .ok after) :
    ∃ result params locals space, layout.resultSize fn.ret = .ok result ∧
      layout.paramPlaces (4 + result) fn.params.reverse = .ok params ∧
      layout.localPlaces promotion 0 fn.body.locals = .ok (locals, space) ∧
      after = fn.body.strings.foldl intern
        { plan.store (params ++ locals) with
          localSpace := plan.localSpace.insert fn.name space } := by
  obtain ⟨result, returned, places⟩ := bind_eq_ok.1 added
  obtain ⟨params, placed, located⟩ := bind_eq_ok.1 places
  obtain ⟨⟨locals, space⟩, others, joins⟩ := bind_eq_ok.1 located
  exact ⟨result, params, locals, space, returned, placed, others, (Except.ok.inj joins).symm⟩

theorem addDecl_storage {plan after : MemoryPlan} {decl : Decl} {id : DeclId}
    (added : plan.addDecl layout promotion decl = .ok after) (absent : id ∉ decl.ids) :
    after.storage[id]? = plan.storage[id]? := by
  cases decl with
  | struct decl | funDecl decl =>
    cases added
    rfl
  | var decl =>
    obtain ⟨size, -, joins⟩ := bind_eq_ok.1 added
    cases joins
    have other : compare decl.id id ≠ .eq := by
      rw [ne_eq, Std.LawfulEqCmp.compare_eq_iff_eq]
      exact fun same => absent (List.mem_singleton.2 same.symm)
    rw [addGlobal, Std.ExtTreeMap.getElem?_insert, if_neg other]
  | funDef fn =>
    obtain ⟨result, params, locals, space, -, placed, others, rfl⟩ := addFunction_eq_ok added
    rw [(intern_places _ _).1]
    refine storage_store_of_not_mem ?_
    rw [List.map_append, Layout.paramPlaces_ids placed, Layout.localPlaces_ids others,
      List.map_reverse]
    simpa [Decl.ids] using absent

theorem addDecl_spaceOf {plan after : MemoryPlan} {decl : Decl} {name : String}
    (added : plan.addDecl layout promotion decl = .ok after)
    (absent : ∀ fn, decl = .funDef fn → fn.name ≠ name) :
    after.spaceOf name = plan.spaceOf name := by
  cases decl with
  | struct decl | funDecl decl =>
    cases added
    rfl
  | var decl =>
    obtain ⟨size, -, joins⟩ := bind_eq_ok.1 added
    cases joins
    rfl
  | funDef fn =>
    obtain ⟨result, params, locals, space, -, -, -, rfl⟩ := addFunction_eq_ok added
    have other : compare fn.name name ≠ .eq := by
      rw [ne_eq, Std.LawfulEqCmp.compare_eq_iff_eq]
      exact absent fn rfl
    rw [spaceOf, (intern_places _ _).2, Std.ExtTreeMap.getD_insert, if_neg other]
    rfl

/-- What every declaration keeps, all of them keep. -/
theorem addDecls_keep {holds : MemoryPlan → Prop} {decls : List Decl} {plan after : MemoryPlan}
    (added : decls.foldlM (addDecl layout promotion) plan = .ok after)
    (step : ∀ decl ∈ decls, ∀ plan after, plan.addDecl layout promotion decl = .ok after →
      holds plan → holds after)
    (start : holds plan) : holds after := by
  induction decls generalizing plan with
  | nil =>
    cases added
    exact start
  | cons decl rest ih =>
    rw [List.foldlM_cons] at added
    obtain ⟨next, first, others⟩ := bind_eq_ok.1 added
    exact ih others (fun other member => step other (List.mem_cons_of_mem _ member))
      (step decl List.mem_cons_self plan next first start)

theorem addDecls_storage {decls : List Decl} {plan after : MemoryPlan} {id : DeclId}
    (added : decls.foldlM (addDecl layout promotion) plan = .ok after)
    (absent : id ∉ decls.flatMap Decl.ids) : after.storage[id]? = plan.storage[id]? := by
  let holds (other : MemoryPlan) : Prop := other.storage[id]? = plan.storage[id]?
  refine @addDecls_keep _ _ holds _ _ _ added (fun decl listed _ _ first known => ?_) rfl
  exact (addDecl_storage first fun own =>
    absent (List.mem_flatMap.2 ⟨decl, listed, own⟩)).trans known

end MemoryPlan

namespace Program

theorem mem_declared {α : Type} {select : Decl → Option α} {make : α → Decl}
    (inverse : ∀ decl found, select decl = some found ↔ decl = make found) {decls : List Decl}
    {found : α} : found ∈ decls.filterMap select ↔ make found ∈ decls := by
  rw [List.mem_filterMap]
  constructor
  · rintro ⟨decl, member, same⟩
    exact (inverse decl found).1 same ▸ member
  · exact fun member => ⟨_, member, (inverse _ found).2 rfl⟩

theorem mem_functions {program : Program} {fn : FunDef} :
    fn ∈ program.functions ↔ .funDef fn ∈ program.decls :=
  mem_declared fun decl fn => by cases decl <;> simp

/-- The variables of a function are declared once if all are. -/
theorem count_ids {program : Program} (ids : program.ids.Nodup) {decl : Decl}
    (declared : decl ∈ program.decls) {id : DeclId} (own : id ∈ decl.ids) :
    program.ids.count id = 1 :=
  List.count_eq_one_of_mem ids (List.mem_flatMap.2 ⟨decl, declared, own⟩)

theorem functions_around {program : Program} {before after : List Decl} {fn : FunDef}
    (split : program.decls = before ++ .funDef fn :: after) :
    program.functions = functions ⟨before⟩ ++ fn :: functions ⟨after⟩ := by
  rw [functions, split, List.filterMap_append]
  rfl

/-- The plan around the moment when a declaration gets its places. -/
theorem memoryPlan_around {program : Program} {promotion : Promotion} {plan : MemoryPlan}
    {decl : Decl} (planned : program.memoryPlan promotion = .ok plan)
    (declared : decl ∈ program.decls) :
    ∃ before after, ∃ start next : MemoryPlan, program.decls = before ++ decl :: after ∧
      start.addDecl (.ofProgram program) promotion decl = .ok next ∧
      after.foldlM (MemoryPlan.addDecl (.ofProgram program) promotion) next = .ok plan := by
  obtain ⟨before, after, split⟩ := List.append_of_mem declared
  unfold memoryPlan at planned
  rw [split, List.foldlM_append] at planned
  obtain ⟨start, -, rest⟩ := bind_eq_ok.1 planned
  rw [List.foldlM_cons] at rest
  obtain ⟨next, own, rest⟩ := bind_eq_ok.1 rest
  exact ⟨before, after, start, next, split, own, rest⟩

/-- The plan keeps the places of a function whose name and variables are declared once. -/
theorem places_function {program : Program} {promotion : Promotion} {plan : MemoryPlan}
    {fn : FunDef} (planned : program.memoryPlan promotion = .ok plan)
    (defined : fn ∈ program.functions) :
    ∃ result params locals space, (Layout.ofProgram program).resultSize fn.ret = .ok result ∧
      (Layout.ofProgram program).paramPlaces (4 + result) fn.params.reverse = .ok params ∧
      (Layout.ofProgram program).localPlaces promotion 0 fn.body.locals = .ok (locals, space) ∧
      (∀ (id : DeclId) place, (id, place) ∈ params ++ locals → program.ids.count id = 1 →
        plan.storage[id]? = some place) ∧
      ((program.functions.map fun fn => fn.name).Nodup → plan.spaceOf fn.name = space) := by
  obtain ⟨before, after, start, next, split, own, rest⟩ := memoryPlan_around planned (mem_functions.1 defined)
  obtain ⟨result, params, locals, space, returned, placed, others, rfl⟩ :=
    MemoryPlan.addFunction_eq_ok own
  refine ⟨result, params, locals, space, returned, placed, others, fun id place member once => ?_,
    fun distinct => ?_⟩
  · have ownCount : ((params ++ locals).map Prod.fst).count id =
        (Decl.funDef fn).ids.count id := by
      rw [List.map_append, Layout.paramPlaces_ids placed, Layout.localPlaces_ids others, Decl.ids,
        List.count_append, List.count_append, List.map_reverse, List.count_reverse]
    have total : program.ids.count id = (before.flatMap Decl.ids).count id +
        (((params ++ locals).map Prod.fst).count id + (after.flatMap Decl.ids).count id) := by
      rw [ids, split, List.flatMap_append, List.flatMap_cons, List.count_append,
        List.count_append, ownCount]
    have appears : 0 < ((params ++ locals).map Prod.fst).count id :=
      List.count_pos_iff.2 (List.mem_map_of_mem (f := Prod.fst) member)
    have later : id ∉ after.flatMap Decl.ids := List.count_eq_zero.1 (by omega)
    obtain ⟨j, here⟩ := List.mem_iff_getElem?.1 member
    rw [MemoryPlan.addDecls_storage rest later, (MemoryPlan.intern_places _ _).1]
    exact MemoryPlan.storage_store_of_once here (by omega)
  · let holds (plan : MemoryPlan) : Prop := plan.spaceOf fn.name = space
    refine @MemoryPlan.addDecls_keep _ _ holds _ _ _ rest (fun decl listed _ _ added known => ?_) ?_
    · refine (MemoryPlan.addDecl_spaceOf added ?_).trans known
      rintro other rfl same
      rw [functions_around split, List.map_append, List.map_cons, List.nodup_append'] at distinct
      exact (List.nodup_cons.1 distinct.2.1).1
        (List.mem_map.2 ⟨other, (@mem_functions ⟨after⟩ other).2 listed, same⟩)
    · dsimp only [holds]
      rw [MemoryPlan.spaceOf, (MemoryPlan.intern_places _ _).2, Std.ExtTreeMap.getD_insert_self]

theorem storage_param {program : Program} {promotion : Promotion} {plan : MemoryPlan} {fn : FunDef}
    {result j : Nat} {params : Places} {id : DeclId} {place : Storage}
    (planned : program.memoryPlan promotion = .ok plan) (defined : fn ∈ program.functions)
    (returned : (Layout.ofProgram program).resultSize fn.ret = .ok result)
    (placed : (Layout.ofProgram program).paramPlaces (4 + result) fn.params.reverse = .ok params)
    (here : params[j]? = some (id, place)) (once : program.ids.count id = 1) :
    plan.storage[id]? = some place := by
  obtain ⟨found, ownParams, locals, space, known, ownPlaced, -, stored, -⟩ :=
    places_function planned defined
  obtain rfl := Except.ok.inj (returned.symm.trans known)
  obtain rfl := Except.ok.inj (placed.symm.trans ownPlaced)
  exact stored id place (List.mem_append_left _ (List.mem_of_getElem? here)) once

end Program

end MipsBackend
