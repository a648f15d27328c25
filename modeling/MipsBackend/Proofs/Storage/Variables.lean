import MipsBackend.Proofs.Lowering.Registers
import MipsBackend.Proofs.Storage.FrameLayout
import MipsBackend.Proofs.WellFormed.Basic

/-!
# Where the variables of a function live

A variable that a function sees is global, or lies in the frame unless it has a register. The slot of
a parameter that is an array holds the address of the array instead of its elements.
-/

namespace MipsBackend

/-- Whether the function gets an array by reference under this number. -/
def FunDef.receives (fn : FunDef) (id : DeclId) : Bool :=
  fn.params.any fun param => param.id = id ∧ param.ty.isArray = true

namespace Program

variable {program : Program} {promotion : Promotion} {plan : MemoryPlan} {fn : FunDef}
  {decl : VarDecl}

def global? (program : Program) (id : DeclId) : Option VarDecl :=
  program.globals.find? (·.id = id)

theorem storage_global (planned : program.memoryPlan promotion = .ok plan)
    (listed : decl ∈ program.globals) (once : program.ids.count decl.id = 1) :
    plan.storage[decl.id]? = some (.global (.global decl.name)) := by
  obtain ⟨before, after, start, next, split, own, rest⟩ :=
    memoryPlan_around planned (mem_globals.1 listed)
  obtain ⟨size, -, joins⟩ := bind_eq_ok.1 own
  cases joins
  have total : program.ids.count decl.id = (before.flatMap Decl.ids).count decl.id +
      (1 + (after.flatMap Decl.ids).count decl.id) := by
    rw [ids, split, List.flatMap_append, List.flatMap_cons, List.count_append, List.count_append,
      Decl.ids, List.count_singleton_self]
  have later : decl.id ∉ after.flatMap Decl.ids := List.count_eq_zero.1 (by omega)
  rw [MemoryPlan.addDecls_storage rest later]
  exact Std.ExtTreeMap.getElem?_insert_self

theorem inScope_of_visible (seen : decl ∈ program.visible fn) : program.InScope fn decl.id := by
  rcases List.mem_append.1 seen with outer | own
  · rcases List.mem_append.1 outer with global | param
    · exact .inl (List.mem_map_of_mem global)
    · exact .inr (List.mem_append_left _ (List.mem_map_of_mem param))
  · exact .inr (List.mem_append_right _ (List.mem_map_of_mem own))

section Function

variable (ids : program.ids.Nodup) (planned : program.memoryPlan promotion = .ok plan)
  (defined : fn ∈ program.functions)

include ids defined

theorem global?_eq_none (own : decl.id ∈ (Decl.funDef fn).ids) : program.global? decl.id = none := by
  refine List.find?_eq_none.2 fun other listed same => ?_
  have apart := disjoint_ids ids (mem_globals.1 listed) (mem_functions.1 defined) (by simp)
  exact apart (List.mem_singleton.2 (of_decide_eq_true same).symm) own

theorem receives_param (listed : decl ∈ fn.params) : fn.receives decl.id = decl.ty.isArray := by
  have distinct := (List.nodup_flatMap.1 ids).1 _ (mem_functions.1 defined)
  have own := List.inj_on_of_nodup_map (List.nodup_append.1 distinct).1
  rw [Bool.eq_iff_iff, FunDef.receives, List.any_eq_true]
  constructor
  · rintro ⟨param, member, same⟩
    obtain ⟨same, array⟩ := of_decide_eq_true same
    rwa [own member listed same] at array
  · exact fun array => ⟨decl, listed, decide_eq_true ⟨rfl, array⟩⟩

theorem receives_local (listed : decl ∈ fn.body.locals) : fn.receives decl.id = false := by
  have distinct := (List.nodup_flatMap.1 ids).1 _ (mem_functions.1 defined)
  rw [FunDef.receives, List.any_eq_false]
  intro param member same
  exact (List.nodup_append.1 distinct).2.2 param.id (List.mem_map_of_mem member) decl.id
    (List.mem_map_of_mem listed) (of_decide_eq_true same).1

/-- A variable that a function sees is promoted only if it is a scalar local of which the function
does not take the address. -/
theorem local_of_visible (seen : decl ∈ program.visible fn) {next reg : VReg}
    (promoted : (program.promotion next).1[decl.id]? = some reg) :
    decl ∈ fn.body.scalarLocals ∧ decl.id ∉ fn.body.addressesTaken := by
  have mine := own_of_promoted ids (inScope_of_visible seen) promoted
  obtain ⟨other, known, found, member, same, kept⟩ := local_of_promoted promoted
  have inside := List.mem_map.2 ⟨found, (List.mem_filter.1 member).1, same⟩
  have alike : fn = other := by
    by_contra differ
    exact disjoint_ids ids (mem_functions.1 defined) (mem_functions.1 known) (by simpa using differ)
      mine (List.mem_append_right _ inside)
  subst alike
  have distinct := List.nodup_append.1 ((List.nodup_flatMap.1 ids).1 _ (mem_functions.1 defined))
  rcases List.mem_append.1 seen with outer | own
  · rcases List.mem_append.1 outer with global | param
    · have apart := disjoint_ids ids (mem_globals.1 global) (mem_functions.1 defined) (by simp)
      exact absurd mine (apart (List.mem_singleton_self _))
    · exact absurd rfl (distinct.2.2 decl.id (List.mem_map_of_mem param) decl.id inside)
  · have equal := List.inj_on_of_nodup_map distinct.2.1 (List.mem_filter.1 member).1 own same
    exact ⟨equal ▸ member, kept⟩

include planned

theorem storage_param_frame (listed : decl ∈ fn.params) :
    ∃ offset, plan.storage[decl.id]? = some (.frame offset (fn.receives decl.id)) := by
  obtain ⟨result, params, locals, space, -, placed, -, stored, -⟩ := places_function planned defined
  obtain ⟨slots, sized⟩ := Layout.slots_of_paramPlaces placed
  obtain ⟨places, again, positions⟩ := Layout.paramPlaces_eq_ok sized (4 + result)
  obtain rfl := Except.ok.inj (placed.symm.trans again)
  obtain ⟨j, here⟩ := List.mem_iff_getElem?.1 (List.mem_reverse.2 listed)
  rw [receives_param ids defined listed]
  exact ⟨_, stored decl.id _ (List.mem_append_left _ (List.mem_of_getElem? (positions j decl here)))
    (count_ids ids (mem_functions.1 defined) (List.mem_append_left _ (List.mem_map_of_mem listed)))⟩

theorem storage_local_frame (listed : decl ∈ fn.body.locals) (kept : promotion[decl.id]? = none) :
    ∃ offset, plan.storage[decl.id]? = some (.frame offset (fn.receives decl.id)) := by
  obtain ⟨result, params, locals, space, -, -, others, stored, -⟩ := places_function planned defined
  obtain ⟨slots, -, -, positions⟩ := Layout.localPlaces_eq_ok others
  obtain ⟨j, here⟩ := List.mem_iff_getElem?.1 listed
  rw [receives_local ids defined listed]
  exact ⟨_, stored decl.id _ (List.mem_append_right _ (positions j decl here kept))
    (count_ids ids (mem_functions.1 defined) (List.mem_append_right _ (List.mem_map_of_mem listed)))⟩

/-- A variable that a function sees lives in its data object, or in the frame. -/
theorem storage_visible (seen : decl ∈ program.visible fn) (kept : promotion[decl.id]? = none) :
    (∃ found, program.global? decl.id = some found ∧
      plan.storage[decl.id]? = some (.global (.global found.name))) ∨
    program.global? decl.id = none ∧
      ∃ offset, plan.storage[decl.id]? = some (.frame offset (fn.receives decl.id)) := by
  rcases List.mem_append.1 seen with outer | inner
  · rcases List.mem_append.1 outer with global | param
    · refine .inl ?_
      have named : ∃ other ∈ program.globals, decide (other.id = decl.id) = true :=
        ⟨decl, global, by simp⟩
      obtain ⟨found, first⟩ := Option.isSome_iff_exists.1 (List.find?_isSome.2 named)
      have same : found.id = decl.id := by simpa using List.find?_some first
      have listed := List.mem_of_find?_eq_some first
      have stored := storage_global planned listed
        (count_ids ids (mem_globals.1 listed) (List.mem_singleton_self _))
      exact ⟨found, first, same ▸ stored⟩
    · exact .inr ⟨global?_eq_none ids defined (List.mem_append_left _ (List.mem_map_of_mem param)),
        storage_param_frame ids planned defined param⟩
  · exact .inr ⟨global?_eq_none ids defined (List.mem_append_right _ (List.mem_map_of_mem inner)),
      storage_local_frame ids planned defined inner kept⟩

end Function

end Program

end MipsBackend
