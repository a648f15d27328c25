import MipsBackend.Storage.Promotion

/-!
# Registers of promoted variables

Promotion draws its registers in order and takes some of them away again, so no two variables share
one, and all lie below the first register that is still free. A promoted variable is a scalar local
of some function, which does not take its address.
-/

namespace MipsBackend

namespace Promotion

/-- Every variable has a register of its own, below `next`. -/
structure Distinct (promotion : Promotion) (next : VReg) : Prop where
  below : ∀ (id : DeclId) (reg : VReg), promotion[id]? = some reg → reg < next
  own : ∀ (id other : DeclId) (reg : VReg), promotion[id]? = some reg →
    promotion[other]? = some reg → id = other

theorem distinct_empty (next : VReg) : Distinct ∅ next :=
  ⟨fun _ _ found => by simp at found, fun _ _ _ found => by simp at found⟩

variable {promotion : Promotion} {next : VReg}

theorem Distinct.insert (distinct : promotion.Distinct next) (id : DeclId) :
    Distinct (promotion.insert id next) (next + 1) where
  below other reg found := by
    rw [Std.ExtTreeMap.getElem?_insert] at found
    split at found
    · cases found
      exact Nat.lt_succ_self next
    · exact Nat.lt_succ_of_lt (distinct.below other reg found)
  own first second reg found also := by
    have fresh : ∀ other : DeclId, promotion[other]? ≠ some next :=
      fun other taken => Nat.lt_irrefl next (distinct.below other next taken)
    rw [Std.ExtTreeMap.getElem?_insert] at found also
    split at found <;> split at also
    · next here there =>
      exact (Std.LawfulEqCmp.eq_of_compare here).symm.trans (Std.LawfulEqCmp.eq_of_compare there)
    · cases found
      exact absurd also (fresh second)
    · cases also
      exact absurd found (fresh first)
    · exact distinct.own first second reg found also

theorem Distinct.erase (distinct : promotion.Distinct next) (id : DeclId) :
    Distinct (promotion.erase id) next := by
  have kept : ∀ (other : DeclId) (reg : VReg), (promotion.erase id)[other]? = some reg →
      promotion[other]? = some reg := by
    intro other reg found
    rw [Std.ExtTreeMap.getElem?_erase] at found
    split at found
    · cases found
    · exact found
  exact ⟨fun other reg found => distinct.below other reg (kept other reg found),
    fun first second reg found also => distinct.own first second reg (kept _ _ found) (kept _ _ also)⟩

theorem Distinct.grant (distinct : promotion.Distinct next) (decls : List VarDecl) :
    (promotion.grant next decls).1.Distinct (promotion.grant next decls).2 := by
  induction decls generalizing promotion next with
  | nil => exact distinct
  | cons decl rest ih => exact ih (distinct.insert decl.id)

theorem Distinct.revoke (distinct : promotion.Distinct next) (ids : List DeclId) :
    (promotion.revoke ids).Distinct next := by
  induction ids generalizing promotion with
  | nil => exact distinct
  | cons id rest ih => exact ih (distinct.erase id)

theorem Distinct.promoteAll (distinct : promotion.Distinct next) (functions : List FunDef) :
    (promoteAll promotion next functions).1.Distinct (promoteAll promotion next functions).2 := by
  induction functions generalizing promotion next with
  | nil => exact distinct
  | cons fn rest ih => exact ih ((distinct.grant fn.body.scalarLocals).revoke fn.body.addressesTaken)

theorem getElem?_grant {decls : List VarDecl} {id : DeclId} {reg : VReg}
    (known : (promotion.grant next decls).1[id]? = some reg) :
    promotion[id]? = some reg ∨ ∃ decl ∈ decls, decl.id = id := by
  induction decls generalizing promotion next with
  | nil => exact .inl known
  | cons first rest ih =>
    rcases ih known with before | ⟨decl, member, same⟩
    · rw [Std.ExtTreeMap.getElem?_insert] at before
      split at before
      · next same => exact .inr ⟨first, List.mem_cons_self, Std.LawfulEqCmp.eq_of_compare same⟩
      · exact .inl before
    · exact .inr ⟨decl, List.mem_cons_of_mem _ member, same⟩

theorem getElem?_revoke {ids : List DeclId} {id : DeclId} {reg : VReg}
    (known : (promotion.revoke ids)[id]? = some reg) : promotion[id]? = some reg ∧ id ∉ ids := by
  induction ids generalizing promotion with
  | nil => exact ⟨known, List.not_mem_nil⟩
  | cons first rest ih =>
    obtain ⟨before, absent⟩ := ih known
    rw [Std.ExtTreeMap.getElem?_erase] at before
    split at before
    · cases before
    · next differ =>
      have other : id ≠ first := fun same => differ (Std.compare_eq_iff_eq.2 same.symm)
      exact ⟨before, List.not_mem_cons_of_ne_of_not_mem other absent⟩

theorem getElem?_promoteAll {functions : List FunDef} {id : DeclId} {reg : VReg}
    (known : (promoteAll promotion next functions).1[id]? = some reg) :
    promotion[id]? = some reg ∨ ∃ fn ∈ functions, ∃ decl ∈ fn.body.scalarLocals,
      decl.id = id ∧ id ∉ fn.body.addressesTaken := by
  induction functions generalizing promotion next with
  | nil => exact .inl known
  | cons fn rest ih =>
    rcases ih known with before | ⟨other, member, here⟩
    · obtain ⟨granted, kept⟩ := getElem?_revoke before
      rcases getElem?_grant granted with older | ⟨decl, member, same⟩
      · exact .inl older
      · exact .inr ⟨fn, List.mem_cons_self, decl, member, same, kept⟩
    · exact .inr ⟨other, List.mem_cons_of_mem _ member, here⟩

/-! ## What is granted -/

/-- The registers are all drawn from `first` on. -/
def Since (first : VReg) (promotion : Promotion) : Prop :=
  ∀ (id : DeclId) (reg : VReg), promotion[id]? = some reg → first ≤ reg

variable {first : VReg}

theorem Since.grant (since : promotion.Since first) (bound : first ≤ next) (decls : List VarDecl) :
    (promotion.grant next decls).1.Since first ∧ first ≤ (promotion.grant next decls).2 := by
  induction decls generalizing promotion next with
  | nil => exact ⟨since, bound⟩
  | cons decl rest ih =>
    refine ih (fun id reg found => ?_) (Nat.le_succ_of_le bound)
    rw [Std.ExtTreeMap.getElem?_insert] at found
    split at found
    · cases found
      exact bound
    · exact since id reg found

theorem Since.promoteAll (since : promotion.Since first) (bound : first ≤ next)
    (functions : List FunDef) : (promoteAll promotion next functions).1.Since first := by
  induction functions generalizing promotion next with
  | nil => exact since
  | cons fn rest ih =>
    obtain ⟨granted, later⟩ := since.grant bound fn.body.scalarLocals
    exact ih (fun id reg found => granted id reg (getElem?_revoke found).1) later

end Promotion

theorem Program.local_of_promoted {program : Program} {next : VReg} {id : DeclId} {reg : VReg}
    (known : (program.promotion next).1[id]? = some reg) :
    ∃ fn ∈ program.functions, ∃ decl ∈ fn.body.scalarLocals,
      decl.id = id ∧ id ∉ fn.body.addressesTaken :=
  (Promotion.getElem?_promoteAll known).resolve_left (by simp)

theorem Program.distinct_promotion (program : Program) (next : VReg) :
    (program.promotion next).1.Distinct (program.promotion next).2 :=
  (Promotion.distinct_empty next).promoteAll program.functions

end MipsBackend
