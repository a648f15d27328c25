import MipsBackend.Lowering.Stmt

/-!
# Fragments of sections

What lowering an expression or a statement writes is a fragment: it contains no marker, and each of
its branches goes to a label of its own or to one of the labels around it. Fragments are put
together in a row, and a label that the fragment defines need not be known outside.
-/

namespace MipsBackend

structure Fragment (outer : List Label) (code : List TextItem) : Prop where
  unmarked : ∀ instr, .instr instr ∈ code → instr.marker? = none
  targets : ∀ instr target, .instr instr ∈ code → instr.branchTarget? = some target →
    target ∈ outer ∨ .label target ∈ code

namespace Fragment

theorem nil (outer : List Label) : Fragment outer [] :=
  ⟨fun _ member => (nomatch member), fun _ _ member => (nomatch member)⟩

theorem append {outer : List Label} {first second : List TextItem} (left : Fragment outer first)
    (right : Fragment outer second) : Fragment outer (first ++ second) := by
  refine ⟨fun instr member => ?_, fun instr target member branches => ?_⟩
  · rcases List.mem_append.1 member with here | later
    · exact left.unmarked instr here
    · exact right.unmarked instr later
  · rcases List.mem_append.1 member with here | later
    · exact (left.targets instr target here branches).imp_right (List.mem_append_left _)
    · exact (right.targets instr target later branches).imp_right (List.mem_append_right _)

theorem mono {outer wider : List Label} {code : List TextItem} (fragment : Fragment outer code)
    (subset : outer ⊆ wider) : Fragment wider code :=
  ⟨fragment.unmarked, fun instr target member branches =>
    (fragment.targets instr target member branches).imp_left fun known => subset known⟩

theorem close {outer : List Label} {label : Label} {code : List TextItem}
    (fragment : Fragment (label :: outer) code) (defined : .label label ∈ code) :
    Fragment outer code := by
  refine ⟨fragment.unmarked, fun instr target member branches => ?_⟩
  rcases fragment.targets instr target member branches with known | own
  · rcases List.mem_cons.1 known with rfl | known
    · exact .inr defined
    · exact .inl known
  · exact .inr own

end Fragment

/-- Whether an instruction is neither a marker nor a branch. -/
def Instr.isOrdinary (instr : Instr) : Bool :=
  instr.marker?.isNone && instr.branchTarget?.isNone

namespace Gen

/-! ## Runs -/

theorem run_bind {α β : Type} {first : Gen α} {next : α → Gen β} {supply : Supply}
    {generated : Generated β} :
    (first >>= next).run supply = .ok generated ↔ ∃ before after,
      first.run supply = .ok before ∧ (next before.value).run before.supply = .ok after ∧
        generated = { after with code := before.code ++ after.code } := by
  change followedBy first next supply = .ok generated ↔ _
  unfold followedBy run
  cases first supply with
  | error violation => simp
  | ok before =>
    cases after : next before.value before.supply with
    | error violation => simp [after]
    | ok found => simp [after, eq_comm]

theorem run_bind_code {α β : Type} {first : Gen α} {next : α → Gen β} {supply : Supply}
    {generated : Generated β} (runs : (first >>= next).run supply = .ok generated) :
    ∃ before after, first.run supply = .ok before ∧
      (next before.value).run before.supply = .ok after ∧ generated.value = after.value ∧
        generated.code = before.code ++ after.code := by
  obtain ⟨before, after, here, later, rfl⟩ := run_bind.1 runs
  exact ⟨before, after, here, later, rfl, rfl⟩

theorem run_lift_bind {α β : Type} {result : Except Violation α} {next : α → Gen β}
    {supply : Supply} {generated : Generated β} :
    (lift result >>= next).run supply = .ok generated ↔
      ∃ value, result = .ok value ∧ (next value).run supply = .ok generated := by
  cases result with
  | error violation =>
    rw [run_bind]
    simp [lift, fail, run]
  | ok value =>
    rw [run_bind]
    constructor
    · rintro ⟨before, after, here, later, rfl⟩
      cases here
      exact ⟨value, rfl, later⟩
    · rintro ⟨found, same, later⟩
      cases same
      exact ⟨_, generated, rfl, later, rfl⟩

/-! ## Computations that write fragments -/

variable {α β : Type} {outer : List Label}

def Fragments (outer : List Label) (gen : Gen α) : Prop :=
  ∀ supply generated, gen.run supply = .ok generated → Fragment outer generated.code

def Defines (label : Label) (gen : Gen α) : Prop :=
  ∀ supply generated, gen.run supply = .ok generated → .label label ∈ generated.code

theorem Fragments.bind {first : Gen α} {next : α → Gen β} (left : first.Fragments outer)
    (right : ∀ value, (next value).Fragments outer) : (first >>= next).Fragments outer := by
  intro supply generated runs
  obtain ⟨before, after, here, later, rfl⟩ := run_bind.1 runs
  exact (left _ _ here).append (right _ _ _ later)

theorem Fragments.mono {wider : List Label} {gen : Gen α} (fragments : gen.Fragments outer)
    (subset : outer ⊆ wider) : gen.Fragments wider :=
  fun supply generated runs => (fragments supply generated runs).mono subset

theorem Fragments.close {label : Label} {gen : Gen α} (fragments : gen.Fragments (label :: outer))
    (defines : gen.Defines label) : gen.Fragments outer :=
  fun supply generated runs => (fragments supply generated runs).close (defines _ _ runs)

theorem Defines.first {label : Label} {first : Gen α} (next : α → Gen β)
    (defines : first.Defines label) : (first >>= next).Defines label := by
  intro supply generated runs
  obtain ⟨before, after, here, later, rfl⟩ := run_bind.1 runs
  exact List.mem_append_left _ (defines _ _ here)

theorem Defines.later {label : Label} (first : Gen α) {next : α → Gen β}
    (defines : ∀ value, (next value).Defines label) : (first >>= next).Defines label := by
  intro supply generated runs
  obtain ⟨before, after, here, later, rfl⟩ := run_bind.1 runs
  exact List.mem_append_right _ (defines _ _ _ later)

theorem fragments_answer (value : α) : (answer value).Fragments outer := by
  intro supply generated runs
  cases runs
  exact .nil outer

theorem fragments_pure (value : α) : (pure value : Gen α).Fragments outer :=
  fragments_answer value

theorem fragments_fail (violation : Violation) : (fail violation : Gen α).Fragments outer :=
  fun _ _ runs => nomatch runs

theorem fragments_lift (result : Except Violation α) : (lift result).Fragments outer := by
  cases result with
  | ok value => exact fragments_answer value
  | error violation => exact fragments_fail violation

theorem fragments_freshReg : freshReg.Fragments outer := by
  intro supply generated runs
  cases runs
  exact .nil outer

theorem fragments_freshLabel : freshLabel.Fragments outer := by
  intro supply generated runs
  cases runs
  exact .nil outer

theorem fragments_label (here : Label) : (label here).Fragments outer := by
  intro supply generated runs
  cases runs
  exact ⟨fun _ member => by simp at member, fun _ _ member => by simp at member⟩

theorem defines_label (here : Label) : (label here).Defines here := by
  intro supply generated runs
  cases runs
  exact List.mem_cons_self

/-- Whether an instruction may stand in a fragment with the given labels around it. -/
def Fits (outer : List Label) (instr : Instr) : Prop :=
  instr.marker? = none ∧ ∀ target, instr.branchTarget? = some target → target ∈ outer

theorem fragments_emit {instrs : List Instr} (fits : ∀ instr ∈ instrs, Fits outer instr) :
    (emit instrs).Fragments outer := by
  intro supply generated runs
  cases runs
  have listed : ∀ instr, .instr instr ∈ instrs.map TextItem.instr → instr ∈ instrs := by
    intro instr member
    obtain ⟨found, here, same⟩ := List.mem_map.1 member
    exact TextItem.instr.inj same ▸ here
  exact ⟨fun instr member => (fits instr (listed instr member)).1,
    fun instr target member branches =>
      .inl ((fits instr (listed instr member)).2 target branches)⟩

theorem fragments_ordinary {instrs : List Instr} (ordinary : instrs.all Instr.isOrdinary = true) :
    (emit instrs).Fragments outer := by
  refine fragments_emit fun instr member => ?_
  have both := List.all_eq_true.1 ordinary instr member
  rw [Instr.isOrdinary, Bool.and_eq_true, Option.isNone_iff_eq_none, Option.isNone_iff_eq_none]
    at both
  refine ⟨both.1, fun target branches => ?_⟩
  rw [both.2] at branches
  cases branches

end Gen

end MipsBackend
