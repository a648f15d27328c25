import MipsBackend.Proofs.Lowering.Mentions
import MipsBackend.Proofs.Lowering.Uniqueness
import MipsBackend.Proofs.Storage.Promotion

/-!
# Registers of sections

If the functions of a program refer to global variables and to their own ones only, no virtual
register occurs in two sections: a function mentions the registers of its own variables, which lie
below all others, and those that it draws itself.
-/

namespace MipsBackend

namespace Program

def InScope (program : Program) (fn : FunDef) (id : DeclId) : Prop :=
  id ∈ program.globals.map VarDecl.id ∨ id ∈ (Decl.funDef fn).ids

/-- All references are to variables in scope. -/
def Scoped (program : Program) : Prop :=
  ∀ fn ∈ program.functions, ∀ e ∈ fn.body.exprs, ∀ id ∈ e.declId?, program.InScope fn id

instance (program : Program) (fn : FunDef) (id : DeclId) : Decidable (program.InScope fn id) :=
  inferInstanceAs (Decidable (_ ∨ _))

-- Identifiers are 32-bit words, so a search for instances may try them all in turn.
instance (program : Program) : Decidable program.Scoped :=
  have : (fn : FunDef) → (e : Expr) → Decidable (∀ id ∈ e.declId?, program.InScope fn id) :=
    fun _ _ => Option.decidableForallMem _
  inferInstanceAs (Decidable (∀ fn ∈ program.functions, ∀ e ∈ fn.body.exprs, ∀ id ∈ e.declId?, _))

/-! ## Variables of different functions -/

theorem disjoint_ids {program : Program} (ids : program.ids.Nodup) {first second : Decl}
    (here : first ∈ program.decls) (there : second ∈ program.decls) (differ : first ≠ second) :
    first.ids.Disjoint second.ids := by
  have symmetric : Std.Symm (Function.onFun List.Disjoint Decl.ids) :=
    ⟨fun _ _ disjoint => List.Disjoint.symm disjoint⟩
  exact (List.nodup_flatMap.1 ids).2.forall here there differ

theorem pairwise_functions {program : Program} (ids : program.ids.Nodup) :
    program.functions.Pairwise fun first second =>
      (Decl.funDef first).ids.Disjoint (Decl.funDef second).ids := by
  refine List.Pairwise.filterMap _ ?_ (List.nodup_flatMap.1 ids).2
  rintro (_ | _ | _ | first) (_ | _ | _ | second) disjoint one named two also <;> cases named <;>
    cases also
  exact disjoint

theorem own_of_promoted {program : Program} (ids : program.ids.Nodup) {fn : FunDef} {id : DeclId}
    {next reg : VReg} (inScope : program.InScope fn id)
    (promoted : (program.promotion next).1[id]? = some reg) : id ∈ (Decl.funDef fn).ids := by
  refine inScope.resolve_left fun global => ?_
  obtain ⟨decl, listed, rfl⟩ := List.mem_map.1 global
  obtain ⟨other, defined, found, member, same, -⟩ := local_of_promoted promoted
  have apart := disjoint_ids ids (mem_globals.1 listed) (mem_functions.1 defined) (by simp)
  refine apart (List.mem_singleton_self _) (List.mem_append_right _ ?_)
  exact List.mem_map.2 ⟨found, (List.mem_filter.1 member).1, same⟩

end Program

/-! ## Sections -/

namespace Section

def Within (scope : Scope) (code : Section) : Prop :=
  ∀ instr ∈ code.instructions, scope.Allows instr

theorem Within.registers {scope : Scope} {code : Section} (within : code.Within scope) {reg : VReg}
    (member : reg ∈ code.registers) : scope.regs reg := by
  obtain ⟨instr, listed, mentioned⟩ := mem_registers.1 member
  exact (within instr listed).operand mentioned

def Apart (first second : Section) : Prop := ∀ reg ∈ first.registers, reg ∉ second.registers

end Section

theorem within_functionSection {scope : Scope} {body : List TextItem}
    (allowed : ∀ instr, .instr instr ∈ body → scope.Allows instr) (name : String) (space : Nat) :
    (functionSection name space body).Within scope := by
  have reserves : ∀ instr ∈ reserveCode space, scope.Allows instr := by
    unfold reserveCode
    split <;> simp [Instr.adjustStack, Instr.uses, Instr.def?]
  have enters : ∀ instr ∈ enterCode space, scope.Allows instr := by
    refine List.forall_mem_append.2 ⟨?_, reserves⟩
    simp [Instr.adjustStack, Instr.sw, Instr.uses, Instr.def?]
  have leaves : ∀ instr ∈ leaveCode, scope.Allows instr := by
    simp [leaveCode, Instr.lw, Instr.uses, Instr.def?]
  unfold Section.Within
  rw [instructions_functionSection, List.forall_mem_append, List.forall_mem_cons,
    List.forall_mem_append]
  refine ⟨enters, by simp [Instr.uses, Instr.def?], fun instr member => ?_, leaves⟩
  exact allowed instr (Section.mem_instructions.1 member)

namespace Env

/-- If each function keeps to registers of its own and those that it draws, no two sections share
one. -/
theorem apart_lowerFunctions {env : Env} {own : FunDef → VReg → Prop} {functions : List FunDef}
    {supply : Supply} {sections : List Section}
    (keeps : ∀ fn ∈ functions, ∀ start body, env.LowersBody fn start body →
      start.nextReg ≤ body.supply.nextReg ∧
        ∀ reg ∈ (functionSection fn.name (env.plan.spaceOf fn.name) body.code).registers,
          own fn reg ∨ start.nextReg ≤ reg ∧ reg < body.supply.nextReg)
    (below : ∀ fn ∈ functions, ∀ reg, own fn reg → reg < supply.nextReg)
    (apart : functions.Pairwise fun first second => ∀ reg, own first reg → ¬ own second reg)
    (lowers : env.lowerFunctions supply functions = .ok sections) :
    sections.Pairwise Section.Apart ∧
      ∀ code ∈ sections, ∀ reg ∈ code.registers,
        (∃ fn ∈ functions, own fn reg) ∨ supply.nextReg ≤ reg := by
  induction functions generalizing supply sections with
  | nil =>
    cases lowers
    exact ⟨.nil, fun _ member => nomatch member⟩
  | cons fn rest ih =>
    obtain ⟨generated, runs, walks⟩ := bind_eq_ok.1 lowers
    obtain ⟨later, others, joins⟩ := bind_eq_ok.1 walks
    cases joins
    obtain ⟨body, lowersBody, behind, whole⟩ := run_lowerFunction_body runs
    obtain ⟨grown, mentioned⟩ := keeps fn List.mem_cons_self _ _ lowersBody
    rw [← behind] at grown mentioned
    rw [← whole] at mentioned
    obtain ⟨separate, kept⟩ := ih
      (fun other member => keeps other (List.mem_cons_of_mem _ member))
      (fun other member reg known =>
        Nat.lt_of_lt_of_le (below other (List.mem_cons_of_mem _ member) reg known) grown)
      (List.pairwise_cons.1 apart).2 others
    refine ⟨List.pairwise_cons.2 ⟨fun code listed reg here there => ?_, separate⟩, ?_⟩
    · rcases mentioned reg here with mine | ⟨lower, upper⟩
      · rcases kept code listed reg there with ⟨other, member, theirs⟩ | fresh
        · exact (List.pairwise_cons.1 apart).1 other member reg mine theirs
        · exact Nat.lt_irrefl _
            (Nat.lt_of_lt_of_le (below fn List.mem_cons_self reg mine) (Nat.le_trans grown fresh))
      · rcases kept code listed reg there with ⟨other, member, theirs⟩ | fresh
        · exact Nat.lt_irrefl _
            (Nat.lt_of_lt_of_le (below other (List.mem_cons_of_mem _ member) reg theirs) lower)
        · exact Nat.lt_irrefl _ (Nat.lt_of_lt_of_le upper fresh)
    · refine List.forall_mem_cons.2 ⟨fun reg here => ?_, fun code listed reg there => ?_⟩
      · rcases mentioned reg here with mine | ⟨lower, -⟩
        · exact .inl ⟨fn, List.mem_cons_self, mine⟩
        · exact .inr lower
      · rcases kept code listed reg there with ⟨other, member, theirs⟩ | fresh
        · exact .inl ⟨other, List.mem_cons_of_mem _ member, theirs⟩
        · exact .inr (Nat.le_trans grown fresh)

end Env

/-! ## Programs -/

namespace Program

variable {program : Program} {plan : MemoryPlan}

/-- What the code of a function may mention, if it draws the registers from the first up to the
last. -/
def scope (program : Program) (plan : MemoryPlan) (fn : FunDef) (first last : VReg) : Scope where
  regs reg := (∃ id, program.InScope fn id ∧ (program.promotion 0).1[id]? = some reg) ∨
    first ≤ reg ∧ reg < last
  data label := label ∈ dataLabels plan.data

theorem sees_scope (planned : program.memoryPlan (program.promotion 0).1 = .ok plan)
    (fn : FunDef) (first last : VReg) :
    (program.env plan).Sees (program.scope plan fn first last) (program.InScope fn) := by
  have lists := lists_memoryPlan planned
  refine ⟨fun id reg named known => .inl ⟨id, named, known⟩,
    fun id reg named known => .inl ⟨id, named, lists.register id reg known⟩,
    fun id label _ known => ?_, fun text label known => ?_⟩
  · obtain ⟨decl, member, rfl⟩ := lists.global id label known
    exact lists.data.mem_iff.2 (List.mem_append_left _ (List.mem_map.2 ⟨decl, member, rfl⟩))
  · exact lists.data.mem_iff.2 (List.mem_append_right _ (lists.string text label known))

theorem within_scope (bound : program.Scoped)
    (planned : program.memoryPlan (program.promotion 0).1 = .ok plan) {fn : FunDef}
    (defined : fn ∈ program.functions) {start : Supply} {body : Generated Unit}
    (lowers : (program.env plan).LowersBody fn start body) :
    start.nextReg ≤ body.supply.nextReg ∧
      (functionSection fn.name (plan.spaceOf fn.name) body.code).Within
        (program.scope plan fn start.nextReg body.supply.nextReg) := by
  have mentioned := Stmt.mentions_lowerAll (sees_scope planned fn start.nextReg
    body.supply.nextReg) none True fn.body.stmts (bound fn defined) start body lowers
  refine ⟨mentioned.grows, within_functionSection ?_ _ _⟩
  exact (mentioned.allowed trivial fun reg lower upper => .inr ⟨lower, upper⟩).1

theorem apart_functions (ids : program.ids.Nodup) (bound : program.Scoped)
    (planned : program.memoryPlan (program.promotion 0).1 = .ok plan) {label : Nat}
    {sections : List Section}
    (lowers : (program.env plan).lowerFunctions
      { nextReg := (program.promotion 0).2, nextLabel := label } program.functions = .ok sections) :
    sections.Pairwise Section.Apart := by
  let own (fn : FunDef) (reg : VReg) : Prop :=
    ∃ id, program.InScope fn id ∧ (program.promotion 0).1[id]? = some reg
  have distinct := program.distinct_promotion 0
  have below : ∀ fn ∈ program.functions, ∀ reg, own fn reg → reg < (program.promotion 0).2 :=
    fun fn _ reg ⟨id, _, known⟩ => distinct.below id reg known
  refine (Env.apart_lowerFunctions (fun fn defined start body lowersBody => ?_) below ?_ lowers).1
  · obtain ⟨grown, within⟩ := within_scope bound planned defined lowersBody
    exact ⟨grown, fun reg member => within.registers member⟩
  · refine (pairwise_functions ids).imp fun disjoint reg ⟨id, mine, known⟩ ⟨other, theirs, also⟩ => ?_
    obtain rfl := distinct.own id other reg known also
    exact disjoint (own_of_promoted ids mine known) (own_of_promoted ids theirs also)

end Program

end MipsBackend
