import MipsBackend.Proofs.Storage.Variables
import MipsBackend.Proofs.WellFormed.Lowering

/-!
# Operands of the address operator

In a well-formed program, address mode refuses the expressions that are values only, also behind
casts, and answers for all others (`Program.addr_outcome`). Not each of those is in memory: a cast of
a variable in a register is answered with that register. But every expression that the program takes
the address of is (`Program.inMemory_addressed`), because a variable that the operator is applied to
has no register, and neither has any whose type is an aggregate.
-/

namespace MipsBackend

namespace Expr

/-- What is refused where an address is asked for. A cast answers what its operand does, and so does
another address operator. -/
def pureValue? : Expr → Option PureValue
  | intLit _ _ => some .integerLiteral
  | charLit _ _ => some .characterLiteral
  | binOp _ _ _ _ => some .binaryOperation
  | sizeOf _ _ => some .sizeofExpression
  | cast _ operand | addrOf _ operand => operand.pureValue?
  | strLit _ _ | var _ _ _ | call _ _ _ | index _ _ _ | field _ _ _ | deref _ _
  | assign _ _ _ => none

/-- The expression denotes an object in memory, if those variables are in registers. -/
inductive InMemory (promotion : Promotion) : Expr → Prop
  | text (ty : Ty) (text : String) : InMemory promotion (.strLit ty text)
  | stored (ty : Ty) {id : DeclId} (name : String) (kept : promotion[id]? = none) :
      InMemory promotion (.var ty id name)
  | result {ty : Ty} (name : String) (args : List Expr) (aggregate : ty.isScalar = false) :
      InMemory promotion (.call ty name args)
  | element (ty : Ty) (array position : Expr) : InMemory promotion (.index ty array position)
  | target (ty : Ty) (pointer : Expr) : InMemory promotion (.deref ty pointer)
  | member (ty : Ty) {owner : Expr} (name : String) (base : InMemory promotion owner) :
      InMemory promotion (.field ty owner name)
  | assigned (ty : Ty) {lhs : Expr} (rhs : Expr) (base : InMemory promotion lhs) :
      InMemory promotion (.assign ty lhs rhs)

theorem run_addr_of_pureValue (env : Env) (supply : Supply) {kind : PureValue} :
    (e : Expr) → e.pureValue? = some kind →
      (e.lower env).addr.run supply = .error (.noAddress kind)
  | .intLit _ _, same | .charLit _ _, same | .binOp _ _ _ _, same | .sizeOf _ _, same => by
    cases same
    rfl
  | .cast _ operand, same | .addrOf _ operand, same => operand.run_addr_of_pureValue env supply same

end Expr

/-! ## Parts of parts -/

/-- With every expression, its parts are in the list. -/
def HasParts (es : List Expr) : Prop := ∀ e ∈ es, e.subterms ⊆ es

namespace HasParts

theorem nil : HasParts [] := fun _ inside => nomatch inside

theorem append {front back : List Expr} (left : HasParts front) (right : HasParts back) :
    HasParts (front ++ back) := by
  intro e inside
  rcases List.mem_append.1 inside with before | after
  · exact List.subset_append_of_subset_left _ (left e before)
  · exact List.subset_append_of_subset_right _ (right e after)

theorem node {e : Expr} {parts : List Expr} (shape : e.subterms = e :: parts)
    (below : HasParts parts) : HasParts e.subterms := by
  intro part inside
  rw [shape] at inside
  rcases List.mem_cons.1 inside with rfl | deeper
  · exact List.Subset.refl _
  · rw [shape]
    exact List.subset_cons_of_subset _ (below part deeper)

mutual

theorem subterms : (e : Expr) → HasParts e.subterms
  | .intLit _ _ | .charLit _ _ | .strLit _ _ | .var _ _ _ | .sizeOf _ _ => nil.node rfl
  | .call _ _ args => (listSubterms args).node rfl
  | .binOp _ _ lhs rhs | .index _ lhs rhs | .assign _ lhs rhs =>
    ((subterms lhs).append (subterms rhs)).node rfl
  | .field _ operand _ | .deref _ operand | .addrOf _ operand | .cast _ operand =>
    (subterms operand).node rfl

theorem listSubterms : (es : List Expr) → HasParts (Expr.listSubterms es)
  | [] => nil
  | first :: rest => (subterms first).append (listSubterms rest)

end

mutual

theorem exprs : (stmt : Stmt) → HasParts stmt.exprs
  | .block _ stmts => listExprs stmts
  | .loop cond body => (subterms cond).append (exprs body)
  | .branch cond yes none => (subterms cond).append (exprs yes)
  | .branch cond yes (some no) => ((subterms cond).append (exprs yes)).append (exprs no)
  | .ret (some value) => subterms value
  | .eval expr => subterms expr
  | .ret none | .breakLoop | .continueLoop => nil

theorem listExprs : (stmts : List Stmt) → HasParts (Stmt.listExprs stmts)
  | [] => nil
  | first :: rest => (exprs first).append (listExprs rest)

end

end HasParts

/-! ## Expressions of a function -/

section Function

variable {program : Program} {entry : String} {plan : MemoryPlan} {fn : FunDef}
  (formed : program.WellFormed entry) (defined : fn ∈ program.functions)

include formed defined

namespace Program.WellFormed

theorem owner_aggregate {ty : Ty} {owner : Expr} {name : String}
    (inside : .field ty owner name ∈ fn.body.exprs) : owner.ty.isScalar = false := by
  obtain ⟨struct, _, same, -⟩ := formed.exists_fieldOffset (formed.fits fn defined _ inside)
  rw [same]
  rfl

/-- Variables of aggregate types are in memory, and all aggregates are built from these, pointers,
string literals and the results of calls. -/
theorem inMemory_of_aggregate (ids : program.ids.Nodup) {next : VReg} :
    (e : Expr) → e ∈ fn.body.exprs → e.ty.isScalar = false → e.InMemory (program.promotion next).1
  | .strLit ty text, _, _ => .text ty text
  | .var ty id name, inside, aggregate => by
    obtain ⟨decl, seen, rfl, rfl⟩ := formed.fits fn defined _ inside
    refine .stored _ name (Option.eq_none_iff_forall_ne_some.2 fun reg promoted => ?_)
    obtain ⟨member, -⟩ := local_of_visible ids defined seen promoted
    have scalar : decl.ty.isScalar = true := (List.mem_filter.1 member).2
    have aggregate : decl.ty.isScalar = false := aggregate
    rw [scalar] at aggregate
    cases aggregate
  | .call _ name args, _, aggregate => .result name args aggregate
  | .index ty array position, _, _ => .element ty array position
  | .deref ty pointer, _, _ => .target ty pointer
  | .field ty owner name, inside, _ => by
    have part : owner ∈ fn.body.exprs :=
      HasParts.listExprs _ _ inside (List.mem_cons_of_mem _ owner.mem_subterms)
    exact .member ty name
      (inMemory_of_aggregate ids owner part (formed.owner_aggregate defined inside))
  | .assign ty lhs rhs, inside, aggregate => by
    have part : lhs ∈ fn.body.exprs := HasParts.listExprs _ _ inside
      (List.mem_cons_of_mem _ (List.mem_append_left _ lhs.mem_subterms))
    obtain ⟨-, rfl, -⟩ := formed.fits fn defined _ inside
    exact .assigned _ rhs (inMemory_of_aggregate ids lhs part aggregate)
  | .intLit _ _, inside, aggregate | .charLit _ _, inside, aggregate
  | .binOp _ _ _ _, inside, aggregate | .addrOf _ _, inside, aggregate
  | .sizeOf _ _, inside, aggregate | .cast _ _, inside, aggregate => by
    cases formed.objects fn defined _ inside aggregate

theorem succeeds_addr (planned : program.memoryPlan (program.promotion 0).1 = .ok plan) :
    (e : Expr) → e ∈ fn.body.exprs → e.pureValue? = none →
      (e.lower (program.env plan)).addr.Succeeds
  | .cast _ operand, inside, impure | .addrOf _ operand, inside, impure =>
    succeeds_addr planned operand
      (HasParts.listExprs _ _ inside (List.mem_cons_of_mem _ operand.mem_subterms)) impure
  | .strLit _ _, inside, _ | .var _ _ _, inside, _ | .call _ _ _, inside, _
  | .index _ _ _, inside, _ | .field _ _ _, inside, _ | .deref _ _, inside, _
  | .assign _ _ _, inside, _ =>
    (formed.succeeds_lower _ fun _ member =>
      formed.supports planned defined (HasParts.listExprs _ _ inside member)).addr rfl

end Program.WellFormed

namespace Program

/-- What the program takes the address of is in memory. -/
theorem inMemory_addressed (ids : program.ids.Nodup) {ty : Ty} {operand : Expr}
    (taken : .addrOf ty operand ∈ fn.body.exprs) {next : VReg} :
    operand.InMemory (program.promotion next).1 := by
  have parts : operand.subterms ⊆ fn.body.exprs := fun part inside =>
    HasParts.listExprs _ _ taken (List.mem_cons_of_mem _ inside)
  have inside : operand ∈ fn.body.exprs := parts operand.mem_subterms
  have place : operand.isPlace = true := formed.fits fn defined _ taken
  cases operand with
  | var ty id name =>
    obtain ⟨decl, seen, rfl, rfl⟩ := formed.fits fn defined _ inside
    refine .stored _ name (Option.eq_none_iff_forall_ne_some.2 fun reg promoted => ?_)
    exact (local_of_visible ids defined seen promoted).2 (List.mem_filterMap.2 ⟨_, taken, rfl⟩)
  | index ty array position => exact .element ty array position
  | deref ty pointer => exact .target ty pointer
  | field ty owner name =>
    exact .member ty name (formed.inMemory_of_aggregate defined ids owner
      (parts (List.mem_cons_of_mem _ owner.mem_subterms)) (formed.owner_aggregate defined inside))
  | _ => cases place

/-- Address mode refuses the expressions that are values only, and no others. -/
theorem addr_outcome (planned : program.memoryPlan (program.promotion 0).1 = .ok plan) {e : Expr}
    (inside : e ∈ fn.body.exprs) (supply : Supply) :
    (∃ kind, e.pureValue? = some kind ∧
        (e.lower (program.env plan)).addr.run supply = .error (.noAddress kind)) ∨
      e.pureValue? = none ∧
        ∃ generated, (e.lower (program.env plan)).addr.run supply = .ok generated := by
  cases known : e.pureValue? with
  | some kind => exact .inl ⟨kind, rfl, e.run_addr_of_pureValue _ supply known⟩
  | none => exact .inr ⟨rfl, formed.succeeds_addr defined planned e inside known supply⟩

end Program

end Function

end MipsBackend
