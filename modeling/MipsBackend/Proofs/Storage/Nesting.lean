import Mathlib.Data.List.Basic
import Mathlib.Logic.Relation
import MipsBackend.Storage.Promotion

/-!
# What is nested in a function

The lists of all expressions and all blocks of a function hold what is reached from its statements
in single steps: from a statement to one directly in it, from a statement to its own expression, and
from an expression to an operand. So nothing is passed over, however deep it is nested.
-/

namespace MipsBackend

/-! ## Collecting over trees -/

section

variable {α β : Type} {parts : α → List α} {own all : α → List β}

/-- What is collected from all nodes of a tree is what some node that is reached from the root has
itself. -/
theorem mem_collected_iff (size : α → Nat)
    (smaller : ∀ whole, ∀ part ∈ parts whole, size part < size whole)
    (collects : ∀ whole, all whole = own whole ++ (parts whole).flatMap all) {whole : α} {found : β} :
    found ∈ all whole ↔
      ∃ part, Relation.ReflTransGen (fun outer inner => inner ∈ parts outer) whole part ∧
        found ∈ own part := by
  constructor
  · intro member
    induction h : size whole using Nat.strongRecOn generalizing whole with
    | ind bound ih =>
      subst h
      rw [collects] at member
      rcases List.mem_append.1 member with here | below
      · exact ⟨whole, .refl, here⟩
      · obtain ⟨part, listed, inside⟩ := List.mem_flatMap.1 below
        obtain ⟨last, path, there⟩ := ih _ (smaller whole part listed) inside rfl
        exact ⟨last, .head listed path, there⟩
  · rintro ⟨part, path, here⟩
    induction path using Relation.ReflTransGen.head_induction_on with
    | refl =>
      rw [collects]
      exact List.mem_append_left _ here
    | head step _ ih =>
      rw [collects]
      exact List.mem_append_right _ (List.mem_flatMap.2 ⟨_, step, ih⟩)

end

/-! ## Expressions -/

namespace Expr

/-- The expressions directly in the expression. -/
def operands : Expr → List Expr
  | intLit .. | charLit .. | strLit .. | var .. | sizeOf .. => []
  | call _ _ args => args
  | binOp _ _ lhs rhs => [lhs, rhs]
  | index _ array position => [array, position]
  | field _ object _ => [object]
  | deref _ pointer => [pointer]
  | addrOf _ operand => [operand]
  | cast _ operand => [operand]
  | assign _ lhs rhs => [lhs, rhs]

/-- The second expression is the first or nested in it. -/
def Reaches : Expr → Expr → Prop :=
  Relation.ReflTransGen fun whole part => part ∈ whole.operands

theorem sizeOf_operand {whole part : Expr} (listed : part ∈ whole.operands) :
    SizeOf.sizeOf part < SizeOf.sizeOf whole := by
  cases whole with
  | call ty name args =>
    have inside : SizeOf.sizeOf part < SizeOf.sizeOf args := List.sizeOf_lt_of_mem listed
    rw [call.sizeOf_spec]
    omega
  | binOp | index | assign =>
    rcases List.mem_pair.1 listed with rfl | rfl <;>
      simp only [binOp.sizeOf_spec, index.sizeOf_spec, assign.sizeOf_spec] <;> omega
  | field | deref | addrOf | cast =>
    obtain rfl := List.mem_singleton.1 listed
    simp only [field.sizeOf_spec, deref.sizeOf_spec, addrOf.sizeOf_spec, cast.sizeOf_spec]
    omega
  | _ => cases listed

theorem listSubterms_eq (exprs : List Expr) : listSubterms exprs = exprs.flatMap subterms := by
  induction exprs with
  | nil => rfl
  | cons first rest ih => rw [listSubterms, ih, List.flatMap_cons]

theorem subterms_eq (e : Expr) : e.subterms = [e] ++ e.operands.flatMap subterms := by
  cases e <;> simp [subterms, operands, listSubterms_eq]

theorem mem_subterms_iff {whole part : Expr} : part ∈ whole.subterms ↔ whole.Reaches part := by
  rw [mem_collected_iff SizeOf.sizeOf (fun _ _ => sizeOf_operand) subterms_eq]
  simp [Reaches]

end Expr

/-! ## Statements -/

namespace Stmt

/-- The statements directly in the statement. -/
def inner : Stmt → List Stmt
  | block _ stmts => stmts
  | loop _ body => [body]
  | branch _ yes none => [yes]
  | branch _ yes (some no) => [yes, no]
  | ret _ | eval _ | breakLoop | continueLoop => []

/-- The expression that the statement evaluates itself. -/
def head? : Stmt → Option Expr
  | loop cond _ => some cond
  | branch cond _ _ => some cond
  | ret value => value
  | eval expr => some expr
  | block .. | breakLoop | continueLoop => none

/-- The second statement is the first or nested in it. -/
def Reaches : Stmt → Stmt → Prop :=
  Relation.ReflTransGen fun whole part => part ∈ whole.inner

theorem sizeOf_inner {whole part : Stmt} (listed : part ∈ whole.inner) :
    sizeOf part < sizeOf whole := by
  cases whole with
  | block vars stmts =>
    have inside : sizeOf part < sizeOf stmts := List.sizeOf_lt_of_mem listed
    rw [block.sizeOf_spec]
    omega
  | loop cond body =>
    obtain rfl := List.mem_singleton.1 listed
    rw [loop.sizeOf_spec]
    omega
  | branch cond yes no =>
    cases no with
    | none =>
      obtain rfl := List.mem_singleton.1 listed
      rw [branch.sizeOf_spec]
      omega
    | some no =>
      rcases List.mem_pair.1 listed with rfl | rfl <;>
        rw [branch.sizeOf_spec, Option.some.sizeOf_spec] <;> omega
  | _ => cases listed

theorem listExprs_eq (stmts : List Stmt) : listExprs stmts = stmts.flatMap exprs := by
  induction stmts with
  | nil => rfl
  | cons first rest ih => rw [listExprs, ih, List.flatMap_cons]

theorem exprs_eq (stmt : Stmt) :
    stmt.exprs = stmt.head?.toList.flatMap Expr.subterms ++ stmt.inner.flatMap exprs := by
  cases stmt with
  | branch cond yes no => cases no <;> simp [exprs, head?, inner]
  | ret value => cases value <;> simp [exprs, head?, inner]
  | _ => simp [exprs, head?, inner, listExprs_eq]

theorem mem_exprs_iff {stmt : Stmt} {e : Expr} :
    e ∈ stmt.exprs ↔ ∃ part, stmt.Reaches part ∧ ∃ top, part.head? = some top ∧ top.Reaches e := by
  rw [mem_collected_iff SizeOf.sizeOf (fun _ _ => sizeOf_inner) exprs_eq]
  simp [Reaches, Expr.mem_subterms_iff]

end Stmt

/-! ## Functions -/

namespace FunDef

/-- The expression stands in the function, at whatever depth. -/
def HasExpr (fn : FunDef) (e : Expr) : Prop :=
  ∃ stmt ∈ fn.body.stmts, ∃ part, stmt.Reaches part ∧ ∃ top, part.head? = some top ∧ top.Reaches e

variable {fn : FunDef}

theorem HasExpr.operand {e part : Expr} (stands : fn.HasExpr e) (listed : part ∈ e.operands) :
    fn.HasExpr part := by
  obtain ⟨stmt, top, inner, path, e, head, within⟩ := stands
  exact ⟨stmt, top, inner, path, e, head, within.tail listed⟩

theorem mem_exprs_iff {e : Expr} : e ∈ fn.body.exprs ↔ fn.HasExpr e := by
  rw [Block.exprs, Stmt.listExprs_eq, List.mem_flatMap]
  simp only [Stmt.mem_exprs_iff, HasExpr]

end FunDef

end MipsBackend
