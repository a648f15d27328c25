import MipsBackend.Tree.Program
import Mathlib.Logic.Function.Basic

/-!
# The scalar language

A structured semantics of statements over integer variables: operands are evaluated from left to
right, `&&` and `||` evaluate their right operand only if the left one does not decide, and integers
have 32 bits and wrap around. The fuel bounds the turns of every loop; an ending does not depend on
it (`Stmt.run_mono`).
-/

namespace MipsBackend

abbrev Locals := DeclId → Int32

def truth (holds : Bool) : Int32 := if holds then 1 else 0

/-- The result of an operator on the values of both operands. There is none for a division by zero
and for the one quotient that no word can hold. -/
def BinOp.eval? (op : BinOp) (x y : Int32) : Option Int32 :=
  match op with
  | .add => some (x + y)
  | .sub => some (x - y)
  | .mul => some (x * y)
  | .div => if y = 0 ∨ (x = Int32.minValue ∧ y = -1) then none else some (x / y)
  | .mod => if y = 0 ∨ (x = Int32.minValue ∧ y = -1) then none else some (x % y)
  | .gt => some (truth (y < x))
  | .lt => some (truth (x < y))
  | .ge => some (truth (y ≤ x))
  | .le => some (truth (x ≤ y))
  | .ne => some (truth (x ≠ y))
  | .eq => some (truth (x = y))
  | .or => some (truth (x ≠ 0 ∨ y ≠ 0))
  | .and => some (truth (x ≠ 0 ∧ y ≠ 0))

/-! ## Expressions -/

namespace Expr

/-- The value of a pure expression, unless a division in it has none. -/
def value? (locals : Locals) : Expr → Option Int32
  | intLit _ value => some value
  | var _ id _ => some (locals id)
  | binOp _ op lhs rhs =>
    match lhs.value? locals with
    | none => none
    | some x =>
      if op = .or ∧ x ≠ 0 then some 1
      else if op = .and ∧ x = 0 then some 0
      else (rhs.value? locals).bind (op.eval? x)
  | _ => none

/-- What an expression statement leaves: an assignment changes its target, all else nothing. -/
def perform? (locals : Locals) : Expr → Option Locals
  | assign _ (var _ id _) rhs => (rhs.value? locals).map (Function.update locals id)
  | e => (e.value? locals).map fun _ => locals

/-- Whether an expression consists of integer literals, the given variables and operators. -/
def isPure (known : DeclId → Bool) : Expr → Bool
  | intLit ty _ => ty = .int
  | var ty id _ => ty = .int && known id
  | binOp ty _ lhs rhs => ty = .int && lhs.isPure known && rhs.isPure known
  | _ => false

/-- Whether an expression statement is pure, or assigns a pure expression to one of the given
variables. -/
def isAction (known : DeclId → Bool) : Expr → Bool
  | assign ty (var target id _) rhs => ty = .int && target = .int && known id && rhs.isPure known
  | e => e.isPure known

end Expr

/-! ## Statements -/

/-- How control leaves a statement. -/
inductive Exit where
  | next | breaks | continues | returns
deriving DecidableEq, Repr

inductive Ending where
  | leaves (exit : Exit) (locals : Locals)
  | undefined

/-- At most `fuel` turns of a loop. -/
def turns (test : Locals → Option Int32) (body : Locals → Option Ending) :
    Nat → Locals → Option Ending
  | 0, _ => none
  | fuel + 1, locals =>
    match test locals with
    | none => some .undefined
    | some value =>
      if value = 0 then some (.leaves .next locals)
      else
        match body locals with
        | some (.leaves .next after) | some (.leaves .continues after) => turns test body fuel after
        | some (.leaves .breaks after) => some (.leaves .next after)
        | ending => ending

namespace Stmt

mutual

/-- How a statement ends; none if the fuel is too little. -/
def run (fuel : Nat) : Stmt → Locals → Option Ending
  | block _ stmts, locals => runAll fuel stmts locals
  | loop cond body, locals => turns (cond.value? ·) (body.run fuel ·) fuel locals
  | branch cond yes none, locals =>
    match cond.value? locals with
    | none => some .undefined
    | some value => if value = 0 then some (.leaves .next locals) else yes.run fuel locals
  | branch cond yes (some no), locals =>
    match cond.value? locals with
    | none => some .undefined
    | some value => if value = 0 then no.run fuel locals else yes.run fuel locals
  | ret _, locals => some (.leaves .returns locals)
  | eval expr, locals =>
    match expr.perform? locals with
    | none => some .undefined
    | some after => some (.leaves .next after)
  | breakLoop, locals => some (.leaves .breaks locals)
  | continueLoop, locals => some (.leaves .continues locals)

def runAll (fuel : Nat) : List Stmt → Locals → Option Ending
  | [], locals => some (.leaves .next locals)
  | first :: rest, locals =>
    match first.run fuel locals with
    | some (.leaves .next after) => runAll fuel rest after
    | ending => ending

end

mutual

/-- Whether a statement belongs to the scalar language over the given variables. -/
def isScalar (known : DeclId → Bool) : Stmt → Bool
  | block _ stmts => allScalar known stmts
  | loop cond body => cond.isPure known && body.isScalar known
  | branch cond yes none => cond.isPure known && yes.isScalar known
  | branch cond yes (some no) => cond.isPure known && yes.isScalar known && no.isScalar known
  | ret value => value.isNone
  | eval expr => expr.isAction known
  | breakLoop | continueLoop => true

def allScalar (known : DeclId → Bool) : List Stmt → Bool
  | [] => true
  | first :: rest => first.isScalar known && allScalar known rest

end

end Stmt

/-! ## Fuel -/

theorem turns_mono {test : Locals → Option Int32} {body wider : Locals → Option Ending}
    (more : Nat)
    (extended : ∀ locals ending, body locals = some ending → wider locals = some ending)
    {fuel : Nat} {locals : Locals} {ending : Ending}
    (ends : turns test body fuel locals = some ending) :
    turns test wider (fuel + more) locals = some ending := by
  induction fuel generalizing locals with
  | zero => cases ends
  | succ fuel ih =>
    rw [Nat.add_right_comm]
    simp only [turns] at ends ⊢
    cases tested : test locals with
    | none => simpa only [tested] using ends
    | some value =>
      simp only [tested] at ends ⊢
      split at ends
      · next zero => rwa [if_pos zero]
      · next nonzero =>
        rw [if_neg nonzero]
        cases inner : body locals with
        | none => simp [inner] at ends
        | some last =>
          rw [extended locals last inner]
          rw [inner] at ends
          cases last with
          | undefined => exact ends
          | leaves exit after =>
            cases exit with
            | next | continues => exact ih ends
            | breaks | returns => exact ends

namespace Stmt

mutual

theorem run_mono {fuel : Nat} (more : Nat) : (stmt : Stmt) → ∀ {locals : Locals} {ending : Ending},
    stmt.run fuel locals = some ending → stmt.run (fuel + more) locals = some ending
  | block _ stmts, _, _, ends => runAll_mono more stmts ends
  | loop cond body, _, _, ends => turns_mono more (fun _ _ => body.run_mono more) ends
  | branch cond yes none, locals, ending, ends => by
    simp only [run] at ends ⊢
    cases tested : cond.value? locals with
    | none => simpa only [tested] using ends
    | some value =>
      simp only [tested] at ends ⊢
      split
      · next zero => rwa [if_pos zero] at ends
      · next nonzero => exact yes.run_mono more (by rwa [if_neg nonzero] at ends)
  | branch cond yes (some no), locals, ending, ends => by
    simp only [run] at ends ⊢
    cases tested : cond.value? locals with
    | none => simpa only [tested] using ends
    | some value =>
      simp only [tested] at ends ⊢
      split
      · next zero => exact no.run_mono more (by rwa [if_pos zero] at ends)
      · next nonzero => exact yes.run_mono more (by rwa [if_neg nonzero] at ends)
  | ret _, _, _, ends => ends
  | eval _, _, _, ends => ends
  | breakLoop, _, _, ends => ends
  | continueLoop, _, _, ends => ends

theorem runAll_mono {fuel : Nat} (more : Nat) : (stmts : List Stmt) →
    ∀ {locals : Locals} {ending : Ending}, runAll fuel stmts locals = some ending →
      runAll (fuel + more) stmts locals = some ending
  | [], _, _, ends => ends
  | first :: rest, locals, ending, ends => by
    simp only [runAll] at ends ⊢
    cases inner : first.run fuel locals with
    | none => simp [inner] at ends
    | some last =>
      rw [first.run_mono more inner]
      rw [inner] at ends
      cases last with
      | undefined => exact ends
      | leaves exit after =>
        cases exit with
        | next => exact runAll_mono more rest ends
        | breaks | continues | returns => exact ends

end

end Stmt

end MipsBackend
