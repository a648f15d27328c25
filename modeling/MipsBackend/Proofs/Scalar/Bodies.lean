import MipsBackend.Proofs.Lowering.Functions
import MipsBackend.Proofs.Scalar.Statements
import MipsBackend.Proofs.Storage.Promotion

/-!
# Bodies of scalar functions

A function whose body is scalar over promoted variables runs as its statements do: its section gets
from the start of the body to the epilogue exactly if the body ends, and then every variable has its
final value in its register.
-/

namespace MipsBackend

/-- Every promoted variable has its value in its register. -/
def Promotion.Holds (promotion : Promotion) (locals : Locals) (machine : Machine) : Prop :=
  ∀ (id : DeclId) (reg : VReg), promotion[id]? = some reg → machine.virt reg = (locals id).toBitVec

namespace Env

variable {env : Env}

theorem place?_of_contains {id : DeclId} {place : VarPlace}
    (listed : env.promotion.contains id = true) (placed : env.place? id = some place) :
    ∃ reg, env.promotion[id]? = some reg ∧ place = .reg reg := by
  rw [Std.ExtTreeMap.contains_eq_isSome_getElem?, Option.isSome_iff_exists] at listed
  obtain ⟨reg, promoted⟩ := listed
  exact ⟨reg, promoted, Option.some.inj (placed.symm.trans (place?_of_promoted promoted))⟩

theorem separates_promotion {next : VReg} (distinct : env.promotion.Distinct next) :
    env.Separates (env.promotion.contains ·) next where
  placed id listed := by
    rw [Std.ExtTreeMap.contains_eq_isSome_getElem?, Option.isSome_iff_exists] at listed
    obtain ⟨reg, promoted⟩ := listed
    exact ⟨.reg reg, place?_of_promoted promoted⟩
  below id reg _ placed := distinct.below id reg (place?_eq_reg_iff.1 placed)
  apart id other place another listed otherListed different found otherFound := by
    obtain ⟨reg, promoted, rfl⟩ := place?_of_contains listed found
    obtain ⟨second, otherPromoted, rfl⟩ := place?_of_contains otherListed otherFound
    rintro rfl
    exact different (distinct.own id other reg promoted otherPromoted)

theorem holds_promotion_iff {locals : Locals} {machine : Machine} :
    env.Holds (env.promotion.contains ·) locals machine ↔ env.promotion.Holds locals machine := by
  constructor
  · intro holds id reg promoted
    have listed : env.promotion.contains id = true := by
      rw [Std.ExtTreeMap.contains_eq_isSome_getElem?, promoted]
      rfl
    exact holds id (.reg reg) listed (place?_of_promoted promoted)
  · intro holds id place listed placed
    obtain ⟨reg, promoted, rfl⟩ := place?_of_contains listed placed
    exact holds id reg promoted

end Env

section Body

variable {env : Env} {fn : FunDef} {supply : Supply} {body : Generated Unit} {bound : VReg}
  {known : DeclId → Bool}

theorem hasBody_functionSection (lowers : env.LowersBody fn supply body) (space : Nat) :
    (functionSection fn.name space body.code).HasBody fn.name ((enterCode space).length + 1)
      ((enterCode space).length + 1 + instrCount body.code) := by
  have placed := places_functionSection fn.name space body.code
  exact ⟨⟨_, rfl, placed.instr⟩,
    (labelled_functionSection lowers.wrote.code fn.name space).node_of_places placed.tail.right⟩

theorem follows_body (lowers : env.LowersBody fn supply body) (above : bound ≤ supply.nextReg)
    (separates : env.Separates known bound) (scalar : Stmt.allScalar known fn.body.stmts = true)
    (space : Nat) (platform : Platform) {machine : Machine} {locals : Locals}
    (holds : env.Holds known locals machine) (fuel : Nat) :
    Follows env known platform (functionSection fn.name space body.code)
      ((enterCode space).length + 1 + instrCount body.code)
      (.inside ((enterCode space).length + 1), machine)
      (fun _ => (enterCode space).length + 1 + instrCount body.code) fuel
      (Stmt.runAll fuel fn.body.stmts locals) := by
  have labelled := labelled_functionSection lowers.wrote.code fn.name space
  have placed := (places_functionSection fn.name space body.code).tail
  have resolves : Resolves (functionSection fn.name space body.code) (.epilogue fn.name) none
      fun _ => (enterCode space).length + 1 + instrCount body.code :=
    ⟨labelled.node_of_places placed.right, fun _ inside => (nomatch inside),
      fun _ inside => (nomatch inside)⟩
  exact Stmt.simulates_lowerAll separates labelled none fn.body.stmts scalar above lowers placed.left
    (Nat.le_refl _) resolves rfl holds

end Body

namespace Program

/-- Behind the marker that saves registers, the code of a function with a scalar body reaches the
epilogue exactly if the body ends, and the variables then have their final values in their
registers. -/
theorem scalar_body_correct {program : Program} {entry : String} {generated : Assembly}
    (generates : program.generate entry = .ok generated) {n : Nat} {fn : FunDef}
    (here : program.functions[n]? = some fn)
    (scalar : Stmt.allScalar ((program.promotion 0).1.contains ·) fn.body.stmts = true) :
    ∃ code start stop, generated.sections[n + 1]? = some code ∧ code.HasBody fn.name start stop ∧
      ∀ (platform : Platform) (machine : Machine) (locals : Locals),
        (program.promotion 0).1.Holds locals machine →
        (∀ fuel, Stmt.runAll fuel fn.body.stmts locals ≠ some .undefined) →
        ((∃ reached, Relation.ReflTransGen (code.Step platform) (.inside start, machine)
            (.inside stop, reached)) ↔
          ∃ fuel exit final, Stmt.runAll fuel fn.body.stmts locals = some (.leaves exit final)) ∧
        ∀ fuel exit final reached,
          Stmt.runAll fuel fn.body.stmts locals = some (.leaves exit final) →
          Relation.ReflTransGen (code.Step platform) (.inside start, machine)
            (.inside stop, reached) →
          (program.promotion 0).1.Holds final reached := by
  obtain ⟨plan, supply, body, planned, above, lowers, found⟩ := section_generate generates here
  let env := program.env plan
  have separates : env.Separates ((program.promotion 0).1.contains ·) (program.promotion 0).2 :=
    env.separates_promotion (program.distinct_promotion 0)
  refine ⟨_, _, _, found, hasBody_functionSection lowers _,
    fun platform machine locals holds defined => ?_⟩
  let code := functionSection fn.name (plan.spaceOf fn.name) body.code
  let start := (enterCode (plan.spaceOf fn.name)).length + 1
  let stop := start + instrCount body.code
  have follows : ∀ fuel, Follows env ((program.promotion 0).1.contains ·) platform code stop
      (.inside start, machine) (fun _ => stop) fuel (Stmt.runAll fuel fn.body.stmts locals) :=
    follows_body lowers above separates scalar _ platform (Env.holds_promotion_iff.2 holds)
  refine ⟨⟨?_, ?_⟩, ?_⟩
  · rintro ⟨reached, run⟩
    obtain ⟨total, steps⟩ := Section.Steps.of_run run
    -- With more fuel than the run has steps, the body would keep the code walking for longer.
    have longer := follows (total + 1)
    cases ends : Stmt.runAll (total + 1) fn.body.stmts locals with
    | none =>
      rw [ends] at longer
      obtain ⟨n, last, many, walk⟩ := longer
      obtain ⟨more, same, -⟩ := walk.remainder steps
      omega
    | some ending =>
      cases ending with
      | undefined => exact absurd ends (defined _)
      | leaves exit final => exact ⟨_, exit, final, ends⟩
  · rintro ⟨fuel, exit, final, ends⟩
    have reaches := follows fuel
    rw [ends] at reaches
    obtain ⟨n, after, walk, -⟩ := reaches
    exact ⟨after, walk.steps.run⟩
  · intro fuel exit final reached ends run
    have reaches := follows fuel
    rw [ends] at reaches
    obtain ⟨n, after, walk, kept⟩ := reaches
    obtain ⟨total, steps⟩ := Section.Steps.of_run run
    obtain ⟨more, -, rest⟩ := walk.remainder steps
    have unbranched : ∀ node instr, stop ≤ node → code.instructions[node]? = some instr →
        instr.branchTarget? = none :=
      fun node instr behind here => unbranched_functionSection _ _ _ behind here
    have last := rest.ahead unbranched (Nat.le_refl stop)
    obtain rfl : more = 0 := by omega
    cases rest
    exact Env.holds_promotion_iff.1 kept

/-- Adds up the squares of the odd numbers up to five, with all ways to leave a turn of the loop. -/
def addOddSquares : FunDef :=
  let sum : VarDecl := { id := 1, name := "sum", ty := .int }
  let next : VarDecl := { id := 2, name := "next", ty := .int }
  let assign (decl : VarDecl) (value : Expr) : Stmt := .eval (.assignment (.ofDecl decl) value)
  { name := "main", ret := .void, params := []
    body :=
      { vars := [sum, next]
        stmts :=
          [ assign sum (.ofInt 0), assign next (.ofInt 0),
            .loop (.ofInt 1)
              (.block []
                [ assign next (.ofOperands .add (.ofDecl next) (.ofInt 1)),
                  .branch
                    (.ofOperands .or (.ofOperands .gt (.ofDecl next) (.ofInt 5))
                      (.ofOperands .eq (.ofDecl next) (.ofInt 99)))
                    .breakLoop none,
                  .branch
                    (.ofOperands .eq (.ofOperands .mod (.ofDecl next) (.ofInt 2)) (.ofInt 0))
                    .continueLoop
                    (some (assign sum (.ofOperands .add (.ofDecl sum)
                      (.ofOperands .mul (.ofDecl next) (.ofDecl next))))) ]),
            .ret none ] } }

def oddSquares : Program := { decls := [.funDef addOddSquares] }

theorem scalar_body_correct_oddSquares :
    ∃ generated code start stop, oddSquares.generate "main" = .ok generated ∧
      oddSquares.functions[0]? = some addOddSquares ∧
      Stmt.allScalar ((oddSquares.promotion 0).1.contains ·) addOddSquares.body.stmts = true ∧
      generated.sections[1]? = some code ∧ code.HasBody "main" start stop ∧
      ∀ (platform : Platform) (machine : Machine),
        (oddSquares.promotion 0).1.Holds (fun _ => 7) machine →
        ∃ reached, Relation.ReflTransGen (code.Step platform) (.inside start, machine)
          (.inside stop, reached) ∧ reached.virt 0 = 35 ∧ reached.virt 1 = 6 := by
  have succeeds : (oddSquares.generate "main").toBool = true := by decide +kernel
  obtain ⟨generated, generates⟩ := exists_ok_of_toBool succeeds
  have scalar : Stmt.allScalar ((oddSquares.promotion 0).1.contains ·) addOddSquares.body.stmts = true := by
    decide +kernel
  obtain ⟨exit, final, ends, sum, next⟩ : ∃ exit final,
      Stmt.runAll 7 addOddSquares.body.stmts (fun _ => 7) = some (.leaves exit final) ∧
        final 1 = 35 ∧ final 2 = 6 := by
    have known : (Stmt.runAll 7 addOddSquares.body.stmts (fun _ => 7)).any
        (fun | .leaves _ final => final 1 = 35 && final 2 = 6 | .undefined => false) = true := by
      decide +kernel
    obtain ⟨ending, ends, values⟩ := (Option.any_eq_true _ _).1 known
    cases ending with
    | undefined => cases values
    | leaves exit final => exact ⟨exit, final, ends, by simpa using values⟩
  have promoted : (oddSquares.promotion 0).1[(1 : DeclId)]? = some 0 ∧
      (oddSquares.promotion 0).1[(2 : DeclId)]? = some 1 := by decide +kernel
  obtain ⟨code, start, stop, found, hasBody, correct⟩ :=
    scalar_body_correct generates (rfl : oddSquares.functions[0]? = _) scalar
  refine ⟨generated, code, start, stop, generates, rfl, scalar, found, hasBody,
    fun platform machine holds => ?_⟩
  have defined : ∀ fuel, Stmt.runAll fuel addOddSquares.body.stmts (fun _ => 7) ≠ some .undefined := by
    intro fuel undefined
    have less := Stmt.runAll_mono 7 _ undefined
    have more := Stmt.runAll_mono fuel _ ends
    rw [Nat.add_comm, less] at more
    cases more
  obtain ⟨reaches, holdsFinal⟩ := correct platform machine _ holds defined
  obtain ⟨reached, run⟩ := reaches.2 ⟨7, exit, final, ends⟩
  have values := holdsFinal 7 exit final reached ends run
  refine ⟨reached, run, ?_, ?_⟩
  · rw [values 1 0 promoted.1, sum]
    rfl
  · rw [values 2 1 promoted.2, next]
    rfl

end Program

end MipsBackend
