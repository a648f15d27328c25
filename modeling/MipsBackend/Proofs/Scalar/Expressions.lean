import MipsBackend.Proofs.Scalar.Evaluation

/-!
# Code of pure expressions

The code of a pure expression walks from its start to its end, computes the value of the expression
into the register that it answers, and leaves the variables alone.
-/

namespace MipsBackend

/-- A walk through the code of a value, which is in the answered register at its end. -/
structure Computed (platform : Platform) (code : Section) (stop node : Nat) (supply : Supply)
    (machine : Machine) (generated : Generated Reg) (value : Int32) (after : Machine) : Prop where
  walk : ∃ n, code.Walk platform stop n (.inside node, machine)
    (.inside (node + instrCount generated.code), after)
  untouched : machine.Untouched supply.nextReg after
  answer : after.read generated.value = value.toBitVec
  drawn : ∃ reg, generated.value = .virt reg ∧ reg < generated.supply.nextReg
  grown : supply.nextReg ≤ generated.supply.nextReg

variable {env : Env} {known : DeclId → Bool} {bound : VReg} {platform : Platform} {code : Section}
  {stop : Nat}

/-- Wherever in the section and with whatever registers its code is generated, the computation
answers the value. -/
def Gen.Computes (env : Env) (known : DeclId → Bool) (bound : VReg) (platform : Platform)
    (code : Section) (stop : Nat) (gen : Gen Reg) (value? : Locals → Option Int32) : Prop :=
  ∀ ⦃supply : Supply⦄ ⦃generated : Generated Reg⦄ ⦃node : Nat⦄ ⦃machine : Machine⦄
    ⦃locals : Locals⦄ ⦃value : Int32⦄, bound ≤ supply.nextReg →
    gen.run supply = .ok generated → code.Places node generated.code →
    node + instrCount generated.code ≤ stop → env.Holds known locals machine →
    value? locals = some value →
    ∃ after, Computed platform code stop node supply machine generated value after

theorem Env.val_var_of_reg {id : DeclId} {reg : VReg} (placed : env.place? id = some (.reg reg))
    (name : String) : ((Expr.var .int id name).lower env).val = Gen.answer (.virt reg) := by
  change (env.var .int id name).val = _
  rw [Env.var, Env.place?_eq_reg_iff.1 placed]
  rfl

theorem Env.varAddr_of_word {id : DeclId} {offset : Int32}
    (placed : env.place? id = some (.word offset)) (name : String) :
    env.varAddr id name = (do
      let res ← Gen.freshReg
      Gen.emit [.arithImm .addi res .fp offset]
      return res) :=
  Env.varAddr_of_frame (Env.place?_eq_word_iff.1 placed).2 name

theorem Env.val_var_of_word {id : DeclId} {offset : Int32}
    (placed : env.place? id = some (.word offset)) (name : String) :
    ((Expr.var .int id name).lower env).val = env.varAddr id name >>= Gen.loadFrom .int := by
  change (env.var .int id name).val = _
  rw [Env.var, (Env.place?_eq_word_iff.1 placed).1]
  rfl

namespace Expr

section Evaluation

variable {locals : Locals} {machine : Machine} (separates : env.Separates known bound)
  (labelled : code.Labelled) (holds : env.Holds known locals machine)

include separates holds

theorem evaluates_var {id : DeclId} (listed : known id = true) (name : String) :
    ((var .int id name).lower env).val.Evaluates (.start platform labelled stop bound machine)
      (locals id).toBitVec := by
  obtain ⟨place, found⟩ := separates.placed id listed
  have value := holds id place listed found
  cases place with
  | reg reg =>
    have below := separates.below id reg listed found
    rw [Env.val_var_of_reg found]
    refine Gen.evaluates_answer below fun {later} untouched => ?_
    exact (Machine.Untouched.virt untouched reg below).trans value
  | word offset =>
    rw [Env.val_var_of_word found, Env.varAddr_of_word found, ← value]
    have place := Gen.evaluates_slot platform labelled stop bound machine offset false
    exact place.load (fun {later} untouched => Machine.Untouched.memory untouched) .int

theorem evaluates_lower :
    (e : Expr) → e.isPure known = true → ∀ {value : Int32}, e.value? locals = some value →
      (e.lower env).val.Evaluates (.start platform labelled stop bound machine) value.toBitVec
  | intLit ty value, pure, _, evaluates => by
    have int : ty = .int := by simpa [isPure] using pure
    subst int
    cases evaluates
    exact Gen.evaluates_constant value
  | var ty id name, pure, _, evaluates => by
    have both : ty = .int ∧ known id = true := by simpa [isPure] using pure
    obtain ⟨rfl, listed⟩ := both
    cases evaluates
    exact evaluates_var separates labelled holds listed name
  | binOp ty op lhs rhs, pure, value, evaluates => by
    have parts : (ty = .int ∧ lhs.isPure known = true) ∧ rhs.isPure known = true := by
      simpa [isPure] using pure
    obtain ⟨⟨rfl, pureLeft⟩, pureRight⟩ := parts
    have writes := (rhs.writes_lower env).val
    obtain ⟨x, first, rest⟩ := value?_binOp evaluates
    have left := lhs.evaluates_lower pureLeft first
    rcases rest with decides | ⟨undecided, y, second, rfl⟩
    · exact Gen.evaluates_decided writes left decides
    · exact Gen.evaluates_operator writes left undecided (rhs.evaluates_lower pureRight second)

end Evaluation

theorem computes_lower (separates : env.Separates known bound) (labelled : code.Labelled) (e : Expr)
    (pure : e.isPure known = true) :
    (e.lower env).val.Computes env known bound platform code stop fun locals => e.value? locals := by
  intro supply generated node machine locals value above runs placed below holds known
  obtain ⟨after, evaluated⟩ := e.evaluates_lower separates labelled holds pure known above runs
    placed below (.refl _ machine)
  obtain ⟨reg, named, small, -⟩ := evaluated.answer
  exact ⟨after, evaluated.walk, evaluated.agrees.untouched (Nat.le_refl _), evaluated.read,
    ⟨reg, named, small⟩, evaluated.grown⟩

end Expr

end MipsBackend
