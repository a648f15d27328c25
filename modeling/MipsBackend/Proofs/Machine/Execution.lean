import MipsBackend.Proofs.Machine.Renaming

/-!
# Execution

Instructions that run inside the section leave no choice, so a walk over such instructions is the
beginning of every run that goes on behind it (`Walk.remainder`). A platform on which nothing happens
outside the section makes execution computable (`advance`), and with it whatever is asked of each
step.
-/

namespace MipsBackend

theorem Instr.isLocal_of_isStraight {instr : Instr} (straight : instr.isStraight = true) :
    instr.isLocal = true := by
  cases instr <;> first | rfl | cases straight

namespace Section

variable {platform : Platform} {code : Section}

/-! ## One step -/

theorem Step.instr {node : Nat} {before after : Machine} {point : Point}
    (step : code.Step platform (.inside node, before) (point, after)) :
    ∃ instr, code.instructions[node]? = some instr ∧ platform.Changes before after instr ∧
      code.follow node (instr.control before) = some point := by
  cases step with
  | step here changes goes => exact ⟨_, here, changes, goes⟩

theorem Step.ofLocal {node : Nat} {instr : Instr} {machine : Machine} {point : Point}
    (here : code.instructions[node]? = some instr) (inside : instr.isLocal = true)
    (goes : code.follow node (instr.control machine) = some point) :
    code.Step platform (.inside node, machine)
      (point, machine.apply (instr.change platform.address machine)) :=
  .step here ((Instr.changes_iff inside).2 rfl) goes

theorem Step.eq_of_local {node : Nat} {instr : Instr} {machine after : Machine} {point : Point}
    (here : code.instructions[node]? = some instr) (inside : instr.isLocal = true)
    (step : code.Step platform (.inside node, machine) (point, after)) :
    code.follow node (instr.control machine) = some point ∧
      after = machine.apply (instr.change platform.address machine) := by
  obtain ⟨other, found, changes, goes⟩ := step.instr
  obtain rfl := Option.some.inj (here.symm.trans found)
  exact ⟨goes, (Instr.changes_iff inside).1 changes⟩

theorem Step.unique {node : Nat} {instr : Instr} {machine : Machine} {first second : Config}
    (here : code.instructions[node]? = some instr) (inside : instr.isLocal = true)
    (left : code.Step platform (.inside node, machine) first)
    (right : code.Step platform (.inside node, machine) second) : first = second := by
  obtain ⟨goesLeft, sameLeft⟩ := left.eq_of_local here inside
  obtain ⟨goesRight, sameRight⟩ := right.eq_of_local here inside
  exact Prod.ext (Option.some.inj (goesLeft.symm.trans goesRight)) (sameLeft.trans sameRight.symm)

theorem Steps.of_run {first last : Config}
    (run : Relation.ReflTransGen (code.Step platform) first last) :
    ∃ n, code.Steps platform n first last := by
  induction run with
  | refl => exact ⟨0, .none⟩
  | tail _ step ih =>
    obtain ⟨n, steps⟩ := ih
    exact ⟨n + 1, steps.trans (.one step)⟩

/-- Behind the last branch, control only goes on, one instruction at a time. -/
theorem Steps.ahead {stop : Nat}
    (unbranched : ∀ node instr, stop ≤ node → code.instructions[node]? = some instr →
      instr.branchTarget? = .none)
    {n node last : Nat} (behind : stop ≤ node) {before after : Machine}
    (steps : code.Steps platform n (.inside node, before) (.inside last, after)) :
    last = node + n := by
  induction n generalizing node before with
  | zero =>
    cases steps
    rfl
  | succ n ih =>
    cases steps with
    | @more _ _ second _ step rest =>
      obtain ⟨point, middle⟩ := second
      obtain ⟨instr, here, -, goes⟩ := step.instr
      have plain := unbranched node instr behind here
      cases point with
      | outside target =>
        cases rest with
        | more first _ => nomatch first
      | inside succ =>
        have next : succ = node + 1 := by
          cases instr with
          | branchZero | branchPair | jump => cases plain
          | jumpReg => cases goes
          | _ =>
            cases goes
            rfl
        rw [ih (by omega) rest, next]
        omega

/-! ## Walks -/

/-- Counted steps by instructions that run inside the section and stand in front of a node. -/
inductive Walk (platform : Platform) (code : Section) (stop : Nat) : Nat → Config → Config → Prop
  | none {config : Config} : Walk platform code stop 0 config config
  | more {n node : Nat} {instr : Instr} {machine : Machine} {second last : Config}
      (below : node < stop) (here : code.instructions[node]? = some instr)
      (inside : instr.isLocal = true) (step : code.Step platform (.inside node, machine) second)
      (rest : Walk platform code stop n second last) :
      Walk platform code stop (n + 1) (.inside node, machine) last

namespace Walk

variable {stop : Nat}

theorem trans {m n : Nat} {first second last : Config} (before : code.Walk platform stop m first second)
    (after : code.Walk platform stop n second last) : code.Walk platform stop (m + n) first last := by
  induction before with
  | none => rwa [Nat.zero_add]
  | more below here inside step rest ih =>
    rw [Nat.add_right_comm]
    exact .more below here inside step (ih after)

theorem mono {wider n : Nat} {first last : Config} (walk : code.Walk platform stop n first last)
    (le : stop ≤ wider) : code.Walk platform wider n first last := by
  induction walk with
  | none => exact .none
  | more below here inside step rest ih =>
    exact .more (Nat.lt_of_lt_of_le below le) here inside step ih

theorem steps {n : Nat} {first last : Config} (walk : code.Walk platform stop n first last) :
    code.Steps platform n first last := by
  induction walk with
  | none => exact .none
  | more below here inside step rest ih => exact .more step ih

theorem one {node : Nat} {instr : Instr} {machine : Machine} {point : Point} (below : node < stop)
    (here : code.instructions[node]? = some instr) (inside : instr.isLocal = true)
    (goes : code.follow node (instr.control machine) = some point) :
    code.Walk platform stop 1 (.inside node, machine)
      (point, machine.apply (instr.change platform.address machine)) :=
  .more below here inside (.ofLocal here inside goes) .none

theorem straight {instrs : List Instr} {node : Nat} (holds : code.Holds node instrs)
    (straight : ∀ instr ∈ instrs, instr.isStraight = true) (below : node + instrs.length ≤ stop)
    (machine : Machine) :
    code.Walk platform stop instrs.length (.inside node, machine)
      (.inside (node + instrs.length), platform.perform machine instrs) := by
  induction instrs generalizing node machine with
  | nil => exact .none
  | cons instr rest ih =>
    rw [List.length_cons] at below ⊢
    have here := straight instr List.mem_cons_self
    have inside := Instr.isLocal_of_isStraight here
    have first := @Step.straight platform _ _ _ holds.head here machine
    have later := ih holds.tail (fun other member => straight other (List.mem_cons_of_mem _ member))
      (by omega) (machine.apply (instr.change platform.address machine))
    rw [Nat.add_right_comm] at later
    exact .more (by omega) holds.head inside first later

theorem jump {node succ : Nat} {target : Label} {machine : Machine} (below : node < stop)
    (here : code.instructions[node]? = some (.jump target))
    (stands : labelledNode? target 0 code.items = some succ) :
    code.Walk platform stop 1 (.inside node, machine) (.inside succ, machine) :=
  .one below here rfl (congrArg (Option.map Point.inside) stands)

theorem taken {node succ : Nat} {op : ZeroTest} {reg : Reg} {target : Label} {machine : Machine}
    (below : node < stop) (here : code.instructions[node]? = some (.branchZero op reg target))
    (holds : op.holds (machine.read reg) = true)
    (stands : labelledNode? target 0 code.items = some succ) :
    code.Walk platform stop 1 (.inside node, machine) (.inside succ, machine) := by
  refine .one below here rfl ?_
  rw [Instr.control, if_pos holds]
  exact congrArg (Option.map Point.inside) stands

theorem skipped {node : Nat} {op : ZeroTest} {reg : Reg} {target : Label} {machine : Machine}
    (below : node < stop) (here : code.instructions[node]? = some (.branchZero op reg target))
    (fails : op.holds (machine.read reg) = false) :
    code.Walk platform stop 1 (.inside node, machine) (.inside (node + 1), machine) := by
  refine .one below here rfl ?_
  rw [Instr.control, if_neg (by simp [fails])]
  rfl

/-- A run that goes as far as `stop` begins with the walk. -/
theorem remainder {n total : Nat} {first last : Config} {reached : Machine}
    (walk : code.Walk platform stop n first last)
    (run : code.Steps platform total first (.inside stop, reached)) :
    ∃ more, total = n + more ∧ code.Steps platform more last (.inside stop, reached) := by
  induction walk generalizing total with
  | none => exact ⟨total, (Nat.zero_add total).symm, run⟩
  | more below here inside step rest ih =>
    cases run with
    | none => exact absurd below (Nat.lt_irrefl stop)
    | more other later =>
      obtain rfl := step.unique here inside other
      obtain ⟨more, rfl, run⟩ := ih later
      exact ⟨more, by omega, run⟩

end Walk

/-! ## Runs by restricted steps -/

/-- Counted runs by steps of which more may be asked than that the section takes them. -/
inductive Runs (allowed : Config → Config → Prop) : Nat → Config → Config → Prop
  | none {config : Config} : Runs allowed 0 config config
  | more {n : Nat} {first second last : Config} (step : allowed first second)
      (rest : Runs allowed n second last) : Runs allowed (n + 1) first last

namespace Runs

variable {allowed : Config → Config → Prop}

theorem of_run {first last : Config} (run : Relation.ReflTransGen allowed first last) :
    ∃ n, Runs allowed n first last := by
  induction run using Relation.ReflTransGen.head_induction_on with
  | refl => exact ⟨0, .none⟩
  | head step _ ih =>
    obtain ⟨n, rest⟩ := ih
    exact ⟨n + 1, .more step rest⟩

/-- A run out of the section that stands in front of an instruction performs it first. -/
theorem head {n node : Nat} {machine after : Machine} {target : Word}
    (stepwise : ∀ first last, allowed first last → code.Step platform first last)
    (run : Runs allowed n (.inside node, machine) (.outside target, after)) {instr : Instr}
    (here : code.instructions[node]? = some instr) :
    ∃ rest point middle, n = rest + 1 ∧ allowed (.inside node, machine) (point, middle) ∧
      platform.Changes machine middle instr ∧
      code.follow node (instr.control machine) = some point ∧
      Runs allowed rest (point, middle) (.outside target, after) := by
  cases run with
  | @more rest _ second _ step later =>
    obtain ⟨point, middle⟩ := second
    obtain ⟨other, found, changes, goes⟩ := (stepwise _ _ step).instr
    obtain rfl := Option.some.inj (here.symm.trans found)
    exact ⟨rest, point, middle, rfl, step, changes, goes, later⟩

/-- A run out of the section that stands in front of straight code performs it first. -/
theorem behind_straight {instrs : List Instr} {n node : Nat} {machine after : Machine}
    {target : Word} (stepwise : ∀ first last, allowed first last → code.Step platform first last)
    (holds : code.Holds node instrs) (straight : ∀ instr ∈ instrs, instr.isStraight = true)
    (run : Runs allowed n (.inside node, machine) (.outside target, after)) :
    ∃ rest, n = instrs.length + rest ∧ Runs allowed rest
      (.inside (node + instrs.length), platform.perform machine instrs) (.outside target, after) := by
  induction instrs generalizing n node machine with
  | nil => exact ⟨n, (Nat.zero_add n).symm, run⟩
  | cons instr rest ih =>
    have here := straight instr List.mem_cons_self
    have inside := Instr.isLocal_of_isStraight here
    obtain ⟨left, point, middle, rfl, step, -, -, later⟩ := run.head stepwise holds.head
    cases (stepwise _ _ step).unique holds.head inside (.straight holds.head here machine)
    obtain ⟨more, rfl, last⟩ := ih holds.tail
      (fun other member => straight other (List.mem_cons_of_mem _ member)) later
    refine ⟨more, by rw [List.length_cons]; omega, ?_⟩
    rwa [Nat.add_right_comm] at last

end Runs

/-! ## Computed execution -/

/-- The next configuration, if system calls and called functions change nothing. -/
def next? (address : Label → Word) (code : Section) : Config → Option Config
  | (.outside _, _) => none
  | (.inside node, machine) => do
    let instr ← code.instructions[node]?
    let point ← code.follow node (instr.control machine)
    return (point, machine.apply (instr.change address machine))

/-- Some steps of execution, if all of them are allowed. -/
def advance (allows : Config → Config → Bool) (address : Label → Word) (code : Section) :
    Nat → Config → Option Config
  | 0, config => some config
  | n + 1, config => do
    let next ← code.next? address config
    if allows config next then code.advance allows address n next else none

end Section

/-- A platform on which nothing happens outside the section. -/
def Platform.quiet (address : Label → Word) : Platform where
  address
  system before after := after = before
  called _ before after := after = before

namespace Section

variable {address : Label → Word} {code : Section}

theorem changes_quiet (address : Label → Word) (machine : Machine) (instr : Instr) :
    (Platform.quiet address).Changes machine (machine.apply (instr.change address machine)) instr := by
  cases instr <;> rfl

theorem step_of_next? {first last : Config} (next : code.next? address first = some last) :
    code.Step (.quiet address) first last := by
  obtain ⟨point, machine⟩ := first
  cases point with
  | outside target => cases next
  | inside node =>
    obtain ⟨instr, here, rest⟩ := Option.bind_eq_some_iff.1 next
    obtain ⟨point, goes, joins⟩ := Option.bind_eq_some_iff.1 rest
    cases joins
    exact .step here (changes_quiet address machine instr) goes

theorem run_of_advance {allows : Config → Config → Bool} {allowed : Config → Config → Prop}
    (sound : ∀ here there, code.next? address here = some there → allows here there = true →
      allowed here there) {n : Nat} {first last : Config}
    (advances : code.advance allows address n first = some last) :
    Relation.ReflTransGen allowed first last := by
  induction n generalizing first with
  | zero =>
    cases advances
    exact .refl
  | succ n ih =>
    obtain ⟨second, next, rest⟩ := Option.bind_eq_some_iff.1 advances
    split at rest
    · next allows => exact .head (sound first second next allows) (ih rest)
    · cases rest

end Section

end MipsBackend
