import MipsBackend.Proofs.Scalar.Expressions

/-!
# Code of scalar statements

The code of a statement does what the statement does: it walks to the node where control leaves the
statement, with the variables that the statement leaves. While the fuel is too little to end, the
code keeps walking inside the body, at least one step for each unit of fuel. So it reaches the end
of the body only if the statement ends.
-/

namespace MipsBackend

/-- Where control goes from a statement: behind it, to the labels of the loop around it, or to the
end of the function. -/
structure Resolves (code : Section) (epilogue : Label) (labels : Option LoopLabels)
    (exits : Exit → Nat) : Prop where
  returns : labelledNode? epilogue 0 code.items = some (exits .returns)
  breaks : ∀ loop, labels = some loop → labelledNode? loop.done 0 code.items = some (exits .breaks)
  continues : ∀ loop, labels = some loop →
    labelledNode? loop.next 0 code.items = some (exits .continues)

variable {env : Env} {known : DeclId → Bool} {bound : VReg} {platform : Platform} {code : Section}
  {stop : Nat} {epilogue : Label}

/-- The exits of a statement that is followed by the node. -/
def Exit.before (node : Nat) (exits : Exit → Nat) : Exit → Nat
  | .next => node
  | exit => exits exit

theorem Resolves.before {labels : Option LoopLabels} {exits : Exit → Nat}
    (resolves : Resolves code epilogue labels exits) (node : Nat) :
    Resolves code epilogue labels (Exit.before node exits) :=
  ⟨resolves.returns, resolves.breaks, resolves.continues⟩

def Follows (env : Env) (known : DeclId → Bool) (platform : Platform) (code : Section) (stop : Nat)
    (start : Config) (exits : Exit → Nat) (fuel : Nat) : Option Ending → Prop
  | none => ∃ n last, fuel ≤ n ∧ code.Walk platform stop n start last
  | some .undefined => True
  | some (.leaves exit locals) => ∃ n after,
      code.Walk platform stop n start (.inside (exits exit), after) ∧ env.Holds known locals after

theorem Follows.behind {start middle : Config} {exits : Exit → Nat} {n less fuel : Nat}
    {ending : Option Ending} (walk : code.Walk platform stop n start middle) (enough : fuel ≤ n + less)
    (follows : Follows env known platform code stop middle exits less ending) :
    Follows env known platform code stop start exits fuel ending := by
  match ending, follows with
  | none, ⟨m, last, many, later⟩ => exact ⟨n + m, last, by omega, walk.trans later⟩
  | some .undefined, _ => trivial
  | some (.leaves exit locals), ⟨m, after, later, holds⟩ =>
    exact ⟨n + m, after, walk.trans later, holds⟩

theorem Follows.reroute {start : Config} {exits others : Exit → Nat} {ending : Option Ending}
    {fuel : Nat} (follows : Follows env known platform code stop start exits fuel ending)
    (onward : ∀ exit after, ∃ n, code.Walk platform stop n (.inside (exits exit), after)
      (.inside (others exit), after)) :
    Follows env known platform code stop start others fuel ending := by
  match ending, follows with
  | none, running => exact running
  | some .undefined, _ => trivial
  | some (.leaves exit locals), ⟨n, after, walk, holds⟩ =>
    obtain ⟨m, later⟩ := onward exit after
    exact ⟨n + m, after, walk.trans later, holds⟩

theorem Follows.leaves {start : Config} {exits : Exit → Nat} {n fuel node : Nat} {after : Machine}
    {exit : Exit} {locals : Locals} (walk : code.Walk platform stop n start (.inside node, after))
    (there : exits exit = node) (holds : env.Holds known locals after) :
    Follows env known platform code stop start exits fuel (some (.leaves exit locals)) :=
  ⟨n, after, there ▸ walk, holds⟩

/-- Wherever in the section and with whatever registers its code is generated, the computation does
what the run says. -/
def Stmt.Simulates (env : Env) (known : DeclId → Bool) (bound : VReg) (platform : Platform)
    (code : Section) (stop : Nat) (epilogue : Label) (labels : Option LoopLabels) (fuel : Nat)
    (gen : Gen Unit) (run : Locals → Option Ending) : Prop :=
  ∀ ⦃supply : Supply⦄ ⦃generated : Generated Unit⦄ ⦃node : Nat⦄ ⦃machine : Machine⦄
    ⦃locals : Locals⦄ ⦃exits : Exit → Nat⦄, bound ≤ supply.nextReg →
    gen.run supply = .ok generated → code.Places node generated.code →
    node + instrCount generated.code ≤ stop → Resolves code epilogue labels exits →
    exits .next = node + instrCount generated.code → env.Holds known locals machine →
    Follows env known platform code stop (.inside node, machine) exits fuel (run locals)

namespace Stmt

variable {labels : Option LoopLabels} {fuel : Nat}

/-! ## Statements without parts -/

theorem simulates_jump {target : Label} {exit : Exit}
    (resolves : ∀ exits, Resolves code epilogue labels exits →
      labelledNode? target 0 code.items = some (exits exit)) :
    Simulates env known bound platform code stop epilogue labels fuel (Gen.emit [.jump target])
      fun locals => some (.leaves exit locals) := by
  intro supply generated node machine locals exits above runs placed below resolved there holds
  cases runs
  exact .leaves (.jump below placed.instr (resolves exits resolved)) rfl holds

theorem simulates_fail {violation : Violation} {run : Locals → Option Ending} :
    Simulates env known bound platform code stop epilogue labels fuel (.fail violation) run := by
  intro supply generated node machine locals exits above runs
  cases runs

theorem simulates_return : Simulates env known bound platform code stop epilogue labels fuel
    (lower env epilogue labels (.ret none)) fun locals => some (.leaves .returns locals) :=
  simulates_jump fun _ resolved => resolved.returns

theorem simulates_break : Simulates env known bound platform code stop epilogue labels fuel
    (lower env epilogue labels .breakLoop) fun locals => some (.leaves .breaks locals) := by
  unfold lower
  cases labels with
  | none => exact simulates_fail
  | some loop => exact simulates_jump fun _ resolved => resolved.breaks loop rfl

theorem simulates_continue : Simulates env known bound platform code stop epilogue labels fuel
    (lower env epilogue labels .continueLoop) fun locals => some (.leaves .continues locals) := by
  unfold lower
  cases labels with
  | none => exact simulates_fail
  | some loop => exact simulates_jump fun _ resolved => resolved.continues loop rfl

end Stmt

/-! ## Expression statements -/

namespace Expr

/-- What an expression statement needs of the code of its expression. -/
def Performs (env : Env) (known : DeclId → Bool) (bound : VReg) (platform : Platform)
    (code : Section) (stop : Nat) (gen : Gen Reg) (perform? : Locals → Option Locals) : Prop :=
  ∀ ⦃supply : Supply⦄ ⦃generated : Generated Reg⦄ ⦃node : Nat⦄ ⦃machine : Machine⦄
    ⦃locals after : Locals⦄, bound ≤ supply.nextReg → gen.run supply = .ok generated →
    code.Places node generated.code → node + instrCount generated.code ≤ stop →
    env.Holds known locals machine → perform? locals = some after →
    ∃ n last, code.Walk platform stop n (.inside node, machine)
      (.inside (node + instrCount generated.code), last) ∧ env.Holds known after last

theorem performs_pure (separates : env.Separates known bound) {gen : Gen Reg}
    {value? : Locals → Option Int32}
    (computes : gen.Computes env known bound platform code stop value?) :
    Performs env known bound platform code stop gen fun locals =>
      (value? locals).map fun _ => locals := by
  intro supply generated node machine locals after above runs placed below holds performs
  obtain ⟨value, evaluates, rfl⟩ := Option.map_eq_some_iff.1 performs
  obtain ⟨last, computed⟩ := computes above runs placed below holds evaluates
  obtain ⟨n, walk⟩ := computed.walk
  exact ⟨n, last, walk, holds.untouched separates (computed.untouched.anti above)⟩

theorem run_assign {id : DeclId} {name : String} {rhs : Expr} {supply : Supply}
    {generated : Generated Reg}
    (runs : ((assign .int (var .int id name) rhs).lower env).val.run supply = .ok generated) :
    ∃ computed, (rhs.lower env).val.run supply = .ok computed ∧
      (∀ reg, env.place? id = some (.reg reg) →
        generated.code = computed.code ++ [.instr (.move (.virt reg) computed.value)]) ∧
      ∀ offset, env.place? id = some (.word offset) → generated.code = computed.code ++
        [.instr (.arithImm .addi (.virt computed.supply.nextReg) .fp offset),
          .instr (.store .sw computed.value 0 (.virt computed.supply.nextReg))] := by
  obtain ⟨computed, stored, lowers, stores, rfl⟩ := Gen.run_bind.1 runs
  refine ⟨computed, lowers, fun reg found => ?_, fun offset found => ?_⟩
  · have promoted : env.promotedReg? (var .int id name) = some (.virt reg) := by
      simp [Env.promotedReg?, declId?, Env.place?_eq_reg_iff.1 found]
    rw [promoted] at stores
    cases stores
    rfl
  · have memory : env.promotedReg? (var .int id name) = none := by
      simp [Env.promotedReg?, declId?, (Env.place?_eq_word_iff.1 found).1]
    rw [memory] at stores
    change (env.varAddr id name >>= fun dst => do
      Gen.emit [.store .sw computed.value 0 dst]
      return computed.value).run computed.supply = .ok stored at stores
    rw [Env.varAddr_of_word found] at stores
    cases stores
    rfl

/-- The instructions behind the code of the value bring it to the place of the variable. -/
theorem performs_assign (separates : env.Separates known bound) {id : DeclId}
    (listed : known id = true) (name : String) {rhs : Expr} {value? : Locals → Option Int32}
    (computes : (rhs.lower env).val.Computes env known bound platform code stop value?) :
    Performs env known bound platform code stop
      ((assign .int (var .int id name) rhs).lower env).val fun locals =>
        (value? locals).map (Function.update locals id) := by
  intro supply generated node machine locals after above runs placed below holds performs
  obtain ⟨value, evaluates, rfl⟩ := Option.map_eq_some_iff.1 performs
  obtain ⟨computed, lowers, inReg, inWord⟩ := run_assign runs
  obtain ⟨place, found⟩ := separates.placed id listed
  suffices finishes : ∃ instrs : List Instr, generated.code = computed.code ++ instrs.map .instr ∧
      (∀ instr ∈ instrs, instr.isStraight = true) ∧
      ∀ last, Computed platform code stop node supply machine computed value last →
        env.Holds known locals last →
        env.Holds known (Function.update locals id value) (platform.perform last instrs) by
    obtain ⟨instrs, whole, straight, stores⟩ := finishes
    rw [whole] at placed below ⊢
    rw [instrCount_append, instrCount_map, ← Nat.add_assoc] at below ⊢
    obtain ⟨last, done⟩ := computes above lowers placed.left (by omega) holds evaluates
    obtain ⟨_, walk⟩ := done.walk
    have kept := holds.untouched separates (done.untouched.anti above)
    exact ⟨_, _, walk.trans (.straight placed.right.holds straight below last), stores last done kept⟩
  cases place with
  | reg reg =>
    refine ⟨[.move (.virt reg) computed.value], inReg reg found,
      by simp [Instr.isStraight, Instr.move], fun last done holds => ?_⟩
    have moved : platform.perform last [.move (.virt reg) computed.value] =
        last.write (.virt reg) (last.read computed.value + 0) := rfl
    rw [moved, done.answer]
    simpa using holds.write_reg separates listed found
  | word offset =>
    let base := computed.supply.nextReg
    refine ⟨[.arithImm .addi (.virt base) .fp offset, .store .sw computed.value 0 (.virt base)],
      inWord offset found, by simp [Instr.isStraight], fun last done holds => ?_⟩
    obtain ⟨reg, named, small⟩ := done.drawn
    let address := last.phys .fp + offset.toBitVec
    let pointed := last.write (.virt base) address
    have points : pointed.read (.virt base) + (0 : Int32).toBitVec = address := by
      simp only [pointed, Machine.read_virt, Machine.virt_write_virt, if_true]
      exact BitVec.add_zero _
    have stored : pointed.read computed.value = value.toBitVec := by
      rw [← done.answer, named, Machine.read_virt, Machine.virt_write_virt,
        if_neg (Nat.ne_of_lt small), Machine.read_virt]
    have performed : platform.perform last
        [.arithImm .addi (.virt base) .fp offset, .store .sw computed.value 0 (.virt base)] =
        { pointed with memory := last.memory.storeWord address value.toBitVec } := by
      change { pointed with
        memory := last.memory.storeWord (pointed.read (.virt base) + (0 : Int32).toBitVec)
          (pointed.read computed.value) } = _
      rw [points, stored]
    rw [performed]
    have kept := holds.untouched separates
      (Machine.Untouched.write (above.trans done.grown) last address)
    exact kept.write_word separates listed found

theorem performs_lower (separates : env.Separates known bound) (labelled : code.Labelled) (e : Expr)
    (action : e.isAction known = true) :
    Performs env known bound platform code stop (e.lower env).val fun locals => e.perform? locals := by
  unfold isAction at action
  split at action
  · next ty target id name rhs =>
    have parts : ((ty = .int ∧ target = .int) ∧ known id = true) ∧ rhs.isPure known = true := by
      simpa using action
    obtain ⟨⟨⟨rfl, rfl⟩, listed⟩, pure⟩ := parts
    exact performs_assign separates listed name (rhs.computes_lower separates labelled pure)
  · next other =>
    have only : (fun locals => e.perform? locals) =
        fun locals => (e.value? locals).map fun _ => locals := by
      funext locals
      exact perform?.eq_2 locals e other
    rw [only]
    exact performs_pure separates (e.computes_lower separates labelled action)

end Expr

/-! ## Statements with parts -/

namespace Stmt

variable {labels : Option LoopLabels} {fuel : Nat}

theorem simulates_eval {e : Expr}
    (performs : Expr.Performs env known bound platform code stop (e.lower env).val
      fun locals => e.perform? locals) :
    Simulates env known bound platform code stop epilogue labels fuel
      (lower env epilogue labels (.eval e)) ((eval e).run fuel) := by
  intro supply generated node machine locals exits above runs placed below resolved there holds
  obtain ⟨computed, lowers, -, whole⟩ := run_eval runs
  rw [whole] at placed below there
  rw [run]
  cases result : e.perform? locals with
  | none => trivial
  | some after =>
    obtain ⟨n, last, walk, kept⟩ := performs above lowers placed below holds result
    exact .leaves walk there kept

theorem simulates_nil : Simulates env known bound platform code stop epilogue labels fuel
    (lowerAll env epilogue labels []) (runAll fuel []) := by
  intro supply generated node machine locals exits above runs placed below resolved there holds
  cases runs
  exact .leaves .none there holds

theorem simulates_cons {first : Stmt} {rest : List Stmt}
    (here : Simulates env known bound platform code stop epilogue labels fuel
      (first.lower env epilogue labels) (first.run fuel))
    (later : Simulates env known bound platform code stop epilogue labels fuel
      (lowerAll env epilogue labels rest) (runAll fuel rest)) :
    Simulates env known bound platform code stop epilogue labels fuel
      (lowerAll env epilogue labels (first :: rest)) (runAll fuel (first :: rest)) := by
  intro supply generated node machine locals exits above runs placed below resolved there holds
  obtain ⟨one, others, lowers, lowersRest, -, whole⟩ := run_lowerAll_cons runs
  rw [whole] at placed below there
  rw [instrCount_append, ← Nat.add_assoc] at below there
  have grown := (first.writes_lower env epilogue labels _ _ lowers).regs
  have inner := here above lowers placed.left (by omega) (resolved.before _) rfl holds
  rw [runAll]
  cases ends : first.run fuel locals with
  | none =>
    rw [ends] at inner
    exact inner
  | some ending =>
    rw [ends] at inner
    cases ending with
    | undefined => trivial
    | leaves exit after =>
      obtain ⟨n, last, walk, kept⟩ := inner
      cases exit with
      | next =>
        have rest := later (above.trans grown) lowersRest placed.right below resolved there
          kept
        exact rest.behind walk (Nat.le_add_left _ _)
      | breaks | continues | returns => exact .leaves walk rfl kept

/-- Behind the code of a condition, control goes to the target if the condition is zero. -/
theorem walk_condition (separates : env.Separates known bound) {cond : Expr} {supply : Supply}
    {test : Generated Reg} {node succ : Nat} {machine : Machine} {locals : Locals} {value : Int32}
    {target : Label} {behind : List TextItem}
    (computes : (cond.lower env).val.Computes env known bound platform code stop
      fun locals => cond.value? locals)
    (lowers : (cond.lower env).val.run supply = .ok test) (above : bound ≤ supply.nextReg)
    (placed : code.Places node
      (test.code ++ .instr (.branchZero .beqz test.value target) :: behind))
    (below : node + instrCount test.code + 1 ≤ stop)
    (stands : labelledNode? target 0 code.items = some succ)
    (holds : env.Holds known locals machine) (evaluates : cond.value? locals = some value) :
    ∃ n last, 0 < n ∧ env.Holds known locals last ∧
      code.Walk platform stop n (.inside node, machine)
        (.inside (if value = 0 then succ else node + instrCount test.code + 1), last) := by
  obtain ⟨last, computed⟩ := computes above lowers placed.left (by omega) holds evaluates
  obtain ⟨n, walk⟩ := computed.walk
  refine ⟨n + 1, last, Nat.succ_pos n, holds.untouched separates (computed.untouched.anti above), ?_⟩
  have tested : ZeroTest.beqz.holds (last.read test.value) = decide (value = 0) := by
    rw [computed.answer, ← Gen.ShortCircuit.decides_and]
    rfl
  by_cases zero : value = 0
  · rw [if_pos zero]
    exact walk.trans (.taken (by omega) placed.right.instr (by simp [tested, zero]) stands)
  · rw [if_neg zero]
    exact walk.trans (.skipped (by omega) placed.right.instr (by simp [tested, zero]))

theorem simulates_branch (separates : env.Separates known bound) (labelled : code.Labelled)
    {cond : Expr} {yes : Stmt}
    (computes : (cond.lower env).val.Computes env known bound platform code stop
      fun locals => cond.value? locals)
    (taken : Simulates env known bound platform code stop epilogue labels fuel
      (yes.lower env epilogue labels) (yes.run fuel)) :
    Simulates env known bound platform code stop epilogue labels fuel
      (lower env epilogue labels (.branch cond yes none)) ((branch cond yes none).run fuel) := by
  intro supply generated node machine locals exits above runs placed below resolved there holds
  obtain ⟨test, inner, lowers, lowersYes, -, whole⟩ := run_branch runs
  rw [whole] at placed below there
  simp only [branchCode, instrCount_append, instrCount_instr, instrCount_label, instrCount_nil]
    at below there
  rw [run]
  cases known : cond.value? locals with
  | none => trivial
  | some value =>
    have done := labelled.node_of_places placed.right.tail.right
    obtain ⟨n, last, -, kept, walk⟩ := walk_condition separates computes lowers above placed (by omega)
      done holds known
    by_cases zero : value = 0
    · simp only [if_pos zero] at walk ⊢
      exact .leaves walk (by omega) kept
    · simp only [if_neg zero] at walk ⊢
      have grown := ((cond.writes_lower env).val _ _ lowers).regs
      have rest := taken (Nat.le_trans above grown) lowersYes placed.right.tail.left
        (by omega) resolved (by omega) kept
      exact rest.behind walk (Nat.le_add_left _ _)

theorem simulates_branchElse (separates : env.Separates known bound) (labelled : code.Labelled)
    {cond : Expr} {yes no : Stmt}
    (computes : (cond.lower env).val.Computes env known bound platform code stop
      fun locals => cond.value? locals)
    (taken : Simulates env known bound platform code stop epilogue labels fuel
      (yes.lower env epilogue labels) (yes.run fuel))
    (other : Simulates env known bound platform code stop epilogue labels fuel
      (no.lower env epilogue labels) (no.run fuel)) :
    Simulates env known bound platform code stop epilogue labels fuel
      (lower env epilogue labels (.branch cond yes (some no)))
      ((branch cond yes (some no)).run fuel) := by
  intro supply generated node machine locals exits above runs placed below resolved there holds
  obtain ⟨test, first, second, lowers, lowersYes, lowersNo, -, whole⟩ := run_branchElse runs
  rw [whole] at placed below there
  simp only [branchElseCode, instrCount_append, instrCount_instr, instrCount_label, instrCount_nil]
    at below there
  rw [run]
  cases known : cond.value? locals with
  | none => trivial
  | some value =>
    have endings := placed.right.tail.right
    have otherwise := labelled.node_of_places endings.tail
    have done := labelled.node_of_places endings.tail.behindLabel.right
    have grown := ((cond.writes_lower env).val _ _ lowers).regs
    have grownYes := (yes.writes_lower env epilogue labels _ _ lowersYes).regs
    obtain ⟨n, last, -, kept, walk⟩ := walk_condition separates computes lowers above placed (by omega)
      otherwise holds known
    by_cases zero : value = 0
    · simp only [if_pos zero] at walk ⊢
      have rest := other (Nat.le_trans above (Nat.le_trans grown grownYes)) lowersNo
        endings.tail.behindLabel.left (by omega) resolved (by omega) kept
      exact rest.behind walk (Nat.le_add_left _ _)
    · simp only [if_neg zero] at walk ⊢
      have inner := taken (Nat.le_trans above grown) lowersYes placed.right.tail.left (by omega)
        (resolved.before _) rfl kept
      have target : exits .next =
          node + instrCount test.code + 1 + instrCount first.code + 1 + instrCount second.code := by
        omega
      have leave : ∀ after, code.Walk platform stop 1
          (.inside (node + instrCount test.code + 1 + instrCount first.code), after)
          (.inside (exits .next), after) :=
        fun after => target ▸ .jump (by omega) endings.instr done
      refine (inner.reroute fun exit after => ?_).behind walk (Nat.le_add_left _ _)
      cases exit with
      | next => exact ⟨1, leave after⟩
      | breaks | continues | returns => exact ⟨0, .none⟩

/-! ## Loops -/

def bodyExits (next behind done : Nat) (exits : Exit → Nat) : Exit → Nat
  | .next => behind
  | .breaks => done
  | .continues => next
  | .returns => exits .returns

/-- Each turn takes at least one step, and ends in front of the condition or behind the loop. -/
theorem follows_turns {test : Locals → Option Int32} {body : Locals → Option Ending}
    {next inside behind : Nat} {exits : Exit → Nat}
    (tests : ∀ machine locals value, env.Holds known locals machine → test locals = some value →
      ∃ n last, 0 < n ∧ env.Holds known locals last ∧ code.Walk platform stop n
        (.inside next, machine) (.inside (if value = 0 then exits .next else inside), last))
    (inner : ∀ machine locals, env.Holds known locals machine → Follows env known platform code stop
      (.inside inside, machine) (bodyExits next behind (exits .next) exits) fuel (body locals))
    (back : ∀ machine, code.Walk platform stop 1 (.inside behind, machine) (.inside next, machine))
    {count : Nat} (enough : count ≤ fuel) {machine : Machine} {locals : Locals}
    (holds : env.Holds known locals machine) :
    Follows env known platform code stop (.inside next, machine) exits count
      (turns test body count locals) := by
  induction count generalizing machine locals with
  | zero => exact ⟨0, _, Nat.le_refl _, .none⟩
  | succ count ih =>
    have again : ∀ last after n, env.Holds known after last → 0 < n →
        code.Walk platform stop n (.inside next, machine) (.inside next, last) →
        Follows env known platform code stop (.inside next, machine) exits (count + 1)
          (turns test body count after) := by
      intro last after n kept positive walk
      exact (ih (Nat.le_of_succ_le enough) kept).behind walk (by omega)
    rw [turns]
    cases tested : test locals with
    | none => trivial
    | some value =>
      obtain ⟨n, last, positive, kept, walk⟩ := tests machine locals value holds tested
      by_cases zero : value = 0
      · simp only [if_pos zero] at walk ⊢
        exact .leaves walk rfl kept
      · simp only [if_neg zero] at walk ⊢
        have turn := inner last locals kept
        cases ends : body locals with
        | none =>
          rw [ends] at turn
          exact turn.behind walk (by omega)
        | some ending =>
          rw [ends] at turn
          cases ending with
          | undefined => trivial
          | leaves exit after =>
            obtain ⟨m, final, turned, left⟩ := turn
            cases exit with
            | next => exact again _ _ _ left (by omega) ((walk.trans turned).trans (back final))
            | continues => exact again _ _ _ left (by omega) (walk.trans turned)
            | breaks | returns => exact .leaves (walk.trans turned) rfl left

theorem simulates_loop (separates : env.Separates known bound) (labelled : code.Labelled)
    {cond : Expr} {body : Stmt}
    (computes : (cond.lower env).val.Computes env known bound platform code stop
      fun locals => cond.value? locals)
    (inner : ∀ loop, Simulates env known bound platform code stop epilogue (some loop) fuel
      (body.lower env epilogue (some loop)) (body.run fuel)) :
    Simulates env known bound platform code stop epilogue labels fuel
      (lower env epilogue labels (.loop cond body)) ((loop cond body).run fuel) := by
  intro supply generated node machine locals exits above runs placed below resolved there holds
  obtain ⟨test, turn, lowers, lowersBody, -, whole⟩ := run_loop runs
  rw [whole] at placed below there
  simp only [loopCode, instrCount_append, instrCount_instr, instrCount_label, instrCount_nil]
    at below there
  have grown := ((cond.writes_lower env).val _ _ lowers).regs
  have condition := placed.behindLabel
  have bodyPlaced := condition.right.tail.behindLabel
  have next := labelled.node_of_places placed
  have done := labelled.node_of_places bodyPlaced.right.tail
  have target : exits .next = node + instrCount test.code + 1 + instrCount turn.code + 1 := by omega
  rw [← target] at done
  let behind := node + instrCount test.code + 1 + instrCount turn.code
  have inside : Resolves code epilogue (some (loopLabels supply.nextLabel))
      (bodyExits node behind (exits .next) exits) := by
    refine ⟨resolved.returns, ?_, ?_⟩
    · rintro _ ⟨⟩
      exact done
    · rintro _ ⟨⟩
      exact next
  have back : ∀ machine, code.Walk platform stop 1 (.inside behind, machine) (.inside node, machine) :=
    fun machine => .jump (by omega) bodyPlaced.right.instr next
  have turning : ∀ machine locals, env.Holds known locals machine →
      Follows env known platform code stop (.inside (node + instrCount test.code + 1), machine)
        (bodyExits node behind (exits .next) exits) fuel (body.run fuel locals) :=
    fun machine locals holds => inner _ (Nat.le_trans above grown) lowersBody bodyPlaced.left
      (by omega) inside rfl holds
  rw [run]
  exact follows_turns (fun machine locals value holds evaluates =>
    walk_condition separates computes lowers above condition (by omega) done holds evaluates)
    turning back (Nat.le_refl fuel) holds

/-! ## All statements -/

mutual

theorem simulates_lower (separates : env.Separates known bound) (labelled : code.Labelled)
    (labels : Option LoopLabels) : (stmt : Stmt) → stmt.isScalar known = true →
      Simulates env known bound platform code stop epilogue labels fuel
        (stmt.lower env epilogue labels) (stmt.run fuel)
  | block _ stmts, scalar => simulates_lowerAll separates labelled labels stmts scalar
  | loop cond body, scalar => by
    have parts := Bool.and_eq_true_iff.1 scalar
    exact simulates_loop separates labelled (cond.computes_lower separates labelled parts.1)
      fun loop => body.simulates_lower separates labelled (some loop) parts.2
  | branch cond yes none, scalar => by
    have parts := Bool.and_eq_true_iff.1 scalar
    exact simulates_branch separates labelled (cond.computes_lower separates labelled parts.1)
      (yes.simulates_lower separates labelled labels parts.2)
  | branch cond yes (some no), scalar => by
    have parts := Bool.and_eq_true_iff.1 scalar
    have tested := Bool.and_eq_true_iff.1 parts.1
    exact simulates_branchElse separates labelled (cond.computes_lower separates labelled tested.1)
      (yes.simulates_lower separates labelled labels tested.2)
      (no.simulates_lower separates labelled labels parts.2)
  | ret none, _ => simulates_return
  | ret (some _), scalar => nomatch scalar
  | eval e, scalar => simulates_eval (e.performs_lower separates labelled scalar)
  | breakLoop, _ => simulates_break
  | continueLoop, _ => simulates_continue

theorem simulates_lowerAll (separates : env.Separates known bound) (labelled : code.Labelled)
    (labels : Option LoopLabels) : (stmts : List Stmt) → allScalar known stmts = true →
      Simulates env known bound platform code stop epilogue labels fuel
        (lowerAll env epilogue labels stmts) (runAll fuel stmts)
  | [], _ => simulates_nil
  | first :: rest, scalar => by
    have parts := Bool.and_eq_true_iff.1 scalar
    exact simulates_cons (first.simulates_lower separates labelled labels parts.1)
      (simulates_lowerAll separates labelled labels rest parts.2)

end

end Stmt

end MipsBackend
