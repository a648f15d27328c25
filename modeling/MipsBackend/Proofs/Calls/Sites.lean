import MipsBackend.Proofs.Calls.Code
import MipsBackend.Proofs.Lowering.Composition

/-!
# Call sites

Each jump to a function in the code of a body comes from a call of the tree (`Env.sited_lowerAll`).
The code around it passes arguments and result by one of two conventions: in registers, if the name
stands for a library function, and on the stack otherwise.
-/

namespace MipsBackend

/-! ## Pieces of code -/

theorem append_eq_split {α : Type} {first second before after : List α} {item : α}
    (same : first ++ second = before ++ item :: after) :
    (∃ more, first = before ++ item :: more ∧ after = more ++ second) ∨
      ∃ more, before = first ++ more ∧ second = more ++ item :: after := by
  rcases List.append_eq_append_iff.1 same with ⟨more, later, rest⟩ | ⟨more, rfl, rest⟩
  · exact .inr ⟨more, later, rest⟩
  · cases more with
    | nil => exact .inr ⟨[], by simp, by simpa using rest.symm⟩
    | cons found more =>
      obtain ⟨rfl, rfl⟩ := List.cons_eq_cons.1 rest
      exact .inl ⟨more, rfl, rfl⟩

theorem uncalling_reserveCode (bytes : Nat) : (reserveCode bytes).all (!·.isCall) = true := by
  unfold reserveCode
  split <;> rfl

theorem uncalling_releaseCode (bytes : Nat) : (releaseCode bytes).all (!·.isCall) = true := by
  unfold releaseCode
  split <;> rfl

theorem Takes.uncalling {ty : Ty} {res : Reg} {take : List Instr}
    (takes : Takes ty res take) : take.all (!·.isCall) = true := by
  cases takes <;> rfl

/-! ## Conventions -/

inductive Convention where
  | registers | stack
deriving DecidableEq, Repr

/-- A single result, if there is any, comes from `$v0`. -/
inductive TakesRegister (ty : Ty) : List TextItem → Prop
  | nothing (void : ty.isVoid = true) : TakesRegister ty []
  | value (nonvoid : ty.isVoid = false) (res : VReg) :
      TakesRegister ty [.instr (.move (.virt res) .v0)]

namespace Env

def convention (env : Env) (name : String) : Convention :=
  if (env.service? name).isSome then .registers else .stack

/-- Code that leaves the value of the first argument in `$a0`. Nothing is done for other arguments. -/
inductive LoadsFirst (env : Env) : List Expr → List TextItem → Prop
  | nothing : LoadsFirst env [] []
  | value {arg : Expr} {others : List Expr} {supply : Supply} {computed : Generated Reg}
      (computes : (arg.lower env).val.run supply = .ok computed) :
      LoadsFirst env (arg :: others) (computed.code ++ [.instr (.move .a0 computed.value)])

/-- The code of a call in front of its jump and behind it. -/
inductive Passes (env : Env) (ty : Ty) (name : String) (args : List Expr) :
    Convention → List TextItem → List TextItem → Prop
  | registers {load take : List TextItem} (loads : env.LoadsFirst args load)
      (takes : TakesRegister ty take) : Passes env ty name args .registers load take
  | stack {decl : FunDecl} {space result : Nat} {supply : Supply} {stored : Generated Unit}
      {res : Reg} {take : List Instr} (signed : env.signature name = .ok decl)
      (argSpace : env.layout.slotsSize decl.params = .ok space)
      (resultSpace : env.layout.slotSize decl.ret = .ok result)
      (stores : (env.storeArgs 0 (Expr.lowerArgs env args).reverse).run supply = .ok stored)
      (takes : Takes decl.ret res take) :
      Passes env ty name args .stack
        ((reserveCode space).map .instr ++ (stored.code ++ (reserveCode result).map .instr))
        (take.map .instr ++ (releaseCode (space + result)).map .instr)

/-- The code around a jump is that of a call of the function among the nodes. -/
structure Site (env : Env) (nodes : List Expr) (name : String) (convention : Convention)
    (before after : List TextItem) : Prop where
  chosen : env.convention name = convention
  around : ∃ ty args enter leave, .call ty name args ∈ nodes ∧
    env.Passes ty name args convention enter leave ∧ enter <:+ before ∧ leave <+: after

/-- Each jump to a function has its site. -/
def Sited (env : Env) (nodes : List Expr) (code : List TextItem) : Prop :=
  ∀ before target after, code = before ++ .instr (.call target) :: after →
    ∃ name convention, target = .function name ∧ env.Site nodes name convention before after

/-! ## Putting code together -/

variable {env : Env} {nodes : List Expr}

theorem Site.extend {name : String} {convention : Convention} {before after : List TextItem}
    (site : env.Site nodes name convention before after) (front back : List TextItem) :
    env.Site nodes name convention (front ++ before) (after ++ back) := by
  obtain ⟨chosen, ty, args, enter, leave, node, passes, ends, starts⟩ := site
  exact ⟨chosen, ty, args, enter, leave, node, passes, ends.trans (List.suffix_append _ _),
    starts.trans (List.prefix_append _ _)⟩

theorem Sited.append {first second : List TextItem} (left : env.Sited nodes first)
    (right : env.Sited nodes second) : env.Sited nodes (first ++ second) := by
  intro before target after same
  rcases append_eq_split same with ⟨more, here, rfl⟩ | ⟨more, rfl, there⟩
  · obtain ⟨name, convention, named, site⟩ := left _ _ _ here
    exact ⟨name, convention, named, site.extend [] second⟩
  · obtain ⟨name, convention, named, site⟩ := right _ _ _ there
    refine ⟨name, convention, named, ?_⟩
    simpa using site.extend first []

instance : Compositional (env.Sited nodes) where
  uncalling code quiet before target after same := by
    have calls := quiet (.call target) (same ▸ List.mem_append_right _ List.mem_cons_self)
    cases calls
  append _ _ := Sited.append

/-- The jump of a call between the code that passes its arguments and the code that takes its
result. -/
theorem Sited.jump {ty : Ty} {name : String} {args : List Expr} {enter leave : List TextItem}
    (node : .call ty name args ∈ nodes)
    (passes : env.Passes ty name args (env.convention name) enter leave)
    (front : env.Sited nodes enter) (back : env.Sited nodes leave) :
    env.Sited nodes (enter ++ .instr (.call (.function name)) :: leave) := by
  intro before target after same
  rcases append_eq_split same with ⟨more, here, rfl⟩ | ⟨more, rfl, there⟩
  · obtain ⟨other, convention, named, site⟩ := front _ _ _ here
    exact ⟨other, convention, named, site.extend [] _⟩
  · cases more with
    | nil =>
      obtain ⟨jump, rfl⟩ := List.cons_eq_cons.1 there
      obtain rfl := Instr.call.inj (TextItem.instr.inj jump)
      exact ⟨name, _, rfl, rfl, ty, args, enter, leave, node, passes, by simp, List.prefix_rfl⟩
    | cons found more =>
      obtain ⟨rfl, rfl⟩ := List.cons_eq_cons.1 there
      obtain ⟨other, convention, named, site⟩ := back _ _ _ rfl
      have further := site.extend (enter ++ [.instr (.call (.function name))]) []
      rw [List.append_assoc, List.append_nil] at further
      exact ⟨other, convention, named, further⟩

/-! ## Calls -/

theorem run_callService {ty : Ty} {name : String} {args : List Expr} {supply : Supply}
    {generated : Generated Reg}
    (runs : (callService ty name (Expr.lowerArgs env args)).run supply = .ok generated) :
    ∃ load take, env.LoadsFirst args load ∧ TakesRegister ty take ∧
      generated.code = load ++ .instr (.call (.function name)) :: take := by
  have behind : ∀ {supply : Supply} {generated : Generated Reg},
      (do
        Gen.emit [.call (.function name)]
        if ty.isVoid then return Reg.zero
        else
          let res ← Gen.freshReg
          Gen.emit [.move res .v0]
          return res : Gen Reg).run supply = .ok generated →
        ∃ take, TakesRegister ty take ∧ generated.code = .instr (.call (.function name)) :: take := by
    intro supply generated runs
    obtain ⟨_, taken, calls, takes, -, whole⟩ := Gen.run_bind_code runs
    rw [Gen.run_emit calls] at whole
    refine ⟨taken.code, ?_, whole⟩
    split at takes
    · next void =>
      cases takes
      exact .nothing void
    · next nonvoid =>
      cases takes
      exact .value (by simpa using nonvoid) _
  cases args with
  | nil =>
    obtain ⟨_, _, loads, runsCall, -, whole⟩ := Gen.run_bind_code runs
    cases loads
    obtain ⟨take, takes, code⟩ := behind runsCall
    exact ⟨[], take, .nothing, takes, whole.trans code⟩
  | cons arg others =>
    obtain ⟨computed, _, computes, runsMove, -, whole⟩ := Gen.run_bind_code runs
    obtain ⟨_, _, moves, runsCall, -, rest⟩ := Gen.run_bind_code runsMove
    obtain ⟨take, takes, code⟩ := behind runsCall
    refine ⟨_, take, .value computes, takes, ?_⟩
    rw [whole, rest, code, Gen.run_emit moves, List.append_assoc]
    rfl

theorem sited_takesRegister {ty : Ty} {take : List TextItem} (takes : TakesRegister ty take) :
    env.Sited nodes take := by
  cases takes with
  | nothing void => exact Gen.holds_nil
  | value nonvoid res => exact @Gen.holds_instrs _ _ [.move (.virt res) .v0] rfl

theorem yields_callService {ty : Ty} {name : String} {args : List Expr}
    (node : .call ty name args ∈ nodes) (known : (env.service? name).isSome = true)
    (vals : ∀ arg ∈ Expr.lowerArgs env args, arg.val.Yields (env.Sited nodes)) :
    (callService ty name (Expr.lowerArgs env args)).Yields (env.Sited nodes) := by
  intro supply generated runs
  obtain ⟨load, take, loads, takes, code⟩ := run_callService runs
  have chosen : env.convention name = .registers := if_pos known
  rw [code]
  refine .jump node (chosen ▸ .registers loads takes) ?_ (sited_takesRegister takes)
  cases loads with
  | nothing => exact Gen.holds_nil
  | value computes =>
    exact .append (vals _ List.mem_cons_self _ _ computes) (@Gen.holds_instrs _ _ [.move .a0 _] rfl)

theorem yields_callFunction {ty : Ty} {name : String} {args : List Expr}
    (node : .call ty name args ∈ nodes) (own : env.service? name = none)
    (vals : ∀ arg ∈ Expr.lowerArgs env args, arg.val.Yields (env.Sited nodes)) :
    (env.callFunction name (Expr.lowerArgs env args)).Yields (env.Sited nodes) := by
  intro supply generated runs
  obtain ⟨decl, space, result, stored, taken, signed, argSpace, resultSpace, stores, takes, rfl⟩ :=
    run_callFunction_parts runs
  obtain ⟨take, answers, code⟩ := run_takeResult takes
  have chosen : env.convention name = .stack := by
    rw [convention, own]
    rfl
  have passes : env.Passes ty name args .stack _ _ :=
    .stack signed argSpace resultSpace stores answers
  rw [← chosen] at passes
  have front : env.Sited nodes
      ((reserveCode space).map .instr ++ (stored.code ++ (reserveCode result).map .instr)) :=
    .append (Gen.holds_instrs (uncalling_reserveCode space))
      (.append (yields_storeArgs (fun arg member => vals arg (List.mem_reverse.1 member)) 0 _ _ stores)
        (Gen.holds_instrs (uncalling_reserveCode result)))
  have back : env.Sited nodes
      (take.map .instr ++ (releaseCode (space + result)).map .instr) :=
    .append (Gen.holds_instrs answers.uncalling)
      (Gen.holds_instrs (uncalling_releaseCode (space + result)))
  simpa only [code, List.append_assoc] using Sited.jump node passes front back

theorem callsYield_sited (env : Env) (nodes : List Expr) :
    env.CallsYield nodes (env.Sited nodes) := by
  intro ty name args node vals
  unfold call
  cases known : env.service? name with
  | some service =>
    have code := yields_callService node (by rw [known]; rfl) vals
    exact ⟨code, code⟩
  | none =>
    have code := yields_callFunction node known vals
    exact ⟨code, code⟩

theorem sited_lowerAll {epilogue : Label} {labels : Option LoopLabels} {stmts : List Stmt}
    {supply : Supply} {generated : Generated Unit}
    (runs : (Stmt.lowerAll env epilogue labels stmts).run supply = .ok generated) :
    env.Sited (Stmt.listExprs stmts) generated.code :=
  Stmt.yields_lowerAll (callsYield_sited env _) labels stmts (List.Subset.refl _) supply generated
    runs

end Env

end MipsBackend
