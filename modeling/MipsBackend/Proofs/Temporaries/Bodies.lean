import MipsBackend.Proofs.Activation.Layout
import MipsBackend.Proofs.Linking
import MipsBackend.Proofs.Storage.DataLabels
import MipsBackend.Proofs.Storage.Promotion
import MipsBackend.Proofs.Temporaries.Expressions

/-!
# Temporaries are written before they are read

No statement leaves a register behind that the next one reads, apart from those of variables: a read
of another register that is due in front of a statement is due where control leaves the statement
(`Stmt.postpones_lower`). Round a loop, the read comes nearer each time. So no such read is due at
the start of a function (`Program.temporaries_written`).
-/

namespace MipsBackend

/-! ## Statements -/

namespace Watch

variable {watch : Watch}

/-- The read is due at one of the labels. -/
def DueAt (watch : Watch) (targets : List Label) (edges : Nat) : Prop :=
  ∃ target ∈ targets, ∃ succ, labelledNode? target 0 watch.code.items = some succ ∧
    watch.Due edges succ

theorem DueAt.mono {targets : List Label} {edges more : Nat} (due : watch.DueAt targets edges)
    (bound : edges ≤ more) : watch.DueAt targets more := by
  obtain ⟨target, known, succ, stands, next⟩ := due
  exact ⟨target, known, succ, stands, next.mono bound⟩

end Watch

namespace Stmt

open Gen

variable {env : Env} {watch : Watch} {epilogue : Label} {labels : Option LoopLabels}

/-- Wherever in the section its code stands: a read that is due at the start is still due at the end,
or at a label around the statement. -/
def Postpones (watch : Watch) (epilogue : Label) (labels : Option LoopLabels) (gen : Gen Unit) :
    Prop :=
  ∀ ⦃supply : Supply⦄ ⦃generated : Generated Unit⦄ ⦃edges node : Nat⦄,
    gen.run supply = .ok generated → watch.code.Places node generated.code →
    watch.Due edges node →
    watch.Due edges (node + instrCount generated.code) ∨ watch.DueAt (exits epilogue labels) edges

theorem postpones_behind {α : Type} {first : Gen α} {known : α → Prop} {next : α → Gen Unit}
    (before : first.Postpones watch True known)
    (after : ∀ value, known value → Postpones watch epilogue labels (next value)) :
    Postpones watch epilogue labels (first >>= next) := by
  intro supply generated edges node runs placed due
  obtain ⟨one, two, here, later, rfl⟩ := run_bind.1 runs
  obtain ⟨middle, value⟩ := before trivial here placed.left due
  rw [instrCount_append, ← Nat.add_assoc]
  exact after _ value later placed.right middle

theorem postpones_answer : Postpones watch epilogue labels (answer ()) := by
  intro supply generated edges node runs placed due
  cases runs
  exact .inl due

theorem postpones_fail (violation : Violation) :
    Postpones watch epilogue labels (fail violation) := by
  intro supply generated edges node runs
  cases runs

theorem postpones_jump {target : Label} (known : target ∈ exits epilogue labels) :
    Postpones watch epilogue labels (emit [.jump target]) := by
  intro supply generated edges node runs placed due
  cases runs
  obtain ⟨fewer, bound, succ, stands, next⟩ := due.jump placed.instr
  exact .inr ⟨target, known, succ, stands, next.mono (Nat.le_of_lt bound)⟩

theorem postpones_returnValue (ty : Ty) {val : Gen Reg}
    (value : ∀ given, val.Postpones watch given watch.Other) :
    Postpones watch epilogue labels (env.returnValue ty val epilogue) := by
  have leave : Postpones watch epilogue labels (emit [.jump epilogue]) :=
    postpones_jump List.mem_cons_self
  refine postpones_behind (value _) fun reg other => ?_
  split
  · refine postpones_behind (postpones_lift _) fun size _ => ?_
    exact postpones_behind (postpones_copyBytes (fun _ => ⟨other, by simp⟩) _ _ _) fun _ _ => leave
  split
  · exact postpones_behind (@Gen.postpones_answer watch _ _ (fun _ => True) () fun _ => trivial)
      fun _ _ => leave
  · refine postpones_behind (postpones_emit rfl fun _ => ?_) fun _ _ => leave
    simpa [Instr.uses] using other

section

variable {cond : Expr} (test : ∀ given, (cond.lower env).val.Postpones watch given watch.Other)

include test

/-- By induction on the distance of the read: each time round the loop it is nearer. -/
theorem postpones_loop {body : Stmt}
    (inner : ∀ labels, Postpones watch epilogue labels (body.lower env epilogue labels)) :
    Postpones watch epilogue labels ((loop cond body).lower env epilogue labels) := by
  intro supply generated edges node runs placed due
  obtain ⟨one, two, lowersTest, lowersBody, -, whole⟩ := run_loop runs
  rw [whole] at placed
  have front := placed.behindLabel
  have inside := front.right.tail.behindLabel
  have ending := inside.right
  have next := watch.labelled.node_of_places placed
  have done := watch.labelled.node_of_places ending.tail
  have count : node + instrCount generated.code =
      node + instrCount one.code + 1 + instrCount two.code + 1 := by
    simp only [whole, loopCode, instrCount_append, instrCount_instr, instrCount_label,
      instrCount_nil]
    omega
  rw [count]
  induction edges using Nat.strong_induction_on with
  | _ edges ih =>
    have again : ∀ fewer < edges, watch.Due fewer node →
        watch.Due edges (node + instrCount one.code + 1 + instrCount two.code + 1) ∨
          watch.DueAt (exits epilogue labels) edges := fun fewer bound back =>
      (ih fewer bound back).imp (·.mono (Nat.le_of_lt bound)) (·.mono (Nat.le_of_lt bound))
    -- The jump back and `continue` both cost an edge, so `again` covers them.
    obtain ⟨tested, other⟩ := test True trivial lowersTest front.left due
    obtain ⟨fewer, bound, enters | leaves⟩ := tested.branch front.right.instr other done
    · rcases inner _ lowersBody inside.left enters with behind | ⟨target, known, succ, stands, out⟩
      · obtain ⟨less, small, succ, stands, back⟩ := behind.jump ending.instr
        obtain rfl := Option.some.inj (next.symm.trans stands)
        exact again less (by omega) back
      · simp only [exits, Option.elim_some, List.mem_cons, List.not_mem_nil, or_false] at known
        rcases known with rfl | rfl | rfl
        · exact .inr ⟨_, List.mem_cons_self, succ, stands, out.mono (Nat.le_of_lt bound)⟩
        · obtain rfl := Option.some.inj (next.symm.trans stands)
          exact again fewer bound out
        · obtain rfl := Option.some.inj (done.symm.trans stands)
          exact .inl (out.mono (Nat.le_of_lt bound))
    · exact .inl (leaves.mono (Nat.le_of_lt bound))

theorem postpones_branch {yes : Stmt}
    (taken : Postpones watch epilogue labels (yes.lower env epilogue labels)) :
    Postpones watch epilogue labels ((branch cond yes none).lower env epilogue labels) := by
  intro supply generated edges node runs placed due
  obtain ⟨one, two, lowersTest, lowersYes, -, whole⟩ := run_branch runs
  rw [whole] at placed
  have inside := placed.right.tail
  have done := watch.labelled.node_of_places inside.right
  have count : node + instrCount generated.code =
      node + instrCount one.code + 1 + instrCount two.code := by
    simp only [whole, branchCode, instrCount_append, instrCount_instr, instrCount_label,
      instrCount_nil]
    omega
  rw [count]
  obtain ⟨tested, other⟩ := test True trivial lowersTest placed.left due
  obtain ⟨fewer, bound, enters | leaves⟩ := tested.branch placed.right.instr other done
  · exact taken lowersYes inside.left (enters.mono (Nat.le_of_lt bound))
  · exact .inl (leaves.mono (Nat.le_of_lt bound))

theorem postpones_branchElse {yes no : Stmt}
    (taken : Postpones watch epilogue labels (yes.lower env epilogue labels))
    (skipped : Postpones watch epilogue labels (no.lower env epilogue labels)) :
    Postpones watch epilogue labels ((branch cond yes (some no)).lower env epilogue labels) := by
  intro supply generated edges node runs placed due
  obtain ⟨one, two, three, lowersTest, lowersYes, lowersNo, -, whole⟩ := run_branchElse runs
  rw [whole] at placed
  have inside := placed.right.tail
  have ending := inside.right
  have otherwise := watch.labelled.node_of_places ending.tail
  have done := watch.labelled.node_of_places ending.tail.behindLabel.right
  have count : node + instrCount generated.code =
      node + instrCount one.code + 1 + instrCount two.code + 1 + instrCount three.code := by
    simp only [whole, branchElseCode, instrCount_append, instrCount_instr, instrCount_label,
      instrCount_nil]
    omega
  rw [count]
  obtain ⟨tested, other⟩ := test True trivial lowersTest placed.left due
  obtain ⟨fewer, bound, enters | leaves⟩ := tested.branch placed.right.instr other otherwise
  · rcases taken lowersYes inside.left (enters.mono (Nat.le_of_lt bound)) with behind | outside
    · obtain ⟨less, small, succ, stands, next⟩ := behind.jump ending.instr
      obtain rfl := Option.some.inj (done.symm.trans stands)
      exact .inl (next.mono (Nat.le_of_lt small))
    · exact .inr outside
  · exact skipped lowersNo ending.tail.behindLabel.left (leaves.mono (Nat.le_of_lt bound))

end

mutual

theorem postpones_lower (spares : env.Spares watch) :
    (stmt : Stmt) → ∀ labels, Postpones watch epilogue labels (stmt.lower env epilogue labels)
  | block _ stmts, labels => postpones_lowerAll spares stmts labels
  | loop cond body, _ =>
    postpones_loop (cond.postpones_lower spares).val (body.postpones_lower spares)
  | branch cond yes none, labels =>
    postpones_branch (cond.postpones_lower spares).val (yes.postpones_lower spares labels)
  | branch cond yes (some no), labels =>
    postpones_branchElse (cond.postpones_lower spares).val (yes.postpones_lower spares labels)
      (no.postpones_lower spares labels)
  | ret none, _ => postpones_jump List.mem_cons_self
  | ret (some value), _ => postpones_returnValue value.ty (value.postpones_lower spares).val
  | eval expr, _ =>
    postpones_behind ((expr.postpones_lower spares).val _) fun _ _ => postpones_answer
  | breakLoop, none => postpones_fail _
  | breakLoop, some _ => postpones_jump (by simp [exits])
  | continueLoop, none => postpones_fail _
  | continueLoop, some _ => postpones_jump (by simp [exits])

theorem postpones_lowerAll (spares : env.Spares watch) :
    (stmts : List Stmt) → ∀ labels,
      Postpones watch epilogue labels (lowerAll env epilogue labels stmts)
  | [], _ => postpones_answer
  | first :: rest, labels => by
    intro supply generated edges node runs placed due
    obtain ⟨one, others, lowers, later, -, whole⟩ := run_lowerAll_cons runs
    rw [whole] at placed ⊢
    rw [instrCount_append, ← Nat.add_assoc]
    rcases first.postpones_lower spares labels lowers placed.left due with behind | outside
    · exact postpones_lowerAll spares rest labels later placed.right behind
    · exact .inr outside

end

end Stmt

/-! ## Functions -/

namespace Instr

theorem not_mem_virtualUses {instr : Instr} (concrete : instr.virtualOperands = []) (reg : VReg) :
    reg ∉ instr.virtualUses := by
  rw [(List.append_eq_nil_iff.1 concrete).1]
  exact List.not_mem_nil

theorem not_readFirst_of_concrete {instrs : List Instr} {reg : VReg}
    (concrete : ∀ instr ∈ instrs, instr.virtualOperands = []) : ¬ ReadFirst (.virt reg) instrs :=
  not_readFirst_of_unread fun instr member used =>
    not_mem_virtualUses (concrete instr member) reg (mem_virtuals.2 used)

end Instr

namespace Watch

variable {watch : Watch} {edges node : Nat}

/-- The last instruction of a function has no successor. -/
theorem not_due_leaveCode (placed : watch.code.Places node (leaveCode.map .instr)) :
    ¬ watch.Due edges node := by
  intro due
  have split : leaveCode.map TextItem.instr =
      (Instr.marker .restore :: exitCode).map .instr ++ [.instr (.jumpReg .ra)] := rfl
  rw [split] at placed
  obtain ⟨-, last⟩ := due.straight placed.left (by decide)
    (Instr.not_readFirst_of_concrete (by decide))
  rw [← instrCount_map] at last
  obtain ⟨-, fewer, -, ⟨falls, -⟩ | ⟨target, succ, branches, -⟩⟩ :=
    last.step placed.right.instr (by simp [Instr.uses])
  · cases falls
  · cases branches

theorem not_due_start {env : Env} {fn : FunDef} {supply : Supply} {body : Generated Unit}
    {space : Nat} (lowers : env.LowersBody fn supply body)
    (whole : watch.code = functionSection fn.name space body.code) (spares : env.Spares watch) :
    ¬ watch.Due edges 0 := by
  intro due
  have placed : watch.code.Places 0 ((enterCode space ++ [Instr.marker .save]).map .instr ++
      (body.code ++ .label (.epilogue fn.name) :: leaveCode.map .instr)) :=
    ⟨[.label (.function fn.name)], [], by simp [whole, functionSection, functionItems, leaveCode],
      rfl⟩
  have unbranched : ∀ instr ∈ enterCode space ++ [.marker .save], instr.branchTarget? = none := by
    intro instr member
    rcases List.mem_append.1 member with enters | marks
    · rcases List.mem_append.1 enters with pushes | reserves
      · exact (by decide : ∀ instr ∈ ([.adjustStack (-4), .sw .fp 0 .sp,
          .arithImm .addiu .fp .sp 0, .adjustStack (-4), .sw .ra 0 .sp] : List Instr),
          instr.branchTarget? = none) instr pushes
      · exact branchTarget?_reserveCode reserves
    · cases List.mem_singleton.1 marks
      rfl
  have concrete : ∀ instr ∈ enterCode space ++ [.marker .save], instr.virtualOperands = [] :=
    List.forall_mem_append.2
      ⟨fun instr member => (Assignment.concrete_enterCode space instr member).1, by decide⟩
  obtain ⟨-, entered⟩ :=
    due.straight placed.left unbranched (Instr.not_readFirst_of_concrete concrete)
  rw [← instrCount_map] at entered
  have ends := watch.labelled.node_of_places placed.right.right
  have leaves := placed.right.right.behindLabel
  rcases Stmt.postpones_lowerAll spares fn.body.stmts none lowers placed.right.left entered with
    behind | ⟨target, known, succ, stands, out⟩
  · exact not_due_leaveCode leaves behind
  · obtain rfl := List.mem_singleton.1 known
    obtain rfl := Option.some.inj (ends.symm.trans stands)
    exact not_due_leaveCode leaves out

end Watch

/-! ## Programs -/

/-- On every path from the first node, each read of the register stands behind a write of it. -/
def FlowGraph.WrittenFirst (graph : FlowGraph) (reg : VReg) : Prop :=
  ∀ (path : Nat → Nat) (edges : Nat), path 0 = 0 →
    (∀ i < edges, path (i + 1) ∈ graph.succs (path i)) →
    (∃ instr, graph.instr? (path edges) = some instr ∧ reg ∈ instr.virtualUses) →
    ∃ i < edges, ∃ instr, graph.instr? (path i) = some instr ∧ instr.virtualDef? = some reg

theorem FlowGraph.writtenFirst_of_not_liveBefore {graph : FlowGraph} {reg : VReg}
    (dead : ¬ graph.LiveBefore reg 0) : graph.WrittenFirst reg := by
  intro path edges starts linked reads
  by_contra unwritten
  exact dead (liveBefore_iff.2 ⟨path, edges, starts, linked, reads,
    fun i bound instr here writes => unwritten ⟨i, bound, instr, here, writes⟩⟩)

namespace Program

/-- The register is that of a local variable that promotion keeps in one. -/
def Granted (program : Program) (reg : VReg) : Prop :=
  ∃ fn ∈ program.functions, ∃ decl ∈ fn.body.locals,
    (program.promotion 0).1[decl.id]? = some reg

variable {program : Program}

theorem granted_of_promoted {id : DeclId} {reg : VReg}
    (known : (program.promotion 0).1[id]? = some reg) : program.Granted reg := by
  obtain ⟨fn, listed, decl, scalar, rfl, -⟩ := local_of_promoted known
  exact ⟨fn, listed, decl, List.mem_of_mem_filter scalar, known⟩

theorem spares_env {plan : MemoryPlan} (planned : program.memoryPlan (program.promotion 0).1 = .ok plan)
    {watch : Watch} (other : ¬ program.Granted watch.reg) : (program.env plan).Spares watch where
  promoted _ _ known same := other (same ▸ granted_of_promoted known)
  stored id reg known same :=
    other (same ▸ granted_of_promoted ((lists_memoryPlan planned).register id reg known))

/-- The sections around those of the functions mention no virtual register. -/
theorem concrete_or_lowered {entry : String} {generated : Assembly}
    (generates : program.generate entry = .ok generated) {code : Section}
    (member : code ∈ generated.sections) :
    (∀ instr ∈ code.instructions, instr.virtualOperands = []) ∨
      ∃ plan, program.memoryPlan (program.promotion 0).1 = .ok plan ∧
        ∃ fn start body, (program.env plan).LowersBody fn start body ∧
          code = functionSection fn.name (plan.spaceOf fn.name) body.code := by
  obtain ⟨plan, functions, planned, lowers, rfl⟩ := generate_eq_ok generates
  simp only [List.cons_append, List.mem_cons, List.mem_append, List.mem_map] at member
  rcases member with rfl | listed | ⟨service, -, rfl⟩
  · exact .inl (List.forall_mem_cons.2 ⟨rfl, by decide⟩)
  · obtain ⟨fn, -, start, body, own, whole⟩ := Env.mem_lowerFunctions lowers listed
    exact .inr ⟨plan, planned, fn, start, body, own, whole⟩
  · exact .inl (List.forall_mem_cons.2 ⟨rfl, by decide⟩)

theorem not_liveBefore_start {entry : String} {generated : Assembly}
    (generates : program.generate entry = .ok generated) {code : Section}
    (member : code ∈ generated.sections) {graph : FlowGraph} (built : code.flowGraph = .ok graph)
    {reg : VReg} (other : ¬ program.Granted reg) : ¬ graph.LiveBefore reg 0 := by
  intro live
  rcases concrete_or_lowered generates member with
    concrete | ⟨plan, planned, fn, start, body, lowers, whole⟩
  · obtain ⟨path, edges, -, along⟩ := FlowGraph.liveBefore_iff.1 live
    obtain ⟨instr, here, used⟩ := along.reads
    rw [Section.instr?_flowGraph built] at here
    exact instr.not_mem_virtualUses (concrete instr (List.mem_of_getElem? here)) reg used
  · let watch : Watch :=
      { code, graph, reg, built
        labelled := whole ▸ labelled_functionSection lowers.wrote.code fn.name _ }
    obtain ⟨edges, due⟩ := live.within
    exact watch.not_due_start lowers whole (spares_env planned other) due

/-- In every section of a generated program, the registers that are live at the start are those of
local variables. Every other register is written before it is read, on whatever path. -/
theorem temporaries_written {entry : String} {generated : Assembly}
    (generates : program.generate entry = .ok generated) {code : Section}
    (member : code ∈ generated.sections) :
    ∃ graph, code.flowGraph = .ok graph ∧
      (∀ reg ∈ graph.liveness.live.liveIn 0, program.Granted reg) ∧
      ∀ reg, ¬ program.Granted reg → graph.WrittenFirst reg := by
  obtain ⟨graph, built⟩ := (ready_generate generates code member).exists_flowGraph
  refine ⟨graph, built, fun reg live => ?_, fun reg other =>
    FlowGraph.writtenFirst_of_not_liveBefore (not_liveBefore_start generates member built other)⟩
  rw [FlowGraph.liveIn_live, FlowGraph.mem_settled_iff] at live
  by_contra other
  exact not_liveBefore_start generates member built other live

/-- A loop that is left and continued from inside, under operators that may skip an operand. -/
def skipping : Program :=
  let n : VarDecl := { id := 0, name := "n", ty := .int }
  let limit : VarDecl := { id := 1, name := "limit", ty := .int }
  { decls :=
      [ .funDef
          { name := "main", ret := .int, params := []
            body :=
              { vars := [n, limit]
                stmts :=
                  [ .eval (.assignment (.ofDecl n) (.ofInt 0)),
                    .loop (.ofOperands .or (.ofDecl limit) (.ofOperands .lt (.ofDecl n) (.ofInt 9)))
                      (.block []
                        [ .eval (.assignment (.ofDecl n) (.ofOperands .add (.ofDecl n) (.ofInt 1))),
                          .branch (.ofOperands .and (.ofDecl limit) (.ofDecl n)) .breakLoop
                            (some .continueLoop) ]),
                    .ret (some (.ofDecl n)) ] } } ] }

theorem temporaries_written_skipping : ∃ generated code,
    skipping.generate "main" = .ok generated ∧ generated.sections[1]? = some code ∧
    code ∈ generated.sections ∧
    ∃ graph, code.flowGraph = .ok graph ∧
      (∀ reg ∈ graph.liveness.live.liveIn 0, skipping.Granted reg) ∧
      ∀ reg, ¬ skipping.Granted reg → graph.WrittenFirst reg := by
  have succeeds : (skipping.generate "main").toBool = true := by decide +kernel
  obtain ⟨generated, generates⟩ := exists_ok_of_toBool succeeds
  obtain ⟨fn, here⟩ : ∃ fn, skipping.functions[0]? = some fn := ⟨_, rfl⟩
  obtain ⟨plan, supply, body, -, -, -, placed⟩ := section_generate generates here
  have member := List.mem_of_getElem? placed
  exact ⟨generated, _, generates, placed, member, temporaries_written generates member⟩

end Program

end MipsBackend
