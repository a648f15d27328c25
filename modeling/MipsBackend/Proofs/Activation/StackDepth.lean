import MipsBackend.Proofs.Activation.Bodies
import MipsBackend.Proofs.Assignment.Final
import MipsBackend.Proofs.Lowering.Starts
import MipsBackend.Proofs.Lowering.Uniqueness

/-!
# The depth of the stack

Between the markers of a function, every instruction has a depth of its own: whichever way control
comes to it, the stack pointer is as many bytes below the place where registers were saved
(`Program.stack_balanced`). So the code that restores them finds them again.
-/

namespace MipsBackend

/-- A depth for every instruction from the marker that saves registers to the one that restores
them: how many bytes the stack pointer is below its place at the first. -/
structure Section.StackDepths (code : Section) (env : Env) (fn : FunDef) (supply : Supply)
    (graph : FlowGraph) (save restore : Nat) (depth : Nat → Nat) : Prop where
  saves : code.instructions[save]? = some (.marker .save)
  restores : code.instructions[restore]? = some (.marker .restore)
  inside : ∀ node succ, save ≤ node → node < restore → succ ∈ graph.succs node →
    save < succ ∧ succ ≤ restore
  /-- Along an edge, the depth changes as the stack pointer does. -/
  edges : ∀ node succ instr, save ≤ node → node < restore →
    code.instructions[node]? = some instr → succ ∈ graph.succs node →
    (depth succ : Int) = depth node - instr.stackChange
  writes : ∀ node instr, save ≤ node → node < restore → code.instructions[node]? = some instr →
    instr.def? = some .sp → ∃ amount, instr = .adjustStack amount
  enters : depth save = 0
  leaves : depth restore = 0
  epilogue : labelledNode? (.epilogue fn.name) 0 code.items = some restore
  labels : ∀ stem ∈ Stmt.labelStems, ∀ number node,
    labelledNode? (.branch stem number) 0 code.items = some node → depth node = 0
  located : ∃ starts, Stmt.Locates env (.epilogue fn.name) none supply fn.body.stmts
    (Stmt.listParts fn.body.stmts) starts
  statements : ∀ start, Stmt.Starts env (.epilogue fn.name) none supply fn.body.stmts start →
    depth (save + 1 + instrCount start.front) = 0 ∧
      ∃ own, (start.stmt.lower env (.epilogue fn.name) start.labels).run start.supply = .ok own ∧
        code.Places (save + 1 + instrCount start.front) own.code

/-! ## Places in a body -/

theorem exists_split_of_lt {items : List TextItem} {node : Nat} (bound : node < instrCount items) :
    ∃ front instr rest, items = front ++ .instr instr :: rest ∧ instrCount front = node := by
  induction items generalizing node with
  | nil => cases bound
  | cons item items ih =>
    cases item with
    | label here =>
      obtain ⟨front, instr, rest, rfl, count⟩ := ih bound
      exact ⟨.label here :: front, instr, rest, rfl, count⟩
    | comment text =>
      obtain ⟨front, instr, rest, rfl, count⟩ := ih bound
      exact ⟨.comment text :: front, instr, rest, rfl, count⟩
    | instr here =>
      cases node with
      | zero => exact ⟨[], here, items, rfl, rfl⟩
      | succ node =>
        obtain ⟨front, instr, rest, rfl, rfl⟩ := ih (Nat.lt_of_succ_lt_succ bound)
        exact ⟨.instr here :: front, instr, rest, rfl, rfl⟩

/-- The depth in front of an instruction of a body. -/
def bodyDepth (body : List TextItem) (node : Nat) : Nat :=
  (-stackChange ((body.filterMap TextItem.instr?).take node)).toNat

theorem bodyDepth_eq {body front rest : List TextItem} (below : Below 0 body)
    (split : body = front ++ rest) : (bodyDepth body (instrCount front) : Int) = -stackShift front := by
  have taken : (body.filterMap TextItem.instr?).take (instrCount front) =
      front.filterMap TextItem.instr? := by
    rw [split, List.filterMap_append]
    exact List.take_left
  have depth := below front ⟨rest, split.symm⟩
  rw [bodyDepth, taken]
  exact Int.toNat_of_nonneg (by unfold stackShift at depth; omega)

/-- The nodes of a section before, at and behind the code of a body. -/
theorem places_body {name : String} {space : Nat} {body front rest : List TextItem}
    (split : body = front ++ rest) :
    (functionSection name space body).Places ((enterCode space).length + 1 + instrCount front)
      (rest ++ .label (.epilogue name) :: leaveCode.map .instr) := by
  have placed := (places_functionSection name space body).tail
  rw [split, List.append_assoc] at placed
  exact split ▸ placed.right

/-! ## Functions -/

section

variable {env : Env} {fn : FunDef} {supply : Supply} {body : Generated Unit} {space : Nat}
  {graph : FlowGraph}

/-- Every edge from a place in the body leads to another, or to the end, and accounts for the
difference of their depths. -/
theorem edge_functionSection (lowers : env.LowersBody fn supply body)
    (fits : env.CallsFit body.code)
    (built : (functionSection fn.name space body.code).flowGraph = .ok graph)
    {front rest : List TextItem} {instr : Instr} (split : body.code = front ++ .instr instr :: rest)
    {succ : Nat} (edge : succ ∈ graph.succs ((enterCode space).length + 1 + instrCount front)) :
    ∃ before after, body.code = before ++ after ∧
      succ = (enterCode space).length + 1 + instrCount before ∧
      stackShift before = stackShift front + instr.stackChange := by
  have shape := lowers.wrote.code
  have labelled := labelled_functionSection shape fn.name space
  have here := (@places_body fn.name space _ _ _ split).instr
  obtain ⟨found, known, way⟩ := (Section.mem_succs_iff built).1 edge
  obtain rfl := Option.some.inj (here.symm.trans known)
  rcases way with ⟨-, rfl, -⟩ | ⟨target, branches, stands⟩
  · exact ⟨front ++ [.instr instr], rest, by simp [split], by simp [Nat.add_assoc], by simp⟩
  · have still : instr.stackChange = 0 := by
      cases instr with
      | branchZero | branchPair | jump => rfl
      | _ => cases branches
    rw [still, Int.add_zero]
    rcases (shape.balanced fits.releases).branches _ _ _ _ split branches with
      ⟨outer, level⟩ | ⟨before, after, own, level⟩
    · obtain rfl := List.mem_singleton.1 outer
      have ends := labelled.node_of_places (@places_body fn.name space body.code body.code [] (by simp))
      obtain rfl := Option.some.inj (ends.symm.trans stands)
      exact ⟨body.code, [], by simp, rfl, ((shape.settled fits).whole).trans level.symm⟩
    · have placed := labelled.node_of_places (@places_body fn.name space _ _ _ own)
      obtain rfl := Option.some.inj (placed.symm.trans stands)
      exact ⟨before, _, own, rfl, level⟩

theorem edge_marker (built : (functionSection fn.name space body.code).flowGraph = .ok graph)
    {succ : Nat} (edge : succ ∈ graph.succs (enterCode space).length) :
    succ = (enterCode space).length + 1 := by
  obtain ⟨found, known, way⟩ := (Section.mem_succs_iff built).1 edge
  have marker := (places_functionSection fn.name space body.code).instr
  obtain rfl := Option.some.inj (marker.symm.trans known)
  rcases way with ⟨-, next, -⟩ | ⟨_, branches, -⟩
  · exact next
  · cases branches

/-- From the marker on, a place of the function is the marker itself or in the body. -/
theorem cases_body {items : List TextItem} {save node : Nat} (lower : save ≤ node)
    (upper : node < save + 1 + instrCount items) :
    node = save ∨ ∃ front instr rest,
      items = front ++ .instr instr :: rest ∧ node = save + 1 + instrCount front := by
  rcases Nat.eq_or_lt_of_le lower with same | later
  · exact .inl same.symm
  · obtain ⟨front, instr, rest, split, count⟩ := @exists_split_of_lt items (node - (save + 1))
      (by omega)
    exact .inr ⟨front, instr, rest, split, by omega⟩

/-- A label of a branch stands in the body. -/
theorem exists_label_body {name : String} {items : List TextItem} {stem : String} {number node : Nat}
    (known : stem ∈ Label.branchStems)
    (stands : labelledNode? (.branch stem number) 0 (functionSection name space items).items =
      some node) : ∃ front rest, items = front ++ .label (.branch stem number) :: rest := by
  have opening : (Label.branch stem number).opening ∈ Label.branchOpenings :=
    Label.IsBranch.opening ⟨stem, known, rfl⟩
  obtain ⟨before, after, split, -⟩ := labelledNode?_isSome_iff.1 (stands ▸ rfl :
    (labelledNode? (.branch stem number) 0 (functionSection name space items).items).isSome = true)
  have member : .label (.branch stem number) ∈ (functionSection name space items).items :=
    split ▸ List.mem_append_right _ List.mem_cons_self
  have other : Label.branch stem number ≠ .function name ∧ Label.branch stem number ≠ .epilogue name := by
    refine ⟨fun same => ?_, fun same => ?_⟩
    · rw [same, Label.opening_function] at opening
      exact absurd opening (by decide)
    · rw [same, Label.opening_epilogue] at opening
      exact absurd opening (by decide)
  refine List.append_of_mem ?_
  simpa [functionSection, functionItems, other] using member

theorem stackDepths_functionSection (lowers : env.LowersBody fn supply body)
    (fits : env.CallsFit body.code)
    (built : (functionSection fn.name space body.code).flowGraph = .ok graph) :
    (functionSection fn.name space body.code).StackDepths env fn supply graph
      (enterCode space).length ((enterCode space).length + 1 + instrCount body.code)
      fun node => bodyDepth body.code (node - ((enterCode space).length + 1)) := by
  have shape := lowers.wrote.code
  have settled := shape.settled fits
  have labelled := labelled_functionSection shape fn.name space
  have saves := (places_functionSection fn.name space body.code).instr
  have ending := @places_body fn.name space body.code body.code [] (by simp)
  have depth : ∀ front rest, body.code = front ++ rest →
      (bodyDepth body.code ((enterCode space).length + 1 + instrCount front -
        ((enterCode space).length + 1)) : Int) = -stackShift front := by
    intro front rest split
    rw [Nat.add_sub_cancel_left]
    exact bodyDepth_eq settled.below split
  have enters : bodyDepth body.code ((enterCode space).length - ((enterCode space).length + 1)) = 0 := by
    rw [Nat.sub_eq_zero_of_le (Nat.le_succ _)]
    rfl
  have settles : ∀ front rest, body.code = front ++ rest → stackShift front = 0 →
      bodyDepth body.code ((enterCode space).length + 1 + instrCount front -
        ((enterCode space).length + 1)) = 0 := by
    intro front rest split level
    have here := depth front rest split
    omega
  exact
    { saves
      restores := ending.behindLabel.instr
      inside := by
        intro node succ lower upper edge
        rcases cases_body lower upper with rfl | ⟨front, instr, rest, split, rfl⟩
        · obtain rfl := edge_marker built edge
          omega
        · obtain ⟨before, after, own, rfl, -⟩ := edge_functionSection lowers fits built split edge
          rw [own, instrCount_append]
          omega
      edges := by
        intro node succ instr lower upper known edge
        rcases cases_body lower upper with rfl | ⟨front, _, rest, split, rfl⟩
        · obtain rfl := edge_marker built edge
          obtain rfl := Option.some.inj (saves.symm.trans known)
          rw [enters]
          exact depth [] body.code rfl
        · obtain rfl := Option.some.inj ((places_body split).instr.symm.trans known)
          obtain ⟨before, after, own, rfl, moves⟩ :=
            edge_functionSection lowers fits built split edge
          rw [depth _ _ own, depth _ _ split, moves]
          omega
      writes := by
        intro node instr lower upper known writes
        rcases cases_body lower upper with rfl | ⟨front, _, rest, split, rfl⟩
        · obtain rfl := Option.some.inj (saves.symm.trans known)
          cases writes
        · obtain rfl := Option.some.inj ((places_body split).instr.symm.trans known)
          have inside := shape.inBody (split ▸ List.mem_append_right _ List.mem_cons_self)
          rcases inside.written writes with other | other | ⟨-, adjusts⟩
          · cases other
          · cases other
          · exact adjusts
      enters
      leaves := settles body.code [] (by simp) settled.whole
      epilogue := labelled.node_of_places ending
      labels := by
        intro stem known number node stands
        have stems : ∀ stem ∈ Stmt.labelStems, stem ∈ Label.branchStems := by decide
        obtain ⟨front, rest, split⟩ := exists_label_body (stems stem known) stands
        have placed := labelled.node_of_places (@places_body fn.name space _ _ _ split)
        obtain rfl := Option.some.inj (placed.symm.trans stands)
        exact settles _ _ split (settled.labels stem known _ _ _ split)
      located := Stmt.locates_listParts env _ none fn.body.stmts supply body lowers
      statements := by
        intro start starts
        obtain ⟨⟨own, rest, lowered, split⟩, level⟩ := starts.stands lowers fits
        rw [List.append_assoc] at split
        refine ⟨settles _ _ split level, own, lowered, ?_⟩
        have placed := @places_body fn.name space _ _ _ split
        rw [List.append_assoc] at placed
        exact placed.left }

end

/-! ## Programs -/

theorem Env.callsFit_of_exprs {env : Env} {fn : FunDef} {supply : Supply} {body : Generated Unit}
    (lowers : env.LowersBody fn supply body)
    (fit : ∀ ty name args, .call ty name args ∈ fn.body.exprs → env.CallFits name) :
    env.CallsFit body.code := by
  intro name called
  obtain ⟨front, rest, split⟩ := List.append_of_mem called
  obtain ⟨_, _, named, site⟩ := env.sited_lowerAll lowers _ _ _ split
  obtain rfl := Label.function_injective named
  obtain ⟨ty, args, _, _, call, -⟩ := site.around
  exact fit ty _ args call

namespace Program

/-- If no call of a function takes half of the address space or more, there is a depth of the stack
for all of its instructions. It is zero where statements begin and wherever they branch to. -/
theorem stack_balanced {program : Program} {entry : String} {generated : Assembly}
    (generates : program.generate entry = .ok generated) {n : Nat} {fn : FunDef}
    (here : program.functions[n]? = some fn)
    (fit : ∀ plan ty name args, .call ty name args ∈ fn.body.exprs →
      (program.env plan).CallFits name) :
    ∃ plan supply body code graph save restore depth,
      program.memoryPlan (program.promotion 0).1 = .ok plan ∧
      (program.env plan).LowersBody fn supply body ∧
      code = functionSection fn.name (plan.spaceOf fn.name) body.code ∧
      generated.sections[n + 1]? = some code ∧ code.flowGraph = .ok graph ∧
      code.StackDepths (program.env plan) fn supply graph save restore depth := by
  obtain ⟨plan, supply, body, planned, -, lowers, placed⟩ := section_generate generates here
  have ready := ready_generate generates _ (List.mem_of_getElem? placed)
  obtain ⟨graph, built⟩ := ready.exists_flowGraph
  exact ⟨plan, supply, body, _, graph, _, _, _, planned, lowers, rfl, placed, built,
    stackDepths_functionSection lowers (Env.callsFit_of_exprs lowers (fit plan)) built⟩

def sumOf : FunDef :=
  let left : VarDecl := { id := 1, name := "left", ty := .int }
  let right : VarDecl := { id := 2, name := "right", ty := .int }
  { name := "sumOf", ret := .int, params := [left, right]
    body := { vars := [], stmts := [.ret (some (.ofOperands .add (.ofDecl left) (.ofDecl right)))] } }

/-- Calls inside the arguments of calls, one of them behind an operator that may skip it, and a loop
that is left from inside. -/
def nesting : Program :=
  let n : VarDecl := { id := 3, name := "n", ty := .int }
  let sum (lhs rhs : Expr) : Expr := .call .int "sumOf" [lhs, rhs]
  { decls :=
      [ .funDef sumOf,
        .funDef
          { name := "main", ret := .int, params := []
            body :=
              { vars := [n]
                stmts :=
                  [ .eval (.assignment (.ofDecl n) (.ofInt 0)),
                    .loop (.ofInt 1) (.block []
                      [ .branch (sum (.ofDecl n) (.ofOperands .and (.ofDecl n)
                            (sum (.ofDecl n) (.ofInt 2)))) .breakLoop none,
                        .eval (.assignment (.ofDecl n)
                          (sum (sum (.ofDecl n) (.ofInt 1)) (.ofInt 1))) ]),
                    .ret (some (.ofDecl n)) ] } } ] }

theorem callFits_nesting {n : Nat} {fn : FunDef} (here : nesting.functions[n]? = some fn)
    (plan : MemoryPlan) {ty : Ty} {name : String} {args : List Expr}
    (called : .call ty name args ∈ fn.body.exprs) : (nesting.env plan).CallFits name := by
  have names : ∀ fn ∈ nesting.functions, (fn.body.exprs.all fun expr =>
      match expr with
      | .call _ name _ => name = "sumOf"
      | _ => true) = true := by
    decide
  obtain rfl : name = "sumOf" := by
    simpa using List.all_eq_true.1 (names fn (List.mem_of_getElem? here)) _ called
  intro _ decl space result signed argSpace resultSpace
  have known : (nesting.env plan).signature "sumOf" = .ok sumOf.toFunDecl := rfl
  obtain rfl := Except.ok.inj (known.symm.trans signed)
  have params : (nesting.env plan).layout.slotsSize sumOf.params = .ok 8 := rfl
  have ret : (nesting.env plan).layout.slotSize sumOf.ret = .ok 4 := rfl
  obtain rfl := Except.ok.inj (params.symm.trans argSpace)
  obtain rfl := Except.ok.inj (ret.symm.trans resultSpace)
  decide

theorem stack_balanced_nesting : ∃ generated fn, nesting.generate "main" = .ok generated ∧
    nesting.functions[1]? = some fn ∧
    (∀ plan ty name args, .call ty name args ∈ fn.body.exprs →
      (nesting.env plan).CallFits name) ∧
    ∃ plan supply body code graph save restore depth,
      nesting.memoryPlan (nesting.promotion 0).1 = .ok plan ∧
      (nesting.env plan).LowersBody fn supply body ∧
      code = functionSection fn.name (plan.spaceOf fn.name) body.code ∧
      generated.sections[2]? = some code ∧ code.flowGraph = .ok graph ∧
      code.StackDepths (nesting.env plan) fn supply graph save restore depth := by
  have succeeds : (nesting.generate "main").toBool = true := by decide +kernel
  obtain ⟨generated, generates⟩ := exists_ok_of_toBool succeeds
  obtain ⟨fn, here⟩ : ∃ fn, nesting.functions[1]? = some fn := ⟨_, rfl⟩
  have fit : ∀ plan ty name args, .call ty name args ∈ fn.body.exprs →
      (nesting.env plan).CallFits name := fun plan _ _ _ => callFits_nesting here plan
  exact ⟨generated, fn, generates, here, fit, stack_balanced generates here fit⟩

end Program

end MipsBackend
