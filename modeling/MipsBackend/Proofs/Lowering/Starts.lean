import MipsBackend.Proofs.Lowering.Depths

/-!
# Where statements begin

The code of a statement stands inside the code of the statements around it, behind code that only
these have written (`Stmt.Starts`). All parts of a function have their places
(`Stmt.locates_listParts`), and the stack pointer is there where it was at the start of the whole
(`Stmt.Starts.stands`).
-/

namespace MipsBackend

namespace Stmt

mutual

/-- All statements in the statement, each before its parts. -/
def parts : Stmt → List Stmt
  | block vars stmts => block vars stmts :: listParts stmts
  | loop cond body => loop cond body :: body.parts
  | branch cond yes none => branch cond yes none :: yes.parts
  | branch cond yes (some no) => branch cond yes (some no) :: (yes.parts ++ no.parts)
  | ret value => [ret value]
  | eval expr => [eval expr]
  | breakLoop => [breakLoop]
  | continueLoop => [continueLoop]

def listParts : List Stmt → List Stmt
  | [] => []
  | first :: rest => first.parts ++ listParts rest

end

/-- A statement, what it is lowered with, and the code in front of its own. -/
structure Start where
  stmt : Stmt
  labels : Option LoopLabels
  supply : Supply
  front : List TextItem

def Start.behind (start : Start) (front : List TextItem) : Start :=
  { start with front := front ++ start.front }

@[simp] theorem Start.front_behind (start : Start) (front : List TextItem) :
    (start.behind front).front = front ++ start.front := rfl

/-- Where the statements of a list and the parts of these begin in the code of the list. -/
inductive Starts (env : Env) (epilogue : Label) :
    Option LoopLabels → Supply → List Stmt → Start → Prop
  | first {labels : Option LoopLabels} {supply : Supply} {stmt : Stmt} {rest : List Stmt} :
      Starts env epilogue labels supply (stmt :: rest) { stmt, labels, supply, front := [] }
  | later {labels : Option LoopLabels} {supply : Supply} {stmt : Stmt} {rest : List Stmt}
      {start : Start} {one : Generated Unit}
      (lowers : (stmt.lower env epilogue labels).run supply = .ok one)
      (starts : Starts env epilogue labels one.supply rest start) :
      Starts env epilogue labels supply (stmt :: rest) (start.behind one.code)
  | block {labels : Option LoopLabels} {supply : Supply} {vars : List VarDecl}
      {stmts rest : List Stmt} {start : Start}
      (starts : Starts env epilogue labels supply stmts start) :
      Starts env epilogue labels supply (block vars stmts :: rest) start
  | loop {labels : Option LoopLabels} {supply : Supply} {cond : Expr} {body : Stmt}
      {rest : List Stmt} {start : Start} {test : Generated Reg}
      (lowers : (cond.lower env).val.run { supply with nextLabel := supply.nextLabel + 1 } = .ok test)
      (starts : Starts env epilogue (some (loopLabels supply.nextLabel)) test.supply [body] start) :
      Starts env epilogue labels supply (loop cond body :: rest) (start.behind
        (.label (loopLabels supply.nextLabel).next :: (test.code ++
          [.instr (.branchZero .beqz test.value (loopLabels supply.nextLabel).done),
            .label (.branch "while_body" supply.nextLabel)])))
  | branch {labels : Option LoopLabels} {supply : Supply} {cond : Expr} {yes : Stmt}
      {rest : List Stmt} {start : Start} {test : Generated Reg}
      (lowers : (cond.lower env).val.run { supply with nextLabel := supply.nextLabel + 1 } = .ok test)
      (starts : Starts env epilogue labels test.supply [yes] start) :
      Starts env epilogue labels supply (branch cond yes none :: rest) (start.behind
        (test.code ++ [.instr (.branchZero .beqz test.value (.branch "if_end" supply.nextLabel))]))
  | taken {labels : Option LoopLabels} {supply : Supply} {cond : Expr} {yes no : Stmt}
      {rest : List Stmt} {start : Start} {test : Generated Reg}
      (lowers : (cond.lower env).val.run { supply with nextLabel := supply.nextLabel + 1 } = .ok test)
      (starts : Starts env epilogue labels test.supply [yes] start) :
      Starts env epilogue labels supply (branch cond yes (some no) :: rest) (start.behind
        (test.code ++ [.instr (.branchZero .beqz test.value (.branch "else" supply.nextLabel))]))
  | other {labels : Option LoopLabels} {supply : Supply} {cond : Expr} {yes no : Stmt}
      {rest : List Stmt} {start : Start} {test : Generated Reg} {one : Generated Unit}
      (lowers : (cond.lower env).val.run { supply with nextLabel := supply.nextLabel + 1 } = .ok test)
      (skips : (yes.lower env epilogue labels).run test.supply = .ok one)
      (starts : Starts env epilogue labels one.supply [no] start) :
      Starts env epilogue labels supply (branch cond yes (some no) :: rest) (start.behind
        (test.code ++ .instr (.branchZero .beqz test.value (.branch "else" supply.nextLabel)) ::
          (one.code ++ [.instr (.jump (.branch "if_end" supply.nextLabel)),
            .label (.branch "else" supply.nextLabel)])))

variable {env : Env} {epilogue : Label} {labels : Option LoopLabels} {supply : Supply}

theorem run_lowerAll_singleton {stmt : Stmt} {one : Generated Unit}
    (runs : (stmt.lower env epilogue labels).run supply = .ok one) :
    (lowerAll env epilogue labels [stmt]).run supply = .ok one := by
  unfold lowerAll
  exact Gen.run_bind.2 ⟨one, _, runs, rfl, by simp⟩

/-- The code of the statement stands at the start, and code in front of it has moved the stack
pointer back. -/
structure Start.Stands (start : Start) (env : Env) (epilogue : Label) (code : List TextItem) :
    Prop where
  lowered : ∃ own rest, (start.stmt.lower env epilogue start.labels).run start.supply = .ok own ∧
    code = start.front ++ own.code ++ rest
  level : stackShift start.front = 0

theorem Start.Stands.behind {start : Start} {inner front code : List TextItem}
    (stands : start.Stands env epilogue inner) (inside : front ++ inner <+: code)
    (still : stackShift front = 0) : (start.behind front).Stands env epilogue code := by
  obtain ⟨own, more, lowers, same⟩ := stands.lowered
  obtain ⟨rest, rfl⟩ := inside
  refine ⟨⟨own, more ++ rest, lowers, by simp [Start.behind, same]⟩, ?_⟩
  rw [front_behind, stackShift_append, still, stands.level, Int.add_zero]

theorem stackShift_test {cond : Expr} {test : Generated Reg}
    (lowers : (cond.lower env).val.run supply = .ok test) (fits : env.CallsFit test.code) :
    stackShift test.code = 0 :=
  (((cond.writes_lower env).val _ _ lowers).code.settled fits).whole

theorem stackShift_lower {stmt : Stmt} {one : Generated Unit}
    (lowers : (stmt.lower env epilogue labels).run supply = .ok one) (fits : env.CallsFit one.code) :
    stackShift one.code = 0 :=
  ((stmt.writes_lower env epilogue labels _ _ lowers).code.settled fits).whole

theorem Starts.stands {stmts : List Stmt} {start : Start} {generated : Generated Unit}
    (starts : Starts env epilogue labels supply stmts start)
    (runs : (lowerAll env epilogue labels stmts).run supply = .ok generated)
    (fits : env.CallsFit generated.code) : start.Stands env epilogue generated.code := by
  induction starts generalizing generated with
  | first =>
    obtain ⟨one, others, lowers, -, -, code⟩ := run_lowerAll_cons runs
    exact ⟨⟨one, others.code, lowers, code⟩, rfl⟩
  | later lowers starts ih =>
    obtain ⟨one, others, lowersOne, later, -, code⟩ := run_lowerAll_cons runs
    obtain rfl := Except.ok.inj (lowers.symm.trans lowersOne)
    rw [code] at fits ⊢
    have stands := ih later (fits.mono (List.subset_append_right _ _))
    have still := stackShift_lower lowers (fits.mono (List.subset_append_left _ _))
    exact stands.behind List.prefix_rfl still
  | block starts ih =>
    obtain ⟨one, others, lowersOne, -, -, code⟩ := run_lowerAll_cons runs
    rw [code] at fits ⊢
    have stands := ih lowersOne (fits.mono (List.subset_append_left _ _))
    exact @Start.Stands.behind _ _ _ _ [] _ stands (List.prefix_append one.code others.code) rfl
  | loop lowers starts ih =>
    obtain ⟨one, others, lowersOne, -, -, code⟩ := run_lowerAll_cons runs
    obtain ⟨_, inner, lowersTest, lowersBody, -, whole⟩ := run_loop lowersOne
    obtain rfl := Except.ok.inj (lowers.symm.trans lowersTest)
    rw [code, whole] at fits ⊢
    have stands := ih (run_lowerAll_singleton lowersBody)
      (fits.mono fun item member => by simp [loopCode, member])
    have still := stackShift_test lowers (fits.mono fun item member => by simp [loopCode, member])
    exact stands.behind (by simp [loopCode]) (by simp [still, Instr.stackChange])
  | branch lowers starts ih =>
    obtain ⟨one, others, lowersOne, -, -, code⟩ := run_lowerAll_cons runs
    obtain ⟨_, inner, lowersTest, lowersYes, -, whole⟩ := run_branch lowersOne
    obtain rfl := Except.ok.inj (lowers.symm.trans lowersTest)
    rw [code, whole] at fits ⊢
    have stands := ih (run_lowerAll_singleton lowersYes)
      (fits.mono fun item member => by simp [branchCode, member])
    have still := stackShift_test lowers (fits.mono fun item member => by simp [branchCode, member])
    exact stands.behind (by simp [branchCode]) (by simp [still, Instr.stackChange])
  | taken lowers starts ih =>
    obtain ⟨one, others, lowersOne, -, -, code⟩ := run_lowerAll_cons runs
    obtain ⟨_, inner, second, lowersTest, lowersYes, -, -, whole⟩ := run_branchElse lowersOne
    obtain rfl := Except.ok.inj (lowers.symm.trans lowersTest)
    rw [code, whole] at fits ⊢
    have stands := ih (run_lowerAll_singleton lowersYes)
      (fits.mono fun item member => by simp [branchElseCode, member])
    have still := stackShift_test lowers
      (fits.mono fun item member => by simp [branchElseCode, member])
    exact stands.behind (by simp [branchElseCode]) (by simp [still, Instr.stackChange])
  | other lowers skips starts ih =>
    obtain ⟨one, others, lowersOne, -, -, code⟩ := run_lowerAll_cons runs
    obtain ⟨_, _, inner, lowersTest, lowersYes, lowersNo, -, whole⟩ := run_branchElse lowersOne
    obtain rfl := Except.ok.inj (lowers.symm.trans lowersTest)
    obtain rfl := Except.ok.inj (skips.symm.trans lowersYes)
    rw [code, whole] at fits ⊢
    have stands := ih (run_lowerAll_singleton lowersNo)
      (fits.mono fun item member => by simp [branchElseCode, member])
    have still := stackShift_test lowers
      (fits.mono fun item member => by simp [branchElseCode, member])
    have skipped := stackShift_lower skips
      (fits.mono fun item member => by simp [branchElseCode, member])
    exact stands.behind (by simp [branchElseCode]) (by simp [still, skipped, Instr.stackChange])

/-! ## Every statement -/

/-- The starts are those of the parts, in order. -/
structure Locates (env : Env) (epilogue : Label) (labels : Option LoopLabels) (supply : Supply)
    (stmts parts : List Stmt) (starts : List Start) : Prop where
  lists : starts.map Start.stmt = parts
  begins : ∀ start ∈ starts, Starts env epilogue labels supply stmts start

/-- Parts that begin in one list of statements begin in another behind some code. -/
theorem Locates.behind {inner outer : Option LoopLabels} {before : Supply} {within stmts : List Stmt}
    {parts : List Stmt} {starts : List Start} {front : List TextItem}
    (located : Locates env epilogue inner supply within parts starts)
    (moves : ∀ start, Starts env epilogue inner supply within start →
      Starts env epilogue outer before stmts (start.behind front)) :
    Locates env epilogue outer before stmts parts (starts.map (·.behind front)) := by
  refine ⟨by rw [← located.lists, List.map_map]; rfl, fun start member => ?_⟩
  obtain ⟨inside, listed, rfl⟩ := List.mem_map.1 member
  exact moves inside (located.begins inside listed)

theorem Locates.append {stmts first second : List Stmt} {left right : List Start}
    (here : Locates env epilogue labels supply stmts first left)
    (there : Locates env epilogue labels supply stmts second right) :
    Locates env epilogue labels supply stmts (first ++ second) (left ++ right) :=
  ⟨by rw [List.map_append, here.lists, there.lists], fun start member =>
    (List.mem_append.1 member).elim (here.begins start) (there.begins start)⟩

theorem Locates.first (stmt : Stmt) (rest : List Stmt) :
    Locates env epilogue labels supply (stmt :: rest) [stmt]
      [{ stmt, labels, supply, front := [] }] :=
  ⟨rfl, fun start member => by obtain rfl := List.mem_singleton.1 member; exact .first⟩

mutual

theorem locates_parts (env : Env) (epilogue : Label) (labels : Option LoopLabels) :
    (stmt : Stmt) → (supply : Supply) → (one : Generated Unit) →
      (stmt.lower env epilogue labels).run supply = .ok one → ∀ rest,
      ∃ starts, Locates env epilogue labels supply (stmt :: rest) stmt.parts starts
  | block vars stmts, supply, one, lowers, rest => by
    obtain ⟨inner, located⟩ := locates_listParts env epilogue labels stmts _ _ lowers
    have inside : ∀ start, Starts env epilogue labels supply stmts start →
        Starts env epilogue labels supply (block vars stmts :: rest) (start.behind []) :=
      fun _ starts => .block starts
    exact ⟨_, (Locates.first _ rest).append (located.behind inside)⟩
  | loop cond body, supply, one, lowers, rest => by
    obtain ⟨test, _, lowersTest, lowersBody, -, -⟩ := run_loop lowers
    obtain ⟨inner, located⟩ := locates_parts env epilogue _ body _ _ lowersBody []
    exact ⟨_, (Locates.first _ rest).append (located.behind fun _ starts => .loop lowersTest starts)⟩
  | branch cond yes none, supply, one, lowers, rest => by
    obtain ⟨test, _, lowersTest, lowersYes, -, -⟩ := run_branch lowers
    obtain ⟨inner, located⟩ := locates_parts env epilogue labels yes _ _ lowersYes []
    exact ⟨_, (Locates.first _ rest).append
      (located.behind fun _ starts => .branch lowersTest starts)⟩
  | branch cond yes (some no), supply, one, lowers, rest => by
    obtain ⟨test, _, _, lowersTest, lowersYes, lowersNo, -, -⟩ := run_branchElse lowers
    obtain ⟨first, taken⟩ := locates_parts env epilogue labels yes _ _ lowersYes []
    obtain ⟨second, other⟩ := locates_parts env epilogue labels no _ _ lowersNo []
    exact ⟨_, (Locates.first _ rest).append <|
      (taken.behind fun _ starts => .taken lowersTest starts).append
        (other.behind fun _ starts => .other lowersTest lowersYes starts)⟩
  | ret value, _, _, _, rest => ⟨_, .first _ rest⟩
  | eval expr, _, _, _, rest => ⟨_, .first _ rest⟩
  | breakLoop, _, _, _, rest => ⟨_, .first _ rest⟩
  | continueLoop, _, _, _, rest => ⟨_, .first _ rest⟩

theorem locates_listParts (env : Env) (epilogue : Label) (labels : Option LoopLabels) :
    (stmts : List Stmt) → (supply : Supply) → (generated : Generated Unit) →
      (lowerAll env epilogue labels stmts).run supply = .ok generated →
      ∃ starts, Locates env epilogue labels supply stmts (listParts stmts) starts
  | [], _, _, _ => ⟨[], rfl, fun _ member => nomatch member⟩
  | first :: rest, supply, generated, runs => by
    obtain ⟨one, others, lowers, later, -, -⟩ := run_lowerAll_cons runs
    obtain ⟨own, here⟩ := locates_parts env epilogue labels first _ _ lowers rest
    obtain ⟨behind, there⟩ := locates_listParts env epilogue labels rest _ _ later
    exact ⟨_, here.append (there.behind fun _ starts => .later lowers starts)⟩

end

end Stmt

end MipsBackend
