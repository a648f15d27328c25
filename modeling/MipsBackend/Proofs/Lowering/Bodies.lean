import MipsBackend.Proofs.Lowering.Fragments

/-!
# The code of function bodies

Expressions write fragments without labels around them, statements write fragments inside the loop
and the function that they belong to.
-/

namespace MipsBackend

namespace Gen

variable {outer : List Label}

/-! ## Operators -/

theorem fragments_adjust (amount : Int32) : (emit [.adjustStack amount]).Fragments outer :=
  fragments_ordinary rfl

theorem fragments_reserve (bytes : Nat) : (reserve bytes).Fragments outer := by
  unfold reserve
  split
  · exact fragments_adjust _
  · exact fragments_answer _

theorem fragments_release (bytes : Nat) : (release bytes).Fragments outer := by
  unfold release
  split
  · exact fragments_adjust _
  · exact fragments_answer _

theorem fragments_copyBytes (src : Reg) (srcOffset : Int32) (dst : Reg) (dstOffset : Int32)
    (size : Nat) : (copyBytes src srcOffset dst dstOffset size).Fragments outer := by
  refine fragments_freshReg.bind fun byte => fragments_ordinary ?_
  rw [List.all_flatMap]
  exact List.all_eq_true.2 fun _ _ => rfl

theorem fragments_compute {instrs : Reg → List Instr}
    (ordinary : ∀ res, (instrs res).all Instr.isOrdinary = true) :
    (do
      let res ← freshReg
      emit (instrs res)
      return res).Fragments outer :=
  fragments_freshReg.bind fun res =>
    (fragments_ordinary (ordinary res)).bind fun _ => fragments_pure res

theorem fragments_loadFrom (ty : Ty) (addr : Reg) : (loadFrom ty addr).Fragments outer :=
  fragments_compute fun _ => rfl

theorem fragments_constant (value : Int32) : (constant value).Fragments outer :=
  fragments_compute fun _ => rfl

theorem fragments_addressOfLabel (label : Label) : (addressOfLabel label).Fragments outer :=
  fragments_compute fun _ => rfl

theorem fragments_character (c : Char) : (character c).Fragments outer := by
  unfold character
  split
  · exact fragments_compute fun _ => rfl
  · exact fragments_fail _

theorem isOrdinary_operatorCode (op : BinOp) (res lhs rhs : Reg) :
    (operatorCode op res lhs rhs).all Instr.isOrdinary = true := by
  cases op <;> rfl

theorem fragments_shortCircuit {kind : ShortCircuit} {lhs rhs : Gen Reg}
    (left : lhs.Fragments outer) (right : rhs.Fragments outer) :
    (shortCircuit kind lhs rhs).Fragments outer := by
  refine fragments_freshLabel.bind fun n => ?_
  let decided := Label.branch kind.decidedLabel n
  let done := Label.branch kind.endLabel n
  have wider : outer ⊆ decided :: done :: outer := fun label member =>
    List.mem_cons_of_mem _ (List.mem_cons_of_mem _ member)
  -- Inside, both labels are known; both are defined at the end.
  refine @Fragments.close _ _ done _ (@Fragments.close _ _ decided _ ?_ ?_) ?_
  · refine (left.mono wider).bind fun reg => fragments_freshReg.bind fun res => ?_
    refine (fragments_emit ?_).bind fun _ => (right.mono wider).bind fun other => ?_
    · simp [Fits, Instr.marker?, Instr.branchTarget?, decided]
    refine (fragments_emit ?_).bind fun _ => (fragments_label decided).bind fun _ => ?_
    · simp [Fits, Instr.marker?, Instr.branchTarget?, decided, done]
    exact (fragments_ordinary rfl).bind fun _ => (fragments_label done).bind fun _ =>
      fragments_pure res
  · refine .later _ fun reg => .later _ fun res => .later _ fun _ => .later _ fun other => ?_
    exact .later _ fun _ => .first _ (defines_label decided)
  · refine .later _ fun reg => .later _ fun res => .later _ fun _ => .later _ fun other => ?_
    exact .later _ fun _ => .later _ fun _ => .later _ fun _ => .first _ (defines_label done)

theorem fragments_operator (op : BinOp) {lhs rhs : Gen Reg} (left : lhs.Fragments outer)
    (right : rhs.Fragments outer) : (operator op lhs rhs).Fragments outer := by
  unfold operator
  split
  · exact fragments_shortCircuit left right
  · exact fragments_shortCircuit left right
  · exact left.bind fun first => right.bind fun second => fragments_compute fun res =>
      isOrdinary_operatorCode op res first second

end Gen

/-! ## Expressions -/

structure Lowered.Fragments (outer : List Label) (code : Lowered) : Prop where
  addr : code.addr.Fragments outer
  val : code.val.Fragments outer

namespace Lowered

variable {outer : List Label}

theorem fragments_ofType {ty : Ty} {addr val : Gen Reg} (first : addr.Fragments outer)
    (second : val.Fragments outer) : (ofType ty addr val).Fragments outer := by
  refine ⟨first, ?_⟩
  unfold ofType
  dsimp only
  split
  · exact second
  · exact first

end Lowered

namespace Env

variable {outer : List Label} (env : Env)

open Gen

theorem fragments_storeArgs {args : List Arg} (vals : ∀ arg ∈ args, arg.val.Fragments outer)
    (offset : Int32) : (env.storeArgs offset args).Fragments outer := by
  induction args generalizing offset with
  | nil => exact fragments_answer _
  | cons arg above ih =>
    have later : ∀ offset, (env.storeArgs offset above).Fragments outer :=
      ih fun other member => vals other (List.mem_cons_of_mem _ member)
    refine (vals arg List.mem_cons_self).bind fun reg => ?_
    split
    · refine (fragments_lift _).bind fun size => ?_
      exact (Gen.fragments_copyBytes reg 0 .sp offset size).bind fun _ => later _
    · exact (fragments_ordinary rfl).bind fun _ => later _

theorem fragments_callService (ret : Ty) (name : String) {args : List Arg}
    (vals : ∀ arg ∈ args, arg.val.Fragments outer) :
    (callService ret name args).Fragments outer := by
  have result : (do
      emit [.call (.function name)]
      if ret.isVoid then return Reg.zero
      else
        let res ← freshReg
        emit [.move res .v0]
        return res).Fragments outer := by
    refine (fragments_ordinary rfl).bind fun _ => ?_
    split
    · exact fragments_pure _
    · exact fragments_compute fun _ => rfl
  cases args with
  | nil => exact (fragments_answer ()).bind fun _ => result
  | cons first rest =>
    exact (vals first List.mem_cons_self).bind fun reg =>
      (fragments_ordinary rfl).bind fun _ => result

theorem fragments_takeResult (ret : Ty) : (takeResult ret).Fragments outer := by
  unfold takeResult
  split
  · exact fragments_answer _
  split
  · exact fragments_compute fun _ => rfl
  · exact fragments_loadFrom _ _

theorem fragments_callFunction (name : String) {args : List Arg}
    (vals : ∀ arg ∈ args, arg.val.Fragments outer) :
    (env.callFunction name args).Fragments outer := by
  refine (fragments_lift _).bind fun signature => (fragments_lift _).bind fun space => ?_
  refine (fragments_reserve space).bind fun _ => ?_
  refine (env.fragments_storeArgs (fun arg member => vals arg (List.mem_reverse.1 member)) 0).bind
    fun _ => (fragments_lift _).bind fun result => (fragments_reserve result).bind fun _ => ?_
  refine (fragments_ordinary rfl).bind fun _ => (fragments_takeResult _).bind fun res => ?_
  exact (fragments_release _).bind fun _ => fragments_pure res

theorem fragments_call (ret : Ty) (name : String) {args : List Arg}
    (vals : ∀ arg ∈ args, arg.val.Fragments outer) :
    (env.call ret name args).Fragments outer := by
  unfold call
  cases env.service? name with
  | some service =>
    have code := fragments_callService ret name vals
    exact ⟨code, code⟩
  | none =>
    have code := env.fragments_callFunction name vals
    exact ⟨code, code⟩

theorem fragments_varAddr (id : DeclId) (name : String) :
    (env.varAddr id name).Fragments outer := by
  refine (fragments_lift _).bind fun storage => ?_
  split
  · exact fragments_pure _
  · exact fragments_addressOfLabel _
  · exact fragments_compute fun _ => rfl
  · exact fragments_compute fun _ => rfl

theorem fragments_load {addr : Gen Reg} (place : addr.Fragments outer) (ty : Ty) :
    (do loadFrom ty (← addr)).Fragments outer :=
  place.bind fun _ => fragments_loadFrom _ _

theorem fragments_var (ty : Ty) (id : DeclId) (name : String) :
    (env.var ty id name).Fragments outer := by
  have place : (env.varAddr id name).Fragments outer := env.fragments_varAddr id name
  refine Lowered.fragments_ofType place ?_
  split
  · exact fragments_answer _
  · exact fragments_load place ty

theorem fragments_index (ty arrayTy : Ty) {array position : Lowered}
    (base : array.Fragments outer) (number : position.Fragments outer) :
    (env.index ty arrayTy array position).Fragments outer := by
  have rest : ∀ base : Reg, (do
      let number ← position.val
      let size ← Gen.lift (env.layout.size ty)
      let res ← Gen.freshReg
      Gen.emit [.loadImm res (.ofNat size), .arith .mul res number res, .arith .add res base res]
      return res).Fragments outer := by
    refine fun base => number.val.bind fun _ => (fragments_lift _).bind fun _ => ?_
    exact fragments_compute fun _ => rfl
  suffices place : (env.index ty arrayTy array position).addr.Fragments outer from
    Lowered.fragments_ofType place (fragments_load place ty)
  unfold index Lowered.ofType
  dsimp only
  split
  · exact base.val.bind rest
  · exact base.addr.bind rest

theorem fragments_field (ty ownerTy : Ty) {owner : Lowered} (base : owner.Fragments outer)
    (name : String) : (env.field ty ownerTy owner name).Fragments outer := by
  suffices place : (env.field ty ownerTy owner name).addr.Fragments outer from
    Lowered.fragments_ofType place (fragments_load place ty)
  refine base.addr.bind fun _ => ?_
  split
  · refine (fragments_lift _).bind fun _ => ?_
    exact fragments_compute fun _ => rfl
  · exact fragments_fail _

theorem fragments_assign (ty : Ty) (target : Expr) {lhs rhs : Lowered}
    (left : lhs.Fragments outer) (right : rhs.Fragments outer) :
    (env.assign ty target lhs rhs).Fragments outer := by
  have stored : ∀ instr : Instr, [instr].all Instr.isOrdinary = true → ∀ reg : Reg,
      (do
        emit [instr]
        return reg).Fragments outer :=
    fun instr ordinary reg => (fragments_ordinary ordinary).bind fun _ => fragments_pure reg
  refine Lowered.fragments_ofType (left.addr.bind fun dst => ?_) (right.val.bind fun value => ?_)
  · split
    · refine right.addr.bind fun src => (fragments_lift _).bind fun size => ?_
      exact (Gen.fragments_copyBytes src 0 dst 0 size).bind fun _ => fragments_pure dst
    · refine right.val.bind fun value => ?_
      split
      · exact stored _ rfl value
      · exact stored _ rfl dst
  · split
    · exact stored _ rfl value
    · exact left.addr.bind fun dst => stored _ rfl value

end Env

namespace Expr

open Gen

mutual

theorem fragments_lower (env : Env) (outer : List Label) :
    (e : Expr) → (e.lower env).Fragments outer
  | intLit _ value => Lowered.fragments_ofType (fragments_fail _) (fragments_constant value)
  | charLit _ value => Lowered.fragments_ofType (fragments_fail _) (fragments_character value)
  | strLit _ text =>
    have place := (fragments_lift (env.plan.stringLabel text)).bind fun label =>
      @fragments_addressOfLabel outer label
    Lowered.fragments_ofType place place
  | var ty id name => env.fragments_var ty id name
  | call ty name args => env.fragments_call ty name (fragments_lowerArgs env outer args)
  | binOp _ op lhs rhs =>
    Lowered.fragments_ofType (fragments_fail _)
      (fragments_operator op (lhs.fragments_lower env outer).val (rhs.fragments_lower env outer).val)
  | index ty array position =>
    env.fragments_index ty array.ty (array.fragments_lower env outer)
      (position.fragments_lower env outer)
  | field ty owner name => env.fragments_field ty owner.ty (owner.fragments_lower env outer) name
  | deref ty pointer =>
    have place := (pointer.fragments_lower env outer).val
    Lowered.fragments_ofType place (Env.fragments_load place ty)
  | addrOf _ operand =>
    have place := (operand.fragments_lower env outer).addr
    Lowered.fragments_ofType place place
  | sizeOf _ _ =>
    Lowered.fragments_ofType (fragments_fail _)
      ((fragments_lift _).bind fun _ => fragments_constant _)
  | cast _ operand =>
    have code := operand.fragments_lower env outer
    Lowered.fragments_ofType code.addr code.val
  | assign ty lhs rhs =>
    env.fragments_assign ty lhs (lhs.fragments_lower env outer) (rhs.fragments_lower env outer)

theorem fragments_lowerArgs (env : Env) (outer : List Label) :
    (args : List Expr) → ∀ arg ∈ lowerArgs env args, arg.val.Fragments outer
  | [], _, member => nomatch member
  | first :: rest, arg, member => by
    rcases List.mem_cons.1 member with rfl | later
    · exact (first.fragments_lower env outer).val
    · exact fragments_lowerArgs env outer rest arg later

end

end Expr

/-! ## Statements -/

namespace Stmt

open Gen

/-- The labels around a statement that its branches may go to. -/
def exits (epilogue : Label) (labels : Option LoopLabels) : List Label :=
  epilogue :: labels.elim [] fun loop => [loop.next, loop.done]

theorem fragments_jump {outer : List Label} {target : Label} (known : target ∈ outer) :
    (emit [.jump target]).Fragments outer :=
  fragments_emit (by simpa [Fits, Instr.marker?, Instr.branchTarget?] using known)

theorem fragments_skipUnless {outer : List Label} {target : Label} (known : target ∈ outer)
    (reg : Reg) : (emit [.branchZero .beqz reg target]).Fragments outer :=
  fragments_emit (by simpa [Fits, Instr.marker?, Instr.branchTarget?] using known)

theorem fragments_returnValue (env : Env) (ty : Ty) {val : Gen Reg} {epilogue : Label}
    {outer : List Label} (value : val.Fragments outer) (known : epilogue ∈ outer) :
    (env.returnValue ty val epilogue).Fragments outer := by
  have leave := fragments_jump known
  refine value.bind fun reg => ?_
  split
  · refine (fragments_lift _).bind fun size => ?_
    exact (fragments_copyBytes reg 0 .fp resultOffset size).bind fun _ => leave
  split
  · exact (fragments_answer ()).bind fun _ => leave
  · exact (fragments_ordinary rfl).bind fun _ => leave

theorem fragments_loop {env : Env} {epilogue : Label} {labels : Option LoopLabels} {cond : Expr}
    {body : Stmt} (inside : ∀ loop : LoopLabels,
      (body.lower env epilogue (some loop)).Fragments (exits epilogue (some loop))) :
    ((loop cond body).lower env epilogue labels).Fragments (exits epilogue labels) := by
  unfold lower
  refine fragments_freshLabel.bind fun n => ?_
  let next := Label.branch "while_cond" n
  let done := Label.branch "while_end" n
  have inner : exits epilogue (some { next, done }) ⊆ next :: done :: exits epilogue labels := by
    intro label member
    simp only [exits, Option.elim_some, List.mem_cons, List.not_mem_nil, or_false] at member ⊢
    rcases member with outermost | first | second
    · exact .inr (.inr (.inl outermost))
    · exact .inl first
    · exact .inr (.inl second)
  refine @Fragments.close _ _ done _ (@Fragments.close _ _ next _ ?_ ?_) ?_
  · refine (fragments_label next).bind fun _ => ?_
    refine (cond.fragments_lower env _).val.bind fun reg => ?_
    refine (fragments_skipUnless (by simp [done]) reg).bind fun _ => ?_
    refine (fragments_label _).bind fun _ => ((inside { next, done }).mono inner).bind fun _ => ?_
    exact (fragments_jump (by simp [next])).bind fun _ => fragments_label done
  · exact .first _ (defines_label next)
  · refine .later _ fun _ => .later _ fun _ => .later _ fun _ => .later _ fun _ => ?_
    exact .later _ fun _ => .later _ fun _ => defines_label done

theorem fragments_branch {env : Env} {epilogue : Label} {labels : Option LoopLabels} {cond : Expr}
    {yes : Stmt} {outer : List Label} (taken : (yes.lower env epilogue labels).Fragments outer) :
    ((branch cond yes none).lower env epilogue labels).Fragments outer := by
  unfold lower
  refine fragments_freshLabel.bind fun n => ?_
  let done := Label.branch "if_end" n
  refine @Fragments.close _ _ done _ ?_ ?_
  · refine (cond.fragments_lower env _).val.bind fun reg => ?_
    refine (fragments_skipUnless (by simp [done]) reg).bind fun _ => ?_
    exact (taken.mono (List.subset_cons_self _ _)).bind fun _ => fragments_label done
  · exact .later _ fun _ => .later _ fun _ => .later _ fun _ => defines_label done

theorem fragments_branchElse {env : Env} {epilogue : Label} {labels : Option LoopLabels}
    {cond : Expr} {yes no : Stmt} {outer : List Label}
    (taken : (yes.lower env epilogue labels).Fragments outer)
    (other : (no.lower env epilogue labels).Fragments outer) :
    ((branch cond yes (some no)).lower env epilogue labels).Fragments outer := by
  unfold lower
  refine fragments_freshLabel.bind fun n => ?_
  let done := Label.branch "if_end" n
  let otherwise := Label.branch "else" n
  have wider : outer ⊆ otherwise :: done :: outer := fun label member =>
    List.mem_cons_of_mem _ (List.mem_cons_of_mem _ member)
  refine @Fragments.close _ _ done _ (@Fragments.close _ _ otherwise _ ?_ ?_) ?_
  · refine (cond.fragments_lower env _).val.bind fun reg => ?_
    refine (fragments_skipUnless (by simp [otherwise]) reg).bind fun _ => ?_
    refine (taken.mono wider).bind fun _ => (fragments_jump (by simp [done])).bind fun _ => ?_
    refine (fragments_label otherwise).bind fun _ => ?_
    exact (other.mono wider).bind fun _ => fragments_label done
  · refine .later _ fun _ => .later _ fun _ => .later _ fun _ => .later _ fun _ => ?_
    exact .first _ (defines_label otherwise)
  · refine .later _ fun _ => .later _ fun _ => .later _ fun _ => .later _ fun _ => ?_
    exact .later _ fun _ => .later _ fun _ => defines_label done

mutual

theorem fragments_lower (env : Env) (epilogue : Label) (labels : Option LoopLabels) :
    (stmt : Stmt) → (stmt.lower env epilogue labels).Fragments (exits epilogue labels)
  | block _ stmts => fragments_lowerAll env epilogue labels stmts
  | loop _ body => fragments_loop fun loop => body.fragments_lower env epilogue (some loop)
  | branch _ yes none => fragments_branch (yes.fragments_lower env epilogue labels)
  | branch _ yes (some no) =>
    fragments_branchElse (yes.fragments_lower env epilogue labels)
      (no.fragments_lower env epilogue labels)
  | ret none => fragments_jump List.mem_cons_self
  | ret (some value) =>
    fragments_returnValue env value.ty (value.fragments_lower env _).val List.mem_cons_self
  | eval expr => (expr.fragments_lower env _).val.bind fun _ => fragments_pure ()
  | breakLoop => by
    unfold lower
    cases labels with
    | none => exact fragments_fail _
    | some loop => exact fragments_jump (by simp [exits])
  | continueLoop => by
    unfold lower
    cases labels with
    | none => exact fragments_fail _
    | some loop => exact fragments_jump (by simp [exits])

theorem fragments_lowerAll (env : Env) (epilogue : Label) (labels : Option LoopLabels) :
    (stmts : List Stmt) → (lowerAll env epilogue labels stmts).Fragments (exits epilogue labels)
  | [] => fragments_answer ()
  | first :: rest =>
    (first.fragments_lower env epilogue labels).bind fun _ =>
      fragments_lowerAll env epilogue labels rest

end

end Stmt

end MipsBackend
