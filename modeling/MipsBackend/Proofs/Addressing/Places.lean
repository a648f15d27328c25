import MipsBackend.Proofs.Addressing.Lowering

/-!
# Places are addressed correctly

In every planned program that declares each variable once, and for every place that a function can
name, the code of address mode leaves the address that the place denotes, and the code of value mode
what the place contains.
-/

namespace MipsBackend

/-- The code runs from its start to its end without a call. It leaves the word in the register that
it answers, and changes nothing but registers that it drew, hi and lo. -/
structure Generated.Leaves (platform : Platform) (code : Section) (node : Nat) (machine : Machine)
    (supply : Supply) (generated : Generated Reg) (word : Word) (after : Machine) : Prop where
  runs : ∃ n, code.Walk platform (node + instrCount generated.code) n (.inside node, machine)
    (.inside (node + instrCount generated.code), after)
  unchanged : machine.AgreesOutside supply.nextReg generated.supply.nextReg after
  answer : after.read generated.value = word

theorem Gen.Evaluates.leaves {platform : Platform} {code : Section} {labelled : code.Labelled}
    {bound : VReg} {machine : Machine} {gen : Gen Reg} {word : Word} {supply : Supply}
    {generated : Generated Reg} {node : Nat}
    (evaluates : gen.Evaluates
      (.start platform labelled (node + instrCount generated.code) bound machine) word)
    (drawn : bound ≤ supply.nextReg) (runs : gen.run supply = .ok generated)
    (placed : code.Places node generated.code) :
    ∃ after, generated.Leaves platform code node machine supply word after := by
  obtain ⟨after, evaluated⟩ := evaluates drawn runs placed (Nat.le_refl _) (.refl bound machine)
  exact ⟨after, evaluated.walk, evaluated.agrees, evaluated.read⟩

namespace Program

/-- The code of a place leaves its address, and that of its value what it contains, in every section
and from every state in which the place is an address. -/
theorem places_addressed {program : Program} {plan : MemoryPlan} {fn : FunDef}
    (ids : program.ids.Nodup) (planned : program.memoryPlan (program.promotion 0).1 = .ok plan)
    (defined : fn ∈ program.functions) {e : Expr} (denotes : e.Denotes program plan fn .place)
    {supply : Supply} (drawn : (program.promotion 0).2 ≤ supply.nextReg) :
    ∃ addr val, (e.lower (program.env plan)).addr.run supply = .ok addr ∧
      (e.lower (program.env plan)).val.run supply = .ok val ∧
      ∀ (platform : Platform) (code : Section), code.Labelled → ∀ (machine : Machine) (place : Word),
        (e.denote (program.surroundings plan fn platform.address machine)).place = some place →
        (∀ node, code.Places node addr.code →
          ∃ after, addr.Leaves platform code node machine supply place after) ∧
        ∀ node, code.Places node val.code →
          ∃ after, val.Leaves platform code node machine supply
            (e.ty.contents machine.memory place) after := by
  have place := denotes.lowers ids planned defined
  have value := (Expr.Denotes.contents denotes).lowers ids planned defined
  obtain ⟨addr, lowersAddr⟩ := place.succeeds supply
  obtain ⟨val, lowersVal⟩ := value.succeeds supply
  refine ⟨addr, val, lowersAddr, lowersVal, fun platform code labelled machine base known => ?_⟩
  have contained : (e.denote (program.surroundings plan fn platform.address machine)).value =
      some (e.ty.contents machine.memory base) := by
    rw [denotes.value_eq, known]
    rfl
  exact ⟨fun node placed =>
      (place.evaluates platform labelled _ machine known).leaves drawn lowersAddr placed,
    fun node placed =>
      (value.evaluates platform labelled _ machine contained).leaves drawn lowersVal placed⟩

/-! ## Nested places -/

/-- The code in a section of its own. -/
def alone (generated : Generated Reg) : Section :=
  { items := generated.code ++ [.instr (.jumpReg .ra)] }

def rowTy : Ty := .struct "row"

def rows : VarDecl := { id := 1, name := "rows", ty := .array rowTy 2 }

def among : VarDecl := { id := 2, name := "among", ty := .array .int 4 }

def choice : VarDecl := { id := 3, name := "choice", ty := .int }

def cursor : VarDecl := { id := 4, name := "cursor", ty := .pointer .int }

def own : VarDecl := { id := 5, name := "own", ty := rowTy }

/-- `(&own)[among[choice && 1]].cells[rows[*cursor].tag]`, where the array `among` is a parameter. -/
def cell : Expr :=
  let position := .elementOf (.ofDecl among) (.ofOperands .and (.ofDecl choice) (.ofInt 1))
  let row := .elementOf (.addressOf (.ofDecl own)) position
  let tag := .field .char (.elementOf (.ofDecl rows) (.valueAt (.ofDecl cursor))) "tag"
  .elementOf (.field (.array .int 3) row "cells") tag

def lookup : FunDef :=
  { name := "lookup", ret := .int, params := [among]
    body := { vars := [choice, cursor, own], stmts := [.ret (some cell)] } }

def lookingUp : Program :=
  { decls :=
      [ .struct
          { name := "row"
            fields :=
              [ { id := 6, name := "tag", ty := .char },
                { id := 7, name := "cells", ty := .array .int 3 } ] },
        .var rows, .funDef lookup ] }

/-- A state of the function: `among` is an array at 8192 with `among[1] = 2`, `*cursor` is 1, and
`rows[1].tag` is 1. -/
def looking : Machine where
  phys reg := if reg = .fp then 4096 else 0
  virt reg := if reg = 0 then 5 else if reg = 1 then 12288 else 0
  hi := 0
  lo := 0
  memory :=
    let empty : Memory := fun _ => 0
    let array := (empty.storeWord 4104 8192).storeWord 8196 2
    ((array.storeWord 12288 1).storeByte 20496 1).storeWord 4116 77

theorem denotes_cell (plan : MemoryPlan) : cell.Denotes lookingUp plan lookup .place := by
  have row : (Layout.ofProgram lookingUp).size rowTy = .ok 16 := by decide +kernel
  have word : (Layout.ofProgram lookingUp).size .int = .ok 4 := by decide +kernel
  have chosen : (Expr.ofDecl choice).Denotes lookingUp plan lookup .value :=
    @Expr.Denotes.promoted _ _ _ _ _ _ 0 rfl (by decide +kernel)
  have pointed : (Expr.ofDecl cursor).Denotes lookingUp plan lookup .value :=
    @Expr.Denotes.promoted _ _ _ _ _ _ 1 rfl (by decide +kernel)
  have array : (Expr.ofDecl among).Denotes lookingUp plan lookup .place :=
    .stored (by decide) (by decide +kernel)
  have table : (Expr.ofDecl rows).Denotes lookingUp plan lookup .place :=
    .stored (by decide) (by decide +kernel)
  have taken : (Expr.ofDecl own).Denotes lookingUp plan lookup .place :=
    .stored (by decide) (by decide +kernel)
  have one : (Expr.ofInt 1).Denotes lookingUp plan lookup .value := .number rfl
  have position : (Expr.elementOf (.ofDecl among) (.ofOperands .and (.ofDecl choice) (.ofInt 1))).Denotes
      lookingUp plan lookup .place :=
    .element rfl array (.operator rfl chosen one) word
  have tag : (Expr.field .char (.elementOf (.ofDecl rows) (.valueAt (.ofDecl cursor))) "tag").Denotes
      lookingUp plan lookup .place := by
    refine @Expr.Denotes.member _ _ _ _ "row" _ _ 0 rfl ?_ (by decide +kernel)
    exact .element rfl table (.contents (.target pointed)) row
  refine .element rfl (@Expr.Denotes.member _ _ _ _ "row" _ _ 4 rfl ?_ (by decide +kernel))
    (.contents tag) word
  exact .offset rfl (.address taken) (.contents position) row

theorem places_addressed_cell : ∃ plan addr val,
    lookingUp.ids.Nodup ∧ lookingUp.memoryPlan (lookingUp.promotion 0).1 = .ok plan ∧
      lookup ∈ lookingUp.functions ∧ cell.Denotes lookingUp plan lookup .place ∧
      (lookingUp.promotion 0).2 ≤ 2 ∧
      (cell.lower (lookingUp.env plan)).addr.run ⟨2, 0⟩ = .ok addr ∧
      (cell.lower (lookingUp.env plan)).val.run ⟨2, 0⟩ = .ok val ∧
      (∃ after, addr.Leaves (.quiet fun _ => 20480) (alone addr) 0 looking ⟨2, 0⟩ 4116 after) ∧
      ∃ after, val.Leaves (.quiet fun _ => 20480) (alone val) 0 looking ⟨2, 0⟩ 77 after := by
  have ids : lookingUp.ids.Nodup := by decide
  have defined : lookup ∈ lookingUp.functions := List.mem_cons_self
  have drawn : (lookingUp.promotion 0).2 ≤ (⟨2, 0⟩ : Supply).nextReg := by decide +kernel
  have computed : (do
      let plan ← lookingUp.memoryPlan (lookingUp.promotion 0).1
      let addr ← (cell.lower (lookingUp.env plan)).addr.run ⟨2, 0⟩
      let val ← (cell.lower (lookingUp.env plan)).val.run ⟨2, 0⟩
      return decide ((alone addr).labels.Nodup ∧ (alone val).labels.Nodup ∧
        (cell.denote (lookingUp.surroundings plan lookup (fun _ => 20480) looking)).place =
          some 4116)) = .ok true := by decide +kernel
  obtain ⟨plan, planned, rest⟩ := bind_eq_ok.1 computed
  obtain ⟨addr, lowersAddr, rest⟩ := bind_eq_ok.1 rest
  obtain ⟨val, lowersVal, checked⟩ := bind_eq_ok.1 rest
  obtain ⟨labelsAddr, labelsVal, place⟩ := of_decide_eq_true (Except.ok.inj checked)
  have denotes := denotes_cell plan
  obtain ⟨_, _, sameAddr, sameVal, leaves⟩ := places_addressed ids planned defined denotes drawn
  obtain rfl := Except.ok.inj (lowersAddr.symm.trans sameAddr)
  obtain rfl := Except.ok.inj (lowersVal.symm.trans sameVal)
  have first := leaves (.quiet fun _ => 20480) (alone addr) ⟨labelsAddr, _, _, rfl⟩ looking 4116 place
  have second := leaves (.quiet fun _ => 20480) (alone val) ⟨labelsVal, _, _, rfl⟩ looking 4116 place
  have contents : Ty.int.contents looking.memory 4116 = 77 := by decide +kernel
  refine ⟨plan, addr, val, ids, planned, defined, denotes, drawn, lowersAddr, lowersVal,
    first.1 0 ⟨[], _, rfl, rfl⟩, ?_⟩
  exact contents ▸ second.2 0 ⟨[], _, rfl, rfl⟩

end Program

end MipsBackend
