import MipsBackend.Proofs.Assignment.Homes

/-!
# The rewritten section

When every register has a home, rewriting a section replaces each instruction by a list of
instructions of its own and leaves labels and comments where they are (`rewritten`). The
instructions of the rewritten section are therefore these lists in a row, and a label that stood for
an instruction stands for the start of its list (`labelledNode?_rewritten`).
-/

namespace MipsBackend

namespace Assignment

/-- What an instruction becomes. -/
def expansion (assignment : Assignment) (instr : Instr) : List Instr :=
  ((assignment.spilledUses instr).flatMap fun (reg, scratch) => loadSlot scratch reg) ++
    instr.mapRegisters (assignment.place instr) :: assignment.storeBack instr

theorem expansion_ne_nil (assignment : Assignment) (instr : Instr) :
    assignment.expansion instr ≠ [] := by
  simp [expansion]

def instrCode (assignment : Assignment) (state : SavedState) : Instr → List Instr
  | .marker .save => state.save
  | .marker .restore => state.restore
  | instr => assignment.expansion instr

def itemCode (assignment : Assignment) (state : SavedState) : TextItem → List TextItem
  | .instr (.marker .save) => .comment "pushRegisters" :: state.save.map .instr
  | .instr (.marker .restore) => .comment "popRegisters" :: state.restore.map .instr
  | .instr instr => (assignment.expansion instr).map .instr
  | item => [item]

theorem itemCode_of_unmarked (assignment : Assignment) (state : SavedState) {instr : Instr}
    (unmarked : instr.marker? = none) :
    assignment.itemCode state (.instr instr) = (assignment.expansion instr).map .instr := by
  cases instr with
  | marker kind => cases unmarked
  | _ => rfl

def rewritten (assignment : Assignment) (code : Section) : Section :=
  { items := code.items.flatMap (assignment.itemCode (assignment.savedState code)) }

/-! ## Rewriting succeeds -/

theorem expand_eq_ok {assignment : Assignment} {instr : Instr}
    (housed : ∀ reg ∈ instr.virtualOperands, assignment.home? reg ≠ none) :
    assignment.expand instr = .ok (assignment.expansion instr) := by
  have none : instr.virtualOperands.find? (assignment.home? · = none) = none := by
    rw [List.find?_eq_none]
    intro reg member
    simpa using housed reg member
  simp [expand, none, expansion]

theorem expandItem_eq_ok {assignment : Assignment} {state : SavedState} {item : TextItem}
    (housed : ∀ instr, item = .instr instr →
      ∀ reg ∈ instr.virtualOperands, assignment.home? reg ≠ none) :
    assignment.expandItem state item = .ok (assignment.itemCode state item) := by
  unfold expandItem
  split
  · rfl
  · rfl
  · next instr notSave notRestore =>
    rw [expand_eq_ok (housed instr rfl)]
    unfold itemCode
    split <;> simp_all [Except.map]
  · next item notSave notRestore notInstr =>
    unfold itemCode
    split <;> simp_all

theorem expandItems_eq_ok {assignment : Assignment} {state : SavedState} {items : List TextItem}
    (housed : ∀ instr, .instr instr ∈ items →
      ∀ reg ∈ instr.virtualOperands, assignment.home? reg ≠ none) :
    assignment.expandItems state items = .ok (items.flatMap (assignment.itemCode state)) := by
  induction items with
  | nil => rfl
  | cons item rest ih =>
    have here : assignment.expandItem state item = .ok (assignment.itemCode state item) :=
      expandItem_eq_ok fun instr same => housed instr (same ▸ List.mem_cons_self)
    have later := ih fun instr member => housed instr (List.mem_cons_of_mem item member)
    simp [expandItems, here, later, bind, Except.bind, pure, Except.pure]

theorem apply_eq_ok {assignment : Assignment} {code : Section} (marked : code.checkMarkers = .ok ())
    (covers : assignment.Covers code) (data : List DataItem) :
    assignment.apply code data = (data ++ assignment.slotData code, .ok (assignment.rewritten code))
    := by
  have expanded : assignment.expandItems (assignment.savedState code) code.items =
      .ok (assignment.rewritten code).items :=
    expandItems_eq_ok fun instr member reg mentioned =>
      covers reg (Section.mem_registers.2 ⟨instr, Section.mem_instructions.2 member, mentioned⟩)
  simp [apply, marked, expanded, Except.map]

/-! ## Instructions -/

theorem filterMap_instr?_itemCode (assignment : Assignment) (state : SavedState)
    (item : TextItem) :
    (assignment.itemCode state item).filterMap TextItem.instr? =
      (item.instr?.toList).flatMap (assignment.instrCode state) := by
  cases item with
  | label here => rfl
  | comment text => rfl
  | instr instr =>
    unfold itemCode
    split
    · next same =>
      cases same
      exact (Section.instructions_map state.save).trans (by simp [instrCode, TextItem.instr?])
    · next same =>
      cases same
      exact (Section.instructions_map state.restore).trans (by simp [instrCode, TextItem.instr?])
    · next other notSave notRestore same =>
      cases same
      refine (Section.instructions_map (assignment.expansion instr)).trans ?_
      cases instr with
      | marker kind => cases kind <;> simp_all
      | _ => simp [instrCode, TextItem.instr?]
    · next notSave notRestore notInstr => exact absurd rfl (notInstr instr)

theorem instructions_rewritten (assignment : Assignment) (code : Section) :
    (assignment.rewritten code).instructions =
      code.instructions.flatMap (assignment.instrCode (assignment.savedState code)) := by
  unfold rewritten Section.instructions
  simp only
  induction code.items with
  | nil => rfl
  | cons item rest ih =>
    rw [List.flatMap_cons, List.filterMap_append, ih, filterMap_instr?_itemCode]
    cases here : item.instr? <;> simp [here]

/-! ## Places in the rewritten section -/

def startOf (assignment : Assignment) (code : Section) (node : Nat) : Nat :=
  ((code.instructions.take node).flatMap
    (assignment.instrCode (assignment.savedState code))).length

theorem startOf_succ {assignment : Assignment} {code : Section} {node : Nat} {instr : Instr}
    (here : code.instructions[node]? = some instr) :
    assignment.startOf code (node + 1) = assignment.startOf code node +
      (assignment.instrCode (assignment.savedState code) instr).length := by
  simp [startOf, List.take_add_one, here]

theorem rewritten_drop_startOf {assignment : Assignment} {code : Section} {node : Nat}
    {instr : Instr} (here : code.instructions[node]? = some instr) :
    assignment.instrCode (assignment.savedState code) instr <+:
      (assignment.rewritten code).instructions.drop (assignment.startOf code node) := by
  obtain ⟨bound, rfl⟩ := List.getElem?_eq_some_iff.1 here
  have split : code.instructions =
      code.instructions.take node ++ code.instructions[node] :: code.instructions.drop (node + 1) := by
    rw [← List.drop_eq_getElem_cons bound, List.take_append_drop]
  rw [instructions_rewritten]
  conv_rhs => rw [split]
  rw [List.flatMap_append, List.flatMap_cons, startOf, List.drop_left]
  exact List.prefix_append _ _

theorem labelledNode?_succ (label : Label) (node : Nat) (items : List TextItem) :
    labelledNode? label (node + 1) items = (labelledNode? label node items).map (· + 1) := by
  induction items generalizing node with
  | nil => rfl
  | cons item rest ih =>
    cases item with
    | instr instr => exact ih (node + 1)
    | comment text => exact ih node
    | label here =>
      simp only [labelledNode?, ih node]
      cases labelledNode? label node rest with
      | some found => rfl
      | none => split <;> rfl

theorem labelledNode?_instrs (label : Label) (node : Nat) (instrs : List Instr)
    (rest : List TextItem) :
    labelledNode? label node (instrs.map .instr ++ rest) =
      labelledNode? label (node + instrs.length) rest := by
  induction instrs generalizing node with
  | nil => rfl
  | cons instr later ih =>
    simp only [List.map_cons, List.cons_append, labelledNode?, ih, List.length_cons]
    congr 1
    omega

theorem labelledNode?_itemCode {assignment : Assignment} {state : SavedState} (label : Label)
    (node : Nat) (instr : Instr) (rest : List TextItem) :
    labelledNode? label node (assignment.itemCode state (.instr instr) ++ rest) =
      labelledNode? label (node + (assignment.instrCode state instr).length) rest := by
  cases instr with
  | marker kind =>
    cases kind <;>
      exact labelledNode?_instrs label node _ rest
  | _ => exact labelledNode?_instrs label node _ rest

theorem any_instr?_flatMap {assignment : Assignment} {state : SavedState} {items : List TextItem}
    (nonempty : ∀ instr, .instr instr ∈ items → assignment.instrCode state instr ≠ []) :
    (items.flatMap (assignment.itemCode state)).any (·.instr?.isSome) =
      items.any (·.instr?.isSome) := by
  rw [Bool.eq_iff_iff, List.any_eq_true, List.any_eq_true]
  constructor
  · rintro ⟨item, member, isInstr⟩
    obtain ⟨source, listed, member⟩ := List.mem_flatMap.1 member
    cases source with
    | instr instr => exact ⟨_, listed, rfl⟩
    | label here =>
      cases List.mem_singleton.1 member
      exact ⟨_, listed, isInstr⟩
    | comment text =>
      cases List.mem_singleton.1 member
      exact ⟨_, listed, isInstr⟩
  · rintro ⟨item, member, isInstr⟩
    cases item with
    | label here => cases isInstr
    | comment text => cases isInstr
    | instr instr =>
      have listed := filterMap_instr?_itemCode assignment state (.instr instr)
      obtain ⟨first, rest, split⟩ := List.exists_cons_of_ne_nil (nonempty instr member)
      rw [show (TextItem.instr instr).instr?.toList = [instr] from rfl, List.flatMap_singleton,
        split] at listed
      obtain ⟨found, inside, same⟩ :=
        List.mem_filterMap.1 (listed ▸ (List.mem_cons_self : first ∈ first :: rest))
      exact ⟨found, List.mem_flatMap.2 ⟨_, member, inside⟩, by simp [same]⟩

theorem labelledNode?_flatMap {assignment : Assignment} {state : SavedState}
    {items : List TextItem}
    (nonempty : ∀ instr, .instr instr ∈ items → assignment.instrCode state instr ≠ [])
    (label : Label) (base : Nat) :
    labelledNode? label base (items.flatMap (assignment.itemCode state)) =
      (labelledNode? label 0 items).map fun node =>
        base + (((items.filterMap TextItem.instr?).take node).flatMap
          (assignment.instrCode state)).length := by
  induction items generalizing base with
  | nil => rfl
  | cons item rest ih =>
    have laterNonempty : ∀ instr, .instr instr ∈ rest → assignment.instrCode state instr ≠ [] :=
      fun instr member => nonempty instr (List.mem_cons_of_mem _ member)
    cases item with
    | comment text => exact ih laterNonempty base
    | instr instr =>
      rw [List.flatMap_cons, labelledNode?_itemCode, ih laterNonempty, labelledNode?,
        labelledNode?_succ, Option.map_map]
      congr 1
      funext node
      simp [TextItem.instr?, Nat.add_assoc]
    | label here =>
      have stays : (TextItem.label here :: rest).flatMap (assignment.itemCode state) =
          .label here :: rest.flatMap (assignment.itemCode state) := rfl
      rw [stays, labelledNode?, labelledNode?, ih laterNonempty, any_instr?_flatMap laterNonempty]
      cases labelledNode? label 0 rest with
      | some found => rfl
      | none => split <;> simp

theorem labelledNode?_rewritten {assignment : Assignment} {code : Section}
    (nonempty : ∀ instr ∈ code.instructions,
      assignment.instrCode (assignment.savedState code) instr ≠ []) (label : Label) :
    labelledNode? label 0 (assignment.rewritten code).items =
      (labelledNode? label 0 code.items).map (assignment.startOf code) := by
  rw [rewritten, labelledNode?_flatMap fun instr member =>
    nonempty instr (Section.mem_instructions.2 member)]
  congr 1
  funext node
  rw [Nat.zero_add]
  rfl

end Assignment

end MipsBackend
