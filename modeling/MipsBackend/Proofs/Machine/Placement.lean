import Mathlib.Data.List.Nodup
import MipsBackend.Proofs.Flow.Edges
import MipsBackend.Proofs.Machine.Run

/-!
# Pieces of a section

A piece of code stands in a section at the node of its first instruction, or of the instruction
behind it if it has none. A label that the section has once stands for the node where it was
written.
-/

namespace MipsBackend

def instrCount (items : List TextItem) : Nat := (items.filterMap TextItem.instr?).length

@[simp] theorem instrCount_nil : instrCount [] = 0 := rfl

@[simp] theorem instrCount_instr (instr : Instr) (rest : List TextItem) :
    instrCount (.instr instr :: rest) = instrCount rest + 1 := rfl

@[simp] theorem instrCount_label (label : Label) (rest : List TextItem) :
    instrCount (.label label :: rest) = instrCount rest := rfl

@[simp] theorem instrCount_comment (text : String) (rest : List TextItem) :
    instrCount (.comment text :: rest) = instrCount rest := rfl

@[simp] theorem instrCount_append (first second : List TextItem) :
    instrCount (first ++ second) = instrCount first + instrCount second := by
  simp only [instrCount, List.filterMap_append, List.length_append]

@[simp] theorem instrCount_map (instrs : List Instr) :
    instrCount (instrs.map .instr) = instrs.length :=
  congrArg List.length (Section.instructions_map instrs)

namespace Section

def Places (code : Section) (node : Nat) (items : List TextItem) : Prop :=
  ∃ front back, code.items = front ++ items ++ back ∧ instrCount front = node

/-- Every label of the section stands for an instruction of its own place. -/
structure Labelled (code : Section) : Prop where
  distinct : code.labels.Nodup
  ends : ∃ before last, code.items = before ++ [.instr last]

namespace Places

variable {code : Section} {node : Nat} {first second rest : List TextItem}

theorem left (placed : code.Places node (first ++ second)) : code.Places node first := by
  obtain ⟨front, back, split, count⟩ := placed
  exact ⟨front, second ++ back, by rw [split]; simp only [List.append_assoc], count⟩

theorem right (placed : code.Places node (first ++ second)) :
    code.Places (node + instrCount first) second := by
  obtain ⟨front, back, split, count⟩ := placed
  refine ⟨front ++ first, back, by rw [split]; simp only [List.append_assoc], ?_⟩
  rw [instrCount_append, count]

theorem instr {instr : Instr} (placed : code.Places node (.instr instr :: rest)) :
    code.instructions[node]? = some instr := by
  obtain ⟨front, back, split, rfl⟩ := placed
  rw [instructions, split, List.append_assoc, List.filterMap_append, instrCount,
    List.getElem?_append_right (Nat.le_refl _), Nat.sub_self]
  rfl

theorem tail {instr : Instr} (placed : code.Places node (.instr instr :: rest)) :
    code.Places (node + 1) rest :=
  @right code node [.instr instr] rest placed

theorem behindLabel {label : Label} (placed : code.Places node (.label label :: rest)) :
    code.Places node rest :=
  @right code node [.label label] rest placed

theorem holds {instrs : List Instr} (placed : code.Places node (instrs.map .instr)) :
    code.Holds node instrs := by
  obtain ⟨front, back, split, rfl⟩ := placed
  unfold Holds instructions
  rw [split, List.append_assoc, List.filterMap_append, instrCount, List.drop_left,
    List.filterMap_append]
  have own : (instrs.map TextItem.instr).filterMap TextItem.instr? = instrs :=
    instructions_map instrs
  rw [own]
  exact List.prefix_append _ _

end Places

/-! ## Labels -/

theorem labelledNode?_of_once {label : Label} {front rest : List TextItem}
    (before : .label label ∉ front) (behind : .label label ∉ rest)
    (followed : rest.any (·.instr?.isSome) = true) (node : Nat) :
    labelledNode? label node (front ++ .label label :: rest) = some (node + instrCount front) := by
  induction front generalizing node with
  | nil =>
    have absent : labelledNode? label node rest = none := by
      rw [← Option.not_isSome_iff_eq_none, labelledNode?_isSome_iff]
      rintro ⟨first, second, split, -⟩
      exact behind (split ▸ List.mem_append_right _ List.mem_cons_self)
    simp [labelledNode?, absent, followed]
  | cons item front ih =>
    rw [List.mem_cons, not_or] at before
    cases item with
    | instr instr =>
      rw [List.cons_append, labelledNode?, ih before.2, instrCount_instr]
      congr 1
      omega
    | comment text => exact ih before.2 node
    | label here =>
      rw [List.cons_append, labelledNode?, ih before.2, Option.some_or]
      rfl

theorem Labelled.labelledNode?_eq {code : Section} (labelled : code.Labelled) {label : Label}
    {front rest : List TextItem} (split : code.items = front ++ .label label :: rest) :
    labelledNode? label 0 code.items = some (instrCount front) := by
  have parts : code.labels =
      front.filterMap TextItem.label? ++ label :: rest.filterMap TextItem.label? := by
    rw [labels, split, List.filterMap_append]
    rfl
  have distinct := labelled.distinct
  rw [parts, List.nodup_middle, List.nodup_cons, List.mem_append] at distinct
  have absent : ∀ items : List TextItem, label ∉ items.filterMap TextItem.label? →
      .label label ∉ items :=
    fun items missing member => missing (List.mem_filterMap.2 ⟨_, member, rfl⟩)
  obtain ⟨before, last, ends⟩ := labelled.ends
  have followed : rest.any (·.instr?.isSome) = true := by
    have final : code.items.getLast? = some (.instr last) := by rw [ends, List.getLast?_concat]
    rw [split, List.getLast?_append_cons] at final
    cases rest with
    | nil => cases final
    | cons item later =>
      rw [List.getLast?_cons_cons] at final
      exact List.any_eq_true.2 ⟨_, List.mem_of_getLast? final, rfl⟩
  rw [split, labelledNode?_of_once (absent _ fun member => distinct.1 (.inl member))
    (absent _ fun member => distinct.1 (.inr member)) followed, Nat.zero_add]

theorem Labelled.node_of_places {code : Section} (labelled : code.Labelled) {label : Label}
    {node : Nat} {rest : List TextItem} (placed : code.Places node (.label label :: rest)) :
    labelledNode? label 0 code.items = some node := by
  obtain ⟨front, back, split, rfl⟩ := placed
  rw [List.append_assoc, List.cons_append] at split
  exact labelled.labelledNode?_eq split

end Section

end MipsBackend
