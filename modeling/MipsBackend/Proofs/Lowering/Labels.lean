import Mathlib.Data.List.Perm.Basic
import Std.Data.String.ToNat
import MipsBackend.Proofs.Lowering.Grammar
import MipsBackend.Proofs.Lowering.Sections
import MipsBackend.Proofs.Machine.Placement

/-!
# Labels of generated code

A branch label tells its stem and its number, and every construct draws a number of its own. So no
label is written twice in a function, and all of them differ from the labels of the function and of
its end.
-/

namespace MipsBackend

namespace Label

/-! ## Names -/

theorem eq_of_append_underscore {xs ys first second : List Char}
    (left : '_' ∉ first) (right : '_' ∉ second)
    (same : xs ++ '_' :: first = ys ++ '_' :: second) : xs = ys ∧ first = second := by
  rcases List.append_eq_append_iff.1 same with ⟨more, rfl, rest⟩ | ⟨more, rfl, rest⟩
  all_goals
    cases more with
    | nil => simp_all
    | cons char more =>
      have inside := (List.cons.inj rest).2
      simp_all

theorem underscore_not_mem_repr (number : Nat) : '_' ∉ (toString number).toList := by
  intro member
  have digits : (toString number).toList = Nat.toDigits 10 number := Nat.toList_repr
  have digit := Nat.isDigit_of_mem_toDigits (by decide) (by decide) (digits ▸ member)
  exact absurd digit (by decide)

theorem branch_inj {stem other : String} {number another : Nat} :
    branch stem number = branch other another ↔ stem = other ∧ number = another := by
  constructor
  · intro same
    have texts := congrArg (fun label : Label => label.text.toList) same
    simp only [branch, String.toList_append, List.append_assoc] at texts
    obtain ⟨stems, numbers⟩ := eq_of_append_underscore (underscore_not_mem_repr number)
      (underscore_not_mem_repr another) texts
    exact ⟨String.toList_inj.1 stems, Nat.repr_inj.1 (String.toList_inj.1 numbers)⟩
  · rintro ⟨rfl, rfl⟩
    rfl

def branchStems : List String :=
  ["or_true", "or_end", "and_false", "and_end", "while_cond", "while_body", "while_end", "if_end",
    "else"]

/-- Whether a label is a branch target with the number. -/
def IsBranch (label : Label) (number : Nat) : Prop :=
  ∃ stem ∈ branchStems, label = .branch stem number

theorem IsBranch.unique {label : Label} {number other : Nat} (first : label.IsBranch number)
    (second : label.IsBranch other) : number = other := by
  obtain ⟨stem, -, rfl⟩ := first
  obtain ⟨another, -, same⟩ := second
  exact (branch_inj.1 same).2

/-! ## Kinds -/

/-- Two characters that tell what a label stands for: no two kinds of labels begin with the same. -/
def opening (label : Label) : List Char := label.text.toList.take 2

@[simp] theorem opening_function (name : String) : (function name).opening = ['f', 'u'] := by
  simp [opening, function]

@[simp] theorem opening_epilogue (name : String) : (epilogue name).opening = ['r', 'e'] := by
  simp [opening, epilogue]

@[simp] theorem opening_global (name : String) : (global name).opening = ['v', 'a'] := by
  simp [opening, global]

@[simp] theorem opening_string (number : Nat) : (string number).opening = ['s', 't'] := by
  simp [opening, string]

@[simp] theorem opening_spill (reg : VReg) : (spill reg).opening = ['s', 'p'] := by
  simp [opening, spill]

@[simp] theorem opening_start : start.opening = ['_', 's'] := by
  decide

def branchOpenings : List (List Char) :=
  [['o', 'r'], ['a', 'n'], ['w', 'h'], ['i', 'f'], ['e', 'l']]

theorem IsBranch.opening {label : Label} {number : Nat} (branches : label.IsBranch number) :
    label.opening ∈ branchOpenings := by
  obtain ⟨stem, known, rfl⟩ := branches
  have stems : ∀ stem ∈ branchStems,
      2 ≤ stem.toList.length ∧ stem.toList.take 2 ∈ branchOpenings := by decide
  obtain ⟨long, listed⟩ := stems stem known
  rwa [Label.opening, branch, String.toList_append, String.toList_append, List.append_assoc,
    List.take_append_of_le_length long]

end Label

/-! ## Numbered code -/

def itemLabels (items : List TextItem) : List Label := items.filterMap TextItem.label?

@[simp] theorem itemLabels_nil : itemLabels [] = [] := rfl

@[simp] theorem itemLabels_label (label : Label) (rest : List TextItem) :
    itemLabels (.label label :: rest) = label :: itemLabels rest := rfl

@[simp] theorem itemLabels_instr (instr : Instr) (rest : List TextItem) :
    itemLabels (.instr instr :: rest) = itemLabels rest := rfl

@[simp] theorem itemLabels_append (first second : List TextItem) :
    itemLabels (first ++ second) = itemLabels first ++ itemLabels second :=
  List.filterMap_append

@[simp] theorem itemLabels_map (instrs : List Instr) : itemLabels (instrs.map .instr) = [] := by
  rw [itemLabels, List.filterMap_map, List.filterMap_eq_nil_iff]
  exact fun _ _ => rfl

/-- The labels of the code are distinct, and their numbers lie between the two. -/
structure Numbered (first last : Nat) (code : List TextItem) : Prop where
  le : first ≤ last
  distinct : (itemLabels code).Nodup
  within : ∀ label ∈ itemLabels code, ∃ number, first ≤ number ∧ number < last ∧
    label.IsBranch number

namespace Numbered

variable {first middle last : Nat}

theorem unlabelled {code : List TextItem} (none : itemLabels code = []) :
    Numbered first first code := by
  refine ⟨Nat.le_refl _, ?_, ?_⟩ <;> simp [none]

theorem append {before after : List TextItem} (left : Numbered first middle before)
    (right : Numbered middle last after) : Numbered first last (before ++ after) := by
  refine ⟨left.le.trans right.le, ?_, fun label member => ?_⟩
  · rw [itemLabels_append, List.nodup_append']
    refine ⟨left.distinct, right.distinct, fun label here there => ?_⟩
    obtain ⟨low, -, upper, branches⟩ := left.within label here
    obtain ⟨high, lower, -, again⟩ := right.within label there
    have same := branches.unique again
    omega
  · rw [itemLabels_append, List.mem_append] at member
    rcases member with here | there
    · obtain ⟨number, lower, upper, branches⟩ := left.within label here
      exact ⟨number, lower, Nat.lt_of_lt_of_le upper right.le, branches⟩
    · obtain ⟨number, lower, upper, branches⟩ := right.within label there
      exact ⟨number, left.le.trans lower, upper, branches⟩

/-- A construct adds labels with its own number to those of its parts. -/
theorem enclose {inner whole : List TextItem} (numbered : Numbered (first + 1) last inner)
    {own : List Label} (distinct : own.Nodup) (owned : ∀ label ∈ own, label.IsBranch first)
    (listed : (itemLabels whole).Perm (own ++ itemLabels inner)) : Numbered first last whole := by
  refine ⟨Nat.le_of_succ_le numbered.le, ?_, fun label member => ?_⟩
  · rw [listed.nodup_iff, List.nodup_append']
    refine ⟨distinct, numbered.distinct, fun label here there => ?_⟩
    obtain ⟨number, lower, -, branches⟩ := numbered.within label there
    have same := (owned label here).unique branches
    omega
  · rcases List.mem_append.1 (listed.mem_iff.1 member) with here | there
    · exact ⟨first, Nat.le_refl _, numbered.le, owned label here⟩
    · obtain ⟨number, lower, upper, branches⟩ := numbered.within label there
      exact ⟨number, by omega, upper, branches⟩

end Numbered

/-! ## Generated code -/

theorem ExprCode.numbered {env : Env} {first last : Nat} {code : List TextItem}
    (shape : ExprCode env first code last) : Numbered first last code := by
  induction shape with
  | nothing first => exact .unlabelled rfl
  | append left right ihLeft ihRight => exact ihLeft.append ihRight
  | computation computes => exact .unlabelled rfl
  | service known => exact .unlabelled rfl
  | call own signed argSpace resultSpace arguments takes ihArgs ihTake =>
    have both := ihArgs.append ihTake
    refine ⟨both.le, ?_, ?_⟩
    all_goals
      simp only [callItems, itemLabels_append, itemLabels_map, itemLabels_instr, List.append_nil,
        List.nil_append]
      rw [← itemLabels_append]
    · exact both.distinct
    · exact both.within
  | @shortCircuit first _ _ kind known left right leftReg rightReg res lhs rhs ihLeft ihRight =>
    refine @Numbered.enclose _ _ _ _ (ihLeft.append ihRight)
      [.branch kind.decidedLabel first, .branch kind.endLabel first] ?_ ?_ ?_
    · have differ : kind.decidedLabel ≠ kind.endLabel := by rcases known with rfl | rfl <;> decide
      simp [Label.branch_inj, differ]
    · simp only [List.forall_mem_cons]
      rcases known with rfl | rfl <;>
        exact ⟨⟨_, by decide, rfl⟩, ⟨_, by decide, rfl⟩, List.forall_mem_nil _⟩
    · simp only [Gen.ShortCircuit.code, itemLabels_append, itemLabels_instr, itemLabels_label,
        itemLabels_nil]
      rw [← List.append_assoc]
      exact List.perm_append_comm

theorem StmtCode.numbered {env : Env} {epilogue : Label} {labels : Option LoopLabels}
    {first last : Nat} {code : List TextItem}
    (shape : StmtCode env epilogue labels first code last) : Numbered first last code := by
  induction shape with
  | expr computes => exact computes.numbered
  | append left right ihLeft ihRight => exact ihLeft.append ihRight
  | jump known => exact .unlabelled rfl
  | @loop _ first _ _ cond body _ test inner ih =>
    refine @Numbered.enclose _ _ _ _ (test.numbered.append ih)
      [.branch "while_cond" first, .branch "while_body" first, .branch "while_end" first] ?_ ?_ ?_
    · simp [Label.branch_inj]
    · simp only [List.forall_mem_cons]
      exact ⟨⟨_, by decide, rfl⟩, ⟨_, by decide, rfl⟩, ⟨_, by decide, rfl⟩,
        List.forall_mem_nil _⟩
    · rw [List.perm_iff_count]
      intro label
      simp only [Stmt.loopCode, Stmt.loopLabels, itemLabels_append, itemLabels_instr,
        itemLabels_label, itemLabels_nil, List.count_append, List.count_cons, List.count_nil]
      omega
  | @branch _ first _ _ cond yes _ test taken ih =>
    refine @Numbered.enclose _ _ _ _ (test.numbered.append ih) [.branch "if_end" first] ?_ ?_ ?_
    · simp
    · simp only [List.forall_mem_singleton]
      exact ⟨_, by decide, rfl⟩
    · rw [List.perm_iff_count]
      intro label
      simp only [Stmt.branchCode, itemLabels_append, itemLabels_instr, itemLabels_label,
        itemLabels_nil, List.count_append, List.count_cons, List.count_nil]
      omega
  | @branchElse _ first _ _ _ cond yes no _ test taken other ihYes ihNo =>
    refine @Numbered.enclose _ _ _ _ ((test.numbered.append ihYes).append ihNo)
      [.branch "if_end" first, .branch "else" first] ?_ ?_ ?_
    · simp [Label.branch_inj]
    · simp only [List.forall_mem_cons]
      exact ⟨⟨_, by decide, rfl⟩, ⟨_, by decide, rfl⟩, List.forall_mem_nil _⟩
    · rw [List.perm_iff_count]
      intro label
      simp only [Stmt.branchElseCode, itemLabels_append, itemLabels_instr, itemLabels_label,
        itemLabels_nil, List.count_append, List.count_cons, List.count_nil]
      omega

/-! ## Functions -/

theorem labels_functionItems (name : String) (enter : List Instr) (body : List TextItem) :
    Section.labels { items := functionItems name (enter.map .instr) body } =
      .function name :: (itemLabels body ++ [.epilogue name]) := by
  change itemLabels _ = _
  simp [functionItems]

theorem labelled_functionItems {name : String} {enter : List Instr} {body : List TextItem}
    {first last : Nat} (numbered : Numbered first last body) :
    Section.Labelled { items := functionItems name (enter.map .instr) body } where
  distinct := by
    have kinds : ∀ label ∈ itemLabels body, label.opening ∈ Label.branchOpenings := by
      intro label member
      obtain ⟨number, -, -, branches⟩ := numbered.within label member
      exact branches.opening
    rw [labels_functionItems, List.nodup_cons, List.mem_append, List.mem_singleton,
      List.nodup_append']
    refine ⟨?_, numbered.distinct, List.nodup_singleton _, fun label member last => ?_⟩
    · rintro (member | same)
      · exact absurd (kinds _ member) (by rw [Label.opening_function]; decide)
      · have clash := congrArg Label.opening same
        rw [Label.opening_function, Label.opening_epilogue] at clash
        exact absurd clash (by decide)
    · obtain rfl := List.mem_singleton.1 last
      exact absurd (kinds _ member) (by rw [Label.opening_epilogue]; decide)
  ends := ⟨.label (.function name) :: enter.map .instr ++ [.instr (.marker .save)] ++ body ++
    [.label (.epilogue name), .instr (.marker .restore), .instr (.arithImm .addiu .sp .fp 4),
      .instr (.lw .ra (-4) .fp), .instr (.lw .fp 0 .fp)], .jumpReg .ra, by simp [functionItems]⟩

end MipsBackend
