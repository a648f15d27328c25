import MipsBackend.Proofs.Assignment.Final

/-!
# What rewriting accepts, and what it does

An assignment can be put into effect in a section exactly if the markers of the section are as they
should be and the assignment knows every register in it (`Assignment.Accepts`); an instruction never
needs more scratch registers than there are. Each item of the section then becomes a piece of its
own (`Assignment.Rewrites`), and the pieces in a row are the new section.
-/

namespace MipsBackend

/-- The operands are the same but for the registers in them. -/
inductive Operand.Alike : Operand → Operand → Prop
  | reg {first second : Reg} : Alike (.reg first) (.reg second)
  | imm {value : Int32} : Alike (.imm value) (.imm value)
  | label {label : Label} : Alike (.label label) (.label label)
  | indexed {offset : Int32} {first second : Reg} :
      Alike (.indexed offset first) (.indexed offset second)

namespace Instr

@[simp] theorem mnemonic_mapRegisters (rename : Role → Reg → Reg) (instr : Instr) :
    (instr.mapRegisters rename).mnemonic = instr.mnemonic := by
  cases instr <;> rfl

theorem alike_mapRegisters (rename : Role → Reg → Reg) (instr : Instr) :
    List.Forall₂ Operand.Alike instr.operands (instr.mapRegisters rename).operands := by
  cases instr <;> repeat constructor

end Instr

namespace Assignment

/-! ## What is accepted -/

/-- The markers save once and then restore once, or there are none, and every virtual register in the
section has a physical register or is spilled. -/
structure Accepts (assignment : Assignment) (code : Section) : Prop where
  markers : code.markers = [] ∨ code.markers = [.save, .restore]
  known : ∀ instr ∈ code.instructions, ∀ reg,
    .virt reg ∈ instr.uses ∨ instr.def? = some (.virt reg) →
      reg ∈ assignment.regs ∨ reg ∈ assignment.spilled

/-! ## What it becomes -/

/-- The register is spilled, and has no physical register. -/
def Spills (assignment : Assignment) (reg : VReg) : Prop :=
  assignment.regs[reg]? = none ∧ reg ∈ assignment.spilled

/-- What takes the place of an operand behind loads into scratch registers. -/
inductive Replaces (assignment : Assignment) (loads : List (VReg × PhysReg)) :
    Role → Reg → Reg → Prop
  | phys {role : Role} {reg : PhysReg} : Replaces assignment loads role (.phys reg) (.phys reg)
  | home {role : Role} {reg : VReg} {phys : PhysReg} (known : assignment.regs[reg]? = some phys) :
      Replaces assignment loads role (.virt reg) (.phys phys)
  | loaded {reg : VReg} {scratch : PhysReg} (spills : assignment.Spills reg)
      (listed : (reg, scratch) ∈ loads) : Replaces assignment loads .use (.virt reg) (.phys scratch)
  | stored {reg : VReg} (spills : assignment.Spills reg) :
      Replaces assignment loads .define (.virt reg) (.phys .defScratch)

/-- An instruction becomes the loads of its spilled operands, one instruction like it, and the store of
a spilled result. -/
structure Moves (assignment : Assignment) (instr : Instr) (loads : List (VReg × PhysReg))
    (made : Instr) (store : List Instr) : Prop where
  loaded : ∀ reg, reg ∈ loads.map Prod.fst ↔ .virt reg ∈ instr.uses ∧ assignment.Spills reg
  once : (loads.map Prod.fst).Nodup
  scratch : (loads.map Prod.snd).Sublist PhysReg.useScratch
  operation : made.mnemonic = instr.mnemonic
  operands : List.Forall₂ Operand.Alike instr.operands made.operands
  uses : List.Forall₂ (assignment.Replaces loads .use) instr.uses made.uses
  written : Option.Rel (assignment.Replaces loads .define) instr.def? made.def?
  stores : ∀ reg, instr.def? = some (.virt reg) → assignment.Spills reg →
    store = [.loadAddr (.phys .s6) (.spill reg), .sw (.phys .defScratch) 0 (.phys .s6)]
  storesNothing : (∀ reg, instr.def? = some (.virt reg) → ¬ assignment.Spills reg) → store = []

/-- The piece that an item becomes. -/
inductive Rewrites (assignment : Assignment) (state : SavedState) : TextItem → List TextItem → Prop
  | label {label : Label} : Rewrites assignment state (.label label) [.label label]
  | comment {text : String} : Rewrites assignment state (.comment text) [.comment text]
  | save : Rewrites assignment state (.instr (.marker .save))
      (.comment "pushRegisters" :: state.save.map .instr)
  | restore : Rewrites assignment state (.instr (.marker .restore))
      (.comment "popRegisters" :: state.restore.map .instr)
  | instr {instr made : Instr} {loads : List (VReg × PhysReg)} {store : List Instr}
      (unmarked : instr.marker? = none) (moves : assignment.Moves instr loads made store) :
      Rewrites assignment state (.instr instr)
        ((loads.flatMap (fun (reg, scratch) =>
          [Instr.loadAddr (.phys scratch) (.spill reg), .lw (.phys scratch) 0 (.phys scratch)]) ++
            made :: store).map .instr)

/-- The section that a section becomes. -/
structure Becomes (assignment : Assignment) (code made : Section) : Prop where
  concrete : ∀ instr ∈ made.instructions, instr.marker? = none ∧
    ∀ reg, .virt reg ∉ instr.uses ∧ instr.def? ≠ some (.virt reg)
  labels : made.labels = code.labels
  pieces : ∃ pieces, List.Forall₂ (assignment.Rewrites (assignment.savedState code)) code.items pieces ∧
    made.items = pieces.flatten

variable {assignment : Assignment} {code : Section}

theorem home?_ne_none_iff {reg : VReg} : assignment.home? reg ≠ none ↔
    reg ∈ assignment.regs ∨ reg ∈ assignment.spilled := by
  rw [ne_eq, home?_eq_none_iff, not_and_or, not_not, Std.ExtTreeMap.mem_iff_isSome_getElem?,
    Option.isSome_iff_ne_none]

theorem mem_virtualOperands_iff {instr : Instr} {reg : VReg} : reg ∈ instr.virtualOperands ↔
    .virt reg ∈ instr.uses ∨ instr.def? = some (.virt reg) := by
  rw [Instr.virtualOperands, List.mem_append, Instr.virtualUses, mem_virtuals]
  simp [Instr.virtualDef?, Option.bind_eq_some_iff, Reg.virtual?_eq_some]

theorem checkMarkers_eq_ok_iff : code.checkMarkers = .ok () ↔
    code.markers = [] ∨ code.markers = [.save, .restore] := by
  unfold Section.checkMarkers
  split
  · next none => exact iff_of_true rfl (.inl none)
  · next pair => exact iff_of_true rfl (.inr pair)
  · next found notNone notPair =>
    exact iff_of_false (fun same => nomatch same) (not_or.2 ⟨notNone, notPair⟩)

theorem covers_iff : assignment.Covers code ↔
    ∀ instr ∈ code.instructions, ∀ reg, .virt reg ∈ instr.uses ∨ instr.def? = some (.virt reg) →
      reg ∈ assignment.regs ∨ reg ∈ assignment.spilled := by
  constructor
  · intro covers instr listed reg mentioned
    exact home?_ne_none_iff.1
      (covers reg (Section.mem_registers.2 ⟨instr, listed, mem_virtualOperands_iff.2 mentioned⟩))
  · intro known reg member
    obtain ⟨instr, listed, mentioned⟩ := Section.mem_registers.1 member
    exact home?_ne_none_iff.2 (known instr listed reg (mem_virtualOperands_iff.1 mentioned))

theorem covers_of_expand {instr : Instr} {piece : List Instr}
    (expands : assignment.expand instr = .ok piece) :
    ∀ reg ∈ instr.virtualOperands, assignment.home? reg ≠ none := by
  unfold expand at expands
  split at expands
  · cases expands
  · next none =>
    intro reg mentioned homeless
    exact List.find?_eq_none.1 none reg mentioned (decide_eq_true homeless)

theorem covers_of_expandItem {state : SavedState} {instr : Instr} {piece : List TextItem}
    (expands : assignment.expandItem state (.instr instr) = .ok piece) :
    ∀ reg ∈ instr.virtualOperands, assignment.home? reg ≠ none := by
  unfold expandItem at expands
  split at expands
  · next same =>
    cases same
    exact fun _ mentioned => nomatch mentioned
  · next same =>
    cases same
    exact fun _ mentioned => nomatch mentioned
  · next other notSave notRestore same =>
    cases same
    obtain ⟨code, expanded, -⟩ := map_eq_ok.1 expands
    exact covers_of_expand expanded
  · next notSave notRestore notInstr => exact absurd rfl (notInstr instr)

theorem covers_of_expandItems {state : SavedState} {items pieces : List TextItem}
    (expands : assignment.expandItems state items = .ok pieces) :
    ∀ instr, .instr instr ∈ items → ∀ reg ∈ instr.virtualOperands, assignment.home? reg ≠ none := by
  induction items generalizing pieces with
  | nil => exact fun _ member => nomatch member
  | cons item rest ih =>
    obtain ⟨here, expanded, walks⟩ := bind_eq_ok.1 expands
    obtain ⟨later, others, -⟩ := bind_eq_ok.1 walks
    intro instr member reg mentioned
    rcases List.mem_cons.1 member with rfl | listed
    · exact covers_of_expandItem expanded reg mentioned
    · exact ih others instr listed reg mentioned

theorem replaces_usePlace {instr : Instr}
    (housed : ∀ reg ∈ instr.virtualOperands, assignment.home? reg ≠ none) {reg : Reg}
    (used : reg ∈ instr.uses) :
    assignment.Replaces (assignment.spilledUses instr) .use reg (assignment.usePlace instr reg) := by
  cases reg with
  | phys reg => exact .phys
  | virt reg =>
    cases home : assignment.home? reg with
    | none => exact absurd home (housed reg (mem_virtualOperands_iff.2 (.inl used)))
    | some place =>
      cases place with
      | reg phys =>
        simp only [usePlace, home]
        exact .home (home?_eq_reg_iff.1 home)
      | slot =>
        obtain ⟨scratch, found, listed⟩ := lookup_spilledUses (mem_virtuals.2 used) home
        simp only [usePlace, home, found, Option.map_some, Option.getD_some]
        exact .loaded (home?_eq_slot_iff.1 home) listed

theorem replaces_defPlace {instr : Instr} {loads : List (VReg × PhysReg)}
    (housed : ∀ reg ∈ instr.virtualOperands, assignment.home? reg ≠ none) {reg : Reg}
    (written : instr.def? = some reg) :
    assignment.Replaces loads .define reg (assignment.defPlace reg) := by
  cases reg with
  | phys reg => exact .phys
  | virt reg =>
    cases home : assignment.home? reg with
    | none => exact absurd home (housed reg (mem_virtualOperands_iff.2 (.inr written)))
    | some place =>
      cases place with
      | reg phys =>
        simp only [defPlace, home]
        exact .home (home?_eq_reg_iff.1 home)
      | slot =>
        simp only [defPlace, home]
        exact .stored (home?_eq_slot_iff.1 home)

theorem moves_expansion {instr : Instr}
    (housed : ∀ reg ∈ instr.virtualOperands, assignment.home? reg ≠ none) :
    assignment.Moves instr (assignment.spilledUses instr)
      (instr.mapRegisters (assignment.place instr)) (assignment.storeBack instr) where
  loaded reg := by
    rw [map_fst_spilledUses, spilledReads, List.mem_filter, List.mem_eraseDups, Instr.virtualUses,
      mem_virtuals, decide_eq_true_iff, home?_eq_slot_iff]
    rfl
  once := by
    rw [map_fst_spilledUses]
    exact (nodup_eraseDups _).filter _
  scratch := assignment.map_snd_spilledUses instr
  operation := by simp
  operands := instr.alike_mapRegisters _
  uses := by
    rw [Instr.uses_mapRegisters, List.forall₂_map_right_iff, List.forall₂_same]
    exact fun reg used => replaces_usePlace housed used
  written := by
    rw [Instr.def?_mapRegisters]
    cases known : instr.def? with
    | none => exact .none
    | some reg => exact .some (replaces_defPlace housed known)
  stores reg written spills := by
    have known : instr.virtualDef? = some reg := by simp [Instr.virtualDef?, written]
    rw [storeBack, known]
    exact if_pos (home?_eq_slot_iff.2 spills)
  storesNothing kept := by
    unfold storeBack
    split
    · rfl
    · next reg known =>
      have written : instr.def? = some (.virt reg) := by
        simpa [Instr.virtualDef?, Option.bind_eq_some_iff, Reg.virtual?_eq_some] using known
      exact if_neg fun home => kept reg written (home?_eq_slot_iff.1 home)

theorem rewrites_itemCode {state : SavedState} {item : TextItem}
    (housed : ∀ instr, item = .instr instr →
      ∀ reg ∈ instr.virtualOperands, assignment.home? reg ≠ none) :
    assignment.Rewrites state item (assignment.itemCode state item) := by
  cases item with
  | label label => exact .label
  | comment text => exact .comment
  | instr instr =>
    cases marked : instr.marker? with
    | none =>
      rw [itemCode_of_unmarked assignment state marked]
      exact .instr marked (moves_expansion (housed instr rfl))
    | some kind =>
      cases instr with
      | marker kind =>
        cases kind with
        | save => exact .save
        | restore => exact .restore
      | _ => cases marked

theorem becomes_rewritten (covers : assignment.Covers code) :
    assignment.Becomes code (assignment.rewritten code) where
  concrete instr member := by
    obtain ⟨source, -, realises⟩ := realises_rewritten covers member
    have none : ∀ reg, reg ∉ instr.virtualOperands := fun reg mentioned =>
      List.not_mem_nil (realises.concrete ▸ mentioned)
    refine ⟨realises.unmarked, fun reg => ⟨fun used => ?_, fun written => ?_⟩⟩
    · exact none reg (mem_virtualOperands_iff.2 (.inl used))
    · exact none reg (mem_virtualOperands_iff.2 (.inr written))
  labels := labels_rewritten assignment code
  pieces := by
    refine ⟨code.items.map (assignment.itemCode (assignment.savedState code)), ?_, rfl⟩
    rw [List.forall₂_map_right_iff, List.forall₂_same]
    intro item listed
    refine rewrites_itemCode fun instr same reg mentioned => ?_
    subst same
    exact covers reg (Section.mem_registers.2 ⟨instr, Section.mem_instructions.2 listed, mentioned⟩)

/-- For every assignment and every section: rewriting succeeds exactly if the section is accepted,
whatever the data, and the result then is the section with every item replaced by its piece. -/
theorem rewriting_exact (assignment : Assignment) (code : Section) (data : List DataItem) :
    ((∃ made, (assignment.apply code data).2 = .ok made) ↔ assignment.Accepts code) ∧
      ∀ made, (assignment.apply code data).2 = .ok made → assignment.Becomes code made := by
  have forwards : ∀ made, (assignment.apply code data).2 = .ok made →
      code.checkMarkers = .ok () ∧ assignment.Covers code := by
    intro made applied
    unfold apply at applied
    split at applied
    · cases applied
    · next marked =>
      obtain ⟨items, expands, -⟩ := map_eq_ok.1 applied
      refine ⟨marked, fun reg member => ?_⟩
      obtain ⟨instr, listed, mentioned⟩ := Section.mem_registers.1 member
      exact covers_of_expandItems expands instr (Section.mem_instructions.1 listed) reg mentioned
  refine ⟨⟨fun ⟨made, applied⟩ => ?_, fun accepts => ?_⟩, fun made applied => ?_⟩
  · obtain ⟨marked, covers⟩ := forwards made applied
    exact ⟨checkMarkers_eq_ok_iff.1 marked, covers_iff.1 covers⟩
  · rw [apply_eq_ok (checkMarkers_eq_ok_iff.2 accepts.markers) (covers_iff.2 accepts.known)]
    exact ⟨_, rfl⟩
  · obtain ⟨marked, covers⟩ := forwards made applied
    rw [apply_eq_ok marked covers] at applied
    cases applied
    exact becomes_rewritten covers

end Assignment

end MipsBackend
