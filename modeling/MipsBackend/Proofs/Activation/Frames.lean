import MipsBackend.Proofs.Activation.Runs
import MipsBackend.Proofs.Lowering.Functions

/-!
# Frames

The prologue stores the frame pointer and the return address in the two words below the stack
pointer, and the save block goes below the local variables. As the words of the frame stay what they
are while the body runs, the restore block and the epilogue bring everything back
(`Activation.transparent`).
-/

namespace MipsBackend

/-! ## Prologue -/

def saveTop (top : Word) (space : Nat) : Word := top - 4 - 4 - .ofNat 32 space

/-- The words that a function stores before its body runs. -/
def frameWords (top : Word) (space : Nat) (saved : SavedState) : List Word :=
  wordsBelow top 2 ++ wordsBelow (saveTop top space) saved.items.length

structure Entered (space : Nat) (before after : Machine) : Prop where
  sp : after.phys .sp = saveTop (before.phys .sp) space
  fp : after.phys .fp = before.phys .sp - 4
  phys : ∀ reg, reg ≠ .sp → reg ≠ .fp → after.phys reg = before.phys reg
  memory : after.memory =
    (before.memory.storeWord (before.phys .sp - 4) (before.phys .fp)).storeWord
      (before.phys .sp - 4 - 4) (before.phys .ra)

namespace Platform

variable (platform : Platform)

theorem perform_reserveCode (bytes : Nat) (machine : Machine) :
    platform.perform machine (reserveCode bytes) =
      machine.write .sp (machine.phys .sp - .ofNat 32 bytes) := by
  unfold reserveCode
  split
  · calc platform.perform machine [.adjustStack (-.ofNat bytes)]
        = machine.write .sp (machine.phys .sp + (-Int32.ofNat bytes).toBitVec) := rfl
      _ = machine.write .sp (machine.phys .sp - .ofNat 32 bytes) := by
        rw [Int32.toBitVec_neg, BitVec.sub_eq_add_neg]
        rfl
  · next none =>
    rw [ofNat_eq_zero_of_wrapped none, BitVec.sub_zero]
    simp [Machine.write]

theorem perform_enterCode (space : Nat) (before : Machine) :
    Entered space before (platform.perform before (enterCode space)) := by
  let pushed := platform.perform before (pushWord .fp)
  let framed := pushed.write .fp (pushed.phys .sp)
  have parts : platform.perform before (enterCode space) =
      platform.perform (platform.perform framed (pushWord .ra)) (reserveCode space) := by
    have code : enterCode space =
        pushWord .fp ++ ([.arithImm .addiu .fp .sp 0] ++ (pushWord .ra ++ reserveCode space)) := rfl
    have aligned : pushed.read .sp + (0 : Int32).toBitVec = pushed.phys .sp := by
      rw [Machine.read_phys, if_neg (by decide)]
      exact BitVec.add_zero _
    rw [code, perform_append, perform_append, perform_append]
    calc platform.perform (platform.perform (platform.perform pushed
            [.arithImm .addiu .fp .sp 0]) (pushWord .ra)) (reserveCode space)
        = platform.perform (platform.perform (pushed.write .fp
            (pushed.read .sp + (0 : Int32).toBitVec)) (pushWord .ra)) (reserveCode space) := rfl
      _ = _ := by rw [aligned]
  have first : pushed = { before.write .sp (before.phys .sp - 4) with
      memory := before.memory.storeWord (before.phys .sp - 4) (before.phys .fp) } :=
    platform.perform_pushWord (by decide) (by decide) before
  rw [parts, perform_reserveCode, perform_pushWord platform (by decide) (by decide)]
  simp only [framed, first]
  refine ⟨?_, ?_, fun reg notSp notFp => ?_, ?_⟩
  · simp [Machine.write, saveTop]
  · simp [Machine.write]
  · simp [Machine.write, notSp, notFp]
  · simp [Machine.write]

end Platform

/-! ## Epilogue -/

/-- What a function does between restoring registers and leaving. -/
def exitCode : List Instr :=
  [.arithImm .addiu .sp .fp 4, .lw .ra (-4) .fp, .lw .fp 0 .fp]

def returnCode : List Instr := exitCode ++ [.jumpReg .ra]

structure Exited (before after : Machine) : Prop where
  sp : after.phys .sp = before.phys .fp + 4
  ra : after.phys .ra = before.memory.word (before.phys .fp - 4)
  fp : after.phys .fp = before.memory.word (before.phys .fp)
  phys : ∀ reg, reg ≠ .sp → reg ≠ .ra → reg ≠ .fp → after.phys reg = before.phys reg
  memory : after.memory = before.memory

theorem Platform.perform_exitCode (platform : Platform) (before : Machine) :
    Exited before (platform.perform before exitCode) := by
  let raised := before.write .sp (before.read .fp + (4 : Int32).toBitVec)
  let linked := raised.write .ra (raised.memory.word (raised.read .fp + (-4 : Int32).toBitVec))
  have parts : platform.perform before exitCode =
      linked.write .fp (linked.memory.word (linked.read .fp + (0 : Int32).toBitVec)) := rfl
  have lower : before.phys .fp + (-4 : Int32).toBitVec = before.phys .fp - 4 :=
    (BitVec.sub_eq_add_neg _ _).symm
  rw [parts]
  refine ⟨?_, ?_, ?_, fun reg notSp notRa notFp => ?_, rfl⟩
  · simp [linked, raised, Machine.write, Machine.read]
  · simpa [linked, raised, Machine.write, Machine.read] using congrArg before.memory.word lower
  · simp [linked, raised, Machine.write, Machine.read]
  · simp [linked, raised, Machine.write, notSp, notRa, notFp]

/-! ## Straight parts -/

theorem isStraight_pushWord (reg : PhysReg) : ∀ instr ∈ pushWord reg, instr.isStraight = true := by
  simp [pushWord, Instr.isStraight, Instr.adjustStack, Instr.sw]

theorem isStraight_popWord (reg : PhysReg) : ∀ instr ∈ popWord reg, instr.isStraight = true := by
  simp [popWord, Instr.isStraight, Instr.adjustStack, Instr.lw]

theorem isStraight_push (item : Saved) : ∀ instr ∈ item.push, instr.isStraight = true := by
  cases item with
  | reg phys => exact isStraight_pushWord phys
  | slot virt =>
    refine List.forall_mem_append.2 ⟨?_, isStraight_pushWord _⟩
    simp [loadSlot, Instr.isStraight, Instr.lw]

theorem isStraight_pop (item : Saved) : ∀ instr ∈ item.pop, instr.isStraight = true := by
  cases item with
  | reg phys => exact isStraight_popWord phys
  | slot virt =>
    refine List.forall_mem_append.2 ⟨isStraight_popWord _, ?_⟩
    simp [storeSlot, Instr.isStraight, Instr.sw]

theorem isStraight_enterSave {space : Nat} {saved : SavedState} :
    ∀ instr ∈ enterCode space ++ saved.save, instr.isStraight = true := by
  rw [SavedState.save_eq]
  refine List.forall_mem_append.2 ⟨List.forall_mem_append.2 ⟨by simp [Instr.isStraight,
    Instr.adjustStack, Instr.sw], fun instr member => ?_⟩, fun instr member => ?_⟩
  · unfold reserveCode at member
    split at member
    · cases List.mem_singleton.1 member
      rfl
    · cases member
  · obtain ⟨item, -, inside⟩ := List.mem_flatMap.1 member
    exact isStraight_push item instr inside

theorem isStraight_restoreExit {saved : SavedState} :
    ∀ instr ∈ saved.restore ++ exitCode, instr.isStraight = true := by
  rw [SavedState.restore_eq]
  refine List.forall_mem_append.2 ⟨fun instr member => ?_, by simp [exitCode, Instr.isStraight,
    Instr.lw]⟩
  obtain ⟨item, -, inside⟩ := List.mem_flatMap.1 member
  exact isStraight_pop item instr inside

/-! ## Whole activations -/

theorem SavedState.mem_items_reg {saved : SavedState} {reg : PhysReg} :
    .reg reg ∈ saved.items ↔ reg ∈ saved.regs := by
  simp [items]

theorem SavedState.mem_items_slot {saved : SavedState} {virt : VReg} :
    .slot virt ∈ saved.items ↔ virt ∈ saved.slots := by
  simp [items]

theorem SavedState.Proper.nodup_items {saved : SavedState} {slots : List VReg}
    (proper : saved.Proper slots) : saved.items.Nodup := by
  have regs : (saved.regs.map Saved.reg).Nodup :=
    proper.distinctRegs.map fun _ _ same => Saved.reg.inj same
  have slots : (saved.slots.map Saved.slot).Nodup :=
    proper.distinctSlots.map fun _ _ same => Saved.slot.inj same
  refine regs.append slots fun item left right => ?_
  obtain ⟨reg, -, rfl⟩ := List.mem_map.1 left
  obtain ⟨virt, -, clash⟩ := List.mem_map.1 right
  cases clash

namespace Activation

variable {activation : Activation} {space : Nat} {top : Word}

theorem Separate.saveArea (separate : activation.Separate)
    (framed : activation.frame = frameWords top space activation.saved)
    (proper : activation.saved.Proper activation.slots) :
    activation.platform.SaveArea (saveTop top space) activation.saved.items := by
  have stack := framed ▸ separate.stack
  have below : ∀ word ∈ wordsBelow (saveTop top space) activation.saved.items.length,
      word ∈ activation.frame := fun word member => framed ▸ List.mem_append_right _ member
  have owned : ∀ virt, .slot virt ∈ activation.saved.items → virt ∈ activation.slots :=
    fun virt member => proper.owned virt (SavedState.mem_items_slot.1 member)
  refine ⟨fun item member => ?_, proper.nodup_items, (List.pairwise_append.1 stack).2.1,
    fun word member virt inside => separate.between word (below word member) virt (owned virt inside),
    fun virt other first second => separate.slots virt (owned virt first) other (owned other second)⟩
  rintro phys rfl
  exact proper.allocatable phys (SavedState.mem_items_reg.1 member)

structure Prepared (activation : Activation) (space : Nat) (before origin : Machine) : Prop where
  sp : origin.phys .sp = stackBelow (saveTop (before.phys .sp) space) activation.saved.items.length
  fp : origin.phys .fp = before.phys .sp - 4
  oldFp : origin.memory.word (before.phys .sp - 4) = before.phys .fp
  oldRa : origin.memory.word (before.phys .sp - 4 - 4) = before.phys .ra
  regs : ∀ reg ∈ PhysReg.allocatable, origin.phys reg = before.phys reg
  slots : ∀ virt ∈ activation.slots, origin.memory.word (activation.platform.slotAt virt) =
    before.memory.word (activation.platform.slotAt virt)
  stored : activation.platform.Stored before origin (saveTop (before.phys .sp) space)
    activation.saved.items

theorem prepared {before : Machine} (separate : activation.Separate)
    (framed : activation.frame = frameWords (before.phys .sp) space activation.saved)
    (proper : activation.saved.Proper activation.slots) :
    activation.Prepared space before
      (activation.platform.perform before (enterCode space ++ activation.saved.save)) := by
  let entered := activation.platform.perform before (enterCode space)
  have enters : Entered space before entered := activation.platform.perform_enterCode space before
  have area := separate.saveArea framed proper
  rw [← enters.sp] at area
  have saves := Platform.perform_save area
  rw [Platform.perform_append, SavedState.save_eq]
  have stack := framed ▸ separate.stack
  obtain ⟨linkage, -, across⟩ := List.pairwise_append.1 stack
  have fpWord : before.phys .sp - 4 ∈ wordsBelow (before.phys .sp) 2 := by simp [wordsBelow]
  have raWord : before.phys .sp - 4 - 4 ∈ wordsBelow (before.phys .sp) 2 := by simp [wordsBelow]
  have apart : WordsApart (before.phys .sp - 4) (before.phys .sp - 4 - 4) :=
    (List.pairwise_cons.1 linkage).1 _ (List.mem_singleton.2 rfl)
  -- The pushed words lie below the linkage and apart from all slots.
  have spared : ∀ word ∈ wordsBelow (before.phys .sp) 2,
      (activation.platform.perform entered (activation.saved.items.flatMap Saved.push)).memory.word
        word = entered.memory.word word :=
    fun word member => saves.memory word (enters.sp ▸ across word member)
  have slotsEntered : ∀ virt ∈ activation.slots,
      entered.memory.word (activation.platform.slotAt virt) =
        before.memory.word (activation.platform.slotAt virt) := by
    intro virt listed
    have away : ∀ word ∈ wordsBelow (before.phys .sp) 2,
        WordsApart (activation.platform.slotAt virt) word := fun word member =>
      (separate.between word (framed ▸ List.mem_append_left _ member) virt listed).symm
    rw [enters.memory, Memory.word_storeWord_of_apart (away _ raWord),
      Memory.word_storeWord_of_apart (away _ fpWord)]
  have regsEntered : ∀ reg ∈ PhysReg.allocatable, entered.phys reg = before.phys reg := by
    intro reg member
    refine enters.phys reg (PhysReg.ne_sp_of_allocatable member) ?_
    rintro rfl
    exact absurd member (by decide)
  refine ⟨by rw [saves.sp, enters.sp], ?_, ?_, ?_, fun reg member => ?_, fun virt listed => ?_, ?_⟩
  · rw [saves.phys .fp (by decide) (by decide), enters.fp]
  · rw [spared _ fpWord, enters.memory, Memory.word_storeWord_of_apart apart, Memory.word_storeWord]
  · rw [spared _ raWord, enters.memory, Memory.word_storeWord]
  · have free : reg ≠ .defScratch := fun same =>
      PhysReg.not_scratch_of_allocatable member (same ▸ by decide)
    rw [saves.phys reg (PhysReg.ne_sp_of_allocatable member) free, regsEntered reg member]
  · rw [saves.memory, slotsEntered virt listed]
    intro pushed member
    refine (separate.between pushed (framed ▸ List.mem_append_right _ ?_) virt listed).symm
    rwa [← enters.sp]
  · rw [← enters.sp]
    refine saves.stored.congr (fun item member => ?_) fun _ _ => rfl
    cases item with
    | reg phys =>
      exact (regsEntered phys
        (proper.allocatable phys (SavedState.mem_items_reg.1 member))).symm
    | slot virt =>
      exact (slotsEntered virt (proper.owned virt (SavedState.mem_items_slot.1 member))).symm

/-- Restore block and epilogue undo what prologue and save block did. -/
theorem Prepared.recover {before origin last : Machine} (separate : activation.Separate)
    (framed : activation.frame = frameWords (before.phys .sp) space activation.saved)
    (proper : activation.saved.Proper activation.slots) (prepared : activation.Prepared space before origin)
    (kept : activation.Kept 0 origin last) :
    (activation.platform.perform last (activation.saved.restore ++ exitCode)).phys .ra =
        before.phys .ra ∧
      activation.platform.Transparent activation.slots before
        (activation.platform.perform last (activation.saved.restore ++ exitCode)) := by
  let restored := activation.platform.perform last activation.saved.restore
  have area := separate.saveArea framed proper
  have level : last.phys .sp =
      stackBelow (saveTop (before.phys .sp) space) activation.saved.items.length :=
    (kept.sp.trans (BitVec.add_zero _)).trans prepared.sp
  have stored : activation.platform.Stored before last (saveTop (before.phys .sp) space)
      activation.saved.items :=
    prepared.stored.congr (fun _ _ => rfl) fun word member =>
      kept.frame word (framed ▸ List.mem_append_right _ member)
  have back := (Platform.perform_restore area level stored).1
  rw [← SavedState.restore_eq] at back
  have exits : Exited restored (activation.platform.perform restored exitCode) :=
    activation.platform.perform_exitCode restored
  rw [Platform.perform_append]
  have linkage : ∀ word ∈ wordsBelow (before.phys .sp) 2,
      restored.memory.word word = origin.memory.word word := by
    intro word member
    have listed : word ∈ activation.frame := framed ▸ List.mem_append_left _ member
    rw [back.memory word fun virt inside => separate.between word listed virt
      (proper.owned virt (SavedState.mem_items_slot.1 inside)), kept.frame word listed]
  have fp : restored.phys .fp = before.phys .sp - 4 := by
    have free : .reg .fp ∉ activation.saved.items := fun member =>
      absurd (proper.allocatable .fp (SavedState.mem_items_reg.1 member)) (by decide)
    rw [back.phys .fp (by decide) (by decide) free, kept.fp, prepared.fp]
  have regs : ∀ reg ∈ PhysReg.allocatable, restored.phys reg = before.phys reg := by
    intro reg member
    by_cases saved : reg ∈ activation.saved.regs
    · exact back.values (.reg reg) (SavedState.mem_items_reg.2 saved)
    · rw [back.phys reg (PhysReg.ne_sp_of_allocatable member)
        (PhysReg.not_scratch_of_allocatable member)
        fun inside => saved (SavedState.mem_items_reg.1 inside),
        kept.regs reg member saved, prepared.regs reg member]
  have slots : ∀ virt ∈ activation.slots, restored.memory.word (activation.platform.slotAt virt) =
      before.memory.word (activation.platform.slotAt virt) := by
    intro virt listed
    by_cases saved : virt ∈ activation.saved.slots
    · exact back.values (.slot virt) (SavedState.mem_items_slot.2 saved)
    · rw [back.memory _ fun other inside => ?_, kept.slots virt listed saved,
        prepared.slots virt listed]
      have owned := SavedState.mem_items_slot.1 inside
      exact separate.slots virt listed other (proper.owned other owned)
        fun same => saved (same ▸ owned)
  refine ⟨?_, ⟨fun reg member => ?_, fun virt listed => ?_⟩, ?_, ?_⟩
  · rw [exits.ra, fp, linkage _ (by simp [wordsBelow]), prepared.oldRa]
  · have special : ∀ other ∈ [PhysReg.sp, .ra, .fp], reg ≠ other := by
      rintro other among rfl
      revert member among
      cases reg <;> decide
    rw [exits.phys reg (special _ (by decide)) (special _ (by decide)) (special _ (by decide)),
      regs reg member]
  · rw [exits.memory, slots virt listed]
  · rw [exits.sp, fp]
    exact BitVec.sub_add_cancel _ _
  · rw [exits.fp, fp, linkage _ (by simp [wordsBelow]), prepared.oldFp]

/-- Every run of an allocated function from its first instruction to its return goes back to the
caller, and changes nothing that the caller relies on. -/
theorem RunsBody.transparent {assignment : Assignment} {source code : Section} {epilogue : Label}
    {body : List TextItem} {start stop : Nat}
    (runs : activation.RunsBody assignment source code epilogue body start stop)
    {before after : Machine} {target : Word}
    (framed : activation.frame = frameWords (before.phys .sp) space activation.saved)
    (starts : start = (enterCode space ++ activation.saved.save).length)
    (enters : code.Holds 0 (enterCode space ++ activation.saved.save))
    (leaves : code.Holds stop (activation.saved.restore ++ returnCode))
    (run : Relation.ReflTransGen (activation.SparingStep code start stop)
      (.inside 0, before) (.outside target, after)) :
    target = before.phys .ra ∧ after.phys .ra = before.phys .ra ∧
      activation.platform.Transparent activation.slots before after := by
  have stepwise : ∀ first last, activation.SparingStep code start stop first last →
      code.Step activation.platform first last := fun _ _ step => step.1
  have prepared := activation.prepared runs.separate framed runs.proper
  obtain ⟨n, counted⟩ := Section.Runs.of_run run
  obtain ⟨_, -, running⟩ := counted.behind_straight stepwise enters isStraight_enterSave
  rw [Nat.zero_add, ← starts] at running
  obtain ⟨_, last, kept, returning⟩ := runs.run_body running
  rw [returnCode, ← List.append_assoc] at leaves
  obtain ⟨holdsLeave, holdsJump⟩ := Section.holds_append.1 leaves
  obtain ⟨_, -, leaving⟩ := returning.behind_straight stepwise holdsLeave isStraight_restoreExit
  obtain ⟨ra, transparent⟩ := prepared.recover runs.separate framed runs.proper kept
  obtain ⟨_, point, final, -, -, changes, goes, ends⟩ := leaving.head stepwise holdsJump.head
  cases goes
  cases changes
  cases ends with
  | none => exact ⟨ra, ra, transparent⟩
  | more step _ => exact absurd step.1 (fun stuck => by cases stuck)

end Activation

end MipsBackend
