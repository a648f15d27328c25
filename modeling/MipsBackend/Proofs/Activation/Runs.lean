import MipsBackend.Proofs.Activation.Bodies
import MipsBackend.Proofs.Activation.SaveBlock
import MipsBackend.Proofs.Assignment.Simulation
import MipsBackend.Proofs.Machine.Execution

/-!
# Runs of bodies

From the end of its save block to the start of its restore block an activation moves the stack
pointer in balance, and keeps the frame pointer, the words of its frame, and all registers and slots
that it has not saved (`Activation.Kept`). Every instruction of the body, with the spill code around
it, keeps them (`Activation.kept_block`), and so does every run of the body (`Activation.run_body`).
-/

namespace MipsBackend

/-- What a section saves: allocatable registers and slots of the program, each once. -/
structure SavedState.Proper (saved : SavedState) (slots : List VReg) : Prop where
  allocatable : ∀ reg ∈ saved.regs, reg ∈ PhysReg.allocatable
  owned : ∀ virt ∈ saved.slots, virt ∈ slots
  distinctRegs : saved.regs.Nodup
  distinctSlots : saved.slots.Nodup

/-- What calling a function leaves as it was. -/
structure Platform.Transparent (platform : Platform) (slots : List VReg) (before after : Machine) :
    Prop extends platform.Keeps slots before after where
  sp : after.phys .sp = before.phys .sp
  fp : after.phys .fp = before.phys .fp

/-- A function that is running. -/
structure Activation where
  platform : Platform
  /-- The spill slots of the program. -/
  slots : List VReg
  saved : SavedState
  /-- The words that the prologue and the save block stored. -/
  frame : List Word

namespace Activation

variable (activation : Activation)

/-- The words of the frame and the slots of the program lie apart from each other. -/
structure Separate : Prop where
  stack : activation.frame.Pairwise WordsApart
  between : ∀ word ∈ activation.frame, ∀ virt ∈ activation.slots,
    WordsApart word (activation.platform.slotAt virt)
  slots : ∀ virt ∈ activation.slots, ∀ other ∈ activation.slots, virt ≠ other →
    WordsApart (activation.platform.slotAt virt) (activation.platform.slotAt other)

structure Kept (move : Word) (before after : Machine) : Prop where
  sp : after.phys .sp = before.phys .sp + move
  fp : after.phys .fp = before.phys .fp
  regs : ∀ reg ∈ PhysReg.allocatable, reg ∉ activation.saved.regs →
    after.phys reg = before.phys reg
  frame : ∀ word ∈ activation.frame, after.memory.word word = before.memory.word word
  slots : ∀ virt ∈ activation.slots, virt ∉ activation.saved.slots →
    after.memory.word (activation.platform.slotAt virt) =
      before.memory.word (activation.platform.slotAt virt)

/-- An instruction of the body writes no word of the frame, and unless it stores a spilled result it
writes no slot that belongs to another section. -/
structure Spares (made : Instr) (before after : Machine) : Prop where
  frame : ∀ word ∈ activation.frame, after.memory.word word = before.memory.word word
  slots : ∀ src, made.stored? = some src → src ≠ .phys .defScratch → ∀ virt ∈ activation.slots,
    virt ∉ activation.saved.slots →
    after.memory.word (activation.platform.slotAt virt) =
      before.memory.word (activation.platform.slotAt virt)

variable {activation}

theorem Kept.refl (machine : Machine) : activation.Kept 0 machine machine :=
  ⟨(BitVec.add_zero _).symm, rfl, fun _ _ _ => rfl, fun _ _ => rfl, fun _ _ _ => rfl⟩

theorem Kept.trans {first second : Word} {before middle after : Machine}
    (left : activation.Kept first before middle) (right : activation.Kept second middle after) :
    activation.Kept (first + second) before after where
  sp := by rw [right.sp, left.sp, BitVec.add_assoc]
  fp := right.fp.trans left.fp
  regs reg member free := (right.regs reg member free).trans (left.regs reg member free)
  frame word member := (right.frame word member).trans (left.frame word member)
  slots virt member free := (right.slots virt member free).trans (left.slots virt member free)

theorem Kept.after_still {move : Word} {before middle after : Machine}
    (left : activation.Kept 0 before middle) (right : activation.Kept move middle after) :
    activation.Kept move before after := by
  have both := left.trans right
  rwa [show 0 + move = move from BitVec.zero_add move] at both

theorem Kept.then_still {move : Word} {before middle after : Machine}
    (left : activation.Kept move before middle) (right : activation.Kept 0 middle after) :
    activation.Kept move before after := by
  have both := left.trans right
  rwa [show move + 0 = move from BitVec.add_zero move] at both

end Activation

/-! ## Instructions -/

namespace Instr

variable {address : Label → Word} {instr : Instr}

theorem phys_apply_change {reg : PhysReg} (other : instr.def? ≠ some (.phys reg))
    (machine : Machine) : (machine.apply (instr.change address machine)).phys reg =
      machine.phys reg := by
  cases change : instr.change address machine with
  | nothing => rfl
  | hiLo hi lo => rfl
  | store op addr value => rfl
  | reg dst value =>
    rw [def?_of_change change] at other
    cases dst with
    | virt dst => rfl
    | phys dst =>
      have distinct : reg ≠ dst := fun same => other (same ▸ rfl)
      rw [Machine.apply, Machine.phys_write_phys, if_neg distinct]

theorem memory_apply_change (plain : instr.stored? = none) (machine : Machine) :
    (machine.apply (instr.change address machine)).memory = machine.memory := by
  cases instr with
  | store => cases plain
  | loadImm dst | loadAddr dst | arithImm _ dst | arith _ dst | moveFrom _ dst | load _ dst =>
    cases dst <;> rfl
  | _ => rfl

theorem sp_apply_change (adjusts : instr.def? = some .sp → ∃ amount, instr = .adjustStack amount)
    (machine : Machine) : (machine.apply (instr.change address machine)).phys .sp =
      machine.phys .sp + instr.stackMove := by
  by_cases writes : instr.def? = some .sp
  · obtain ⟨amount, rfl⟩ := adjusts writes
    rw [stackMove_adjustStack]
    exact (Machine.phys_write_phys ..).trans (if_pos rfl)
  · rw [stackMove_of_def? writes, phys_apply_change writes]
    exact (BitVec.add_zero _).symm

end Instr

namespace Activation

variable {activation : Activation}

theorem kept_instr {made : Instr} {before after : Machine}
    (confined : made.Confined activation.saved)
    (called : ∀ target, made = .call target → activation.platform.called target before after →
      activation.platform.Transparent activation.slots before after)
    (changes : activation.platform.Changes before after made)
    (spares : activation.Spares made before after) :
    activation.Kept made.stackMove before after := by
  cases inside : made.isLocal with
  | true =>
    have same := (Instr.changes_iff inside).1 changes
    refine ⟨?_, ?_, fun reg member free => ?_, spares.frame, fun virt member free => ?_⟩
    · rw [same, Instr.sp_apply_change confined.sp]
    · rw [same, Instr.phys_apply_change confined.fp]
    · rw [same, Instr.phys_apply_change fun writes => free (confined.regs reg member writes)]
    · cases stores : made.stored? with
      | none => rw [same, Instr.memory_apply_change stores]
      | some src =>
        have own : src ≠ .phys .defScratch := fun scratch => confined.stored (scratch ▸ stores)
        exact spares.slots src stores own virt member free
  | false =>
    cases made with
    | syscall => cases confined.stays
    | call target =>
      have transparent := called target rfl changes
      exact ⟨transparent.sp.trans (BitVec.add_zero _).symm, transparent.fp,
        fun reg member _ => transparent.phys reg member, spares.frame,
        fun virt member _ => transparent.word virt member⟩
    | _ => cases inside

theorem kept_loadSlots {pairs : List (VReg × PhysReg)}
    (scratch : (pairs.map Prod.snd).Sublist PhysReg.useScratch) (machine : Machine) :
    activation.Kept 0 machine
      (activation.platform.perform machine (Platform.loadSlots pairs)) := by
  have absent : ∀ reg ∉ PhysReg.useScratch, reg ∉ pairs.map Prod.snd :=
    fun reg other member => other (scratch.subset member)
  obtain ⟨phys, same, others, -⟩ := activation.platform.perform_loadSlots
    (scratch.nodup (by decide)) (absent .zero (by decide)) machine
  rw [same]
  refine ⟨?_, others .fp (absent _ (by decide)), fun reg member _ => others reg (absent _ ?_),
    fun _ _ => rfl, fun _ _ _ => rfl⟩
  · exact (others .sp (absent _ (by decide))).trans (BitVec.add_zero _).symm
  · exact fun spare =>
      PhysReg.not_scratch_of_allocatable member (List.mem_cons_of_mem _ spare)

theorem kept_storeSlot (separate : activation.Separate) {virt : VReg}
    (listed : virt ∈ activation.slots) (owned : virt ∈ activation.saved.slots) (machine : Machine) :
    activation.Kept 0 machine
      (activation.platform.perform machine (storeSlot .defScratch .s6 virt)) := by
  rw [Platform.perform_storeSlot]
  refine ⟨(BitVec.add_zero _).symm, rfl, fun reg member _ => ?_, fun word member => ?_,
    fun other member free => ?_⟩
  · have distinct : reg ≠ .s6 := fun same => absurd (same ▸ member) (by decide)
    exact (Machine.phys_write_phys ..).trans (if_neg distinct)
  · exact Memory.word_storeWord_of_apart (separate.between word member virt listed)
  · have distinct : other ≠ virt := fun same => free (same ▸ owned)
    exact Memory.word_storeWord_of_apart (separate.slots other member virt listed distinct)

/-! ## Blocks -/

/-- A step of the allocated section, of which something may be asked between start and stop. -/
def GuardedStep (activation : Activation) (spares : Instr → Machine → Machine → Prop)
    (code : Section) (start stop : Nat) (first last : Config) : Prop :=
  code.Step activation.platform first last ∧
    ∀ node made, first.1 = .inside node → start ≤ node → node < stop →
      code.instructions[node]? = some made → spares made first.2 last.2

def SparingStep (activation : Activation) : Section → Nat → Nat → Config → Config → Prop :=
  activation.GuardedStep activation.Spares

/-- The code between start and stop is the allocated body of a function. -/
structure RunsBody (activation : Activation) (assignment : Assignment) (source code : Section)
    (epilogue : Label) (body : List TextItem) (start stop : Nat) : Prop where
  saved : activation.saved = assignment.savedState source
  proper : activation.saved.Proper activation.slots
  allocatable : assignment.Allocatable
  covers : assignment.Covers source
  inside : ∀ instr, .instr instr ∈ body → instr.InBody
  listed : ∀ instr, .instr instr ∈ body → instr ∈ source.instructions
  level : Level [epilogue] body
  labelled : code.Labelled
  placed : ∃ behind, code.Places start
    (body.flatMap (assignment.itemCode activation.saved) ++ .label epilogue :: behind)
  ends : stop = start + instrCount (body.flatMap (assignment.itemCode activation.saved))
  separate : activation.Separate
  called : ∀ target, .call target ∈ code.instructions → ∀ before after,
    activation.platform.called target before after →
    activation.platform.Transparent activation.slots before after

namespace RunsBody

variable {assignment : Assignment} {source code : Section} {epilogue : Label}
  {body : List TextItem} {start stop : Nat}

theorem kept_storeBack
    (runs : activation.RunsBody assignment source code epilogue body start stop) {instr : Instr}
    (listed : instr ∈ source.instructions) (machine : Machine) :
    activation.Kept 0 machine
      (activation.platform.perform machine (assignment.storeBack instr)) := by
  unfold Assignment.storeBack
  cases writes : instr.virtualDef? with
  | none => exact .refl machine
  | some reg =>
    have mentioned : reg ∈ source.registers :=
      Section.mem_registers.2 ⟨instr, listed, List.mem_append_right _ (by simp [writes])⟩
    by_cases home : assignment.home? reg = some .slot
    · simp only [home, if_true]
      have owned : reg ∈ activation.saved.slots := by
        rw [runs.saved]
        exact Assignment.mem_slots.2 ⟨mentioned, (Assignment.home?_eq_slot_iff.1 home).2⟩
      exact kept_storeSlot runs.separate (runs.proper.owned reg owned) owned machine
    · simp only [home, if_false]
      exact .refl machine

/-- A run that stands in front of the code of an instruction performs this code and goes on behind
it, or at the label that the instruction branches to. -/
theorem kept_block
    (runs : activation.RunsBody assignment source code epilogue body start stop) {instr : Instr}
    (member : .instr instr ∈ body) {node n : Nat} {machine after : Machine} {target : Word}
    (holds : code.Holds node (assignment.expansion instr)) (from_start : start ≤ node)
    (below : node + (assignment.expansion instr).length ≤ stop)
    (run : Section.Runs (activation.SparingStep code start stop) n (.inside node, machine)
      (.outside target, after)) :
    ∃ rest succ middle, rest < n ∧ activation.Kept instr.stackMove machine middle ∧
      Section.Runs (activation.SparingStep code start stop) rest (.inside succ, middle)
        (.outside target, after) ∧
      (succ = node + (assignment.expansion instr).length ∨
        ∃ label, instr.branchTarget? = some label ∧
          labelledNode? label 0 code.items = some succ) := by
  let loads := Platform.loadSlots (assignment.spilledUses instr)
  let made := instr.mapRegisters (assignment.place instr)
  let back := assignment.storeBack instr
  have listed := runs.listed instr member
  have inside := runs.inside instr member
  have stepwise : ∀ first last, activation.SparingStep code start stop first last →
      code.Step activation.platform first last := fun _ _ step => step.1
  have parts : assignment.expansion instr = loads ++ made :: back := rfl
  have count : (assignment.expansion instr).length = loads.length + (back.length + 1) := by
    rw [parts, List.length_append, List.length_cons]
  rw [parts] at holds
  obtain ⟨holdsLoads, holdsRest⟩ := Section.holds_append.1 holds
  obtain ⟨k, rfl, loaded⟩ := run.behind_straight stepwise holdsLoads Platform.isStraight_loadSlots
  obtain ⟨rest, point, middle, rfl, step, changes, goes, later⟩ :=
    loaded.head stepwise holdsRest.head
  have confined : made.Confined activation.saved :=
    runs.saved ▸ Assignment.confined_mapRegisters runs.allocatable runs.covers listed inside
  have spares := step.2 _ made rfl (by omega) (by omega) holdsRest.head
  have keptLoads := @kept_loadSlots activation _ (assignment.map_snd_spilledUses instr) machine
  have keptMade := kept_instr confined (fun target same called => runs.called target
    (same ▸ List.mem_of_getElem? holdsRest.head) _ _ called) changes spares
  rw [Assignment.stackMove_mapRegisters runs.allocatable runs.covers listed inside] at keptMade
  have kept := keptLoads.after_still keptMade
  cases way : made.control (activation.platform.perform machine loads) with
  | next =>
    rw [way] at goes
    cases goes
    obtain ⟨left, rfl, behind⟩ := later.behind_straight stepwise holdsRest.tail
      (assignment.isStraight_storeBack instr)
    have whole := kept.then_still (runs.kept_storeBack listed middle)
    exact ⟨left, _, _, by omega, whole, behind, .inl (by omega)⟩
  | goto label =>
    rw [way] at goes
    obtain ⟨succ, stands, rfl⟩ := Option.map_eq_some_iff.1 goes
    have branches := Instr.branchTarget?_of_control way
    rw [Instr.branchTarget?_mapRegisters] at branches
    exact ⟨rest, succ, middle, by omega, kept, later, .inr ⟨label, branches, stands⟩⟩
  | leave address => exact absurd way (Instr.control_ne_leave confined.stays _ address)

theorem places_item
    (runs : activation.RunsBody assignment source code epilogue body start stop)
    {front rest : List TextItem} {item : TextItem} (split : body = front ++ item :: rest) :
    ∃ behind, code.Places
      (start + instrCount (front.flatMap (assignment.itemCode activation.saved)))
      (assignment.itemCode activation.saved item ++ behind) := by
  obtain ⟨behind, placed⟩ := runs.placed
  rw [split, List.flatMap_append, List.append_assoc] at placed
  have here := placed.right
  rw [List.flatMap_cons, List.append_assoc] at here
  exact ⟨_, here⟩

theorem node_of_label
    (runs : activation.RunsBody assignment source code epilogue body start stop)
    {front rest : List TextItem} {label : Label} (split : body = front ++ .label label :: rest) :
    labelledNode? label 0 code.items =
      some (start + instrCount (front.flatMap (assignment.itemCode activation.saved))) := by
  obtain ⟨behind, placed⟩ := runs.places_item split
  exact runs.labelled.node_of_places placed

theorem node_of_epilogue
    (runs : activation.RunsBody assignment source code epilogue body start stop) :
    labelledNode? epilogue 0 code.items = some stop := by
  obtain ⟨behind, placed⟩ := runs.placed
  rw [runs.labelled.node_of_places placed.right, runs.ends]

/-- A run from any place in the body on comes to its end, with everything kept. The level of the
place tells where the stack pointer is there. -/
theorem run_from
    (runs : activation.RunsBody assignment source code epilogue body start stop)
    {origin after : Machine} {target : Word} (n : Nat) {front rest : List TextItem}
    (split : body = front ++ rest) {machine : Machine}
    (kept : activation.Kept (stackMove front) origin machine)
    (run : Section.Runs (activation.SparingStep code start stop) n
      (.inside (start + instrCount (front.flatMap (assignment.itemCode activation.saved))), machine)
      (.outside target, after)) :
    ∃ left last, activation.Kept 0 origin last ∧
      Section.Runs (activation.SparingStep code start stop) left (.inside stop, last)
        (.outside target, after) := by
  induction n using Nat.strong_induction_on generalizing front rest machine with
  | h n shorter =>
    induction rest generalizing front with
    | nil =>
      rw [List.append_nil] at split
      rw [← split, ← runs.ends] at run
      rw [← split, runs.level.whole] at kept
      exact ⟨n, machine, kept, run⟩
    | cons item rest behind =>
      have next : body = (front ++ [item]) ++ rest := by
        rw [split, List.append_assoc, List.singleton_append]
      cases item with
      | label here =>
        refine behind next ?_ ?_
        · simpa [TextItem.stackMove] using kept
        · simpa [Assignment.itemCode] using run
      | comment text =>
        refine behind next ?_ ?_
        · simpa [TextItem.stackMove] using kept
        · simpa [Assignment.itemCode] using run
      | instr instr =>
        have member : .instr instr ∈ body := split ▸ List.mem_append_right _ List.mem_cons_self
        have block := assignment.itemCode_of_unmarked activation.saved
          (runs.inside instr member).unmarked
        obtain ⟨_, placed⟩ := runs.places_item split
        have whole : start + instrCount (front.flatMap (assignment.itemCode activation.saved)) +
            (assignment.expansion instr).length ≤ stop := by
          rw [runs.ends, split, List.flatMap_append, List.flatMap_cons, block, instrCount_append,
            instrCount_append, instrCount_map]
          omega
        rw [block] at placed
        obtain ⟨left, succ, middle, less, moved, later, reached⟩ := runs.kept_block member
          placed.left.holds (Nat.le_add_right _ _) whole run
        rcases reached with rfl | ⟨label, branches, stands⟩
        · have advanced : activation.Kept (stackMove (front ++ [.instr instr])) origin middle := by
            simpa [TextItem.stackMove] using kept.trans moved
          refine shorter left less next advanced ?_
          rw [List.flatMap_append, List.flatMap_singleton, block, instrCount_append,
            instrCount_map, ← Nat.add_assoc]
          exact later
        · have still : instr.stackMove = 0 := Instr.stackMove_of_branchTarget? branches
          rw [still] at moved
          have level : (stackMove front, .instr instr) ∈ levels 0 body :=
            mem_levels.2 ⟨front, rest, split, (BitVec.zero_add _).symm⟩
          rcases runs.level.branches 0 _ instr label level branches with ⟨outer, start⟩ | own
          · obtain rfl := List.mem_singleton.1 outer
            obtain rfl := Option.some.inj (runs.node_of_epilogue.symm.trans stands)
            exact ⟨left, middle, start ▸ kept.then_still moved, later⟩
          · obtain ⟨before, others, found, same⟩ := mem_levels.1 own
            obtain rfl := Option.some.inj ((runs.node_of_label found).symm.trans stands)
            rw [same] at kept
            refine shorter left less found ?_ later
            have whole := kept.then_still moved
            rwa [show 0 + stackMove before = stackMove before from BitVec.zero_add _] at whole

theorem run_body
    (runs : activation.RunsBody assignment source code epilogue body start stop)
    {n : Nat} {origin after : Machine} {target : Word}
    (run : Section.Runs (activation.SparingStep code start stop) n (.inside start, origin)
      (.outside target, after)) :
    ∃ left last, activation.Kept 0 origin last ∧
      Section.Runs (activation.SparingStep code start stop) left (.inside stop, last)
        (.outside target, after) :=
  @run_from _ _ _ _ _ _ _ _ runs _ _ _ n [] body rfl origin (.refl origin) run

end RunsBody

end Activation

end MipsBackend
