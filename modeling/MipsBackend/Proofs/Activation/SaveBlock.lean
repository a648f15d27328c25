import MipsBackend.Proofs.Assignment.Traffic

/-!
# The save block

What a section saves at its first marker it puts word by word on the stack, and takes back in the
opposite order at its second one. If the words on the stack stay as they are in between, every saved
register and slot gets its old value back (`perform_restore`).
-/

namespace MipsBackend

/-! ## Words -/

def WordsApart (first second : Word) : Prop := ∀ byte ∈ wordAt first, byte ∉ wordAt second

instance (first second : Word) : Decidable (WordsApart first second) :=
  List.decidableBAll (· ∉ wordAt second) (wordAt first)

theorem WordsApart.symm {first second : Word} (apart : WordsApart first second) :
    WordsApart second first :=
  fun byte inside other => apart byte other inside

theorem Memory.word_storeWord_of_apart {memory : Memory} {addr value word : Word}
    (apart : WordsApart word addr) : (memory.storeWord addr value).word word = memory.word word :=
  word_congr fun byte inside => storeWord_of_not_mem (apart byte inside)

/-- The words that lie directly below an address, from the top down. -/
def wordsBelow (top : Word) : Nat → List Word
  | 0 => []
  | n + 1 => (top - 4) :: wordsBelow (top - 4) n

/-- Where the stack pointer is behind so many pushes. -/
def stackBelow (top : Word) : Nat → Word
  | 0 => top
  | n + 1 => stackBelow (top - 4) n

/-! ## Saved items -/

inductive Saved where
  | reg (phys : PhysReg)
  | slot (virt : VReg)
deriving DecidableEq

namespace Saved

def push : Saved → List Instr
  | .reg phys => pushWord phys
  | .slot virt => loadSlot .defScratch virt ++ pushWord .defScratch

def pop : Saved → List Instr
  | .reg phys => popWord phys
  | .slot virt => popWord .defScratch ++ storeSlot .defScratch .s6 virt

def value (platform : Platform) (machine : Machine) : Saved → Word
  | .reg phys => machine.phys phys
  | .slot virt => machine.memory.word (platform.slotAt virt)

def Fits (item : Saved) : Prop := ∀ phys, item = .reg phys → phys ∈ PhysReg.allocatable

end Saved

namespace SavedState

/-- All that is saved, in the order of saving. -/
def items (state : SavedState) : List Saved := state.regs.map .reg ++ state.slots.map .slot

theorem save_eq (state : SavedState) : state.save = state.items.flatMap Saved.push := by
  rw [items, List.flatMap_append, List.flatMap_map, List.flatMap_map]
  rfl

theorem restore_eq (state : SavedState) : state.restore = state.items.reverse.flatMap Saved.pop := by
  rw [items, List.reverse_append, List.flatMap_append, ← List.map_reverse, ← List.map_reverse,
    List.flatMap_map, List.flatMap_map]
  rfl

end SavedState

/-! ## Single items -/

namespace PhysReg

theorem ne_sp_of_allocatable {reg : PhysReg} (member : reg ∈ allocatable) : reg ≠ sp := by
  rintro rfl
  revert member
  decide

end PhysReg

namespace Platform

variable (platform : Platform) {before : Machine}

theorem perform_pushWord {src : PhysReg} (nonzero : src ≠ .zero) (other : src ≠ .sp)
    (before : Machine) :
    platform.perform before (pushWord src) =
      { before.write .sp (before.phys .sp - 4) with
        memory := before.memory.storeWord (before.phys .sp - 4) (before.phys src) } := by
  let moved := before.write .sp (before.phys .sp - 4)
  have lowered : before.phys .sp + (-4 : Int32).toBitVec = before.phys .sp - 4 :=
    (BitVec.sub_eq_add_neg _ _).symm
  have addr : moved.read .sp + (0 : Int32).toBitVec = before.phys .sp - 4 := by
    rw [Machine.read_phys, if_neg (by decide), Machine.phys_write_phys, if_pos rfl]
    exact BitVec.add_zero _
  have value : moved.read (.phys src) = before.phys src := by
    rw [Machine.read_phys, if_neg nonzero, Machine.phys_write_phys, if_neg other]
  calc platform.perform before (pushWord src)
      = platform.perform (before.write .sp (before.phys .sp + (-4 : Int32).toBitVec))
          [.sw (.phys src) 0 .sp] := rfl
    _ = platform.perform moved [.sw (.phys src) 0 .sp] := by rw [lowered]
    _ = { moved with
          memory := moved.memory.storeWord (moved.read .sp + (0 : Int32).toBitVec)
            (moved.read (.phys src)) } := rfl
    _ = _ := by rw [addr, value]; rfl

theorem perform_popWord {dst : PhysReg} (other : dst ≠ .sp) (before : Machine) :
    platform.perform before (popWord dst) =
      (before.write (.phys dst) (before.memory.word (before.phys .sp))).write .sp
        (before.phys .sp + 4) := by
  let loaded := before.write (.phys dst) (before.memory.word (before.phys .sp + (0 : Int32).toBitVec))
  have top : loaded.read .sp = before.phys .sp := by
    rw [Machine.read_phys, if_neg (by decide), Machine.phys_write_phys, if_neg (Ne.symm other)]
  calc platform.perform before (popWord dst)
      = loaded.write .sp (loaded.read .sp + (4 : Int32).toBitVec) := rfl
    _ = _ := by
      rw [top]
      simp only [loaded]
      rw [show before.phys .sp + (0 : Int32).toBitVec = before.phys .sp from BitVec.add_zero _]
      rfl

/-- One item goes on top of the stack. -/
structure Pushes (before after : Machine) (item : Saved) : Prop where
  sp : after.phys .sp = before.phys .sp - 4
  phys : ∀ reg, reg ≠ .sp → reg ≠ .defScratch → after.phys reg = before.phys reg
  memory : after.memory =
    before.memory.storeWord (before.phys .sp - 4) (item.value platform before)

theorem perform_push {item : Saved} (fits : item.Fits) (before : Machine) :
    platform.Pushes before (platform.perform before item.push) item := by
  cases item with
  | reg phys =>
    have member := fits phys rfl
    rw [Saved.push, perform_pushWord platform (PhysReg.ne_zero_of_allocatable member)
      (PhysReg.ne_sp_of_allocatable member)]
    refine ⟨?_, fun other notSp _ => ?_, rfl⟩
    · simp [Machine.write]
    · simp [Machine.write, notSp]
  | slot virt =>
    rw [Saved.push, perform_append, perform_loadSlot platform _ (by decide),
      perform_pushWord platform (by decide) (by decide)]
    refine ⟨?_, fun other notSp notScratch => ?_, ?_⟩
    · simp [Machine.write, PhysReg.defScratch]
    · simp [Machine.write, notSp, notScratch]
    · simp [Machine.write, Saved.value, PhysReg.defScratch]

/-- One item comes back from the top of the stack. -/
structure Pops (before after : Machine) (item : Saved) : Prop where
  sp : after.phys .sp = before.phys .sp + 4
  value : item.value platform after = before.memory.word (before.phys .sp)
  phys : ∀ reg, reg ≠ .sp → reg ∉ PhysReg.scratch → item ≠ .reg reg →
    after.phys reg = before.phys reg
  memory : ∀ word, (∀ reg, item = .slot reg → WordsApart word (platform.slotAt reg)) →
    after.memory.word word = before.memory.word word

theorem perform_pop {item : Saved} (fits : item.Fits) (before : Machine) :
    platform.Pops before (platform.perform before item.pop) item := by
  cases item with
  | reg phys =>
    have notSp := PhysReg.ne_sp_of_allocatable (fits phys rfl)
    rw [Saved.pop, perform_popWord platform notSp]
    refine ⟨?_, ?_, fun other ne _ distinct => ?_, fun _ _ => rfl⟩
    · simp [Machine.write]
    · simp [Machine.write, Saved.value, notSp]
    · have differs : other ≠ phys := fun same => distinct (same ▸ rfl)
      simp [Machine.write, ne, differs]
  | slot virt =>
    rw [Saved.pop, perform_append, perform_popWord platform (by decide), perform_storeSlot]
    refine ⟨?_, ?_, fun other ne free _ => ?_, fun word apart => ?_⟩
    · simp [Machine.write]
    · simp [Machine.write, Saved.value, PhysReg.defScratch]
    · simp only [PhysReg.scratch, PhysReg.useScratch, List.mem_cons, List.not_mem_nil, or_false,
        not_or] at free
      simp [Machine.write, ne, free]
    · exact Memory.word_storeWord_of_apart (apart virt rfl)

/-! ## All items -/

/-- The words of the save block lie apart from each other and from the slots whose values they
keep. -/
structure SaveArea (top : Word) (items : List Saved) : Prop where
  fits : ∀ item ∈ items, item.Fits
  distinct : items.Nodup
  stack : (wordsBelow top items.length).Pairwise WordsApart
  between : ∀ word ∈ wordsBelow top items.length, ∀ virt, .slot virt ∈ items →
    WordsApart word (platform.slotAt virt)
  slots : ∀ virt other, .slot virt ∈ items → .slot other ∈ items → virt ≠ other →
    WordsApart (platform.slotAt virt) (platform.slotAt other)

variable {platform}

theorem SaveArea.tail {top : Word} {item : Saved} {rest : List Saved}
    (area : platform.SaveArea top (item :: rest)) : platform.SaveArea (top - 4) rest where
  fits other member := area.fits other (List.mem_cons_of_mem _ member)
  distinct := (List.nodup_cons.1 area.distinct).2
  stack := (List.pairwise_cons.1 area.stack).2
  between word member virt inside :=
    area.between word (List.mem_cons_of_mem _ member) virt (List.mem_cons_of_mem _ inside)
  slots virt other first second :=
    area.slots virt other (List.mem_cons_of_mem _ first) (List.mem_cons_of_mem _ second)

/-- The words below an address hold what the items were in another machine. -/
inductive Stored (platform : Platform) (origin machine : Machine) : Word → List Saved → Prop
  | nil {top : Word} : Stored platform origin machine top []
  | cons {top : Word} {item : Saved} {rest : List Saved}
      (here : machine.memory.word (top - 4) = item.value platform origin)
      (below : Stored platform origin machine (top - 4) rest) :
      Stored platform origin machine top (item :: rest)

theorem Stored.congr {origin other machine after : Machine} {top : Word} {items : List Saved}
    (stored : platform.Stored origin machine top items)
    (values : ∀ item ∈ items, item.value platform other = item.value platform origin)
    (words : ∀ word ∈ wordsBelow top items.length, after.memory.word word = machine.memory.word word) :
    platform.Stored other after top items := by
  induction stored with
  | nil => exact .nil
  | cons here below ih =>
    refine .cons ?_ (ih (fun item member => values item (List.mem_cons_of_mem _ member))
      fun word member => words word (List.mem_cons_of_mem _ member))
    rw [words _ List.mem_cons_self, here, values _ List.mem_cons_self]

structure Saves (platform : Platform) (items : List Saved) (before after : Machine) : Prop where
  sp : after.phys .sp = stackBelow (before.phys .sp) items.length
  phys : ∀ reg, reg ≠ .sp → reg ≠ .defScratch → after.phys reg = before.phys reg
  stored : platform.Stored before after (before.phys .sp) items
  memory : ∀ word, (∀ pushed ∈ wordsBelow (before.phys .sp) items.length,
    WordsApart word pushed) → after.memory.word word = before.memory.word word

theorem perform_save {items : List Saved} {before : Machine}
    (area : platform.SaveArea (before.phys .sp) items) :
    platform.Saves items before (platform.perform before (items.flatMap Saved.push)) := by
  induction items generalizing before with
  | nil => exact ⟨rfl, fun _ _ _ => rfl, .nil, fun _ _ => rfl⟩
  | cons item rest ih =>
    have pushes := platform.perform_push (area.fits item List.mem_cons_self) before
    rw [List.flatMap_cons, perform_append]
    let middle := platform.perform before item.push
    have tail : platform.SaveArea (middle.phys .sp) rest := pushes.sp ▸ area.tail
    have saves := ih tail
    have stack := List.pairwise_cons.1 area.stack
    have kept : ∀ word, WordsApart word (before.phys .sp - 4) →
        middle.memory.word word = before.memory.word word := by
      intro word apart
      rw [pushes.memory]
      exact Memory.word_storeWord_of_apart apart
    have same : ∀ other ∈ rest, other.value platform middle = other.value platform before := by
      intro other member
      cases other with
      | reg phys =>
        have allocatable := area.fits _ (List.mem_cons_of_mem _ member) phys rfl
        refine pushes.phys phys (PhysReg.ne_sp_of_allocatable allocatable) ?_
        rintro rfl
        exact absurd allocatable (by decide)
      | slot virt =>
        exact kept _ (area.between _ List.mem_cons_self virt (List.mem_cons_of_mem _ member)).symm
    have first : (platform.perform middle (rest.flatMap Saved.push)).memory.word
        (before.phys .sp - 4) = item.value platform before := by
      rw [saves.memory _ (pushes.sp ▸ stack.1), pushes.memory, Memory.word_storeWord]
    refine ⟨saves.sp.trans (by rw [pushes.sp]; rfl), fun reg notSp notScratch => ?_, ?_,
      fun word apart => ?_⟩
    · rw [saves.phys reg notSp notScratch, pushes.phys reg notSp notScratch]
    · refine .cons first ?_
      rw [← pushes.sp]
      exact saves.stored.congr (fun other member => (same other member).symm) fun _ _ => rfl
    · rw [saves.memory word fun pushed member =>
          apart pushed (List.mem_cons_of_mem _ (pushes.sp ▸ member)),
        kept word (apart _ List.mem_cons_self)]

structure Restores (platform : Platform) (items : List Saved) (origin before after : Machine) :
    Prop where
  values : ∀ item ∈ items, item.value platform after = item.value platform origin
  phys : ∀ reg, reg ≠ .sp → reg ∉ PhysReg.scratch → .reg reg ∉ items →
    after.phys reg = before.phys reg
  memory : ∀ word, (∀ virt, .slot virt ∈ items → WordsApart word (platform.slotAt virt)) →
    after.memory.word word = before.memory.word word

/-- Taking back what the save block holds brings every item back to its value. -/
theorem perform_restore {items : List Saved} {top : Word} {origin before : Machine}
    (area : platform.SaveArea top items) (sp : before.phys .sp = stackBelow top items.length)
    (stored : platform.Stored origin before top items) :
    platform.Restores items origin before
        (platform.perform before (items.reverse.flatMap Saved.pop)) ∧
      (platform.perform before (items.reverse.flatMap Saved.pop)).phys .sp = top := by
  induction items generalizing top with
  | nil => exact ⟨⟨fun _ member => (nomatch member), fun _ _ _ _ => rfl, fun _ _ => rfl⟩, sp⟩
  | cons item rest ih =>
    cases stored with
    | cons here below =>
      obtain ⟨restores, lower⟩ := ih area.tail sp below
      let middle := platform.perform before (rest.reverse.flatMap Saved.pop)
      have pops := platform.perform_pop (area.fits item List.mem_cons_self) middle
      have popped : middle.memory.word (top - 4) = item.value platform origin := by
        rw [restores.memory _ fun virt member =>
          area.between _ List.mem_cons_self virt (List.mem_cons_of_mem _ member), here]
      have behind : platform.perform before ((item :: rest).reverse.flatMap Saved.pop) =
          platform.perform middle item.pop := by
        rw [List.reverse_cons, List.flatMap_append, perform_append, List.flatMap_singleton]
      rw [behind]
      refine ⟨⟨fun other member => ?_, fun reg notSp free missing => ?_, fun word apart => ?_⟩, ?_⟩
      · rcases List.mem_cons.1 member with rfl | later
        · rw [pops.value, lower, popped]
        · rw [← restores.values other later]
          have differs : item ≠ other :=
            fun same => (List.nodup_cons.1 area.distinct).1 (same ▸ later)
          cases other with
          | reg phys =>
            have allocatable := area.fits _ member phys rfl
            exact pops.phys phys (PhysReg.ne_sp_of_allocatable allocatable)
              (PhysReg.not_scratch_of_allocatable allocatable) differs
          | slot virt =>
            refine pops.memory _ fun first same => ?_
            subst same
            refine area.slots virt first member List.mem_cons_self ?_
            rintro rfl
            exact differs rfl
      · rw [pops.phys reg notSp free fun same => missing (same ▸ List.mem_cons_self),
          restores.phys reg notSp free fun later => missing (List.mem_cons_of_mem _ later)]
      · rw [pops.memory word fun virt same => apart virt (same ▸ List.mem_cons_self),
          restores.memory word fun virt later => apart virt (List.mem_cons_of_mem _ later)]
      · rw [pops.sp, lower]
        exact BitVec.sub_add_cancel top 4

end Platform

end MipsBackend
