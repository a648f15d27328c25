import MipsBackend.Proofs.Assignment.Traffic
import MipsBackend.Proofs.Machine.Renaming

/-!
# What spill code achieves

Loads bring the spilled operands of an instruction to where it now reads them (`Related.load`). The
instruction, with the store behind it, brings its result home (`Related.settle`).
-/

namespace MipsBackend

namespace Assignment

variable {assignment : Assignment} {platform : Platform} {code : Section} {graph : FlowGraph}
  {node : Nat} {instr : Instr}

/-! ## Operands -/

theorem Related.read_usePlace {source loaded : Machine} (sound : assignment.Sound code graph)
    (built : code.flowGraph = .ok graph) (free : code.NamesNoReserved)
    (here : code.instructions[node]? = some instr)
    (related : assignment.Related platform code graph (.inside node) source loaded)
    (words : ∀ reg scratch, (reg, scratch) ∈ assignment.spilledUses instr →
      loaded.phys scratch = loaded.memory.word (platform.slotAt reg))
    {reg : Reg} (used : reg ∈ instr.uses) :
    loaded.read (assignment.usePlace instr reg) = source.read reg := by
  cases reg with
  | phys reg =>
    have outside : reg ∉ PhysReg.reserved :=
      fun member => (free instr (List.mem_of_getElem? here) reg member).1 used
    simp only [usePlace, Machine.read_phys, related.agrees.phys reg outside]
  | virt reg =>
    have read : reg ∈ instr.virtualUses := mem_virtuals.2 used
    have live : (Point.inside node).Live graph reg :=
      .read ((Section.instr?_flowGraph built node).trans here) read
    have value := related.values reg live
    cases home : assignment.home? reg with
    | none => simp [valueIn, home] at value
    | some found =>
      cases found with
      | reg found =>
        have allocatable := sound.allocatable reg found home
        rw [valueIn_reg home] at value
        simp only [usePlace, home]
        rw [Machine.read_phys, if_neg (PhysReg.ne_zero_of_allocatable allocatable)]
        exact Option.some.inj value
      | slot =>
        obtain ⟨taken, found, member⟩ := lookup_spilledUses read home
        have nonzero : taken ≠ .zero := by
          have among : taken ∈ PhysReg.useScratch :=
            (assignment.map_snd_spilledUses instr).subset (List.mem_map_of_mem member)
          exact fun same => absurd (same ▸ among) (by decide)
        rw [valueIn_slot home] at value
        simp only [usePlace, home, found, Option.map_some, Option.getD_some]
        rw [Machine.read_phys, if_neg nonzero]
        exact (words reg taken member).trans (Option.some.inj value)

theorem Related.load {source target : Machine} (sound : assignment.Sound code graph)
    (built : code.flowGraph = .ok graph) (free : code.NamesNoReserved)
    (here : code.instructions[node]? = some instr)
    (related : assignment.Related platform code graph (.inside node) source target) :
    assignment.Related platform code graph (.inside node) source
        (platform.perform target (Platform.loadSlots (assignment.spilledUses instr))) ∧
      ∀ reg ∈ instr.uses,
        (platform.perform target (Platform.loadSlots (assignment.spilledUses instr))).read
          (assignment.usePlace instr reg) = source.read reg := by
  have scratch := assignment.map_snd_spilledUses instr
  have listed : ∀ other ∈ (assignment.spilledUses instr).map Prod.snd, other ∈ PhysReg.scratch :=
    fun other member => List.mem_cons_of_mem _ (scratch.subset member)
  have distinct : ((assignment.spilledUses instr).map Prod.snd).Nodup :=
    scratch.nodup (by decide)
  have nonzero : PhysReg.zero ∉ (assignment.spilledUses instr).map Prod.snd :=
    fun member => absurd (listed _ member) (by decide)
  obtain ⟨phys, same, others, words⟩ := platform.perform_loadSlots distinct nonzero target
  have kept : ∀ other, other ∉ PhysReg.scratch → phys other = target.phys other :=
    fun other outside => others other fun member => outside (listed other member)
  have keeps : platform.Keeps (assignment.slots code) target { target with phys } :=
    ⟨fun other member => kept other (PhysReg.not_scratch_of_allocatable member), fun _ _ => rfl⟩
  have loaded : assignment.Related platform code graph (.inside node) source
      { target with phys } := by
    refine ⟨⟨fun other outside => ?_, related.agrees.hi, related.agrees.lo,
      related.agrees.memory⟩, fun reg alive => ?_⟩
    · have unused : other ∉ PhysReg.scratch :=
        fun member => outside (PhysReg.mem_reserved.2 (.inr member))
      exact (kept other unused).trans (related.agrees.phys other outside)
    · rw [valueIn_keeps sound keeps (mem_slots_of_live built alive)]
      exact related.values reg alive
  rw [same]
  exact ⟨loaded, fun reg used => loaded.read_usePlace sound built free here words used⟩

/-! ## Results -/

theorem Related.settle_plain {source loaded : Machine} {point : Point}
    (sound : assignment.Sound code graph) (built : code.flowGraph = .ok graph)
    (related : assignment.Related platform code graph (.inside node) source loaded)
    {change : Change}
    (unreserved : ∀ dst value, change = .reg dst value → ∃ reg ∉ PhysReg.reserved, dst = .phys reg)
    (spared : ∀ op addr value, change = .store op addr value →
      ∀ byte ∈ op.writes addr, ∀ reg ∈ assignment.slots code, byte ∉ platform.slotBytes reg)
    (live : ∀ reg, point.Live graph reg → graph.LiveBefore reg node) :
    assignment.Related platform code graph point (source.apply change)
      (loaded.apply (change.rename assignment.defPlace)) := by
  have unnamed : change.rename assignment.defPlace = change := by
    cases change with
    | reg dst value =>
      obtain ⟨reg, -, rfl⟩ := unreserved dst value rfl
      rfl
    | _ => rfl
  have untouched : (source.apply change).virt = source.virt := by
    cases change with
    | reg dst value =>
      obtain ⟨reg, -, rfl⟩ := unreserved dst value rfl
      rfl
    | _ => rfl
  rw [unnamed]
  refine ⟨related.agrees.apply unreserved, fun reg alive => ?_⟩
  have keeps := @Platform.Keeps.apply platform _ loaded _ unreserved spared
  have before : (Point.inside node).Live graph reg := live reg alive
  rw [untouched, valueIn_keeps sound keeps (mem_slots_of_live built before)]
  exact related.values reg before

theorem Related.settle_reg {source loaded : Machine} {point : Point}
    (sound : assignment.Sound code graph)
    (related : assignment.Related platform code graph (.inside node) source loaded)
    {written : VReg} {home : PhysReg} (lives : assignment.home? written = some (.reg home))
    (live : ∀ reg, point.Live graph reg → written ≠ reg → graph.LiveBefore reg node)
    (apart : ∀ reg, point.Live graph reg → written ≠ reg →
      assignment.home? reg ≠ some (.reg home)) (value : Word) :
    assignment.Related platform code graph point (source.write (.virt written) value)
      (loaded.write (.phys home) value) := by
  have reserved : home ∈ PhysReg.reserved :=
    PhysReg.mem_reserved.2 (.inl (sound.allocatable written home lives))
  refine ⟨(related.agrees.write_virt written value).write_reserved reserved value,
    fun reg alive => ?_⟩
  by_cases distinct : written = reg
  · subst distinct
    rw [valueIn_reg lives, Machine.phys_write_phys, if_pos rfl, Machine.virt_write_virt,
      if_pos rfl]
  · have before := related.values reg (live reg alive distinct)
    rw [Machine.virt_write_virt, if_neg (Ne.symm distinct), ← before]
    refine valueIn_congr (fun phys elsewhere => ?_) fun _ => rfl
    have moved : phys ≠ home := fun clash => apart reg alive distinct (clash ▸ elsewhere)
    rw [Machine.phys_write_phys, if_neg moved]

theorem Related.settle_slot {source loaded : Machine} {point : Point}
    (sound : assignment.Sound code graph) (built : code.flowGraph = .ok graph)
    (respects : platform.Respects (assignment.slots code))
    (related : assignment.Related platform code graph (.inside node) source loaded)
    {written : VReg} (lives : assignment.home? written = some .slot)
    (owned : written ∈ assignment.slots code)
    (live : ∀ reg, point.Live graph reg → written ≠ reg → graph.LiveBefore reg node)
    (value : Word) :
    assignment.Related platform code graph point (source.write (.virt written) value)
      (platform.perform (loaded.write (.phys .defScratch) value)
        (storeSlot .defScratch .s6 written)) := by
  have carried : (loaded.write (.phys .defScratch) value).phys .defScratch = value := by
    rw [Machine.phys_write_phys, if_pos rfl]
  have scratch : ∀ reg ∈ PhysReg.scratch, reg ∈ PhysReg.reserved :=
    fun reg member => PhysReg.mem_reserved.2 (.inr member)
  have moved := ((related.agrees.write_virt written value).write_reserved
    (scratch .s5 (by decide)) value).write_reserved (scratch .s6 (by decide))
    (platform.slotAt written)
  rw [Platform.perform_storeSlot, carried]
  refine ⟨moved.store_slot owned value, fun reg alive => ?_⟩
  by_cases distinct : written = reg
  · subst distinct
    rw [valueIn_slot lives, Memory.word_storeWord, Machine.virt_write_virt, if_pos rfl]
  · have alive := live reg alive distinct
    have before := related.values reg alive
    rw [Machine.virt_write_virt, if_neg (Ne.symm distinct), ← before]
    refine valueIn_congr (fun phys elsewhere => ?_) fun elsewhere => ?_
    · have unused := PhysReg.not_scratch_of_allocatable (sound.allocatable reg phys elsewhere)
      have first : phys ≠ .s6 := fun clash => unused (clash ▸ by decide)
      have second : phys ≠ .defScratch := fun clash => unused (clash ▸ by decide)
      simp only [Machine.phys_write_phys, if_neg first, if_neg second]
    · have slot : reg ∈ assignment.slots code :=
        @mem_slots_of_live _ _ _ built _ (.inside node) alive elsewhere
      refine Memory.word_congr fun byte inSlot => ?_
      exact Memory.storeWord_of_not_mem
        (respects.apart reg slot written owned (Ne.symm distinct) byte inSlot)

/-- Behind the instruction its result is at home, and other live registers are where they were. -/
theorem Related.settle {source loaded : Machine} {point : Point}
    (sound : assignment.Sound code graph) (built : code.flowGraph = .ok graph)
    (respects : platform.Respects (assignment.slots code)) (free : code.NamesNoReserved)
    (here : code.instructions[node]? = some instr)
    (related : assignment.Related platform code graph (.inside node) source loaded)
    (spares : ∀ byte ∈ instr.touched source, ∀ reg ∈ assignment.slots code,
      byte ∉ platform.slotBytes reg)
    (leads : ∀ reg, point.Live graph reg → ∃ succ ∈ graph.succs node, graph.LiveBefore reg succ) :
    assignment.Related platform code graph point
      (source.apply (instr.change platform.address source))
      (platform.perform
        (loaded.apply ((instr.change platform.address source).rename assignment.defPlace))
        (assignment.storeBack instr)) := by
  have listed : instr ∈ code.instructions := List.mem_of_getElem? here
  have known : graph.instr? node = some instr := (Section.instr?_flowGraph built node).trans here
  have live : ∀ reg, point.Live graph reg → instr.virtualDef? ≠ some reg →
      graph.LiveBefore reg node := by
    intro reg alive kept
    obtain ⟨succ, edge, next⟩ := leads reg alive
    exact .later known edge kept next
  rw [storeBack]
  cases writes : instr.virtualDef? with
  | none =>
    refine related.settle_plain sound built ?_ ?_ fun reg alive => live reg alive (by simp [writes])
    · intro dst value same
      have defines := Instr.def?_of_change same
      cases dst with
      | phys reg => exact ⟨reg, fun member => (free instr listed reg member).2 defines, rfl⟩
      | virt reg => simp [Instr.virtualDef?, defines] at writes
    · intro op addr value same
      rw [← Instr.touched_of_change same]
      exact spares
  | some written =>
    have defines : instr.def? = some (.virt written) := by
      obtain ⟨dst, same, virtual⟩ := Option.bind_eq_some_iff.1 writes
      rw [same, Reg.virtual?_eq_some.1 virtual]
    have mentioned : written ∈ code.registers :=
      Section.mem_registers.2 ⟨instr, listed, List.mem_append_right _ (by simp [writes])⟩
    have others : ∀ reg, point.Live graph reg → written ≠ reg → graph.LiveBefore reg node :=
      fun reg alive distinct => live reg alive (by simpa [writes] using distinct)
    obtain ⟨value, same⟩ := @Instr.change_of_def? platform.address source instr _ defines
    rw [same]
    cases lives : assignment.home? written with
    | none => exact absurd lives (sound.covers written mentioned)
    | some found =>
      cases found with
      | reg home =>
        have apart : ∀ reg, point.Live graph reg → written ≠ reg →
            assignment.home? reg ≠ some (.reg home) := by
          intro reg alive distinct
          obtain ⟨succ, edge, next⟩ := leads reg alive
          exact sound.apart known writes edge next distinct home lives
        have settled := related.settle_reg sound lives others apart value
        simpa [Change.rename, Machine.apply, defPlace, lives] using settled
      | slot =>
        have owned : written ∈ assignment.slots code :=
          mem_slots.2 ⟨mentioned, (home?_eq_slot_iff.1 lives).2⟩
        have settled := related.settle_slot sound built respects lives owned others value
        simpa [Change.rename, Machine.apply, defPlace, lives] using settled

end Assignment

end MipsBackend
