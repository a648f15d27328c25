import MipsBackend.Proofs.Assignment.Related

/-!
# Traffic with the slots

Spill code is straight: a load brings the word of a slot into a scratch register, a store takes it
back. An instruction reads at most two registers, so there is a scratch register for each spilled
one (`lookup_spilledUses`).
-/

namespace MipsBackend

/-! ## Single slots -/

namespace Platform

theorem perform_loadSlot (platform : Platform) (machine : Machine) {scratch : PhysReg}
    (nonzero : scratch ≠ .zero) (reg : VReg) :
    platform.perform machine (loadSlot scratch reg) =
      machine.write (.phys scratch) (machine.memory.word (platform.slotAt reg)) := by
  let pointed := machine.write (.phys scratch) (platform.slotAt reg)
  have addr : pointed.read (.phys scratch) + (0 : Int32).toBitVec = platform.slotAt reg := by
    rw [Machine.read_phys, if_neg nonzero, Machine.phys_write_phys, if_pos rfl]
    exact BitVec.add_zero _
  calc platform.perform machine (loadSlot scratch reg)
      = pointed.write (.phys scratch)
          (machine.memory.word (pointed.read (.phys scratch) + (0 : Int32).toBitVec)) := rfl
    _ = pointed.write (.phys scratch) (machine.memory.word (platform.slotAt reg)) := by rw [addr]
    _ = machine.write (.phys scratch) (machine.memory.word (platform.slotAt reg)) := by
      simp only [pointed, Machine.write, Function.update_idem]

theorem perform_storeSlot (platform : Platform) (machine : Machine) (reg : VReg) :
    platform.perform machine (storeSlot .defScratch .s6 reg) =
      { machine.write (.phys .s6) (platform.slotAt reg) with
        memory := machine.memory.storeWord (platform.slotAt reg) (machine.phys .defScratch) } := by
  let pointed := machine.write (.phys .s6) (platform.slotAt reg)
  have addr : pointed.read (.phys .s6) + (0 : Int32).toBitVec = platform.slotAt reg := by
    rw [Machine.read_phys, if_neg (by decide), Machine.phys_write_phys, if_pos rfl]
    exact BitVec.add_zero _
  have value : pointed.read (.phys .defScratch) = machine.phys .defScratch := by
    rw [Machine.read_phys, if_neg (by decide), Machine.phys_write_phys, if_neg (by decide)]
  calc platform.perform machine (storeSlot .defScratch .s6 reg)
      = { pointed with
          memory := machine.memory.storeWord
            (pointed.read (.phys .s6) + (0 : Int32).toBitVec)
            (pointed.read (.phys .defScratch)) } := rfl
    _ = _ := by rw [addr, value]

/-! ## Several slots -/

def loadSlots (pairs : List (VReg × PhysReg)) : List Instr :=
  pairs.flatMap fun (reg, scratch) => loadSlot scratch reg

theorem isStraight_loadSlots {pairs : List (VReg × PhysReg)} :
    ∀ instr ∈ loadSlots pairs, instr.isStraight = true := by
  intro instr member
  obtain ⟨⟨reg, scratch⟩, -, inside⟩ := List.mem_flatMap.1 member
  rcases List.mem_cons.1 inside with rfl | inside
  · rfl
  · cases List.mem_singleton.1 inside
    rfl

theorem perform_loadSlots (platform : Platform) {pairs : List (VReg × PhysReg)}
    (distinct : (pairs.map Prod.snd).Nodup) (nonzero : .zero ∉ pairs.map Prod.snd)
    (machine : Machine) :
    ∃ phys, platform.perform machine (loadSlots pairs) = { machine with phys } ∧
      (∀ other ∉ pairs.map Prod.snd, phys other = machine.phys other) ∧
      ∀ reg scratch, (reg, scratch) ∈ pairs →
        phys scratch = machine.memory.word (platform.slotAt reg) := by
  induction pairs generalizing machine with
  | nil => exact ⟨machine.phys, rfl, fun _ _ => rfl, fun _ _ member => nomatch member⟩
  | cons pair rest ih =>
    obtain ⟨first, taken⟩ := pair
    rw [List.map_cons, List.nodup_cons] at distinct
    rw [List.map_cons, List.mem_cons, not_or] at nonzero
    have loaded := platform.perform_loadSlot machine (Ne.symm nonzero.1) first
    obtain ⟨phys, same, others, words⟩ := ih distinct.2 nonzero.2
      (machine.write (.phys taken) (machine.memory.word (platform.slotAt first)))
    refine ⟨phys, ?_, fun other free => ?_, fun reg scratch member => ?_⟩
    · rw [loadSlots, List.flatMap_cons, perform_append, loaded]
      exact same
    · rw [List.map_cons, List.mem_cons, not_or] at free
      rw [others other free.2, Machine.phys_write_phys, if_neg free.1]
    · rcases List.mem_cons.1 member with here | later
      · cases here
        rw [others taken distinct.1, Machine.phys_write_phys, if_pos rfl]
      · exact words reg scratch later

end Platform

/-! ## The scratch registers of an instruction -/

theorem length_eraseDups_le (regs : List VReg) : regs.eraseDups.length ≤ regs.length := by
  match regs with
  | [] => exact Nat.le_refl 0
  | first :: rest =>
    rw [List.eraseDups_cons, List.length_cons, List.length_cons]
    have shorter := List.length_filter_le (fun reg => !reg == first) rest
    exact Nat.succ_le_succ ((length_eraseDups_le _).trans shorter)
termination_by regs.length
decreasing_by exact Nat.lt_succ_of_le (List.length_filter_le _ _)

theorem nodup_eraseDups {α : Type} [BEq α] [LawfulBEq α] (values : List α) :
    values.eraseDups.Nodup := by
  match values with
  | [] => exact List.nodup_nil
  | first :: rest =>
    rw [List.eraseDups_cons, List.nodup_cons]
    refine ⟨fun member => ?_, nodup_eraseDups _⟩
    simpa using List.mem_eraseDups.1 member
termination_by values.length
decreasing_by exact Nat.lt_succ_of_le (List.length_filter_le _ _)

theorem map_snd_zip_sublist (regs : List VReg) (scratch : List PhysReg) :
    ((regs.zip scratch).map Prod.snd).Sublist scratch := by
  induction scratch generalizing regs with
  | nil => rw [List.zip_nil_right, List.map_nil]
  | cons first rest ih =>
    cases regs with
    | nil => exact List.nil_sublist _
    | cons reg later => exact (ih later).cons_cons first

theorem Instr.uses_length_le (instr : Instr) : instr.uses.length ≤ 2 := by
  cases instr <;> simp [uses]

theorem Instr.virtualUses_length_le (instr : Instr) : instr.virtualUses.length ≤ 2 :=
  (List.length_filterMap_le _ _).trans instr.uses_length_le

namespace Assignment

def spilledReads (assignment : Assignment) (instr : Instr) : List VReg :=
  instr.virtualUses.eraseDups.filter (assignment.home? · = some .slot)

theorem spilledReads_length_le (assignment : Assignment) (instr : Instr) :
    (assignment.spilledReads instr).length ≤ PhysReg.useScratch.length := by
  calc (assignment.spilledReads instr).length
      ≤ instr.virtualUses.eraseDups.length := List.length_filter_le _ _
    _ ≤ instr.virtualUses.length := length_eraseDups_le _
    _ ≤ PhysReg.useScratch.length := instr.virtualUses_length_le

theorem map_fst_spilledUses (assignment : Assignment) (instr : Instr) :
    (assignment.spilledUses instr).map Prod.fst = assignment.spilledReads instr :=
  List.map_fst_zip (assignment.spilledReads_length_le instr)

theorem map_snd_spilledUses (assignment : Assignment) (instr : Instr) :
    ((assignment.spilledUses instr).map Prod.snd).Sublist PhysReg.useScratch :=
  map_snd_zip_sublist _ _

theorem lookup_spilledUses {assignment : Assignment} {instr : Instr} {reg : VReg}
    (used : reg ∈ instr.virtualUses) (home : assignment.home? reg = some .slot) :
    ∃ scratch, (assignment.spilledUses instr).lookup reg = some scratch ∧
      (reg, scratch) ∈ assignment.spilledUses instr := by
  have member : reg ∈ assignment.spilledReads instr :=
    List.mem_filter.2 ⟨List.mem_eraseDups.2 used, by simp [home]⟩
  rw [← map_fst_spilledUses] at member
  cases found : (assignment.spilledUses instr).lookup reg with
  | none =>
    obtain ⟨⟨first, scratch⟩, listed, rfl⟩ := List.mem_map.1 member
    have missed := List.lookup_eq_none_iff.1 found _ listed
    simp at missed
  | some scratch =>
    obtain ⟨before, after, split, -⟩ := List.lookup_eq_some_iff.1 found
    exact ⟨scratch, rfl, split ▸ List.mem_append_right _ List.mem_cons_self⟩

end Assignment

end MipsBackend
