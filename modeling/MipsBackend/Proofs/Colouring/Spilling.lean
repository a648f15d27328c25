import Mathlib.Data.Finset.Card
import MipsBackend.Proofs.Colouring.Validity
import MipsBackend.Proofs.Flow.Fixpoint

/-!
# When colouring spills

Spilling depends on the graph alone. The simplify loop takes the first register with fewer than `k`
remaining neighbours, but no other choice would have served better: in a set of registers each of
which has `k` neighbours in the set, none can ever leave first. A graph without such a set is
`Sparse`, and exactly these graphs are coloured without spilling (`spilled_eq_empty_iff`).
-/

namespace MipsBackend

namespace InterferenceGraph

/-- How many neighbours a register has in a part of the graph. -/
def degreeIn (graph : InterferenceGraph) (part : Finset VReg) (reg : VReg) : Nat :=
  (part.filter fun other => graph.interferes reg other = true).card

/-- Every part of the graph has a register with fewer than `k` neighbours in it. -/
def Sparse (graph : InterferenceGraph) (k : Nat) : Prop :=
  ∀ part ⊆ graph.registers.toFinset, part.Nonempty → ∃ reg ∈ part, graph.degreeIn part reg < k

def Complete (graph : InterferenceGraph) : Prop :=
  ∀ a ∈ graph.registers, ∀ b ∈ graph.registers, a ≠ b → graph.Joined a b

/-! ## Degrees -/

theorem degreeIn_toFinset {graph : InterferenceGraph} {remaining : List VReg}
    (nodup : remaining.Nodup) (reg : VReg) :
    graph.degreeIn remaining.toFinset reg = graph.degreeAmong remaining reg := by
  rw [degreeIn, degreeAmong, ← List.toFinset_filter, List.toFinset_card_of_nodup (nodup.filter _),
    List.countP_eq_length_filter]

theorem degreeIn_mono {graph : InterferenceGraph} {part whole : Finset VReg} (inside : part ⊆ whole)
    (reg : VReg) : graph.degreeIn part reg ≤ graph.degreeIn whole reg :=
  Finset.card_le_card (Finset.filter_subset_filter _ inside)

theorem degreeAmong_erase_self {graph : InterferenceGraph} (formed : graph.WellFormed)
    {remaining : List VReg} {reg : VReg} (member : reg ∈ remaining) :
    graph.degreeAmong remaining reg = graph.degreeAmong (remaining.erase reg) reg := by
  have alone : graph.interferes reg reg = false := by
    rw [Bool.eq_false_iff, ne_eq, interferes_iff]
    exact formed.irrefl
  rw [degreeAmong_erase member, alone]
  simp

theorem length_erase_add_one {remaining : List VReg} {reg : VReg} (member : reg ∈ remaining) :
    (remaining.erase reg).length + 1 = remaining.length := by
  rw [← List.length_cons, (List.perm_cons_erase member).length_eq.symm]

/-- A register is no neighbour of itself. -/
theorem degreeAmong_lt_length {graph : InterferenceGraph} (formed : graph.WellFormed)
    {remaining : List VReg} {reg : VReg} (member : reg ∈ remaining) :
    graph.degreeAmong remaining reg < remaining.length := by
  rw [degreeAmong_erase_self formed member, ← length_erase_add_one member]
  exact Nat.lt_succ_of_le List.countP_le_length

theorem Complete.degreeAmong {graph : InterferenceGraph} (complete : graph.Complete)
    (formed : graph.WellFormed) {remaining : List VReg} (nodup : remaining.Nodup)
    (known : remaining ⊆ graph.registers) {reg : VReg} (member : reg ∈ remaining) :
    graph.degreeAmong remaining reg + 1 = remaining.length := by
  rw [degreeAmong_erase_self formed member, ← length_erase_add_one member, InterferenceGraph.degreeAmong,
    Nat.add_right_cancel_iff, List.countP_eq_length]
  intro other inside
  have present := List.mem_of_mem_erase inside
  have distinct : reg ≠ other := fun same => nodup.not_mem_erase (same ▸ inside)
  exact interferes_iff.2 (complete reg (known member) other (known present) distinct)

/-! ## Runs of the simplify loop -/

namespace RemovalOrder

variable {graph : InterferenceGraph} {k : Nat} {heuristic : SpillHeuristic} {remaining : List VReg}
  {removals : List Removal}

/-- Every register leaves once. -/
theorem perm (order : RemovalOrder graph k heuristic remaining removals) :
    (removals.map Removal.reg).Perm remaining := by
  induction order with
  | done => exact .nil
  | simplified member low next ih => exact (ih.cons _).trans (List.perm_cons_erase member).symm
  | victim listed stuck next ih =>
    have member := (mem_worklist.1 (listed ▸ heuristic.choose_mem _ _)).1
    exact (ih.cons _).trans (List.perm_cons_erase member).symm

/-- The first register of a part that leaves has few neighbours in it, because the whole part is
still there. -/
theorem sparse (order : RemovalOrder graph k heuristic remaining removals)
    (nodup : remaining.Nodup) (kept : ∀ removal ∈ removals, removal.spilled = false)
    {part : Finset VReg} (inside : part ⊆ remaining.toFinset) (nonempty : part.Nonempty) :
    ∃ reg ∈ part, graph.degreeIn part reg < k := by
  induction order with
  | done =>
    obtain ⟨reg, member⟩ := nonempty
    cases List.mem_toFinset.1 (inside member)
  | @simplified remaining reg later member low next ih =>
    by_cases first : reg ∈ part
    · refine ⟨reg, first, ?_⟩
      calc graph.degreeIn part reg
          ≤ graph.degreeIn remaining.toFinset reg := degreeIn_mono inside reg
        _ = graph.degreeAmong remaining reg := degreeIn_toFinset nodup reg
        _ < k := low
    · apply ih (nodup.erase reg) fun removal listed => kept removal (List.mem_cons_of_mem _ listed)
      intro other here
      have present := List.mem_toFinset.1 (inside here)
      have distinct : other ≠ reg := fun same => first (same ▸ here)
      exact List.mem_toFinset.2 ((List.mem_erase_of_ne distinct).2 present)
  | victim listed stuck next ih =>
    have unspilled := kept _ List.mem_cons_self
    cases unspilled

theorem unspilled (order : RemovalOrder graph k heuristic remaining removals)
    (nodup : remaining.Nodup) (known : remaining ⊆ graph.registers) (sparse : graph.Sparse k) :
    ∀ removal ∈ removals, removal.spilled = false := by
  induction order with
  | done => exact fun _ member => nomatch member
  | simplified member low next ih =>
    refine List.forall_mem_cons.2 ⟨rfl, ?_⟩
    exact ih (nodup.erase _) fun other here => known (List.mem_of_mem_erase here)
  | @victim remaining first rest later listed stuck next ih =>
    have member : first.reg ∈ remaining :=
      (mem_worklist.1 (listed ▸ List.mem_cons_self : first ∈ graph.worklist remaining)).1
    have inside : remaining.toFinset ⊆ graph.registers.toFinset := fun other here =>
      List.mem_toFinset.2 (known (List.mem_toFinset.1 here))
    obtain ⟨reg, present, low⟩ := sparse _ inside ⟨_, List.mem_toFinset.2 member⟩
    rw [degreeIn_toFinset nodup] at low
    exact absurd low (Nat.not_lt_of_le (stuck reg (List.mem_toFinset.1 present)))

/-- While a victim is chosen, more than `k` registers remain. -/
theorem countP_spilled_le (order : RemovalOrder graph k heuristic remaining removals)
    (formed : graph.WellFormed) : removals.countP Removal.spilled ≤ remaining.length - k := by
  induction order with
  | done => exact Nat.zero_le _
  | simplified member low next ih =>
    have fewer := length_erase_add_one member
    rw [List.countP_cons_of_neg (by simp)]
    omega
  | @victim remaining first rest later listed stuck next ih =>
    have member := (mem_worklist.1 (listed ▸ heuristic.choose_mem first rest)).1
    have fewer := length_erase_add_one member
    have crowded := degreeAmong_lt_length formed member
    have low := stuck _ member
    rw [List.countP_cons_of_pos rfl]
    omega

theorem countP_spilled_complete (order : RemovalOrder graph k heuristic remaining removals)
    (formed : graph.WellFormed) (complete : graph.Complete) (nodup : remaining.Nodup)
    (known : remaining ⊆ graph.registers) :
    removals.countP Removal.spilled = remaining.length - k := by
  induction order with
  | done => simp
  | @simplified remaining reg later member low next ih =>
    have later := ih (nodup.erase _) fun other here => known (List.mem_of_mem_erase here)
    have fewer := length_erase_add_one member
    have degree := complete.degreeAmong formed nodup known member
    rw [List.countP_cons_of_neg (by simp), later]
    omega
  | @victim remaining first rest later listed stuck next ih =>
    have member := (mem_worklist.1 (listed ▸ heuristic.choose_mem first rest)).1
    have later := ih (nodup.erase _) fun other here => known (List.mem_of_mem_erase here)
    have fewer := length_erase_add_one member
    have degree := complete.degreeAmong formed nodup known member
    have low := stuck _ member
    rw [List.countP_cons_of_pos rfl, later]
    omega

end RemovalOrder

/-! ## Spilled registers -/

section Colour

variable {graph : InterferenceGraph} (formed : graph.WellFormed) (k : Nat)
  (heuristic : SpillHeuristic)

include formed

theorem spilled_eq_empty_iff :
    (graph.colour k heuristic).spilled = ∅ ↔ graph.Sparse k := by
  have order := removals_order formed k heuristic
  have selected := (colour_selected formed k heuristic).spilled_iff
  constructor
  · intro none part inside nonempty
    refine order.sparse graph.registers_nodup (fun removal member => ?_) inside nonempty
    by_contra spilled
    have victim : { reg := removal.reg, spilled := true } ∈
        graph.removals k heuristic graph.candidates := by
      rw [← Bool.eq_true_of_not_eq_false spilled]
      exact member
    have listed : removal.reg ∈ (graph.colour k heuristic).spilled := (selected _).2 victim
    rw [none] at listed
    exact absurd listed Std.ExtTreeSet.not_mem_empty
  · intro sparse
    refine Std.ExtTreeSet.eq_empty_iff_forall_not_mem.2 fun reg member => ?_
    have kept := order.unspilled graph.registers_nodup (List.Subset.refl _) sparse
    cases kept _ ((selected reg).1 member)

theorem size_spilled :
    (graph.colour k heuristic).spilled.size =
      (graph.removals k heuristic graph.candidates).countP Removal.spilled := by
  have order := removals_order formed k heuristic
  have selected := (colour_selected formed k heuristic).spilled_iff
  let victims := (graph.removals k heuristic graph.candidates).filter Removal.spilled
  have distinct : (victims.map Removal.reg).Nodup :=
    (order.perm.nodup_iff.2 graph.registers_nodup).sublist (List.filter_sublist.map _)
  have listed : (graph.colour k heuristic).spilled.toList.Perm (victims.map Removal.reg) := by
    apply (List.perm_ext_iff_of_nodup (RegSet.toList_nodup _) distinct).2
    intro reg
    rw [Std.ExtTreeSet.mem_toList, List.mem_map]
    refine (selected reg).trans ⟨fun member => ?_, ?_⟩
    · exact ⟨_, List.mem_filter.2 ⟨member, rfl⟩, rfl⟩
    · rintro ⟨⟨reg, spilled⟩, member, rfl⟩
      obtain ⟨listed, rfl⟩ := List.mem_filter.1 member
      exact listed
  rw [← Std.ExtTreeSet.length_toList, listed.length_eq, List.length_map, List.countP_eq_length_filter]

end Colour

/-! ## Other numbers for the registers -/

/-- The second graph is the first one with other numbers for its registers. -/
structure Renumbers (rename : VReg → VReg) (graph other : InterferenceGraph) : Prop where
  injective : Set.InjOn rename {reg | reg ∈ graph.registers}
  registers : other.registers.toFinset = graph.registers.toFinset.image rename
  joined : ∀ a ∈ graph.registers, ∀ b ∈ graph.registers,
    (other.Joined (rename a) (rename b) ↔ graph.Joined a b)

theorem Renumbers.degreeIn {rename : VReg → VReg} {graph other : InterferenceGraph}
    (renumbers : Renumbers rename graph other) {part : Finset VReg}
    (inside : part ⊆ graph.registers.toFinset) {reg : VReg} (member : reg ∈ part) :
    other.degreeIn (part.image rename) (rename reg) = graph.degreeIn part reg := by
  have known : ∀ reg ∈ part, reg ∈ graph.registers := fun reg here =>
    List.mem_toFinset.1 (inside here)
  have neighbours : (part.image rename).filter (fun b => other.interferes (rename reg) b = true) =
      (part.filter fun b => graph.interferes reg b = true).image rename := by
    rw [Finset.filter_image]
    congr 1
    refine Finset.filter_congr fun b here => ?_
    rw [interferes_iff, interferes_iff]
    exact renumbers.joined reg (known reg member) b (known b here)
  rw [InterferenceGraph.degreeIn, neighbours, Finset.card_image_of_injOn, InterferenceGraph.degreeIn]
  intro a first b second
  exact renumbers.injective (known a (Finset.filter_subset _ _ first))
    (known b (Finset.filter_subset _ _ second))

theorem Renumbers.sparse_iff {rename : VReg → VReg} {graph other : InterferenceGraph}
    (renumbers : Renumbers rename graph other) (k : Nat) : other.Sparse k ↔ graph.Sparse k := by
  unfold Sparse
  rw [renumbers.registers]
  constructor
  · intro sparse part inside nonempty
    obtain ⟨_, member, low⟩ := sparse _ (Finset.image_subset_image inside) (nonempty.image rename)
    obtain ⟨reg, here, rfl⟩ := Finset.mem_image.1 member
    exact ⟨reg, here, renumbers.degreeIn inside here ▸ low⟩
  · intro sparse part inside nonempty
    obtain ⟨old, known, rfl⟩ := Finset.subset_image_iff.1 inside
    obtain ⟨reg, here, low⟩ := sparse old known (Finset.image_nonempty.1 nonempty)
    exact ⟨rename reg, Finset.mem_image_of_mem _ here, (renumbers.degreeIn known here).symm ▸ low⟩

/-- Nothing is spilled exactly if every part of the graph has a register with fewer than `k`
neighbours in it. So neither the heuristic nor the numbers of the registers decide whether something
is spilled. At most as many registers are spilled as the graph has more than `k`, and exactly as many
if they are all joined. -/
theorem spills_when_forced (calls : List Growth) (k : Nat) (heuristic : SpillHeuristic) :
    let graph := grown calls
    let spilled := (graph.colour k heuristic).spilled
    (spilled = ∅ ↔ graph.Sparse k) ∧
      (∀ others rename, Renumbers rename graph (grown others) → ∀ another,
        (((grown others).colour k another).spilled = ∅ ↔ spilled = ∅)) ∧
      spilled.size ≤ graph.size - k ∧
      (graph.Complete → spilled.size = graph.size - k) := by
  intro graph spilled
  have formed : graph.WellFormed := wellFormed_grown calls
  have order := removals_order formed k heuristic
  have sized : spilled.size = (graph.removals k heuristic graph.candidates).countP Removal.spilled :=
    size_spilled formed k heuristic
  have counted : graph.registers.length = graph.size := Std.ExtTreeMap.length_keys
  refine ⟨spilled_eq_empty_iff formed k heuristic, fun others rename renumbers another => ?_, ?_,
    fun complete => ?_⟩
  · rw [spilled_eq_empty_iff (wellFormed_grown others), spilled_eq_empty_iff formed]
    exact renumbers.sparse_iff k
  · rw [sized, ← counted]
    exact order.countP_spilled_le formed
  · rw [sized, ← counted]
    exact order.countP_spilled_complete formed complete graph.registers_nodup (List.Subset.refl _)

end InterferenceGraph

end MipsBackend
