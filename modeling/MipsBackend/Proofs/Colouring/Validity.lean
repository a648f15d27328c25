import Mathlib.Data.List.Perm.Subperm
import MipsBackend.Proofs.Colouring.Removal

/-!
# Colourings are valid

Colours are given in the order opposite to the one in which registers left the graph. When a
register gets its colour, the neighbours that have one are among those that remained when it left,
and these were fewer than `k` (`RemovalOrder.simplified`). So a colour is free for every register
that was not a victim, and only victims are spilled.
-/

namespace MipsBackend

/-- A valid colouring of the registers in `regs`. -/
structure Colouring.Valid (colouring : Colouring) (graph : InterferenceGraph) (k : Nat)
    (regs : List VReg) : Prop where
  covered : ∀ reg, reg ∈ colouring.colours ∨ reg ∈ colouring.spilled ↔ reg ∈ regs
  exclusive : ∀ reg, ¬ (reg ∈ colouring.colours ∧ reg ∈ colouring.spilled)
  bounded : ∀ (reg : VReg) colour, colouring.colours[reg]? = some colour → colour < k
  distinct : ∀ (a b : VReg) colour, graph.Joined a b → colouring.colours[a]? = some colour →
    colouring.colours[b]? ≠ some colour

namespace Colouring

theorem mem_paint {colouring : Colouring} {reg other : VReg} {colour : Nat} :
    other ∈ (colouring.paint reg colour).colours ↔ other = reg ∨ other ∈ colouring.colours := by
  simp only [paint, Std.ExtTreeMap.mem_insert, Nat.compare_eq_eq, eq_comm (a := other)]

theorem getElem?_paint {colouring : Colouring} {reg other : VReg} {colour : Nat} :
    (colouring.paint reg colour).colours[other]? =
      if reg = other then some colour else colouring.colours[other]? := by
  simp [paint, Std.ExtTreeMap.getElem?_insert]

theorem mem_spill {colouring : Colouring} {reg other : VReg} :
    other ∈ (colouring.spill reg).spilled ↔ other = reg ∨ other ∈ colouring.spilled := by
  simp only [spill, Std.ExtTreeSet.mem_insert, Nat.compare_eq_eq, eq_comm (a := other)]

end Colouring

namespace InterferenceGraph

/-! ## Free colours -/

theorem mem_neighbourColours {graph : InterferenceGraph} {colouring : Colouring} {reg : VReg}
    {colour : Nat} :
    colour ∈ graph.neighbourColours colouring reg ↔
      ∃ other, graph.Joined reg other ∧ colouring.colours[other]? = some colour := by
  simp [neighbourColours, Joined, Std.ExtTreeSet.mem_ofList, List.mem_filterMap]

theorem size_neighbourColours_le {graph : InterferenceGraph} {colouring : Colouring}
    {remaining : List VReg} (reg : VReg)
    (known : ∀ other, other ∈ colouring.colours → other ∈ remaining) :
    (graph.neighbourColours colouring reg).size ≤ graph.degreeAmong remaining reg := by
  let coloured := (graph.neighbours reg).toList.filter fun other => colouring.colours[other]?.isSome
  have among : coloured ⊆ remaining.filter (graph.interferes reg) := by
    intro other member
    simp only [coloured, List.mem_filter, Std.ExtTreeSet.mem_toList,
      ← Std.ExtTreeMap.mem_iff_isSome_getElem?] at member
    exact List.mem_filter.2 ⟨known other member.2, interferes_iff.2 member.1⟩
  calc (graph.neighbourColours colouring reg).size
      ≤ ((graph.neighbours reg).toList.filterMap (colouring.colours[·]?)).length :=
        Std.ExtTreeSet.size_ofList_le
    _ = coloured.length := by
        rw [List.length_filterMap_eq_countP, List.countP_eq_length_filter]
    _ ≤ (remaining.filter (graph.interferes reg)).length :=
        (List.subperm_of_subset ((RegSet.toList_nodup _).filter _) among).length_le
    _ = graph.degreeAmong remaining reg := by
        rw [degreeAmong, List.countP_eq_length_filter]

theorem freeColour?_isSome {graph : InterferenceGraph} {k : Nat} {colouring : Colouring}
    {reg : VReg} (few : (graph.neighbourColours colouring reg).size < k) :
    (graph.freeColour? k colouring reg).isSome = true := by
  unfold freeColour?
  let used := graph.neighbourColours colouring reg
  cases found : (List.range (min k (used.size + 1))).find? (· ∉ used) with
  | some colour => rfl
  | none =>
    have allUsed : List.range (used.size + 1) ⊆ used.toList := by
      intro colour member
      have bound : min k (used.size + 1) = used.size + 1 := Nat.min_eq_right few
      rw [← bound] at member
      simpa using List.find?_eq_none.1 found colour member
    have tooMany := (List.subperm_of_subset List.nodup_range allUsed).length_le
    rw [List.length_range, Std.ExtTreeSet.length_toList] at tooMany
    omega

theorem freeColour?_eq_some {graph : InterferenceGraph} {k colour : Nat} {colouring : Colouring}
    {reg : VReg} (free : graph.freeColour? k colouring reg = some colour) :
    colour < k ∧ ∀ other, graph.Joined reg other → colouring.colours[other]? ≠ some colour := by
  unfold freeColour? at free
  have unused := List.find?_some free
  have member := List.mem_of_find?_eq_some free
  simp only [List.mem_range] at member
  refine ⟨by omega, fun other joined same => ?_⟩
  simp only [decide_eq_true_eq] at unused
  exact unused (mem_neighbourColours.2 ⟨other, joined, same⟩)

/-! ## The select loop -/

end InterferenceGraph

namespace Colouring

theorem valid_empty (graph : InterferenceGraph) (k : Nat) : empty.Valid graph k [] where
  covered reg := by simp [empty]
  exclusive reg := by simp [empty]
  bounded reg colour painted := by simp [empty] at painted
  distinct a b colour joined painted := by simp [empty] at painted

theorem Valid.paint {graph : InterferenceGraph} (formed : graph.WellFormed) {k colour : Nat}
    {colouring : Colouring} {remaining : List VReg} {reg : VReg} (nodup : remaining.Nodup)
    (member : reg ∈ remaining) (valid : colouring.Valid graph k (remaining.erase reg))
    (free : graph.freeColour? k colouring reg = some colour) :
    (colouring.paint reg colour).Valid graph k remaining := by
  obtain ⟨bound, fresh⟩ := InterferenceGraph.freeColour?_eq_some free
  constructor
  · intro other
    rw [mem_paint, or_assoc, (List.perm_cons_erase member).mem_iff, List.mem_cons]
    exact or_congr_right (valid.covered other)
  · rintro other ⟨painted, spilled⟩
    rcases mem_paint.1 painted with rfl | old
    · exact nodup.not_mem_erase ((valid.covered other).1 (.inr spilled))
    · exact valid.exclusive other ⟨old, spilled⟩
  · intro other otherColour painted
    rw [getElem?_paint] at painted
    split at painted
    · cases painted
      exact bound
    · exact valid.bounded other otherColour painted
  · intro a b shared joined first second
    rw [getElem?_paint] at first second
    split at first
    · next same =>
      cases first
      subst same
      split at second
      · next same =>
        subst same
        exact formed.irrefl joined
      · exact fresh b joined second
    · split at second
      · next same =>
        cases second
        subst same
        exact fresh a (formed.symm joined) first
      · exact valid.distinct a b shared joined first second

theorem Valid.spill {graph : InterferenceGraph} {k : Nat} {colouring : Colouring}
    {remaining : List VReg} {reg : VReg} (nodup : remaining.Nodup) (member : reg ∈ remaining)
    (valid : colouring.Valid graph k (remaining.erase reg)) :
    (colouring.spill reg).Valid graph k remaining := by
  constructor
  · intro other
    rw [mem_spill, or_left_comm, (List.perm_cons_erase member).mem_iff, List.mem_cons]
    exact or_congr_right (valid.covered other)
  · rintro other ⟨painted, spilled⟩
    rcases mem_spill.1 spilled with rfl | old
    · exact nodup.not_mem_erase ((valid.covered other).1 (.inl painted))
    · exact valid.exclusive other ⟨painted, old⟩
  · exact valid.bounded
  · exact valid.distinct

end Colouring

namespace InterferenceGraph

/-- What the select loop makes of a run of the simplify loop. -/
structure Selected (graph : InterferenceGraph) (k : Nat) (remaining : List VReg)
    (removals : List Removal) : Prop where
  valid : (graph.select k removals).Valid graph k remaining
  spilled_iff : ∀ reg, reg ∈ (graph.select k removals).spilled ↔
    { reg, spilled := true } ∈ removals
  free : ∀ before removal later, removals = before ++ removal :: later →
    removal.spilled = false →
      (graph.freeColour? k (graph.select k later) removal.reg).isSome = true

theorem RemovalOrder.selected {graph : InterferenceGraph} (formed : graph.WellFormed) {k : Nat}
    {heuristic : SpillHeuristic} {remaining : List VReg} {removals : List Removal}
    (order : RemovalOrder graph k heuristic remaining removals) (nodup : remaining.Nodup) :
    Selected graph k remaining removals := by
  induction order with
  | done =>
    refine ⟨Colouring.valid_empty graph k, ?_, ?_⟩
    · simp [select, Colouring.empty]
    · simp
  | @simplified remaining reg later member low next ih =>
    have before := ih (nodup.erase reg)
    have known : ∀ other, other ∈ (graph.select k later).colours → other ∈ remaining :=
      fun other painted => List.mem_of_mem_erase ((before.valid.covered other).1 (.inl painted))
    have some : (graph.freeColour? k (graph.select k later) reg).isSome = true :=
      freeColour?_isSome (Nat.lt_of_le_of_lt (size_neighbourColours_le reg known) low)
    obtain ⟨colour, free⟩ := Option.isSome_iff_exists.1 some
    have selects : graph.select k ({ reg, spilled := false } :: later) =
        (graph.select k later).paint reg colour := by
      simp [select, free]
    constructor
    · rw [selects]
      exact before.valid.paint formed nodup member free
    · intro other
      rw [selects]
      simpa [Colouring.paint] using before.spilled_iff other
    · intro passed removal rest split kept
      cases passed with
      | nil =>
        cases split
        exact some
      | cons head tail =>
        cases split
        exact before.free tail removal rest rfl kept
  | @victim remaining first rest later listed stuck next ih =>
    have member := (mem_worklist.1 (listed ▸ heuristic.choose_mem first rest)).1
    have before := ih (nodup.erase _)
    constructor
    · exact before.valid.spill nodup member
    · intro other
      simp [select, Colouring.mem_spill, before.spilled_iff]
    · intro passed removal rest split kept
      cases passed with
      | nil =>
        cases split
        cases kept
      | cons head tail =>
        cases split
        exact before.free tail removal rest rfl kept

theorem colour_selected {graph : InterferenceGraph} (formed : graph.WellFormed) (k : Nat)
    (heuristic : SpillHeuristic) :
    Selected graph k graph.registers (graph.removals k heuristic graph.candidates) :=
  (removals_order formed k heuristic).selected formed graph.registers_nodup

/-- Colouring any graph gives every register a colour below `k` or a place among the spilled ones,
with different colours for joined registers. Only victims are spilled, and a victim is chosen only
while every remaining register has `k` remaining neighbours or more; all others find a free
colour. -/
theorem colour_grown_valid (calls : List Growth) (k : Nat) (heuristic : SpillHeuristic) :
    let graph := grown calls
    let colouring := graph.colour k heuristic
    let removals := graph.removals k heuristic graph.candidates
    colouring.Valid graph k graph.registers ∧
      RemovalOrder graph k heuristic graph.registers removals ∧
      (∀ reg, reg ∈ colouring.spilled ↔ { reg, spilled := true } ∈ removals) ∧
      ∀ before removal later, removals = before ++ removal :: later → removal.spilled = false →
        (graph.freeColour? k (graph.select k later) removal.reg).isSome = true := by
  intro graph colouring removals
  have formed : graph.WellFormed := wellFormed_grown calls
  have selected := colour_selected formed k heuristic
  exact ⟨selected.valid, removals_order formed k heuristic, selected.spilled_iff, selected.free⟩

end InterferenceGraph

end MipsBackend
