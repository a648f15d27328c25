import Mathlib.Algebra.Order.BigOperators.Group.Finset
import Mathlib.Data.List.Perm.Subperm
import Mathlib.Tactic.Ring
import MipsBackend.Flow.Liveness

/-!
# Liveness reaches its fixed point

A pass updates the nodes in place, so an update sees some sets from before the pass and some from
within it. Two facts carry all the same over every update: a set never holds more than its equation
allows (`Rising`), hence an update only adds registers. So a pass that changes anything makes the
sets larger, which cannot happen more often than `passLimit` says, and a pass that changes nothing
leaves every equation satisfied.
-/

namespace MipsBackend

/-! ## Sets of registers -/

namespace RegSet

theorem toList_nodup (regs : RegSet) : regs.toList.Nodup :=
  Std.ExtTreeSet.distinct_toList.imp fun distinct same => distinct (by simp [same])

theorem size_le_of_subset {small large : RegSet} (subset : ∀ reg ∈ small, reg ∈ large) :
    small.size ≤ large.size := by
  have listed : small.toList ⊆ large.toList := fun reg member =>
    Std.ExtTreeSet.mem_toList.2 (subset reg (Std.ExtTreeSet.mem_toList.1 member))
  rw [← Std.ExtTreeSet.length_toList, ← Std.ExtTreeSet.length_toList]
  exact (List.subperm_of_subset small.toList_nodup listed).length_le

theorem eq_of_subset_of_size_le {small large : RegSet} (subset : ∀ reg ∈ small, reg ∈ large)
    (size : large.size ≤ small.size) : small = large := by
  have listed : small.toList ⊆ large.toList := fun reg member =>
    Std.ExtTreeSet.mem_toList.2 (subset reg (Std.ExtTreeSet.mem_toList.1 member))
  rw [← Std.ExtTreeSet.length_toList, ← Std.ExtTreeSet.length_toList] at size
  exact Std.ExtTreeSet.ext_toList
    ((List.subperm_of_subset small.toList_nodup listed).perm_of_length_le size)

end RegSet

theorem Instr.mem_liveBefore {instr : Instr} {after : RegSet} {reg : VReg} :
    reg ∈ instr.liveBefore after ↔
      reg ∈ instr.virtualUses ∨ (reg ∈ after ∧ instr.virtualDef? ≠ some reg) := by
  have fold : ∀ (uses : List VReg) (start : RegSet),
      reg ∈ uses.foldl (·.insert ·) start ↔ reg ∈ uses ∨ reg ∈ start := by
    intro uses
    induction uses with
    | nil => simp
    | cons used rest ih =>
      intro start
      rw [List.foldl_cons, ih, Std.ExtTreeSet.mem_insert, Nat.compare_eq_eq, List.mem_cons]
      grind
  rw [liveBefore, fold]
  cases instr.virtualDef? with
  | none => simp
  | some written =>
    simp only [Option.elim_some, Std.ExtTreeSet.mem_erase, ne_eq, Nat.compare_eq_eq,
      Option.some.injEq, and_comm]

/-! ## Live maps -/

namespace LiveMap

@[simp] theorem liveIn_set {live : LiveMap} {node other : Nat} {sets : LiveSets} :
    LiveMap.liveIn (live.setIfInBounds node sets) other =
      if node = other ∧ other < live.size then sets.liveIn else live.liveIn other := by
  unfold liveIn
  rw [Array.getElem?_setIfInBounds]
  by_cases same : node = other <;> by_cases bound : other < live.size <;> simp [same, bound]

@[simp] theorem liveOut_set {live : LiveMap} {node other : Nat} {sets : LiveSets} :
    LiveMap.liveOut (live.setIfInBounds node sets) other =
      if node = other ∧ other < live.size then sets.liveOut else live.liveOut other := by
  unfold liveOut
  rw [Array.getElem?_setIfInBounds]
  by_cases same : node = other <;> by_cases bound : other < live.size <;> simp [same, bound]

structure Below (small large : LiveMap) : Prop where
  size_eq : small.size = large.size
  liveIn : ∀ node, ∀ reg ∈ small.liveIn node, reg ∈ large.liveIn node
  liveOut : ∀ node, ∀ reg ∈ small.liveOut node, reg ∈ large.liveOut node

theorem Below.refl (live : LiveMap) : Below live live :=
  ⟨rfl, fun _ _ member => member, fun _ _ member => member⟩

theorem Below.trans {a b c : LiveMap} (first : Below a b) (second : Below b c) : Below a c :=
  ⟨first.size_eq.trans second.size_eq,
    fun node reg member => second.liveIn node reg (first.liveIn node reg member),
    fun node reg member => second.liveOut node reg (first.liveOut node reg member)⟩

theorem ext_sets {a b : LiveMap} (size : a.size = b.size)
    (liveIn : ∀ node < a.size, a.liveIn node = b.liveIn node)
    (liveOut : ∀ node < a.size, a.liveOut node = b.liveOut node) : a = b := by
  apply Array.ext size
  intro node left right
  have before := liveIn node left
  have after := liveOut node left
  simp only [LiveMap.liveIn, LiveMap.liveOut, Array.getElem?_eq_getElem left,
    Array.getElem?_eq_getElem right, Option.map_some, Option.getD_some] at before after
  cases sets : a[node]
  cases others : b[node]
  simp_all

theorem Below.antisymm {a b : LiveMap} (first : Below a b) (second : Below b a) : a = b :=
  ext_sets first.size_eq
    (fun node _ => Std.ExtTreeSet.ext_mem fun reg =>
      ⟨first.liveIn node reg, second.liveIn node reg⟩)
    (fun node _ => Std.ExtTreeSet.ext_mem fun reg =>
      ⟨first.liveOut node reg, second.liveOut node reg⟩)

def weight (live : LiveMap) : Nat :=
  ∑ node ∈ Finset.range live.size, ((live.liveIn node).size + (live.liveOut node).size)

theorem Below.weight_lt {a b : LiveMap} (below : Below a b) (distinct : a ≠ b) :
    a.weight < b.weight := by
  have differ : ∃ node ∈ Finset.range a.size,
      (a.liveIn node).size + (a.liveOut node).size <
        (b.liveIn node).size + (b.liveOut node).size := by
    by_contra none
    push Not at none
    refine distinct (ext_sets below.size_eq (fun node bound => ?_) fun node bound => ?_)
    all_goals
      have full := none node (Finset.mem_range.2 bound)
      have left := RegSet.size_le_of_subset (below.liveIn node)
      have right := RegSet.size_le_of_subset (below.liveOut node)
    · exact RegSet.eq_of_subset_of_size_le (below.liveIn node) (by omega)
    · exact RegSet.eq_of_subset_of_size_le (below.liveOut node) (by omega)
  rw [weight, weight, ← below.size_eq]
  exact Finset.sum_lt_sum
    (fun node _ => Nat.add_le_add (RegSet.size_le_of_subset (below.liveIn node))
      (RegSet.size_le_of_subset (below.liveOut node))) differ

end LiveMap

namespace FlowGraph

theorem mem_liveAfter {graph : FlowGraph} {live : LiveMap} {node : Nat} {reg : VReg} :
    reg ∈ graph.liveAfter live node ↔ ∃ succ ∈ graph.succs node, reg ∈ live.liveIn succ := by
  have fold : ∀ (succs : List Nat) (start : RegSet),
      reg ∈ succs.foldl (fun found succ => found ∪ live.liveIn succ) start ↔
        reg ∈ start ∨ ∃ succ ∈ succs, reg ∈ live.liveIn succ := by
    intro succs
    induction succs with
    | nil => simp
    | cons succ rest ih =>
      intro start
      rw [List.foldl_cons, ih, Std.ExtTreeSet.mem_union_iff, List.exists_mem_cons_iff, or_assoc]
  rw [liveAfter, fold]
  simp

theorem mem_registers_of_instr? {graph : FlowGraph} {node : Nat} {instr : Instr} {reg : VReg}
    (here : graph.instr? node = some instr) (mentioned : reg ∈ instr.virtualOperands) :
    reg ∈ graph.registers := by
  unfold instr? at here
  obtain ⟨found, known, rfl⟩ := Option.map_eq_some_iff.1 here
  rw [registers, Std.ExtTreeSet.mem_ofList, List.contains_iff_mem, List.mem_flatMap]
  exact ⟨found, Array.mem_toList_iff.2 (Array.mem_of_getElem? known), mentioned⟩

theorem lt_size_iff {graph : FlowGraph} {node : Nat} :
    node < graph.size ↔ ∃ instr, graph.instr? node = some instr := by
  unfold size instr?
  by_cases bound : node < graph.nodes.size <;> simp [bound]

/-! ## One update -/

/-- No set holds more than its equation allows. -/
structure Rising (graph : FlowGraph) (live : LiveMap) : Prop where
  size_eq : live.size = graph.size
  liveIn : ∀ node instr, graph.instr? node = some instr →
    ∀ reg ∈ live.liveIn node, reg ∈ instr.liveBefore (graph.liveAfter live node)
  liveOut : ∀ node instr, graph.instr? node = some instr →
    ∀ reg ∈ live.liveOut node, reg ∈ graph.liveAfter live node

theorem rising_noneLive (graph : FlowGraph) : graph.Rising graph.noneLive := by
  have empty (node : Nat) : graph.noneLive.liveIn node = ∅ ∧ graph.noneLive.liveOut node = ∅ := by
    unfold noneLive LiveMap.liveIn LiveMap.liveOut
    rw [Array.getElem?_replicate]
    split <;> exact ⟨rfl, rfl⟩
  refine ⟨by simp [noneLive], fun node instr _ reg member => ?_, fun node instr _ reg member => ?_⟩
  · simp [(empty node).1] at member
  · simp [(empty node).2] at member

theorem liveAfter_mono {graph : FlowGraph} {small large : LiveMap}
    (below : LiveMap.Below small large) (node : Nat) :
    ∀ reg ∈ graph.liveAfter small node, reg ∈ graph.liveAfter large node := by
  intro reg member
  obtain ⟨succ, edge, live⟩ := mem_liveAfter.1 member
  exact mem_liveAfter.2 ⟨succ, edge, below.liveIn succ reg live⟩

theorem liveBefore_mono {instr : Instr} {small large : RegSet}
    (subset : ∀ reg ∈ small, reg ∈ large) :
    ∀ reg ∈ instr.liveBefore small, reg ∈ instr.liveBefore large := by
  intro reg member
  rw [Instr.mem_liveBefore] at member ⊢
  exact member.imp_right (And.imp_left (subset reg))

theorem updateLive_eq {graph : FlowGraph} {live : LiveMap} {node : Nat} {instr : Instr}
    (here : graph.instr? node = some instr) :
    graph.updateLive live node = live.setIfInBounds node
      { liveIn := instr.liveBefore (graph.liveAfter live node)
        liveOut := graph.liveAfter live node } := by
  simp [updateLive, here]

theorem Rising.below_update {graph : FlowGraph} {live : LiveMap} (rising : graph.Rising live)
    (node : Nat) : LiveMap.Below live (graph.updateLive live node) := by
  cases here : graph.instr? node with
  | none =>
    rw [updateLive, here]
    exact .refl live
  | some instr =>
    rw [updateLive_eq here]
    refine ⟨by simp, fun other reg member => ?_, fun other reg member => ?_⟩
    · rw [LiveMap.liveIn_set]
      split
      · next same => exact rising.liveIn node instr here reg (same.1 ▸ member)
      · exact member
    · rw [LiveMap.liveOut_set]
      split
      · next same => exact rising.liveOut node instr here reg (same.1 ▸ member)
      · exact member

theorem Rising.update {graph : FlowGraph} {live : LiveMap} (rising : graph.Rising live)
    (node : Nat) : graph.Rising (graph.updateLive live node) := by
  have below := rising.below_update node
  cases here : graph.instr? node with
  | none =>
    rw [updateLive, here]
    exact rising
  | some instr =>
    have after (other : Nat) := @liveAfter_mono graph _ _ below other
    rw [updateLive_eq here] at after ⊢
    refine ⟨by simpa using rising.size_eq, fun other found there reg member => ?_,
      fun other found there reg member => ?_⟩
    · apply liveBefore_mono (after other)
      rw [LiveMap.liveIn_set] at member
      split at member
      · next same =>
        obtain ⟨rfl, -⟩ := same
        rw [here, Option.some.injEq] at there
        exact there ▸ member
      · exact rising.liveIn other found there reg member
    · apply after other
      rw [LiveMap.liveOut_set] at member
      split at member
      · next same => exact same.1 ▸ member
      · exact rising.liveOut other found there reg member

/-! ## One pass -/

theorem Rising.pass {graph : FlowGraph} {live : LiveMap} (rising : graph.Rising live)
    (order : List Nat) :
    LiveMap.Below live (graph.livePass order live) ∧ graph.Rising (graph.livePass order live) := by
  unfold livePass
  induction order generalizing live with
  | nil => exact ⟨.refl live, rising⟩
  | cons node rest ih =>
    obtain ⟨below, later⟩ := ih (rising.update node)
    exact ⟨(rising.below_update node).trans below, later⟩

/-- A pass that changes nothing consists of updates that change nothing. -/
theorem Rising.update_eq_of_pass_eq {graph : FlowGraph} {live : LiveMap}
    (rising : graph.Rising live) {order : List Nat} (same : graph.livePass order live = live)
    {node : Nat} (member : node ∈ order) : graph.updateLive live node = live := by
  induction order with
  | nil => cases member
  | cons first rest ih =>
    have below := rising.below_update first
    have later := ((rising.update first).pass rest).1
    rw [show graph.livePass rest (graph.updateLive live first) = live from same] at later
    have still : graph.updateLive live first = live := later.antisymm below
    rcases List.mem_cons.1 member with rfl | member
    · exact still
    · refine ih ?_ member
      rw [← still]
      exact same.trans still.symm

/-! ## Termination -/

/-- Only registers of the graph are ever live. -/
structure Within (graph : FlowGraph) (live : LiveMap) : Prop where
  liveIn : ∀ node, ∀ reg ∈ live.liveIn node, reg ∈ graph.registers
  liveOut : ∀ node, ∀ reg ∈ live.liveOut node, reg ∈ graph.registers

theorem Within.update {graph : FlowGraph} {live : LiveMap} (within : graph.Within live)
    (node : Nat) : graph.Within (graph.updateLive live node) := by
  cases here : graph.instr? node with
  | none =>
    rw [updateLive, here]
    exact within
  | some instr =>
    have after : ∀ reg ∈ graph.liveAfter live node, reg ∈ graph.registers := by
      intro reg member
      obtain ⟨succ, -, member⟩ := mem_liveAfter.1 member
      exact within.liveIn succ reg member
    rw [updateLive_eq here]
    refine ⟨fun other reg member => ?_, fun other reg member => ?_⟩
    · rw [LiveMap.liveIn_set] at member
      split at member
      · rcases Instr.mem_liveBefore.1 member with used | ⟨later, -⟩
        · exact mem_registers_of_instr? here (List.mem_append_left _ used)
        · exact after reg later
      · exact within.liveIn other reg member
    · rw [LiveMap.liveOut_set] at member
      split at member
      · exact after reg member
      · exact within.liveOut other reg member

theorem Within.pass {graph : FlowGraph} {live : LiveMap} (within : graph.Within live)
    (order : List Nat) : graph.Within (graph.livePass order live) := by
  unfold livePass
  induction order generalizing live with
  | nil => exact within
  | cons node rest ih => exact ih (within.update node)

theorem within_noneLive (graph : FlowGraph) : graph.Within graph.noneLive := by
  refine ⟨fun node reg member => ?_, fun node reg member => ?_⟩ <;>
  · simp only [noneLive, LiveMap.liveIn, LiveMap.liveOut, Array.getElem?_replicate] at member
    split at member <;> simp at member

theorem Within.weight_lt {graph : FlowGraph} {live : LiveMap} (within : graph.Within live)
    (size : live.size = graph.size) : live.weight < graph.passLimit := by
  have each : ∀ node ∈ Finset.range live.size,
      (live.liveIn node).size + (live.liveOut node).size ≤ 2 * graph.registers.size := by
    intro node _
    have left := RegSet.size_le_of_subset (within.liveIn node)
    have right := RegSet.size_le_of_subset (within.liveOut node)
    omega
  have total := Finset.sum_le_card_nsmul _ _ _ each
  rw [Finset.card_range, nsmul_eq_mul, Nat.cast_id] at total
  calc live.weight
      ≤ live.size * (2 * graph.registers.size) := total
    _ = 2 * graph.size * graph.registers.size := by rw [size]; ring
    _ < graph.passLimit := Nat.lt_succ_self _

/-- How many passes it takes until one changes nothing, and the sets that this one leaves. -/
inductive Settles (graph : FlowGraph) (order : List Nat) : LiveMap → Nat → LiveMap → Prop
  | still {live : LiveMap} (same : graph.livePass order live = live) :
      Settles graph order live 1 live
  | again {live final : LiveMap} {passes : Nat} (changed : graph.livePass order live ≠ live)
      (later : Settles graph order (graph.livePass order live) passes final) :
      Settles graph order live (passes + 1) final

theorem Settles.stable {graph : FlowGraph} {order : List Nat} {live final : LiveMap} {passes : Nat}
    (settles : graph.Settles order live passes final) (rising : graph.Rising live) :
    graph.Rising final ∧ graph.livePass order final = final := by
  induction settles with
  | still same => exact ⟨rising, same⟩
  | again changed later ih => exact ih (rising.pass order).2

/-- With as much fuel as the sets may still grow, the passes end with one that changes nothing. -/
theorem livePasses_settles {graph : FlowGraph} {order : List Nat} (fuel : Nat) {live : LiveMap}
    (rising : graph.Rising live) (within : graph.Within live)
    (enough : graph.passLimit ≤ fuel + live.weight) :
    graph.Settles order live (graph.livePasses order fuel live).1
      (graph.livePasses order fuel live).2 := by
  induction fuel generalizing live with
  | zero =>
    have bound := within.weight_lt rising.size_eq
    omega
  | succ fuel ih =>
    by_cases same : graph.livePass order live = live
    · simpa [livePasses, same] using Settles.still same
    · obtain ⟨below, next⟩ := rising.pass order
      have grown := below.weight_lt (Ne.symm same)
      simpa [livePasses, same] using Settles.again same (ih next (within.pass order) (by omega))

end FlowGraph

end MipsBackend
