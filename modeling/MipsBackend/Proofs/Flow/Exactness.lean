import Mathlib.Data.Fintype.Card
import Mathlib.Logic.Function.Iterate
import MipsBackend.Proofs.Flow.Liveness

/-!
# Liveness is exact

A register is in the set before a node exactly if a path from the node reads it before anything on
the path writes it. Each pass carries such a fact along one more edge, whatever the order of its
updates, and a shortest path passes no node twice. So the number of nodes bounds the passes.
-/

namespace MipsBackend.FlowGraph

/-- A path of so many edges whose last node reads the register, and no other node of it writes the
register. -/
structure ReadsAlong (graph : FlowGraph) (reg : VReg) (path : Nat → Nat) (edges : Nat) : Prop where
  linked : ∀ i < edges, path (i + 1) ∈ graph.succs (path i)
  reads : ∃ instr, graph.instr? (path edges) = some instr ∧ reg ∈ instr.virtualUses
  kept : ∀ i < edges, ∀ instr, graph.instr? (path i) = some instr → instr.virtualDef? ≠ some reg

variable {graph : FlowGraph} {reg : VReg}

theorem lt_size_of_succ {node succ : Nat} (edge : succ ∈ graph.succs node) : node < graph.size := by
  by_contra outside
  unfold succs at edge
  rw [Array.getElem?_eq_none (Nat.le_of_not_lt outside)] at edge
  cases edge

namespace ReadsAlong

variable {path : Nat → Nat} {edges : Nat}

theorem tail (reads : graph.ReadsAlong reg path (edges + 1)) :
    graph.ReadsAlong reg (fun i => path (i + 1)) edges :=
  ⟨fun i bound => reads.linked (i + 1) (Nat.succ_lt_succ bound), reads.reads,
    fun i bound => reads.kept (i + 1) (Nat.succ_lt_succ bound)⟩

theorem inside (reads : graph.ReadsAlong reg path edges) {i : Nat} (bound : i ≤ edges) :
    path i < graph.size := by
  rcases Nat.lt_or_eq_of_le bound with before | rfl
  · exact lt_size_of_succ (reads.linked i before)
  · obtain ⟨instr, here, -⟩ := reads.reads
    exact lt_size_iff.2 ⟨instr, here⟩

/-- A path that comes back to a node may leave out the way round. -/
theorem shortcut (reads : graph.ReadsAlong reg path edges) {i j : Nat} (before : i < j)
    (bound : j ≤ edges) (same : path i = path j) :
    ∃ short shorter, shorter < edges ∧ short 0 = path 0 ∧ graph.ReadsAlong reg short shorter := by
  let skip (k : Nat) : Nat := if k ≤ i then k else k + (j - i)
  -- Behind `i` the short path is the old one behind `j`.
  have step : ∀ k, path (skip (k + 1)) = path (if k < i then k + 1 else k + 1 + (j - i)) ∧
      path (skip k) = path (if k < i then k else k + (j - i)) := by
    intro k
    rcases Nat.lt_trichotomy k i with less | rfl | more
    · simp [skip, less, Nat.succ_le_of_lt less, Nat.le_of_lt less]
    · have joined : k + (j - k) = j := by omega
      simp [skip, joined, same]
    · simp [skip, show ¬ k ≤ i by omega, show ¬ k < i by omega, show ¬ k + 1 ≤ i by omega]
  refine ⟨fun k => path (skip k), edges - (j - i), by omega, by simp [skip], fun k inner => ?_, ?_,
    fun k inner => ?_⟩
  · rw [(step k).1, (step k).2]
    split
    · exact reads.linked k (by omega)
    · have moved := reads.linked (k + (j - i)) (by omega)
      rwa [show k + (j - i) + 1 = k + 1 + (j - i) by omega] at moved
  · have last : path (skip (edges - (j - i))) = path edges := by
      rw [(step _).2, if_neg (by omega)]
      congr 1
      omega
    rw [last]
    exact reads.reads
  · rw [(step k).2]
    split
    · exact reads.kept k (by omega)
    · exact reads.kept (k + (j - i)) (by omega)

/-- A path without a shortcut visits each node at most once. -/
theorem exists_short (reads : graph.ReadsAlong reg path edges) :
    ∃ short shorter, shorter < graph.size ∧ short 0 = path 0 ∧
      graph.ReadsAlong reg short shorter := by
  induction edges using Nat.strong_induction_on generalizing path with
  | _ edges ih =>
    by_cases repeats : ∃ i j, i < j ∧ j ≤ edges ∧ path i = path j
    · obtain ⟨i, j, before, bound, same⟩ := repeats
      obtain ⟨short, shorter, fewer, starts, still⟩ := reads.shortcut before bound same
      obtain ⟨least, count, small, begins, final⟩ := ih shorter fewer still
      exact ⟨least, count, small, begins.trans starts, final⟩
    · refine ⟨path, edges, ?_, rfl, reads⟩
      let visited (i : Fin (edges + 1)) : Fin graph.size :=
        ⟨path i, reads.inside (Nat.le_of_lt_succ i.isLt)⟩
      have distinct : Function.Injective visited := by
        intro i j same
        have paths : path i = path j := congrArg Fin.val same
        by_contra differ
        rcases Nat.lt_or_gt_of_ne (Fin.val_ne_of_ne differ) with less | more
        · exact repeats ⟨i, j, less, Nat.le_of_lt_succ j.isLt, paths⟩
        · exact repeats ⟨j, i, more, Nat.le_of_lt_succ i.isLt, paths.symm⟩
      simpa [Nat.succ_le_iff] using Fintype.card_le_of_injective visited distinct

end ReadsAlong

theorem liveBefore_iff {node : Nat} :
    graph.LiveBefore reg node ↔
      ∃ path edges, path 0 = node ∧ graph.ReadsAlong reg path edges := by
  constructor
  · intro live
    induction live with
    | @read node instr here used =>
      exact ⟨fun _ => node, 0, rfl, fun _ bound => absurd bound (Nat.not_lt_zero _),
        ⟨instr, here, used⟩, fun _ bound => absurd bound (Nat.not_lt_zero _)⟩
    | @later node succ instr here edge kept next ih =>
      obtain ⟨path, edges, rfl, reads⟩ := ih
      refine ⟨fun i => i.casesOn node path, edges + 1, rfl, fun i bound => ?_, reads.reads,
        fun i bound found there => ?_⟩
      · cases i with
        | zero => exact edge
        | succ i => exact reads.linked i (Nat.lt_of_succ_lt_succ bound)
      · cases i with
        | zero =>
          obtain rfl := Option.some.inj (here.symm.trans there)
          exact kept
        | succ i => exact reads.kept i (Nat.lt_of_succ_lt_succ bound) found there
  · rintro ⟨path, edges, rfl, reads⟩
    induction edges generalizing path with
    | zero =>
      obtain ⟨instr, here, used⟩ := reads.reads
      exact .read here used
    | succ edges ih =>
      obtain ⟨instr, here⟩ := lt_size_iff.1 (reads.inside (Nat.zero_le (edges + 1)))
      exact .later here (reads.linked 0 (Nat.succ_pos edges))
        (reads.kept 0 (Nat.succ_pos edges) instr here) (ih _ reads.tail)

/-! ## What a pass finds -/

/-- Whatever its order, a pass meets the equations of a node from the sets before the pass. -/
theorem Rising.meets {live : LiveMap} (rising : graph.Rising live) {order : List Nat} {node : Nat}
    {instr : Instr} (here : graph.instr? node = some instr) (listed : node ∈ order) :
    (∀ reg ∈ instr.liveBefore (graph.liveAfter live node),
        reg ∈ (graph.livePass order live).liveIn node) ∧
      ∀ reg ∈ graph.liveAfter live node, reg ∈ (graph.livePass order live).liveOut node := by
  induction order generalizing live with
  | nil => cases listed
  | cons first rest ih =>
    have below := rising.below_update first
    have later := (rising.update first).pass rest
    by_cases same : node = first
    · subst same
      have inside : node < live.size := rising.size_eq ▸ lt_size_iff.2 ⟨instr, here⟩
      have updated : graph.updateLive live node = _ := updateLive_eq here
      refine ⟨fun reg member => later.1.liveIn node reg ?_,
        fun reg member => later.1.liveOut node reg ?_⟩
      · rwa [updated, LiveMap.liveIn_set, if_pos ⟨rfl, inside⟩]
      · rwa [updated, LiveMap.liveOut_set, if_pos ⟨rfl, inside⟩]
    · have after : ∀ reg ∈ graph.liveAfter live node, _ := liveAfter_mono below node
      obtain ⟨before, behind⟩ := ih (rising.update first) ((List.mem_cons.1 listed).resolve_left same)
      exact ⟨fun reg member => before reg (liveBefore_mono after reg member),
        fun reg member => behind reg (after reg member)⟩

structure Sound (graph : FlowGraph) (live : LiveMap) : Prop where
  liveIn : ∀ node, ∀ reg ∈ live.liveIn node, graph.LiveBefore reg node
  liveOut : ∀ node, ∀ reg ∈ live.liveOut node, ∃ succ ∈ graph.succs node, graph.LiveBefore reg succ

theorem sound_noneLive (graph : FlowGraph) : graph.Sound graph.noneLive := by
  refine ⟨fun node reg member => ?_, fun node reg member => ?_⟩ <;>
  · simp only [noneLive, LiveMap.liveIn, LiveMap.liveOut, Array.getElem?_replicate] at member
    split at member <;> simp at member

theorem Sound.update {live : LiveMap} (sound : graph.Sound live) (node : Nat) :
    graph.Sound (graph.updateLive live node) := by
  cases here : graph.instr? node with
  | none =>
    rw [updateLive, here]
    exact sound
  | some instr =>
    have after : ∀ reg ∈ graph.liveAfter live node,
        ∃ succ ∈ graph.succs node, graph.LiveBefore reg succ := by
      intro reg member
      obtain ⟨succ, edge, inside⟩ := mem_liveAfter.1 member
      exact ⟨succ, edge, sound.liveIn succ reg inside⟩
    rw [updateLive_eq here]
    refine ⟨fun other reg member => ?_, fun other reg member => ?_⟩
    · rw [LiveMap.liveIn_set] at member
      split at member
      · next same =>
        rw [← same.1]
        rcases Instr.mem_liveBefore.1 member with used | ⟨behind, kept⟩
        · exact .read here used
        · obtain ⟨succ, edge, next⟩ := after reg behind
          exact .later here edge kept next
      · exact sound.liveIn other reg member
    · rw [LiveMap.liveOut_set] at member
      split at member
      · next same => exact same.1 ▸ after reg member
      · exact sound.liveOut other reg member

theorem Sound.pass {live : LiveMap} (sound : graph.Sound live) (order : List Nat) :
    graph.Sound (graph.livePass order live) := by
  unfold livePass
  induction order generalizing live with
  | nil => exact sound
  | cons node rest ih => exact ih (sound.update node)

/-! ## All passes -/

def liveAfterPasses (graph : FlowGraph) (passes : Nat) : LiveMap :=
  (graph.livePass graph.backwardOrder)^[passes] graph.noneLive

theorem liveAfterPasses_succ (graph : FlowGraph) (passes : Nat) :
    graph.liveAfterPasses (passes + 1) =
      graph.livePass graph.backwardOrder (graph.liveAfterPasses passes) :=
  Function.iterate_succ_apply' _ passes _

theorem liveAfterPasses_invariant (graph : FlowGraph) (passes : Nat) :
    graph.Rising (graph.liveAfterPasses passes) ∧ graph.Sound (graph.liveAfterPasses passes) := by
  induction passes with
  | zero => exact ⟨graph.rising_noneLive, graph.sound_noneLive⟩
  | succ passes ih =>
    rw [liveAfterPasses_succ]
    exact ⟨(ih.1.pass _).2, ih.2.pass _⟩

theorem ReadsAlong.found {path : Nat → Nat} {edges passes : Nat}
    (reads : graph.ReadsAlong reg path edges) (enough : edges < passes) :
    reg ∈ (graph.liveAfterPasses passes).liveIn (path 0) := by
  induction passes generalizing path edges with
  | zero => cases enough
  | succ passes ih =>
    have start := reads.inside (Nat.zero_le edges)
    obtain ⟨instr, here⟩ := lt_size_iff.1 start
    rw [liveAfterPasses_succ]
    apply ((liveAfterPasses_invariant graph passes).1.meets here (mem_backwardOrder start)).1
    rw [Instr.mem_liveBefore]
    cases edges with
    | zero =>
      obtain ⟨reader, there, used⟩ := reads.reads
      obtain rfl := Option.some.inj (here.symm.trans there)
      exact .inl used
    | succ edges =>
      have next := ih reads.tail (Nat.lt_of_succ_lt_succ enough)
      exact .inr ⟨mem_liveAfter.2 ⟨path 1, reads.linked 0 (Nat.succ_pos edges), next⟩,
        reads.kept 0 (Nat.succ_pos edges) instr here⟩

theorem mem_liveIn_afterPasses {passes : Nat} (enough : graph.size ≤ passes) {node : Nat} :
    reg ∈ (graph.liveAfterPasses passes).liveIn node ↔ graph.LiveBefore reg node := by
  refine ⟨(liveAfterPasses_invariant graph passes).2.liveIn node reg, fun live => ?_⟩
  obtain ⟨path, edges, rfl, reads⟩ := liveBefore_iff.1 live
  obtain ⟨short, shorter, few, starts, still⟩ := reads.exists_short
  exact starts ▸ still.found (Nat.lt_of_lt_of_le few enough)

theorem mem_liveOut_afterPasses {passes : Nat} (enough : graph.size ≤ passes) {node : Nat} :
    reg ∈ (graph.liveAfterPasses (passes + 1)).liveOut node ↔
      ∃ succ ∈ graph.succs node, graph.LiveBefore reg succ := by
  refine ⟨(liveAfterPasses_invariant graph (passes + 1)).2.liveOut node reg, ?_⟩
  rintro ⟨succ, edge, live⟩
  have inside := lt_size_of_succ edge
  obtain ⟨instr, here⟩ := lt_size_iff.1 inside
  rw [liveAfterPasses_succ]
  apply ((liveAfterPasses_invariant graph passes).1.meets here (mem_backwardOrder inside)).2
  exact mem_liveAfter.2 ⟨succ, edge, (mem_liveIn_afterPasses enough).2 live⟩

/-- One pass more than there are nodes leaves nothing to change. -/
theorem liveAfterPasses_still (graph : FlowGraph) :
    graph.liveAfterPasses (graph.size + 2) = graph.liveAfterPasses (graph.size + 1) := by
  have before := (liveAfterPasses_invariant graph (graph.size + 1)).1.size_eq
  have after := (liveAfterPasses_invariant graph (graph.size + 2)).1.size_eq
  refine LiveMap.ext_sets (after.trans before.symm) (fun node _ => ?_) fun node _ => ?_
  · refine Std.ExtTreeSet.ext_mem fun reg => ?_
    rw [mem_liveIn_afterPasses (by omega), mem_liveIn_afterPasses (by omega)]
  · refine Std.ExtTreeSet.ext_mem fun reg => ?_
    rw [mem_liveOut_afterPasses (by omega), mem_liveOut_afterPasses (Nat.le_refl _)]

theorem Settles.le_of_still {order : List Nat} {live final : LiveMap} {passes k : Nat}
    (settles : graph.Settles order live passes final)
    (still : (graph.livePass order)^[k + 1] live = (graph.livePass order)^[k] live) :
    passes ≤ k + 1 := by
  induction settles generalizing k with
  | still same => exact Nat.le_add_left 1 k
  | again changed later ih =>
    cases k with
    | zero => exact absurd still changed
    | succ k => exact Nat.succ_le_succ (ih still)

theorem Settles.sound {order : List Nat} {live final : LiveMap} {passes : Nat}
    (settles : graph.Settles order live passes final) (sound : graph.Sound live) :
    graph.Sound final := by
  induction settles with
  | still same => exact sound
  | again changed later ih => exact ih (sound.pass order)

theorem mem_settled_iff {node : Nat} :
    reg ∈ graph.settled.liveIn node ↔ graph.LiveBefore reg node :=
  ⟨(graph.settles.sound graph.sound_noneLive).liveIn node reg, LiveBefore.mem_settled⟩

theorem size_le_of_instr? {node : Nat} (outside : graph.instr? node = none) : graph.size ≤ node := by
  by_contra inside
  obtain ⟨instr, here⟩ := lt_size_iff.1 (Nat.lt_of_not_le inside)
  cases outside.symm.trans here

theorem liveIn_live (graph : FlowGraph) (node : Nat) :
    graph.liveness.live.liveIn node = graph.settled.liveIn node := by
  cases here : graph.instr? node with
  | some instr => exact (live_sets here).1
  | none =>
    have outside : graph.settled.size ≤ node :=
      graph.settled_stable.1.size_eq ▸ size_le_of_instr? here
    unfold LiveMap.liveIn
    rw [getElem?_live, here, Array.getElem?_eq_none outside]
    rfl

theorem liveOut_live_of_outside {node : Nat} (outside : graph.instr? node = none) :
    graph.liveness.live.liveOut node = ∅ := by
  unfold LiveMap.liveOut
  rw [getElem?_live, outside]
  rfl

/-- For every flow graph, whatever its edges: the passes come to an end, at most two more of them
than there are nodes, and a register is then live before a node exactly if some path from there
reads it before writing it, and live after a node exactly if it is live before a successor or
written by the node. -/
theorem liveness_exact (graph : FlowGraph) :
    graph.Settles graph.backwardOrder graph.noneLive graph.liveness.passes graph.settled ∧
      graph.liveness.passes ≤ graph.size + 2 ∧
      graph.liveness.live.size = graph.size ∧
      ∀ node reg,
        (reg ∈ graph.liveness.live.liveIn node ↔
          ∃ path edges, path 0 = node ∧ graph.ReadsAlong reg path edges) ∧
        (reg ∈ graph.liveness.live.liveOut node ↔
          (∃ succ ∈ graph.succs node, reg ∈ graph.liveness.live.liveIn succ) ∨
            ∃ instr, graph.instr? node = some instr ∧ instr.virtualDef? = some reg) := by
  refine ⟨graph.settles, graph.settles.le_of_still graph.liveAfterPasses_still, graph.size_live,
    fun node reg => ⟨?_, ?_⟩⟩
  · rw [liveIn_live, mem_settled_iff, liveBefore_iff]
  · cases here : graph.instr? node with
    | some instr =>
      rw [mem_liveOut_iff here]
      simp [liveIn_live]
    | none =>
      have stuck : ∀ succ, succ ∉ graph.succs node := fun succ edge =>
        Nat.not_lt_of_le (size_le_of_instr? here) (lt_size_of_succ edge)
      simp [liveOut_live_of_outside here, stuck]

end MipsBackend.FlowGraph
