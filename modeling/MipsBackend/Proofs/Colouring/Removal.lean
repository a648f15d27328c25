import Mathlib.Data.List.Basic
import MipsBackend.Colouring.Basic
import MipsBackend.Proofs.Colouring.Graph
import MipsBackend.Proofs.Flow.Fixpoint

/-!
# The order in which registers leave the graph

The simplify loop keeps one number for each remaining register and lowers it whenever a neighbour
leaves. In a well-formed graph this number is always the count of the neighbours that remain
(`detach_worklist`), so each removal can be described without it: `RemovalOrder` says which register
may leave next by looking at the remaining registers only.
-/

namespace MipsBackend

namespace InterferenceGraph

def degreeAmong (graph : InterferenceGraph) (remaining : List VReg) (reg : VReg) : Nat :=
  remaining.countP (graph.interferes reg)

def worklist (graph : InterferenceGraph) (remaining : List VReg) : List Candidate :=
  remaining.map fun reg => { reg, degree := graph.degreeAmong remaining reg }

/-- The runs of the simplify loop. A register leaves with fewer than `k` remaining neighbours, or as
the heuristic's victim while every remaining register has at least `k`. -/
inductive RemovalOrder (graph : InterferenceGraph) (k : Nat) (heuristic : SpillHeuristic) :
    List VReg → List Removal → Prop
  | done : RemovalOrder graph k heuristic [] []
  | simplified {remaining : List VReg} {reg : VReg} {later : List Removal}
      (member : reg ∈ remaining) (low : graph.degreeAmong remaining reg < k)
      (next : RemovalOrder graph k heuristic (remaining.erase reg) later) :
      RemovalOrder graph k heuristic remaining ({ reg, spilled := false } :: later)
  | victim {remaining : List VReg} {first : Candidate} {rest : List Candidate}
      {later : List Removal} (listed : graph.worklist remaining = first :: rest)
      (stuck : ∀ reg ∈ remaining, k ≤ graph.degreeAmong remaining reg)
      (next : RemovalOrder graph k heuristic
        (remaining.erase (heuristic.choose first rest).reg) later) :
      RemovalOrder graph k heuristic remaining
        ({ reg := (heuristic.choose first rest).reg, spilled := true } :: later)

/-! ## Degrees -/

theorem mem_worklist {graph : InterferenceGraph} {remaining : List VReg} {candidate : Candidate} :
    candidate ∈ graph.worklist remaining ↔
      candidate.reg ∈ remaining ∧ candidate.degree = graph.degreeAmong remaining candidate.reg := by
  simp only [worklist, List.mem_map]
  constructor
  · rintro ⟨reg, member, rfl⟩
    exact ⟨member, rfl⟩
  · rintro ⟨member, degree⟩
    exact ⟨candidate.reg, member, by rw [← degree]⟩

theorem degree_eq_length {graph : InterferenceGraph} {reg : VReg} {others : List VReg}
    (nodup : others.Nodup) (joined : ∀ other, graph.Joined reg other ↔ other ∈ others) :
    graph.degree reg = others.length := by
  have listed : (graph.neighbours reg).toList.Perm others := by
    apply (List.perm_ext_iff_of_nodup (RegSet.toList_nodup _) nodup).2
    intro other
    rw [Std.ExtTreeSet.mem_toList]
    exact joined other
  rw [degree, ← Std.ExtTreeSet.length_toList, listed.length_eq]

theorem degree_eq_degreeAmong {graph : InterferenceGraph} (formed : graph.WellFormed)
    (reg : VReg) : graph.degree reg = graph.degreeAmong graph.registers reg := by
  rw [degreeAmong, List.countP_eq_length_filter]
  apply degree_eq_length (graph.registers_nodup.filter _)
  intro other
  rw [List.mem_filter, mem_registers, interferes_iff]
  exact ⟨fun joined => ⟨formed.registered joined, joined⟩, And.right⟩

theorem candidates_eq_worklist {graph : InterferenceGraph} (formed : graph.WellFormed) :
    graph.candidates = graph.worklist graph.registers := by
  unfold candidates worklist
  exact List.map_congr_left fun reg _ => by rw [degree_eq_degreeAmong formed]

theorem degreeAmong_erase {graph : InterferenceGraph} {remaining : List VReg} {gone reg : VReg}
    (member : gone ∈ remaining) :
    graph.degreeAmong remaining reg =
      graph.degreeAmong (remaining.erase gone) reg +
        if graph.interferes reg gone then 1 else 0 := by
  unfold degreeAmong
  rw [(List.perm_cons_erase member).countP_eq, List.countP_cons]

theorem detach_worklist {graph : InterferenceGraph} (formed : graph.WellFormed)
    {remaining : List VReg} {gone : Candidate} (member : gone ∈ graph.worklist remaining) :
    graph.detach gone.reg ((graph.worklist remaining).erase gone) =
      graph.worklist (remaining.erase gone.reg) := by
  obtain ⟨present, degree⟩ := mem_worklist.1 member
  have distinct : Function.Injective
      fun reg => ({ reg, degree := graph.degreeAmong remaining reg } : Candidate) :=
    fun a b same => congrArg Candidate.reg same
  have erased : (graph.worklist remaining).erase gone =
      (remaining.erase gone.reg).map
        fun reg => { reg, degree := graph.degreeAmong remaining reg } := by
    have gone_eq : gone = { reg := gone.reg, degree := graph.degreeAmong remaining gone.reg } := by
      rw [← degree]
    rw [List.map_erase distinct, ← gone_eq, worklist]
  rw [erased, detach, worklist, List.map_map]
  apply List.map_congr_left
  intro reg _
  have undirected : graph.interferes gone.reg reg = graph.interferes reg gone.reg := by
    rw [Bool.eq_iff_iff, interferes_iff, interferes_iff]
    exact ⟨formed.symm, formed.symm⟩
  have counted := @degreeAmong_erase graph remaining gone.reg reg present
  simp only [Function.comp_apply, undirected, counted]
  split <;> simp

end InterferenceGraph

/-! ## Runs -/

theorem SpillHeuristic.next_cases (heuristic : SpillHeuristic) (k : Nat) (first : Candidate)
    (rest : List Candidate) :
    (∃ candidate ∈ first :: rest, candidate.degree < k ∧
      heuristic.next k first rest = (candidate, false)) ∨
    ((∀ candidate ∈ first :: rest, k ≤ candidate.degree) ∧
      heuristic.next k first rest = (heuristic.choose first rest, true)) := by
  unfold next
  cases found : (first :: rest).find? (·.degree < k) with
  | some candidate =>
    have low := List.find?_some found
    exact .inl ⟨candidate, List.mem_of_find?_eq_some found, by simpa using low, rfl⟩
  | none =>
    refine .inr ⟨fun candidate member => ?_, rfl⟩
    simpa using List.find?_eq_none.1 found candidate member

namespace InterferenceGraph

theorem removals_worklist {graph : InterferenceGraph} (formed : graph.WellFormed) (k : Nat)
    (heuristic : SpillHeuristic) (remaining : List VReg) :
    RemovalOrder graph k heuristic remaining
      (graph.removals k heuristic (graph.worklist remaining)) := by
  induction size : remaining.length generalizing remaining with
  | zero =>
    rw [List.length_eq_zero_iff.1 size]
    simpa [worklist, removals] using RemovalOrder.done
  | succ n ih =>
    cases listed : graph.worklist remaining with
    | nil =>
      have empty : remaining = [] := List.map_eq_nil_iff.1 listed
      simp [empty] at size
    | cons first rest =>
      have remove (candidate : Candidate) (member : candidate ∈ graph.worklist remaining) :
          RemovalOrder graph k heuristic (remaining.erase candidate.reg)
            (graph.removals k heuristic
              (graph.detach candidate.reg ((first :: rest).erase candidate))) := by
        rw [← listed, detach_worklist formed member]
        apply ih
        rw [List.length_erase_of_mem (mem_worklist.1 member).1, size, Nat.add_sub_cancel]
      rw [removals]
      rcases heuristic.next_cases k first rest with ⟨candidate, member, low, next⟩ | ⟨stuck, next⟩
      · rw [next]
        rw [← listed] at member
        obtain ⟨present, degree⟩ := mem_worklist.1 member
        exact .simplified present (degree ▸ low) (remove candidate member)
      · rw [next]
        have member : heuristic.choose first rest ∈ graph.worklist remaining :=
          listed ▸ heuristic.choose_mem first rest
        refine .victim listed (fun reg present => ?_) (remove _ member)
        have known : ({ reg, degree := graph.degreeAmong remaining reg } : Candidate) ∈
            graph.worklist remaining := mem_worklist.2 ⟨present, rfl⟩
        exact stuck _ (listed ▸ known)

/-- The simplify loop removes all registers of the graph. -/
theorem removals_order {graph : InterferenceGraph} (formed : graph.WellFormed) (k : Nat)
    (heuristic : SpillHeuristic) :
    RemovalOrder graph k heuristic graph.registers
      (graph.removals k heuristic graph.candidates) := by
  rw [candidates_eq_worklist formed]
  exact removals_worklist formed k heuristic graph.registers

end InterferenceGraph

end MipsBackend
