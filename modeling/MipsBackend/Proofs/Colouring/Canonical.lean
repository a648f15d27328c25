import Mathlib.Combinatorics.Enumerative.DoubleCounting
import Mathlib.Data.Sym.Sym2
import MipsBackend.Proofs.Colouring.Removal

/-!
# Interference graphs are canonical

A graph is the same as its registers and its joined pairs (`eq_of_joined_iff`), and these are the
registers and the pairs that the calls name which made it grow. So neither the order of the calls
nor their number nor the direction of an edge can be seen in the graph, or in its colouring.
-/

namespace MipsBackend

namespace InterferenceGraph

/-! ## What calls name -/

def Growth.registers : Growth → List VReg
  | .register reg => [reg]
  | .edge a b => [a, b]

/-- The unordered pair that a call joins. A register is not joined with itself. -/
def Growth.pair? : Growth → Option (Sym2 VReg)
  | .register _ => none
  | .edge a b => if a = b then none else some s(a, b)

def namedRegisters (calls : List Growth) : Finset VReg :=
  (calls.flatMap Growth.registers).toFinset

def namedPairs (calls : List Growth) : Finset (Sym2 VReg) :=
  (calls.filterMap Growth.pair?).toFinset

/-- The other registers that some call joins with `reg`. -/
def partners (calls : List Growth) (reg : VReg) : Finset VReg :=
  (namedRegisters calls).filter fun other =>
    other ≠ reg ∧ (.edge reg other ∈ calls ∨ .edge other reg ∈ calls)

theorem mem_namedPairs {calls : List Growth} {a b : VReg} :
    s(a, b) ∈ namedPairs calls ↔ a ≠ b ∧ (.edge a b ∈ calls ∨ .edge b a ∈ calls) := by
  simp only [namedPairs, List.mem_toFinset, List.mem_filterMap]
  constructor
  · rintro ⟨call, listed, joins⟩
    cases call with
    | register reg => cases joins
    | edge x y =>
      by_cases same : x = y
      · simp [Growth.pair?, same] at joins
      · simp only [Growth.pair?, same, if_false, Option.some.injEq, Sym2.eq_iff] at joins
        obtain ⟨rfl, rfl⟩ | ⟨rfl, rfl⟩ := joins
        · exact ⟨same, .inl listed⟩
        · exact ⟨Ne.symm same, .inr listed⟩
  · rintro ⟨distinct, listed | listed⟩
    · exact ⟨_, listed, by simp [Growth.pair?, distinct]⟩
    · exact ⟨_, listed, by simp [Growth.pair?, distinct.symm, Sym2.eq_swap]⟩

theorem mem_partners {calls : List Growth} {reg other : VReg} :
    other ∈ partners calls reg ↔ s(reg, other) ∈ namedPairs calls := by
  rw [partners, Finset.mem_filter, mem_namedPairs, ne_comm]
  refine ⟨And.right, fun joined => ⟨?_, joined⟩⟩
  rw [namedRegisters, List.mem_toFinset, List.mem_flatMap]
  rcases joined.2 with listed | listed
  · exact ⟨_, listed, by simp [Growth.registers]⟩
  · exact ⟨_, listed, by simp [Growth.registers]⟩

/-! ## What a graph records of the calls -/

theorem contains_grow {graph : InterferenceGraph} {call : Growth} {reg : VReg} :
    (graph.grow call).contains reg = true ↔ graph.contains reg = true ∨ reg ∈ call.registers := by
  cases call with
  | register added => simp [grow, Growth.registers, contains_addRegister]
  | edge a b => simp [grow, Growth.registers, contains_addEdge]

theorem joined_grow {graph : InterferenceGraph} {call : Growth} {a b : VReg} :
    (graph.grow call).Joined a b ↔ graph.Joined a b ∨ call.pair? = some s(a, b) := by
  cases call with
  | register added => simp [grow, Growth.pair?]
  | edge x y =>
    rw [grow, joined_addEdge, Growth.pair?]
    by_cases same : x = y
    · simp [same]
    · simp only [same, ne_eq, not_false_eq_true, true_and, if_false, Option.some.injEq, Sym2.eq_iff]
      grind

theorem contains_grown {calls : List Growth} {reg : VReg} :
    (grown calls).contains reg = true ↔ reg ∈ namedRegisters calls := by
  induction calls using List.reverseRecOn with
  | nil => simp [grown, empty, contains, namedRegisters]
  | append_singleton calls call ih =>
    rw [grown_append, contains_grow, ih]
    simp [namedRegisters]

theorem joined_grown {calls : List Growth} {a b : VReg} :
    (grown calls).Joined a b ↔ s(a, b) ∈ namedPairs calls := by
  induction calls using List.reverseRecOn with
  | nil => simp [grown, namedPairs]
  | append_singleton calls call ih =>
    rw [grown_append, joined_grow, ih]
    simp only [namedPairs, List.mem_toFinset, List.mem_filterMap, List.mem_append,
      List.mem_singleton, or_and_right, exists_or, exists_eq_left]

/-! ## Graphs with the same registers and edges -/

theorem getElem?_adjacency (graph : InterferenceGraph) (reg : VReg) :
    graph.adjacency[reg]? =
      if graph.contains reg = true then some (graph.neighbours reg) else none := by
  split
  · next known => exact Std.ExtTreeMap.getElem?_eq_some_getD (contains_iff.1 known)
  · next unknown => exact Std.ExtTreeMap.getElem?_eq_none (mt contains_iff.2 unknown)

theorem eq_of_joined_iff {graph other : InterferenceGraph}
    (registers : ∀ reg, graph.contains reg = true ↔ other.contains reg = true)
    (joined : ∀ a b, graph.Joined a b ↔ other.Joined a b) : graph = other := by
  have neighbours (reg : VReg) : graph.neighbours reg = other.neighbours reg :=
    Std.ExtTreeSet.ext_mem (joined reg)
  have adjacency : graph.adjacency = other.adjacency := by
    apply Std.ExtTreeMap.ext_getElem?
    intro reg
    simp only [getElem?_adjacency, registers, neighbours]
  cases graph
  cases other
  cases adjacency
  rfl

theorem grown_eq_grown_iff {calls others : List Growth} :
    grown others = grown calls ↔
      namedRegisters others = namedRegisters calls ∧ namedPairs others = namedPairs calls := by
  constructor
  · intro same
    constructor
    · ext reg
      rw [← contains_grown, ← contains_grown, same]
    · ext pair
      induction pair with
      | h a b => rw [← joined_grown, ← joined_grown, same]
  · rintro ⟨registers, pairs⟩
    apply eq_of_joined_iff
    · intro reg
      rw [contains_grown, contains_grown, registers]
    · intro a b
      rw [joined_grown, joined_grown, pairs]

/-! ## Edges -/

theorem Joined.contains {graph : InterferenceGraph} {a b : VReg} (joined : graph.Joined a b) :
    graph.contains a = true := by
  by_contra unknown
  rw [Joined, neighbours, Std.ExtTreeMap.getD_eq_fallback (mt contains_iff.2 unknown)] at joined
  exact Std.ExtTreeSet.not_mem_empty joined

/-- The edge from the smaller of two joined registers to the larger. -/
def Rises (graph : InterferenceGraph) (a b : VReg) : Prop :=
  a < b ∧ graph.interferes a b = true

instance (graph : InterferenceGraph) (a b : VReg) : Decidable (graph.Rises a b) :=
  inferInstanceAs (Decidable (_ ∧ _))

theorem Rises.joined {graph : InterferenceGraph} {a b : VReg} (rises : graph.Rises a b) :
    graph.Joined a b :=
  interferes_iff.1 rises.2

theorem WellFormed.joined_iff_rises {graph : InterferenceGraph} (formed : graph.WellFormed)
    {a b : VReg} : graph.Joined a b ↔ graph.Rises a b ∨ graph.Rises b a := by
  constructor
  · intro joined
    have distinct : a ≠ b := fun same => formed.irrefl (same ▸ joined)
    rcases Nat.lt_or_gt_of_ne distinct with less | greater
    · exact .inl ⟨less, interferes_iff.2 joined⟩
    · exact .inr ⟨greater, interferes_iff.2 (formed.symm joined)⟩
  · rintro (rises | falls)
    · exact rises.joined
    · exact formed.symm falls.joined

theorem mem_edges {graph : InterferenceGraph} {a b : VReg} :
    (a, b) ∈ graph.edges ↔ graph.Rises a b := by
  simp only [edges, List.mem_flatMap, List.mem_map, List.mem_filter, Std.ExtTreeSet.mem_toList,
    decide_eq_true_eq, Prod.mk.injEq]
  constructor
  · rintro ⟨_, -, _, ⟨joined, less⟩, rfl, rfl⟩
    exact ⟨less, interferes_iff.2 joined⟩
  · intro rises
    exact ⟨a, mem_registers.2 rises.joined.contains, b, ⟨rises.joined, rises.1⟩, rfl, rfl⟩

theorem edges_nodup (graph : InterferenceGraph) : graph.edges.Nodup := by
  refine List.nodup_flatMap.2 ⟨fun a _ => ?_, ?_⟩
  · exact ((RegSet.toList_nodup _).filter _).map fun _ _ same => congrArg Prod.snd same
  · refine graph.registers_nodup.imp fun {a b} distinct => ?_
    rw [Function.onFun, List.disjoint_left]
    intro edge first second
    obtain ⟨_, -, rfl⟩ := List.mem_map.1 first
    obtain ⟨_, -, same⟩ := List.mem_map.1 second
    exact distinct (congrArg Prod.fst same).symm

def pairs (graph : InterferenceGraph) : List (Sym2 VReg) :=
  graph.edges.map fun (a, b) => s(a, b)

theorem pairs_nodup (graph : InterferenceGraph) : graph.pairs.Nodup := by
  refine graph.edges_nodup.map_on ?_
  rintro ⟨a, b⟩ first ⟨x, y⟩ second same
  have less := (mem_edges.1 first).1
  have less' := (mem_edges.1 second).1
  obtain ⟨rfl, rfl⟩ | ⟨rfl, rfl⟩ := Sym2.eq_iff.1 same
  · rfl
  · exact absurd less (Nat.lt_asymm less')

theorem mem_pairs {graph : InterferenceGraph} (formed : graph.WellFormed) {a b : VReg} :
    s(a, b) ∈ graph.pairs ↔ graph.Joined a b := by
  simp only [pairs, List.mem_map, Prod.exists, mem_edges, formed.joined_iff_rises]
  constructor
  · rintro ⟨x, y, rises, same⟩
    obtain ⟨rfl, rfl⟩ | ⟨rfl, rfl⟩ := Sym2.eq_iff.1 same
    · exact .inl rises
    · exact .inr rises
  · rintro (rises | falls)
    · exact ⟨a, b, rises, rfl⟩
    · exact ⟨b, a, falls, Sym2.eq_swap⟩

/-! ## Degrees -/

theorem degree_eq_card {graph : InterferenceGraph} {reg : VReg} {others : Finset VReg}
    (joined : ∀ other, graph.Joined reg other ↔ other ∈ others) :
    graph.degree reg = others.card := by
  rw [← Finset.length_toList]
  exact degree_eq_length others.nodup_toList fun other => (joined other).trans Finset.mem_toList.symm

section Sums

variable {graph : InterferenceGraph} (formed : graph.WellFormed)

include formed

theorem length_edges :
    graph.edges.length = ∑ reg ∈ graph.registers.toFinset,
      (graph.registers.toFinset.bipartiteAbove graph.Rises reg).card := by
  rw [List.sum_toFinset _ graph.registers_nodup, edges, List.length_flatMap]
  refine congrArg List.sum (List.map_congr_left fun reg _ => ?_)
  rw [List.length_map, ← List.toFinset_card_of_nodup ((RegSet.toList_nodup _).filter _)]
  congr 1
  ext other
  simp only [List.mem_toFinset, List.mem_filter, Std.ExtTreeSet.mem_toList, decide_eq_true_eq,
    Finset.mem_bipartiteAbove, mem_registers]
  constructor
  · rintro ⟨joined, less⟩
    exact ⟨formed.registered joined, less, interferes_iff.2 joined⟩
  · rintro ⟨-, rises⟩
    exact ⟨rises.joined, rises.1⟩

theorem degree_eq_above_add_below (reg : VReg) :
    graph.degree reg = (graph.registers.toFinset.bipartiteAbove graph.Rises reg).card +
      (graph.registers.toFinset.bipartiteBelow graph.Rises reg).card := by
  have apart : Disjoint (graph.registers.toFinset.bipartiteAbove graph.Rises reg)
      (graph.registers.toFinset.bipartiteBelow graph.Rises reg) := by
    rw [Finset.disjoint_left]
    intro other above below
    have rises := ((Finset.mem_bipartiteAbove _).1 above).2
    have falls := ((Finset.mem_bipartiteBelow _).1 below).2
    exact Nat.lt_asymm rises.1 falls.1
  rw [← Finset.card_union_of_disjoint apart]
  apply degree_eq_card
  intro other
  rw [Finset.mem_union, Finset.mem_bipartiteAbove, Finset.mem_bipartiteBelow, ← and_or_left,
    ← formed.joined_iff_rises, List.mem_toFinset, mem_registers]
  exact ⟨fun joined => ⟨formed.registered joined, joined⟩, And.right⟩

theorem sum_degree : (graph.registers.map graph.degree).sum = 2 * graph.edges.length := by
  let registers := graph.registers.toFinset
  calc (graph.registers.map graph.degree).sum
      = ∑ reg ∈ registers, graph.degree reg := (List.sum_toFinset _ graph.registers_nodup).symm
    _ = ∑ reg ∈ registers, (registers.bipartiteAbove graph.Rises reg).card +
          ∑ reg ∈ registers, (registers.bipartiteBelow graph.Rises reg).card := by
        rw [← Finset.sum_add_distrib]
        exact Finset.sum_congr rfl fun reg _ => degree_eq_above_add_below formed reg
    _ = graph.edges.length + graph.edges.length := by
        -- An edge is counted above its smaller end and below its larger one.
        rw [← Finset.sum_card_bipartiteAbove_eq_sum_card_bipartiteBelow, length_edges formed]
    _ = 2 * graph.edges.length := (Nat.two_mul _).symm

end Sums

/-! ## Runs of calls -/

/-- What a graph has to be that calls made grow, each register, pair and edge counted once. -/
structure Records (graph : InterferenceGraph) (calls : List Growth) : Prop where
  formed : graph.WellFormed
  registers : graph.registers.toFinset = namedRegisters calls
  degree : ∀ reg, graph.degree reg = (partners calls reg).card
  ascending : ∀ edge ∈ graph.edges, edge.1 < edge.2
  once : graph.pairs.Nodup
  pairs : graph.pairs.toFinset = namedPairs calls
  degrees : (graph.registers.map graph.degree).sum = 2 * graph.edges.length

theorem grown_records (calls : List Growth) : (grown calls).Records calls where
  formed := wellFormed_grown calls
  registers := by
    ext reg
    rw [List.mem_toFinset, mem_registers, contains_grown]
  degree reg := degree_eq_card fun other => joined_grown.trans mem_partners.symm
  ascending edge listed := (mem_edges.1 listed).1
  once := pairs_nodup _
  pairs := by
    ext pair
    induction pair with
    | h a b => rw [List.mem_toFinset, mem_pairs (wellFormed_grown calls), joined_grown]
  degrees := sum_degree (wellFormed_grown calls)

/-- A graph is undirected without loops, its degrees count the registers that calls joined, and its
edges are the pairs that they named. Two runs of calls lead to one graph exactly if they name the
same registers and pairs, and then to one colouring. -/
theorem grown_canonical (calls : List Growth) :
    (grown calls).Records calls ∧
      ∀ others,
        (grown others = grown calls ↔
          namedRegisters others = namedRegisters calls ∧ namedPairs others = namedPairs calls) ∧
        (namedRegisters others = namedRegisters calls → namedPairs others = namedPairs calls →
          ∀ k heuristic,
            (grown others).colour k heuristic = (grown calls).colour k heuristic) := by
  refine ⟨grown_records calls, fun others => ⟨grown_eq_grown_iff, ?_⟩⟩
  intro registers pairs k heuristic
  rw [grown_eq_grown_iff.2 ⟨registers, pairs⟩]

def triangle : List Growth :=
  [.register 7, .edge 0 1, .edge 0 2, .edge 1 2]

/-- `triangle` in another order, with turned and repeated edges and a register joined with itself. -/
def ramblingTriangle : List Growth :=
  [.edge 2 1, .edge 7 7, .register 1, .edge 1 0, .edge 2 1, .edge 1 2, .edge 2 0]

theorem grown_canonical_triangle :
    namedRegisters ramblingTriangle = namedRegisters triangle ∧
      namedPairs ramblingTriangle = namedPairs triangle ∧
      ∀ k heuristic,
        (grown ramblingTriangle).colour k heuristic = (grown triangle).colour k heuristic := by
  have registers : namedRegisters ramblingTriangle = namedRegisters triangle := by decide
  have pairs : namedPairs ramblingTriangle = namedPairs triangle := by decide
  exact ⟨registers, pairs, ((grown_canonical triangle).2 ramblingTriangle).2 registers pairs⟩

end InterferenceGraph

end MipsBackend
