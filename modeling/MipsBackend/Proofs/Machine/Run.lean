import Mathlib.Logic.Relation
import MipsBackend.Flow.Graph
import MipsBackend.Proofs.Machine.State

/-!
# Running a section

A section runs one instruction after the other; a branch goes to the instruction that its label
stands for. Called functions and system calls run outside the section and come back behind the
instruction that asked for them, so a platform says what they do as a whole.
-/

namespace MipsBackend

/-- What surrounds a section: where labels lie, and what system calls and called functions do. -/
structure Platform where
  address : Label → Word
  system : Machine → Machine → Prop
  called : Label → Machine → Machine → Prop

/-- Where control is: in front of an instruction of the section, given by its number, or gone to an
address that a register held. -/
inductive Point where
  | inside (node : Nat)
  | outside (target : Word)
deriving DecidableEq, Repr

abbrev Config := Point × Machine

def Platform.Changes (platform : Platform) (before after : Machine) : Instr → Prop
  | .syscall => platform.system before after
  | .call target => platform.called target before after
  | instr => after = before.apply (instr.change platform.address before)

namespace Section

/-- The point that control reaches behind an instruction; none if a branch has no target. -/
def follow (code : Section) (node : Nat) : Control → Option Point
  | .next => some (.inside (node + 1))
  | .goto target => (labelledNode? target 0 code.items).map .inside
  | .leave target => some (.outside target)

inductive Step (platform : Platform) (code : Section) : Config → Config → Prop
  | step {node : Nat} {instr : Instr} {before after : Machine} {point : Point}
      (here : code.instructions[node]? = some instr)
      (changes : platform.Changes before after instr)
      (goes : code.follow node (instr.control before) = some point) :
      Step platform code (.inside node, before) (point, after)

inductive Steps (platform : Platform) (code : Section) : Nat → Config → Config → Prop
  | none {config : Config} : Steps platform code 0 config config
  | more {n : Nat} {first second last : Config} (step : code.Step platform first second)
      (rest : Steps platform code n second last) : Steps platform code (n + 1) first last

namespace Steps

theorem one {platform : Platform} {code : Section} {first last : Config}
    (step : code.Step platform first last) : code.Steps platform 1 first last :=
  .more step .none

theorem trans {platform : Platform} {code : Section} {m n : Nat} {first second last : Config}
    (before : code.Steps platform m first second) (after : code.Steps platform n second last) :
    code.Steps platform (m + n) first last := by
  induction before with
  | none => rwa [Nat.zero_add]
  | more step rest ih =>
    rw [Nat.add_right_comm]
    exact .more step (ih after)

theorem run {platform : Platform} {code : Section} {n : Nat} {first last : Config}
    (steps : code.Steps platform n first last) :
    Relation.ReflTransGen (code.Step platform) first last := by
  induction steps with
  | none => exact .refl
  | more step rest ih => exact .head step ih

end Steps

end Section

/-! ## Straight code -/

/-- Whether an instruction only computes, and control always goes on to the next one. -/
def Instr.isStraight : Instr → Bool
  | syscall | branchZero _ _ _ | branchPair _ _ _ _ | jump _ | call _ | jumpReg _ => false
  | _ => true

namespace Platform

def perform (platform : Platform) (machine : Machine) (instrs : List Instr) : Machine :=
  instrs.foldl (fun machine instr => machine.apply (instr.change platform.address machine)) machine

@[simp] theorem perform_nil (platform : Platform) (machine : Machine) :
    platform.perform machine [] = machine := rfl

@[simp] theorem perform_cons (platform : Platform) (machine : Machine) (instr : Instr)
    (rest : List Instr) :
    platform.perform machine (instr :: rest) =
      platform.perform (machine.apply (instr.change platform.address machine)) rest := rfl

theorem perform_append (platform : Platform) (machine : Machine) (first second : List Instr) :
    platform.perform machine (first ++ second) =
      platform.perform (platform.perform machine first) second :=
  List.foldl_append ..

end Platform

namespace Section

theorem Step.straight {platform : Platform} {code : Section} {node : Nat} {instr : Instr}
    (here : code.instructions[node]? = some instr) (straight : instr.isStraight = true)
    (machine : Machine) :
    code.Step platform (.inside node, machine)
      (.inside (node + 1), machine.apply (instr.change platform.address machine)) := by
  refine .step here ?_ ?_
  · cases instr <;> first | rfl | cases straight
  · cases instr <;> first | rfl | cases straight

/-- The instructions stand in the section from a node on. -/
def Holds (code : Section) (node : Nat) (instrs : List Instr) : Prop :=
  instrs <+: code.instructions.drop node

theorem holds_append {code : Section} {node : Nat} {first second : List Instr} :
    code.Holds node (first ++ second) ↔
      code.Holds node first ∧ code.Holds (node + first.length) second := by
  unfold Holds
  rw [← List.drop_drop]
  constructor
  · rintro ⟨rest, same⟩
    rw [← same]
    exact ⟨⟨second ++ rest, by rw [List.append_assoc]⟩, ⟨rest, by simp⟩⟩
  · rintro ⟨⟨behind, same⟩, ⟨rest, later⟩⟩
    rw [← same, List.drop_left] at later
    exact ⟨rest, by rw [← same, ← later, List.append_assoc]⟩

theorem Holds.head {code : Section} {node : Nat} {instr : Instr} {rest : List Instr}
    (holds : code.Holds node (instr :: rest)) : code.instructions[node]? = some instr := by
  obtain ⟨behind, same⟩ := holds
  have found := @List.getElem?_drop _ code.instructions node 0
  rw [← same] at found
  exact found.symm

theorem Holds.tail {code : Section} {node : Nat} {instr : Instr} {rest : List Instr}
    (holds : code.Holds node (instr :: rest)) : code.Holds (node + 1) rest :=
  (@holds_append code node [instr] rest |>.1 holds).2

theorem Steps.straight {platform : Platform} {code : Section} {instrs : List Instr} {node : Nat}
    (holds : code.Holds node instrs) (straight : ∀ instr ∈ instrs, instr.isStraight = true)
    (machine : Machine) :
    code.Steps platform instrs.length (.inside node, machine)
      (.inside (node + instrs.length), platform.perform machine instrs) := by
  induction instrs generalizing node machine with
  | nil => exact .none
  | cons instr rest ih =>
    have first := @Step.straight platform _ _ _ holds.head
      (straight instr List.mem_cons_self) machine
    have later := ih holds.tail (fun other member => straight other (List.mem_cons_of_mem _ member))
      (machine.apply (instr.change platform.address machine))
    rw [Nat.add_right_comm] at later
    exact .more first later

end Section

end MipsBackend
