import MipsBackend.Proofs.Assignment.Final

/-!
# Allocation of whole programs

A pass succeeds on every generated program, and its result is final: no virtual register and no
marker is left, and no further pass changes anything.
-/

namespace MipsBackend

namespace Pass

variable (pass : Pass)

theorem applyAll_cons {code : Section} {rest : List Section} {data : List DataItem}
    {assignment : Assignment} (assigned : pass.assignment code = .ok assignment)
    (marked : code.checkMarkers = .ok ()) :
    pass.applyAll (code :: rest) data =
      ((pass.applyAll rest (data ++ assignment.slotData code)).1,
        (pass.applyAll rest (data ++ assignment.slotData code)).2.map
          (assignment.rewritten code :: ·)) := by
  have applied := Assignment.apply_eq_ok marked (Pass.covers assigned) data
  simp only [applyAll, assigned, applied]

theorem applyAll_ready {sections : List Section} (ready : ∀ code ∈ sections, code.Ready)
    (data : List DataItem) :
    ∃ slots allocated, pass.applyAll sections data = (data ++ slots, .ok allocated) ∧
      ∀ code ∈ allocated, code.Allocated := by
  induction sections generalizing data with
  | nil => exact ⟨[], [], by rw [applyAll, List.append_nil], fun _ member => nomatch member⟩
  | cons code rest ih =>
    have here := ready code List.mem_cons_self
    obtain ⟨assignment, assigned⟩ := here.exists_assignment pass
    obtain ⟨slots, allocated, later, all⟩ :=
      ih (fun other member => ready other (List.mem_cons_of_mem _ member))
        (data ++ assignment.slotData code)
    refine ⟨assignment.slotData code ++ slots, assignment.rewritten code :: allocated, ?_, ?_⟩
    · rw [pass.applyAll_cons assigned here.marked, later, List.append_assoc]
      rfl
    · intro other member
      rcases List.mem_cons.1 member with rfl | listed
      · exact Assignment.allocated_rewritten here (Pass.covers assigned)
      · exact all other listed

theorem applyAll_allocated {sections : List Section}
    (allocated : ∀ code ∈ sections, code.Allocated) (data : List DataItem) :
    pass.applyAll sections data = (data, .ok sections) := by
  induction sections with
  | nil => rfl
  | cons code rest ih =>
    have here := allocated code List.mem_cons_self
    have later := ih fun other member => allocated other (List.mem_cons_of_mem _ member)
    obtain ⟨assignment, assigned⟩ := here.ready.exists_assignment pass
    rw [pass.applyAll_cons assigned here.ready.marked, Assignment.slotData_eq_nil here,
      Assignment.rewritten_eq_self here, List.append_nil, later]
    rfl

theorem apply_ready {program : Assembly} (ready : ∀ code ∈ program.sections, code.Ready) :
    ∃ allocated, pass.apply program = (allocated, .ok ()) ∧
      ∀ code ∈ allocated.sections, code.Allocated := by
  obtain ⟨slots, allocated, applied, all⟩ := pass.applyAll_ready ready program.data
  exact ⟨{ data := program.data ++ slots, sections := allocated }, by rw [apply, applied], all⟩

theorem apply_allocated {program : Assembly}
    (allocated : ∀ code ∈ program.sections, code.Allocated) :
    pass.apply program = (program, .ok ()) := by
  rw [apply, pass.applyAll_allocated allocated]

end Pass

namespace Program

/-- Allocation of a generated program succeeds and is final. -/
theorem allocation_final {program : Program} {entry : String} {generated : Assembly}
    (generates : program.generate entry = .ok generated) (pass : Pass) :
    ∃ allocated, pass.apply generated = (allocated, .ok ()) ∧
      (∀ instr ∈ allocated.instructions, instr.virtualOperands = [] ∧ instr.marker? = none) ∧
      ∀ further : Pass, further.apply allocated = (allocated, .ok ()) := by
  obtain ⟨allocated, applied, all⟩ := pass.apply_ready (ready_generate generates)
  refine ⟨allocated, applied, fun instr member => ?_, fun further => further.apply_allocated all⟩
  obtain ⟨code, listed, inside⟩ := List.mem_flatMap.1 member
  exact (all code listed).concrete instr inside

/-- Counts the even numbers up to ten, with a short circuit and a jump out of the loop. -/
def evens : Program :=
  let count : VarDecl := { id := 1, name := "count", ty := .int }
  let next : VarDecl := { id := 2, name := "next", ty := .int }
  { decls :=
      [ .funDef
          { name := "main", ret := .int, params := []
            body :=
              { vars := [count, next]
                stmts :=
                  [ .loop (.ofInt 1)
                      (.block []
                        [ .branch
                            (.ofOperands .or (.ofOperands .ge (.ofDecl next) (.ofInt 10))
                              (.ofOperands .lt (.ofDecl next) (.ofInt 0)))
                            .breakLoop none,
                          .eval (.assignment (.ofDecl next)
                            (.ofOperands .add (.ofDecl next) (.ofInt 2))),
                          .eval (.assignment (.ofDecl count)
                            (.ofOperands .add (.ofDecl count) (.ofInt 1))) ]),
                    .ret (some (.ofDecl count)) ] } } ] }

theorem allocation_final_evens :
    ∃ generated, evens.generate "main" = .ok generated ∧
      ∃ allocated, (Pass.colouring 1 .firstCandidate).apply generated = (allocated, .ok ()) ∧
        (∀ instr ∈ allocated.instructions, instr.virtualOperands = [] ∧ instr.marker? = none) ∧
        ∀ further : Pass, further.apply allocated = (allocated, .ok ()) := by
  have succeeds : (evens.generate "main").toBool = true := by decide +kernel
  obtain ⟨generated, generates⟩ := exists_ok_of_toBool succeeds
  exact ⟨generated, generates, allocation_final generates _⟩

end Program

end MipsBackend
