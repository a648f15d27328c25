import MipsBackend.Lowering.Env

/-!
# Tables of declarations

The structs and the signatures of a program are looked up by name. Where a name is declared more
than once, its last declaration counts.
-/

namespace MipsBackend

theorem getElem?_foldl_insert {α : Type} (key : α → String) (entries : List α)
    (table : Std.ExtTreeMap String α) (name : String) :
    (entries.foldl (fun table entry => table.insert (key entry) entry) table)[name]? =
      (entries.reverse.find? (key · = name)).or table[name]? := by
  induction entries generalizing table with
  | nil => simp
  | cons entry rest ih =>
    rw [List.foldl_cons, ih, List.reverse_cons, List.find?_append, Option.or_assoc,
      Std.ExtTreeMap.getElem?_insert]
    congr 1
    by_cases same : key entry = name
    · simp [same]
    · simp [same]

/-- A declared name has a signature, which is that of one of its declarations. -/
theorem Env.exists_signature {program : Program} {promotion : Promotion} {plan : MemoryPlan}
    {name : String} (declared : name ∈ program.signatures.map FunDecl.name) :
    ∃ decl ∈ program.signatures, decl.name = name ∧
      (ofProgram program promotion plan).signature name = .ok decl := by
  obtain ⟨listed, member, same⟩ := List.mem_map.1 declared
  obtain ⟨decl, last⟩ : ∃ decl, program.signatures.reverse.find? (·.name = name) = some decl :=
    Option.isSome_iff_exists.1
      (List.find?_isSome.2 ⟨listed, List.mem_reverse.2 member, by simpa using same⟩)
  have found : (ofProgram program promotion plan).signatures[name]? = some decl := by
    rw [ofProgram, getElem?_foldl_insert FunDecl.name, last, Option.some_or]
  exact ⟨decl, List.mem_reverse.1 (List.mem_of_find?_eq_some last),
    by simpa using List.find?_some last, by rw [signature, found]⟩

theorem Env.declared_of_signature {program : Program} {promotion : Promotion} {plan : MemoryPlan}
    {name : String} {decl : FunDecl}
    (signed : (ofProgram program promotion plan).signature name = .ok decl) :
    name ∈ program.signatures.map FunDecl.name := by
  unfold signature at signed
  split at signed
  · next found =>
    rw [ofProgram, getElem?_foldl_insert FunDecl.name, Std.ExtTreeMap.getElem?_empty,
      Option.or_none] at found
    refine List.mem_map.2 ⟨_, List.mem_reverse.1 (List.mem_of_find?_eq_some found), ?_⟩
    simpa using List.find?_some found
  · cases signed

end MipsBackend
