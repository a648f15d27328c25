import MipsBackend.Proofs.WellFormed.Extents

/-!
# Layout of structs

Where no struct contains itself, the bound on nesting has no effect on extents
(`Program.extent_struct`). The size of a type is then a multiple of its alignment, so that arrays
need no padding, and the fields of a struct follow each other with as little padding as their
alignments allow, as long as 64 bits hold the end of the fields (`Program.structs_laid_out`). Beyond
that a field may lie on those before it (`Program.not_pairwise_precedes_overlong`).
-/

namespace MipsBackend

/-- Whether the type is `void`, or an array of it. -/
def Ty.hasVoid : Ty → Bool
  | void => true
  | array elem _ => elem.hasVoid
  | _ => false

namespace Layout

/-- From `start` to `stop`, the fields of the struct follow each other: each lies at a multiple of its
alignment, and behind the one before with less padding than that. -/
inductive Packs (layout : Layout) (owner : String) : Nat → List VarDecl → Nat → Prop
  | nil {stop : Nat} : Packs layout owner stop [] stop
  | cons {start offset size alignment stop : Nat} {field : VarDecl} {rest : List VarDecl}
      (sized : layout.size field.ty = .ok size)
      (aligned : layout.alignment field.ty = .ok alignment)
      (placed : layout.fieldOffset owner field.name = .ok offset)
      (multiple : alignment ∣ offset) (behind : start ≤ offset) (padding : offset < start + alignment)
      (others : Packs layout owner (offset + size) rest stop) :
      Packs layout owner start (field :: rest) stop

/-- The first field ends in front of the second. -/
def Precedes (layout : Layout) (owner : String) (first second : VarDecl) : Prop :=
  ∃ offset size next, layout.fieldOffset owner first.name = .ok offset ∧
    layout.size first.ty = .ok size ∧ layout.fieldOffset owner second.name = .ok next ∧
    offset + size ≤ next

/-- Where fields end that follow each other from `start` on, however many bits that takes. -/
def fieldsEnd (layout : Layout) (start : Nat) : List VarDecl → Except Violation Nat
  | [] => .ok start
  | field :: rest => do
    let extent ← layout.extent field.ty
    layout.fieldsEnd (roundUp start extent.alignment + extent.size) rest

/-- The fields of a struct lie at multiples of their alignments, and are packed into its size if 64
bits hold their end. -/
structure LaysOut (layout : Layout) (name : String) (fields : List VarDecl)
    (stop size alignment : Nat) : Prop where
  sized : layout.size (.struct name) = .ok size
  aligned : layout.alignment (.struct name) = .ok alignment
  whole : alignment ∣ size
  multiples : ∀ field ∈ fields, ∃ offset one, layout.fieldOffset name field.name = .ok offset ∧
    layout.alignment field.ty = .ok one ∧ one ∣ offset
  ended : layout.fieldsEnd 0 fields = .ok stop
  packed : stop < 2 ^ 64 → layout.Packs name 0 fields stop
  disjoint : stop < 2 ^ 64 → fields.Pairwise (layout.Precedes name)
  padded : roundUp stop alignment < 2 ^ 64 → stop ≤ size ∧ size < stop + alignment

theorem Packs.ends {layout : Layout} {owner : String} {start stop : Nat} {fields : List VarDecl}
    (packs : layout.Packs owner start fields stop) :
    start ≤ stop ∧ ∀ field ∈ fields, ∃ offset, layout.fieldOffset owner field.name = .ok offset ∧
      start ≤ offset := by
  induction packs with
  | nil => exact ⟨Nat.le_refl _, fun _ member => nomatch member⟩
  | @cons start offset size _ _ field rest _ _ placed _ behind _ _ ih =>
    have later : start ≤ offset + size := Nat.le_add_right_of_le behind
    refine ⟨Nat.le_trans later ih.1, List.forall_mem_cons.2 ⟨⟨offset, placed, behind⟩, ?_⟩⟩
    intro other member
    obtain ⟨next, there, bound⟩ := ih.2 other member
    exact ⟨next, there, Nat.le_trans later bound⟩

theorem Packs.pairwise {layout : Layout} {owner : String} {start stop : Nat}
    {fields : List VarDecl} (packs : layout.Packs owner start fields stop) :
    fields.Pairwise (layout.Precedes owner) := by
  induction packs with
  | nil => exact .nil
  | cons sized _ placed _ _ _ others ih =>
    refine List.pairwise_cons.2 ⟨fun other member => ?_, ih⟩
    obtain ⟨next, there, bound⟩ := others.ends.2 other member
    exact ⟨_, _, next, placed, sized, there, bound⟩

end Layout

/-! ## Extents -/

section

variable {ofStruct : String → Except Violation Extent}

/-- If alignments of structs divide the number of words, so do all but that of `void`. -/
theorem Ty.alignment_extent
    (structs : ∀ name extent, ofStruct name = .ok extent → extent.alignment ∣ 2 ^ 64) {ty : Ty}
    {extent : Extent} (sized : ty.extent ofStruct = .ok extent) :
    if ty.hasVoid then extent.alignment = 0 else extent.alignment ∣ 2 ^ 64 := by
  induction ty generalizing extent with
  | array elem length ih =>
    obtain ⟨one, known, joins⟩ := bind_eq_ok.1 sized
    cases joins
    exact @ih one known
  | struct name => exact structs name extent sized
  | int | pointer | char | void =>
    cases sized
    simp [hasVoid]

theorem alignment_fieldsExtent
    (structs : ∀ name extent, ofStruct name = .ok extent → extent.alignment ∣ 2 ^ 64)
    {before whole : Extent} {fields : List VarDecl} (word : before.alignment ∣ 2 ^ 64)
    (sized : fieldsExtent ofStruct before fields = .ok whole) : whole.alignment ∣ 2 ^ 64 := by
  induction fields generalizing before with
  | nil =>
    cases sized
    exact word
  | cons field rest ih =>
    obtain ⟨extent, known, later⟩ := bind_eq_ok.1 sized
    refine ih ?_ later
    have larger : (before.append extent).alignment = max before.alignment extent.alignment := rfl
    have here := Ty.alignment_extent structs known
    rw [larger]
    split at here
    · rwa [here, Nat.max_zero]
    · rcases max_choice before.alignment extent.alignment with same | same
      · rwa [same]
      · rwa [same]

/-- If it holds of structs. -/
theorem Ty.dvd_extent (structs : ∀ name extent, ofStruct name = .ok extent →
      extent.alignment ∣ 2 ^ 64 ∧ extent.alignment ∣ extent.size) {ty : Ty} {extent : Extent}
    (sized : ty.extent ofStruct = .ok extent) : extent.alignment ∣ extent.size := by
  induction ty generalizing extent with
  | array elem length ih =>
    obtain ⟨one, known, joins⟩ := bind_eq_ok.1 sized
    cases joins
    have whole : one.alignment ∣ length.toNat * one.size := Nat.dvd_mul_left_of_dvd (ih known) _
    have here := Ty.alignment_extent (fun _ _ inner => (structs _ _ inner).1) known
    split at here
    · -- The elements have no bytes, of which nothing can be lost.
      rw [here, Nat.zero_dvd] at whole
      simp [whole, wrapped]
    · exact dvd_wrapped here whole
  | struct name => exact (structs name extent sized).2
  | _ =>
    cases sized
    exact Nat.dvd_refl _

end

theorem Extent.padded_fits {fields : Extent} (word : fields.alignment ∣ 2 ^ 64)
    (fits : roundUp fields.size fields.alignment < 2 ^ 64) :
    fields.size ≤ fields.padded.size ∧ fields.padded.size < fields.size + fields.alignment := by
  have exact : fields.padded.size = roundUp fields.size fields.alignment := alignUp_of_lt fits
  rw [exact]
  exact ⟨le_roundUp _ _, roundUp_lt _ (pos_of_dvd_words word)⟩

namespace Layout

variable {layout : Layout}

/-- The extent of a struct is padded, whatever the bound on nesting. -/
theorem structExtent_sound {depth : Nat} {name : String} {extent : Extent}
    (sized : layout.structExtent depth name = .ok extent) :
    extent.alignment ∣ 2 ^ 64 ∧ extent.alignment ∣ extent.size := by
  induction depth generalizing name extent with
  | zero =>
    obtain ⟨_, -, fails⟩ := bind_eq_ok.1 sized
    cases fails
  | succ depth ih =>
    obtain ⟨decl, -, walks⟩ := bind_eq_ok.1 sized
    obtain ⟨fields, known, joins⟩ := bind_eq_ok.1 walks
    cases joins
    have word : fields.alignment ∣ 2 ^ 64 :=
      alignment_fieldsExtent (fun _ _ inner => (ih inner).1) (Nat.one_dvd _) known
    exact ⟨word, dvd_alignUp _ word⟩

theorem dvd_size {ty : Ty} {extent : Extent} (sized : layout.extent ty = .ok extent) :
    extent.alignment ∣ extent.size :=
  Ty.dvd_extent (fun _ _ => structExtent_sound) sized

theorem alignment_dvd {ty : Ty} (solid : ty.hasVoid = false) {extent : Extent}
    (sized : layout.extent ty = .ok extent) : extent.alignment ∣ 2 ^ 64 := by
  have here := Ty.alignment_extent (fun _ _ known => (structExtent_sound known).1) sized
  rwa [solid] at here

/-! ## Walks over the fields -/

theorem offsetBehind_cons {owner : String} {field : VarDecl} {extent : Extent}
    (known : layout.extent field.ty = .ok extent) (name : String) (before : Nat)
    (rest : List VarDecl) :
    layout.offsetBehind owner name before (field :: rest) =
      if field.name = name then .ok (alignUp before extent.alignment)
      else layout.offsetBehind owner name (wrapped (alignUp before extent.alignment + extent.size))
        rest := by
  rw [offsetBehind, known]
  rfl

/-- Each field is found, at a multiple of its alignment. -/
theorem dvd_offsetBehind {owner : String} {fields : List VarDecl}
    (distinct : (fields.map VarDecl.name).Nodup)
    (solid : ∀ field ∈ fields, field.ty.hasVoid = false)
    (extents : ∀ field ∈ fields, ∃ extent, layout.extent field.ty = .ok extent) (before : Nat) :
    ∀ field ∈ fields, ∃ offset extent,
      layout.offsetBehind owner field.name before fields = .ok offset ∧
      layout.extent field.ty = .ok extent ∧ extent.alignment ∣ offset := by
  induction fields generalizing before with
  | nil => exact fun _ member => nomatch member
  | cons first rest ih =>
    obtain ⟨fresh, distinct⟩ := List.nodup_cons.1 distinct
    obtain ⟨firstSolid, solid⟩ := List.forall_mem_cons.1 solid
    obtain ⟨⟨extent, known⟩, extents⟩ := List.forall_mem_cons.1 extents
    refine List.forall_mem_cons.2 ⟨⟨alignUp before extent.alignment, extent, ?_, known,
      dvd_alignUp before (alignment_dvd firstSolid known)⟩, fun field member => ?_⟩
    · rw [offsetBehind_cons known, if_pos rfl]
    · have differ : first.name ≠ field.name := fun same =>
        fresh (same ▸ List.mem_map_of_mem member)
      rw [offsetBehind_cons known, if_neg differ]
      exact ih distinct solid extents _ field member

theorem exists_fieldsEnd {fields : List VarDecl}
    (extents : ∀ field ∈ fields, ∃ extent, layout.extent field.ty = .ok extent) (start : Nat) :
    ∃ stop, layout.fieldsEnd start fields = .ok stop := by
  induction fields generalizing start with
  | nil => exact ⟨start, rfl⟩
  | cons first rest ih =>
    obtain ⟨⟨extent, known⟩, extents⟩ := List.forall_mem_cons.1 extents
    obtain ⟨stop, ended⟩ := ih extents (roundUp start extent.alignment + extent.size)
    exact ⟨stop, bind_eq_ok.2 ⟨extent, known, ended⟩⟩

theorem le_fieldsEnd {fields : List VarDecl} {start stop : Nat}
    (ended : layout.fieldsEnd start fields = .ok stop) : start ≤ stop := by
  induction fields generalizing start with
  | nil => exact Nat.le_of_eq (Except.ok.inj ended)
  | cons field rest ih =>
    obtain ⟨extent, -, later⟩ := bind_eq_ok.1 ended
    calc start ≤ roundUp start extent.alignment := le_roundUp _ _
      _ ≤ roundUp start extent.alignment + extent.size := Nat.le_add_right _ _
      _ ≤ stop := ih later

/-- Nothing is lost in front of an end that 64 bits hold. -/
theorem fieldsEnd_cons {field : VarDecl} {rest : List VarDecl} {start stop : Nat} {extent : Extent}
    (known : layout.extent field.ty = .ok extent) (small : stop < 2 ^ 64)
    (ended : layout.fieldsEnd start (field :: rest) = .ok stop) :
    alignUp start extent.alignment = roundUp start extent.alignment ∧
    wrapped (alignUp start extent.alignment + extent.size) =
      roundUp start extent.alignment + extent.size ∧
    layout.fieldsEnd (roundUp start extent.alignment + extent.size) rest = .ok stop := by
  obtain ⟨_, again, later⟩ := bind_eq_ok.1 ended
  obtain rfl := Except.ok.inj (known.symm.trans again)
  have reached := le_fieldsEnd later
  have exact : alignUp start extent.alignment = roundUp start extent.alignment :=
    alignUp_of_lt (by omega)
  exact ⟨exact, by rw [exact, wrapped_of_lt (by omega)], later⟩

/-- The size accounts for all fields. -/
theorem size_fieldsExtent {fields : List VarDecl} {before whole : Extent} {stop : Nat}
    (sized : fieldsExtent (fun name => layout.extent (.struct name)) before fields = .ok whole)
    (small : stop < 2 ^ 64) (ended : layout.fieldsEnd before.size fields = .ok stop) :
    whole.size = stop := by
  induction fields generalizing before with
  | nil =>
    cases sized
    exact Except.ok.inj ended
  | cons field rest ih =>
    obtain ⟨extent, known, later⟩ := bind_eq_ok.1 sized
    obtain ⟨-, next, behind⟩ := fieldsEnd_cons known small ended
    exact ih later ((congrArg (layout.fieldsEnd · rest) next).trans behind)

theorem packs_fieldsEnd {owner : String} {fields : List VarDecl} {start stop : Nat}
    (small : stop < 2 ^ 64) (ended : layout.fieldsEnd start fields = .ok stop)
    (distinct : (fields.map VarDecl.name).Nodup)
    (solid : ∀ field ∈ fields, field.ty.hasVoid = false)
    (walks : ∀ field ∈ fields, layout.fieldOffset owner field.name =
      layout.offsetBehind owner field.name start fields) :
    layout.Packs owner start fields stop := by
  induction fields generalizing start with
  | nil =>
    cases ended
    exact .nil
  | cons field rest ih =>
    obtain ⟨extent, known, -⟩ := bind_eq_ok.1 ended
    obtain ⟨exact, next, later⟩ := fieldsEnd_cons known small ended
    obtain ⟨fresh, distinct⟩ := List.nodup_cons.1 distinct
    obtain ⟨firstSolid, solid⟩ := List.forall_mem_cons.1 solid
    obtain ⟨placed, walks⟩ := List.forall_mem_cons.1 walks
    have positive := pos_of_dvd_words (alignment_dvd firstSolid known)
    rw [offsetBehind_cons known, if_pos rfl, exact] at placed
    have others := ih later distinct solid fun other member => by
      have differ : field.name ≠ other.name := fun same =>
        fresh (same ▸ List.mem_map_of_mem member)
      rw [walks other member, offsetBehind_cons known, if_neg differ, next]
    exact .cons (map_eq_ok.2 ⟨extent, known, rfl⟩) (map_eq_ok.2 ⟨extent, known, rfl⟩) placed
      (dvd_roundUp start positive) (le_roundUp _ _) (roundUp_lt _ positive) others

theorem offsetBehind_eq_error {owner name : String} {before : Nat} {fields : List VarDecl}
    {violation : Violation} (fails : layout.offsetBehind owner name before fields = .error violation) :
    violation = .unknownField owner name ∨ ∃ field ∈ fields, layout.extent field.ty = .error violation := by
  induction fields generalizing before with
  | nil => exact .inl (Except.error.inj fails).symm
  | cons field rest ih =>
    rcases bind_eq_error.1 fails with here | ⟨extent, -, walks⟩
    · exact .inr ⟨field, List.mem_cons_self, here⟩
    · split at walks
      · cases walks
      · refine (ih walks).imp_right ?_
        rintro ⟨other, member, there⟩
        exact ⟨other, List.mem_cons_of_mem _ member, there⟩

end Layout

namespace Program

variable {program : Program}

/-- What struct layout promises. -/
structure SoundLayout (program : Program) (layout : Layout) : Prop where
  /-- The extent of a struct follows from those of its fields, without a bound on nesting. -/
  unbounded : ∀ name, layout.extent (.struct name) = do
    let decl ← layout.struct name
    let fields ← fieldsExtent (fun inner => layout.extent (.struct inner))
      { size := 0, alignment := 1 } decl.fields
    return fields.padded
  sizesEnd : ∀ ty name, layout.size ty ≠ .error (.endlessStruct name) ∧
    layout.alignment ty ≠ .error (.endlessStruct name)
  offsetsEnd : ∀ owner field name, layout.fieldOffset owner field ≠ .error (.endlessStruct name)
  sized : ∀ ty, program.Complete ty → ∃ size alignment, layout.size ty = .ok size ∧
    layout.alignment ty = .ok alignment
  elements : ∀ ty size alignment, layout.size ty = .ok size → layout.alignment ty = .ok alignment →
    alignment ∣ size ∧ ∀ base i, alignment ∣ base → alignment ∣ base + i * size
  structs : ∀ name decl, program.struct? name = some decl → (decl.fields.map VarDecl.name).Nodup →
    (∀ field ∈ decl.fields, program.Complete field.ty ∧ field.ty.hasVoid = false) →
    ∃ stop size alignment, layout.LaysOut name decl.fields stop size alignment

section

variable (finite : ∀ name, ¬ Relation.TransGen program.Contains name name)

include finite

theorem extent_struct (name : String) :
    (Layout.ofProgram program).extent (.struct name) = do
      let decl ← (Layout.ofProgram program).struct name
      let fields ← fieldsExtent (fun inner => (Layout.ofProgram program).extent (.struct inner))
        { size := 0, alignment := 1 } decl.fields
      return fields.padded := by
  cases found : program.struct? name with
  | none =>
    rw [Layout.struct, Layout.structs_ofProgram, found]
    exact structExtent_of_none found _
  | some decl =>
    -- The fields are looked at with a depth of one less, which is enough for them.
    obtain ⟨depth, whole⟩ := Nat.exists_eq_succ_of_ne_zero
      (Nat.ne_of_gt ((leads_nil name).room finite found))
    have same : ∀ field ∈ decl.fields, ∀ part ∈ field.ty.contained?,
        (Layout.ofProgram program).structExtent depth part =
          (Layout.ofProgram program).extent (.struct part) := by
      intro field member part contained
      have leads := (leads_nil name).step finite found
        ⟨field, mem_fieldsOf_struct.2 ⟨decl, found, member⟩, contained⟩
      have still : (Layout.ofProgram program).structExtent (depth + 1) part =
          (Layout.ofProgram program).structExtent depth part :=
        structExtent_succ finite leads (by simp [whole, Nat.add_comm])
      rw [← still, ← Nat.succ_eq_add_one, ← whole]
      rfl
    rw [struct_eq_ok found, Layout.extent, Ty.extent, whole, structExtent_of_some found,
      fieldsExtent_congr same]
    rfl

theorem extent_ne_endless (ty : Ty) (name : String) :
    (Layout.ofProgram program).extent ty ≠ .error (.endlessStruct name) := by
  intro fails
  obtain ⟨_, _, _, _, _, same⟩ := extent_eq_error finite fails
  cases same

theorem fieldOffset_ne_endless (owner field name : String) :
    (Layout.ofProgram program).fieldOffset owner field ≠ .error (.endlessStruct name) := by
  intro fails
  rcases bind_eq_error.1 fails with missing | ⟨decl, -, walks⟩
  · unfold Layout.struct at missing
    split at missing <;> cases missing
  · rcases Layout.offsetBehind_eq_error walks with same | ⟨other, -, inside⟩
    · cases same
    · exact extent_ne_endless finite other.ty name inside

omit finite in
theorem complete_struct {name : String} {decl : StructDecl}
    (found : program.struct? name = some decl)
    (fields : ∀ field ∈ decl.fields, program.Complete field.ty) : program.Complete (.struct name) := by
  intro _ same inner path
  obtain rfl := Option.some.inj same
  rcases Relation.ReflTransGen.cases_head path with rfl | ⟨part, contains, rest⟩
  · exact ⟨decl, found⟩
  · obtain ⟨field, member, contained⟩ := contains
    obtain ⟨own, known, listed⟩ := mem_fieldsOf_struct.1 member
    obtain rfl := Option.some.inj (found.symm.trans known)
    exact fields field listed part contained inner rest

omit finite in
theorem fieldOffset_struct {name : String} {decl : StructDecl}
    (found : program.struct? name = some decl) (field : String) :
    (Layout.ofProgram program).fieldOffset name field =
      (Layout.ofProgram program).offsetBehind name field 0 decl.fields := by
  rw [Layout.fieldOffset, struct_eq_ok found]
  rfl

theorem laysOut_struct {name : String} {decl : StructDecl}
    (found : program.struct? name = some decl) (distinct : (decl.fields.map VarDecl.name).Nodup)
    (fit : ∀ field ∈ decl.fields, program.Complete field.ty ∧ field.ty.hasVoid = false) :
    ∃ stop size alignment,
      (Layout.ofProgram program).LaysOut name decl.fields stop size alignment := by
  have complete := complete_struct found fun field member => (fit field member).1
  obtain ⟨extent, sized⟩ := exists_extent_of_complete finite complete
  have whole := sized
  rw [extent_struct finite] at whole
  obtain ⟨_, looked, walks⟩ := bind_eq_ok.1 whole
  obtain rfl := Except.ok.inj ((struct_eq_ok found).symm.trans looked)
  obtain ⟨fields, summed, joins⟩ := bind_eq_ok.1 walks
  cases joins
  have solid : ∀ field ∈ decl.fields, field.ty.hasVoid = false :=
    fun field member => (fit field member).2
  have extents : ∀ field ∈ decl.fields, ∃ extent,
      (Layout.ofProgram program).extent field.ty = .ok extent :=
    fun field member => exists_extent_of_complete finite (fit field member).1
  obtain ⟨stop, ended⟩ := Layout.exists_fieldsEnd extents 0
  have packs (small : stop < 2 ^ 64) : (Layout.ofProgram program).Packs name 0 decl.fields stop :=
    Layout.packs_fieldsEnd small ended distinct solid fun field _ =>
      fieldOffset_struct found field.name
  exact ⟨stop, fields.padded.size, fields.padded.alignment,
    { sized := map_eq_ok.2 ⟨_, sized, rfl⟩
      aligned := map_eq_ok.2 ⟨_, sized, rfl⟩
      whole := Layout.dvd_size sized
      multiples := fun field member => by
        obtain ⟨offset, one, placed, known, multiple⟩ :=
          Layout.dvd_offsetBehind distinct solid extents 0 field member
        exact ⟨offset, one.alignment, (fieldOffset_struct found field.name).trans placed,
          map_eq_ok.2 ⟨one, known, rfl⟩, multiple⟩
      ended
      packed := packs
      disjoint := fun small => (packs small).pairwise
      padded := fun fits => by
        have small : stop < 2 ^ 64 := Nat.lt_of_le_of_lt (le_roundUp _ _) fits
        have same : fields.size = stop := Layout.size_fieldsExtent summed small ended
        rw [← same] at fits ⊢
        exact fields.padded_fits (Layout.structExtent_sound sized).1 fits }⟩

/-- In every program in which no struct contains itself, sizes, alignments and offsets are found in
the end, the fields of every struct whose end 64 bits hold follow each other with no more padding
than their alignments ask for, and the size of every type is a multiple of its alignment. -/
theorem structs_laid_out : program.SoundLayout (.ofProgram program) where
  unbounded := extent_struct finite
  sizesEnd ty name := ⟨fun fails => extent_ne_endless finite ty name (map_eq_error.1 fails),
    fun fails => extent_ne_endless finite ty name (map_eq_error.1 fails)⟩
  offsetsEnd := fieldOffset_ne_endless finite
  sized ty complete := by
    obtain ⟨extent, sized⟩ := exists_extent_of_complete finite complete
    exact ⟨_, _, map_eq_ok.2 ⟨extent, sized, rfl⟩, map_eq_ok.2 ⟨extent, sized, rfl⟩⟩
  elements ty size alignment sized aligned := by
    obtain ⟨extent, known, rfl⟩ := map_eq_ok.1 sized
    obtain ⟨same, again, rfl⟩ := map_eq_ok.1 aligned
    obtain rfl := Except.ok.inj (known.symm.trans again)
    have whole := Layout.dvd_size known
    exact ⟨whole, fun base i start => Nat.dvd_add start (Nat.dvd_mul_left_of_dvd whole i)⟩
  structs _ _ := laysOut_struct finite

end

/-- Structs of no and of three bytes, alone and in arrays, an array without elements, and a pointer
to the struct that it is in. -/
def shapes : Program :=
  let field (id : DeclId) (name : String) (ty : Ty) : VarDecl := { id, name, ty }
  { decls :=
      [ .struct { name := "none", fields := [] },
        .struct { name := "tag", fields := [field 1 "text" (.array .char 3)] },
        .struct
          { name := "node"
            fields :=
              [ field 2 "mark" .char, field 3 "tags" (.array (.struct "tag") 3),
                field 4 "empty" (.struct "none"), field 5 "value" .int,
                field 6 "nothing" (.array .int 0), field 7 "next" (.pointer (.struct "node")),
                field 8 "last" (.struct "tag") ] } ] }

theorem structs_laid_out_shapes :
    (∀ name, ¬ Relation.TransGen shapes.Contains name name) ∧
    shapes.SoundLayout (.ofProgram shapes) ∧
    ∃ decl, shapes.struct? "node" = some decl ∧
      (Layout.ofProgram shapes).LaysOut "node" decl.fields 23 24 4 ∧
      (Layout.ofProgram shapes).Packs "node" 0 decl.fields 23 ∧
      decl.fields.Pairwise ((Layout.ofProgram shapes).Precedes "node") := by
  have finite : ∀ name, ¬ Relation.TransGen shapes.Contains name name :=
    finite_of_rank (fun name => if name = "node" then 1 else 0) (by decide)
  have sound := structs_laid_out finite
  obtain ⟨decl, found, distinct, solid, last⟩ : ∃ decl, shapes.struct? "node" = some decl ∧
      (decl.fields.map VarDecl.name).Nodup ∧ (∀ field ∈ decl.fields, field.ty.hasVoid = false) ∧
      (Layout.ofProgram shapes).fieldsEnd 0 decl.fields = .ok 23 :=
    ⟨_, rfl, by decide, by decide, by decide +kernel⟩
  have declared : ∀ decl ∈ shapes.structs, ∀ field ∈ decl.fields, ∀ inner ∈ field.ty.contained?,
      inner ∈ shapes.structs.map StructDecl.name := by
    decide
  have known : ∀ decl ∈ shapes.structs, ∀ field ∈ decl.fields, ∀ inner ∈ field.ty.contained?,
      ∃ decl, shapes.struct? inner = some decl := fun decl listed field member inner contained =>
    exists_struct? (declared decl listed field member inner contained)
  obtain ⟨stop, size, alignment, laid⟩ := sound.structs "node" decl found distinct
    fun field member =>
      ⟨complete_of_fields (known decl (struct?_eq_some found).1 field member) known,
        solid field member⟩
  have sized : (Layout.ofProgram shapes).size (.struct "node") = .ok 24 := by decide +kernel
  have aligned : (Layout.ofProgram shapes).alignment (.struct "node") = .ok 4 := by decide +kernel
  obtain rfl := Except.ok.inj (laid.ended.symm.trans last)
  obtain rfl := Except.ok.inj (laid.sized.symm.trans sized)
  obtain rfl := Except.ok.inj (laid.aligned.symm.trans aligned)
  exact ⟨finite, sound, decl, found, laid, laid.packed (by decide), laid.disjoint (by decide)⟩

/-- A struct whose first field takes all but one of the bytes that 64 bits can count. -/
def overlong : StructDecl :=
  { name := "S"
    fields :=
      [ { id := 1, name := "a", ty := .array .char 18446744073709551615 },
        { id := 2, name := "b", ty := .int } ] }

def overlongOnly : Program := { decls := [.struct overlong] }

/-- Its second field lies on the first. -/
theorem not_pairwise_precedes_overlong :
    (∀ name, ¬ Relation.TransGen overlongOnly.Contains name name) ∧
    overlongOnly.struct? "S" = some overlong ∧ (overlong.fields.map VarDecl.name).Nodup ∧
    (∀ field ∈ overlong.fields, overlongOnly.Complete field.ty ∧ field.ty.hasVoid = false) ∧
    (Layout.ofProgram overlongOnly).fieldOffset "S" "a" = .ok 0 ∧
    (Layout.ofProgram overlongOnly).size (.array .char 18446744073709551615) =
      .ok 18446744073709551615 ∧
    (Layout.ofProgram overlongOnly).fieldOffset "S" "b" = .ok 0 ∧
    (Layout.ofProgram overlongOnly).size (.struct "S") = .ok 4 ∧
    ¬ overlong.fields.Pairwise ((Layout.ofProgram overlongOnly).Precedes "S") := by
  have finite : ∀ name, ¬ Relation.TransGen overlongOnly.Contains name name :=
    finite_of_rank (fun _ => 0) (by decide)
  have plain : ∀ field ∈ overlong.fields,
      field.ty.contained? = none ∧ field.ty.hasVoid = false := by
    decide
  have complete : ∀ field ∈ overlong.fields, overlongOnly.Complete field.ty := by
    intro field member name contained
    rw [(plain field member).1] at contained
    cases contained
  have long : (Layout.ofProgram overlongOnly).size (.array .char 18446744073709551615) =
      .ok 18446744073709551615 := by
    decide +kernel
  have second : (Layout.ofProgram overlongOnly).fieldOffset "S" "b" = .ok 0 := by decide +kernel
  refine ⟨finite, rfl, by decide, fun field member => ⟨complete field member, (plain field member).2⟩,
    by decide +kernel, long, second, by decide +kernel, fun ordered => ?_⟩
  obtain ⟨offset, size, next, -, sized, placed, behind⟩ :=
    List.rel_of_pairwise_cons ordered List.mem_cons_self
  obtain rfl := Except.ok.inj (long.symm.trans sized)
  obtain rfl := Except.ok.inj (second.symm.trans placed)
  omega

end Program

end MipsBackend
