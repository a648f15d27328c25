import MipsBackend.Tree.Decoder
import MipsBackend.Tree.Encoder
import MipsBackend.Proofs.Json.RoundTrip
import Mathlib.Data.List.Nodup

/-!
Decoding an encoded tree gives the tree back, where the encoding opens no more objects and lists at
a time than the decoder follows. So an encoding stands for one tree only.
-/

namespace MipsBackend

open Json

/-! ## Nesting and records

Each step of the decoder takes one object or list off the depth that is left, so that every lemma
gives the parts of a value the depth that remains for them. -/

namespace Json

mutual

/-- How many objects and lists are open at a time, at most. -/
def depth : Json → Nat
  | null | bool _ | integer _ | decimal _ | string _ => 0
  | list items => depthItems items + 1
  | object members => depthMembers members + 1

def depthItems : List Json → Nat
  | [] => 0
  | item :: rest => max item.depth (depthItems rest)

def depthMembers : List (Option String × Json) → Nat
  | [] => 0
  | (_, value) :: rest => max value.depth (depthMembers rest)

end

theorem variant_eq (kind : String) (payload : Json) :
    variant kind payload = object [(some kind, payload)] := rfl

theorem depth_variant_le {kind : String} {payload : Json} {n : Nat}
    (within : (variant kind payload).depth ≤ n) : ∃ m, n = m + 1 ∧ payload.depth ≤ m := by
  rw [variant_eq, depth] at within
  simp only [depthMembers, Nat.max_zero] at within
  exact ⟨n - 1, by omega, by omega⟩

theorem depth_record_le {members : List (String × Json)} {n : Nat}
    (within : (record members).depth ≤ n) :
    ∃ m, n = m + 1 ∧ members.Forall fun member => member.2.depth ≤ m := by
  rw [record, depth] at within
  obtain ⟨m, rfl⟩ : ∃ m, n = m + 1 := ⟨n - 1, by omega⟩
  refine ⟨m, rfl, List.forall_iff_forall_mem.2 ?_⟩
  have parts := Nat.le_of_succ_le_succ within
  clear within
  induction members with
  | nil => simp
  | cons first others ih =>
    rw [List.map_cons, depthMembers, Nat.max_le] at parts
    exact List.forall_mem_cons.2 ⟨parts.1, ih parts.2⟩

theorem depth_list_le {items : List Json} {n : Nat} (within : (list items).depth ≤ n) :
    ∃ m, n = m + 1 ∧ depthItems items ≤ m := by
  rw [depth] at within
  exact ⟨n - 1, by omega, by omega⟩

theorem member?_of_mem {members : List (String × Json)}
    (distinct : (members.map Prod.fst).Nodup) {member : String × Json} (listed : member ∈ members) :
    member? (members.map fun (key, value) => (some key, value)) member.1 = some member.2 := by
  induction members with
  | nil => contradiction
  | cons first others ih =>
    rw [List.map_cons, List.nodup_cons] at distinct
    rcases List.mem_cons.1 listed with rfl | later
    · exact List.lookup_cons_self
    · have other : member.1 ≠ first.1 := by
        intro same
        exact distinct.1 (same ▸ List.mem_map_of_mem later)
      have passed : (some member.1 == some first.1) = false := by simpa using other
      rw [member?, List.map_cons, List.lookup_cons, passed]
      exact ih distinct.2 later

/-- A record that names each field once is read back. -/
theorem record?_record {names : List String} {required : Nat} {members : List (String × Json)}
    (keys : members.map Prod.fst = names) (distinct : names.Nodup) :
    (record members).record? names required = some (members.map fun member => some member.2) := by
  subst keys
  have once : ∀ name, (members.map fun (key, value) => (some key, value)).countP
      (·.1 = some name) ≤ 1 := by
    intro name
    have count := List.nodup_iff_count_le_one.1 distinct name
    rw [List.count, List.countP_map] at count
    rw [List.countP_map]
    exact (List.countP_congr (by simp)).trans_le count
  have unrepeated := List.all_eq_true.2 fun name (_ : name ∈ members.map Prod.fst) =>
    decide_eq_true (once name)
  rw [record, record?, if_pos ⟨by simp, unrepeated⟩, List.map_map]
  apply congrArg some
  exact List.map_congr_left fun member listed => member?_of_mem distinct listed

theorem isObject_record (members : List (String × Json)) : (record members).isObject = true := rfl

theorem choice?_ofString {α : Type} {names : List (String × α)} {name : String} {value : α}
    (named : names.lookup name = some value) (n : Nat) :
    choice? names n (ofString name) = some value := by
  rwa [ofString, choice?]

theorem int32?_toInt (value : Int32) : (integer value.toInt).int32? = some value := by
  rw [int32?, if_pos ⟨value.minValue_le_toInt, value.toInt_le⟩, Int32.ofInt_toInt]

theorem uint32?_ofNat (value : UInt32) : (ofNat value.toNat).uint32? = some value := by
  simp [ofNat, uint32?, value.toNat_lt]

theorem uint64?_ofNat (value : UInt64) : (ofNat value.toNat).uint64? = some value := by
  simp [ofNat, uint64?, value.toNat_lt]

theorem char?_ofString (c : Char) : (ofString c.toString).char? = some c := by
  simp [ofString, char?, text?]

theorem text?_ofString (text : String) : (ofString text).text? = some text := rfl

end Json

/-! ## Types -/

theorem Ty.decodeWith_encode (lists : Bool) (ty : Ty) {n : Nat} (within : ty.encode.depth ≤ n) :
    Ty.decodeWith lists n ty.encode = some ty := by
  induction ty generalizing n with
  | int | char | void => simp [encode, decodeWith, ofString, choice?, names, List.lookup_cons]
  | pointer target ih =>
    obtain ⟨n, rfl, target_within⟩ := depth_variant_le within
    simp [encode, variant_eq, decodeWith, ih target_within]
  | array elem length ih =>
    obtain ⟨n, rfl, inside⟩ := depth_variant_le within
    obtain ⟨n, rfl, elem_within, -⟩ := depth_record_le inside
    simp [encode, variant_eq, decodeWith, record?_record, ih elem_within, uint64?_ofNat,
      isObject_record]
  | struct name =>
    obtain ⟨n, rfl, -⟩ := depth_variant_le within
    simp [encode, variant_eq, decodeWith, text?_ofString]

theorem Ty.decode_encode (ty : Ty) {n : Nat} (within : ty.encode.depth ≤ n) :
    Ty.decode n ty.encode = some ty :=
  Ty.decodeWith_encode true ty within

theorem VarDecl.decode_encode (decl : VarDecl) {n : Nat} (within : decl.encode.depth ≤ n) :
    VarDecl.decode n decl.encode = some decl := by
  obtain ⟨n, rfl, -, -, ty_within⟩ := depth_record_le within
  simp [encode, decode, record?_record, uint32?_ofNat, text?_ofString,
    Ty.decode_encode decl.ty ty_within]

/-! ## Expressions -/

theorem Expr.decode_node {ty : Ty} {kind : String} {payload : Json} {n : Nat}
    (within : (Expr.node ty kind payload).depth ≤ n) :
    ∃ m, n = m + 2 ∧ payload.depth ≤ m ∧
      Expr.decode n (Expr.node ty kind payload) =
        Expr.decodeKind (m + 1) ty (.object [(some kind, payload)]) := by
  obtain ⟨n, rfl, ty_within, kind_within⟩ := depth_record_le within
  have ty_read := Ty.decode_encode ty ty_within
  obtain ⟨n, rfl, inside⟩ := depth_variant_le kind_within
  exact ⟨n, rfl, inside, by simp [node, decode, record?_record, ty_read, variant_eq]⟩

theorem BinOp.lookup_name (op : BinOp) : BinOp.names.lookup op.name = some op := by
  cases op <;> decide

mutual

theorem Expr.decode_encode (expr : Expr) {n : Nat} (within : expr.encode.depth ≤ n) :
    Expr.decode n expr.encode = some expr := by
  cases expr with
  | intLit ty value =>
    obtain ⟨n, rfl, -, read⟩ := Expr.decode_node within
    simp [encode, read, decodeKind, int32?_toInt]
  | charLit ty value =>
    obtain ⟨n, rfl, -, read⟩ := Expr.decode_node within
    rw [encode, read, decodeKind, char?_ofString]
    rfl
  | strLit ty text =>
    obtain ⟨n, rfl, -, read⟩ := Expr.decode_node within
    simp [encode, read, decodeKind, text?_ofString]
  | var ty id name =>
    obtain ⟨n, rfl, inside, read⟩ := Expr.decode_node within
    obtain ⟨n, rfl, -⟩ := depth_record_le inside
    simp [encode, read, decodeKind, decodeRecord, record?_record, uint32?_ofNat, text?_ofString]
  | call ty name args =>
    obtain ⟨n, rfl, inside, read⟩ := Expr.decode_node within
    obtain ⟨n, rfl, -, list_within⟩ := depth_record_le inside
    obtain ⟨n, rfl, args_within⟩ := depth_list_le list_within
    have args_read := Expr.decodeList_encode args args_within
    simp [encode, read, decodeKind, decodeRecord, record?_record, text?_ofString, decodeList,
      args_read]
  | binOp ty op lhs rhs =>
    obtain ⟨n, rfl, inside, read⟩ := Expr.decode_node within
    obtain ⟨n, rfl, -, lhs_within, rhs_within⟩ := depth_record_le inside
    have op_read := choice?_ofString op.lookup_name n
    have lhs_read := Expr.decode_encode lhs lhs_within
    have rhs_read := Expr.decode_encode rhs rhs_within
    simp [encode, read, decodeKind, decodeRecord, record?_record, op_read, lhs_read, rhs_read]
  | index ty array position =>
    obtain ⟨n, rfl, inside, read⟩ := Expr.decode_node within
    obtain ⟨n, rfl, array_within, position_within⟩ := depth_record_le inside
    have array_read := Expr.decode_encode array array_within
    have position_read := Expr.decode_encode position position_within
    simp [encode, read, decodeKind, decodeRecord, record?_record, array_read, position_read]
  | field ty owner name =>
    obtain ⟨n, rfl, inside, read⟩ := Expr.decode_node within
    obtain ⟨n, rfl, owner_within, -⟩ := depth_record_le inside
    have owner_read := Expr.decode_encode owner owner_within
    simp [encode, read, decodeKind, decodeRecord, record?_record, owner_read, text?_ofString]
  | deref ty pointer =>
    obtain ⟨n, rfl, inside, read⟩ := Expr.decode_node within
    simp [encode, read, decodeKind, Expr.decode_encode pointer inside]
  | addrOf ty operand =>
    obtain ⟨n, rfl, inside, read⟩ := Expr.decode_node within
    simp [encode, read, decodeKind, Expr.decode_encode operand inside]
  | sizeOf ty measured =>
    obtain ⟨n, rfl, inside, read⟩ := Expr.decode_node within
    simp [encode, read, decodeKind, Ty.decode_encode measured inside]
  | cast ty operand =>
    obtain ⟨n, rfl, inside, read⟩ := Expr.decode_node within
    simp [encode, read, decodeKind, Expr.decode_encode operand inside]
  | assign ty lhs rhs =>
    obtain ⟨n, rfl, inside, read⟩ := Expr.decode_node within
    obtain ⟨n, rfl, lhs_within, rhs_within⟩ := depth_record_le inside
    have lhs_read := Expr.decode_encode lhs lhs_within
    have rhs_read := Expr.decode_encode rhs rhs_within
    simp [encode, read, decodeKind, decodeRecord, record?_record, lhs_read, rhs_read]

theorem Expr.decodeList_encode (exprs : List Expr) {n : Nat}
    (within : depthItems (Expr.encodeList exprs) ≤ n) :
    (Expr.encodeList exprs).mapM (Expr.decode n) = some exprs := by
  cases exprs with
  | nil => rfl
  | cons first rest =>
    rw [encodeList, depthItems, Nat.max_le] at within
    simp [encodeList, Expr.decode_encode first within.1, Expr.decodeList_encode rest within.2]

end

theorem Expr.encode_ne_null (expr : Expr) : expr.encode ≠ .null := by
  cases expr <;> simp [encode, node, Json.record]

/-! ## Statements -/

theorem Stmt.encode_ne_null (stmt : Stmt) : stmt.encode ≠ .null := by
  fun_cases Stmt.encode <;> simp [variant_eq, ofString]

/-- A list whose items are each read back is read back. -/
theorem items?_map {α : Type} {decode : Nat → Json → Option α} {encode : α → Json}
    (inverse : ∀ a n, (encode a).depth ≤ n → decode n (encode a) = some a) {values : List α}
    {n : Nat} (within : (Json.list (values.map encode)).depth ≤ n) :
    items? decode n (.list (values.map encode)) = some values := by
  obtain ⟨n, rfl, inside⟩ := depth_list_le within
  rw [items?]
  clear within
  induction values with
  | nil => rfl
  | cons first rest ih =>
    rw [List.map_cons, depthItems, Nat.max_le] at inside
    simp [inverse first n inside.1, ih inside.2]

theorem items?_varDecls {decls : List VarDecl} {n : Nat}
    (within : (Json.list (decls.map VarDecl.encode)).depth ≤ n) :
    items? VarDecl.decode n (.list (decls.map VarDecl.encode)) = some decls :=
  items?_map (fun decl _ => VarDecl.decode_encode decl) within

mutual

theorem Stmt.decode_encode (stmt : Stmt) {n : Nat} (within : stmt.encode.depth ≤ n) :
    Stmt.decode n stmt.encode = some stmt := by
  match stmt with
  | .block vars stmts =>
    obtain ⟨n, rfl, inside⟩ := depth_variant_le within
    have body_read := Block.decode_encode vars stmts inside
    rw [Block.encode] at body_read
    simp [Stmt.encode, variant_eq, Stmt.decode, body_read]
  | .loop cond body =>
    obtain ⟨n, rfl, inside⟩ := depth_variant_le within
    obtain ⟨n, rfl, cond_within, body_within⟩ := depth_record_le inside
    have cond_read := Expr.decode_encode cond cond_within
    have body_read := Stmt.decode_encode body body_within
    simp [Stmt.encode, variant_eq, Stmt.decode, record?_record, cond_read, body_read]
  | .branch cond yes none =>
    obtain ⟨n, rfl, inside⟩ := depth_variant_le within
    obtain ⟨n, rfl, cond_within, yes_within, -⟩ := depth_record_le inside
    have cond_read := Expr.decode_encode cond cond_within
    have yes_read := Stmt.decode_encode yes yes_within
    simp [Stmt.encode, variant_eq, Stmt.decode, record?_record, cond_read, yes_read]
  | .branch cond yes (some no) =>
    obtain ⟨n, rfl, inside⟩ := depth_variant_le within
    obtain ⟨n, rfl, cond_within, yes_within, no_within⟩ := depth_record_le inside
    have cond_read := Expr.decode_encode cond cond_within
    have yes_read := Stmt.decode_encode yes yes_within
    have no_read := Stmt.decode_encode no no_within
    simp [Stmt.encode, variant_eq, Stmt.decode, record?_record, cond_read, yes_read, no_read,
      Stmt.encode_ne_null]
  | .ret none =>
    obtain ⟨n, rfl, -⟩ := depth_variant_le within
    simp [Stmt.encode, variant_eq, Stmt.decode]
  | .ret (some value) =>
    obtain ⟨n, rfl, inside⟩ := depth_variant_le within
    have value_read := Expr.decode_encode value inside
    simp [Stmt.encode, variant_eq, Stmt.decode, Expr.encode_ne_null, value_read]
  | .eval expr =>
    obtain ⟨n, rfl, inside⟩ := depth_variant_le within
    simp [Stmt.encode, variant_eq, Stmt.decode, Expr.decode_encode expr inside]
  | .breakLoop | .continueLoop =>
    simp [Stmt.encode, Stmt.decode, ofString, choice?, Stmt.names, List.lookup_cons]

theorem Block.decode_encode (vars : List VarDecl) (stmts : List Stmt) {n : Nat}
    (within : (Block.encode { vars, stmts }).depth ≤ n) :
    Block.decode n (Block.encode { vars, stmts }) = some { vars, stmts } := by
  obtain ⟨n, rfl, vars_within, stmts_within⟩ := depth_record_le within
  have vars_read := items?_varDecls vars_within
  obtain ⟨n, rfl, list_within⟩ := depth_list_le stmts_within
  have stmts_read := Stmt.decodeList_encode stmts list_within
  simp [Block.encode, Block.decode, record?_record, vars_read, Stmt.decodeList, stmts_read]

theorem Stmt.decodeList_encode (stmts : List Stmt) {n : Nat}
    (within : depthItems (Stmt.encodeList stmts) ≤ n) :
    (Stmt.encodeList stmts).mapM (Stmt.decode n) = some stmts := by
  match stmts with
  | [] => rfl
  | first :: rest =>
    rw [Stmt.encodeList, depthItems, Nat.max_le] at within
    simp [Stmt.encodeList, Stmt.decode_encode first within.1, Stmt.decodeList_encode rest within.2]

end

/-! ## Declarations -/

theorem Decl.decode_encode (decl : Decl) {n : Nat} (within : decl.encode.depth ≤ n) :
    Decl.decode n decl.encode = some decl := by
  cases decl with
  | struct decl =>
    obtain ⟨n, rfl, inside⟩ := depth_variant_le within
    obtain ⟨n, rfl, -, fields_within⟩ := depth_record_le inside
    simp [encode, variant_eq, decode, StructDecl.decode, record?_record, text?_ofString,
      items?_varDecls fields_within]
  | var decl =>
    obtain ⟨n, rfl, inside⟩ := depth_variant_le within
    simp [encode, variant_eq, decode, VarDecl.decode_encode decl inside]
  | funDecl decl =>
    obtain ⟨n, rfl, inside⟩ := depth_variant_le within
    obtain ⟨n, rfl, -, ret_within, params_within⟩ := depth_record_le inside
    simp [encode, variant_eq, decode, FunDecl.decode, record?_record, text?_ofString,
      Ty.decode_encode decl.ret ret_within, items?_varDecls params_within]
  | funDef decl =>
    obtain ⟨n, rfl, inside⟩ := depth_variant_le within
    obtain ⟨n, rfl, -, ret_within, params_within, body_within⟩ := depth_record_le inside
    have body_read := Block.decode_encode decl.body.vars decl.body.stmts body_within
    simp [encode, variant_eq, decode, FunDef.decode, record?_record, text?_ofString,
      Ty.decode_encode decl.ret ret_within, items?_varDecls params_within, body_read]

theorem Program.decode_encode (program : Program) {n : Nat} (within : program.encode.depth ≤ n) :
    Program.decode n program.encode = some program := by
  obtain ⟨n, rfl, decls_within⟩ := depth_record_le within
  have decls_read := items?_map (fun decl _ => Decl.decode_encode decl) decls_within
  simp [encode, decode, record?_record, decls_read]

/-! ## Texts

An encoded tree holds no number with a fraction, so that its text is read back as it is. -/

theorem Ty.whole_encode (ty : Ty) : ty.encode.Whole := by
  induction ty <;> simp_all [encode, variant, record, ofString, ofNat, Whole, WholeMembers]

theorem VarDecl.whole_encode (decl : VarDecl) : decl.encode.Whole := by
  simp [encode, record, ofString, ofNat, Whole, WholeMembers, Ty.whole_encode]

theorem wholeItems_map {α : Type} {encode : α → Json} (whole : ∀ a, (encode a).Whole)
    (values : List α) : WholeItems (values.map encode) := by
  induction values with
  | nil => trivial
  | cons first rest ih => exact ⟨whole first, ih⟩

theorem wholeItems_varDecls (decls : List VarDecl) : WholeItems (decls.map VarDecl.encode) :=
  wholeItems_map VarDecl.whole_encode decls

mutual

theorem Expr.whole_encode (expr : Expr) : expr.encode.Whole := by
  cases expr <;>
    simp [encode, node, variant, record, Json.ofString, ofNat, Whole, WholeMembers,
      Ty.whole_encode, Expr.whole_encode, Expr.wholeItems_encodeList]

theorem Expr.wholeItems_encodeList (exprs : List Expr) : WholeItems (Expr.encodeList exprs) := by
  cases exprs with
  | nil => trivial
  | cons first rest => exact ⟨first.whole_encode, Expr.wholeItems_encodeList rest⟩

end

mutual

theorem Stmt.whole_encode (stmt : Stmt) : stmt.encode.Whole := by
  match stmt with
  | .block vars stmts =>
    exact ⟨⟨wholeItems_varDecls vars, Stmt.wholeItems_encodeList stmts, trivial⟩, trivial⟩
  | .loop cond body =>
    exact ⟨⟨cond.whole_encode, body.whole_encode, trivial⟩, trivial⟩
  | .branch cond yes none =>
    exact ⟨⟨cond.whole_encode, yes.whole_encode, trivial, trivial⟩, trivial⟩
  | .branch cond yes (some no) =>
    exact ⟨⟨cond.whole_encode, yes.whole_encode, no.whole_encode, trivial⟩, trivial⟩
  | .ret none => exact ⟨trivial, trivial⟩
  | .ret (some value) => exact ⟨value.whole_encode, trivial⟩
  | .eval expr => exact ⟨expr.whole_encode, trivial⟩
  | .breakLoop | .continueLoop => trivial

theorem Stmt.wholeItems_encodeList (stmts : List Stmt) : WholeItems (Stmt.encodeList stmts) := by
  match stmts with
  | [] => trivial
  | first :: rest => exact ⟨first.whole_encode, Stmt.wholeItems_encodeList rest⟩

end

theorem Decl.whole_encode (decl : Decl) : decl.encode.Whole := by
  cases decl with
  | struct decl => exact ⟨⟨trivial, wholeItems_varDecls decl.fields, trivial⟩, trivial⟩
  | var decl => exact ⟨decl.whole_encode, trivial⟩
  | funDecl decl =>
    exact ⟨⟨trivial, decl.ret.whole_encode, wholeItems_varDecls decl.params, trivial⟩, trivial⟩
  | funDef decl =>
    have body : decl.body.encode.Whole :=
      ⟨wholeItems_varDecls decl.body.vars, Stmt.wholeItems_encodeList decl.body.stmts, trivial⟩
    exact ⟨⟨trivial, decl.ret.whole_encode, wholeItems_varDecls decl.params, body, trivial⟩,
      trivial⟩

theorem Program.whole_encode (program : Program) : program.encode.Whole :=
  ⟨wholeItems_map Decl.whole_encode program.decls, trivial⟩

namespace Program

theorem read?_print_encode (program : Program) :
    Json.read? program.encode.print = some program.encode :=
  Json.read?_print program.whole_encode

theorem print_encode_injective :
    Function.Injective fun program : Program => program.encode.print := by
  intro program other same
  have encodings : program.encode = other.encode := by
    have read := congrArg Json.read? same
    simpa only [read?_print_encode, Option.some.injEq] using read
  have program_read := decode_encode program (Nat.le_refl _)
  have other_read := decode_encode other (encodings ▸ Nat.le_refl program.encode.depth)
  rw [← encodings, program_read, Option.some.injEq] at other_read
  exact other_read

/-- The text written in full: with all fields of each record, in order and by name, and without
anything else. -/
def reprint? (text : String) : Option String :=
  (ofText? text).map fun program => program.encode.print

/-- A tree is read back from its encoding, whatever blanks and escapes this is written with. So no
two trees share an encoding, and two accepted texts written in full are the same text when they
stand for the same tree. -/
theorem reprint_faithful :
    (∀ program : Program, program.encode.depth ≤ nestingLimit →
      ofText? program.encode.print = some program ∧
        ∀ text, Json.read? text = some program.encode → ofText? text = some program) ∧
    (Function.Injective fun program : Program => program.encode.print) ∧
    (∀ text other program another, ofText? text = some program → ofText? other = some another →
      (reprint? text = reprint? other ↔ program = another)) ∧
    ∀ text program, ofText? text = some program → program.encode.depth ≤ nestingLimit →
      ∃ full, reprint? text = some full ∧ reprint? full = some full := by
  have accepted : ∀ program : Program, program.encode.depth ≤ nestingLimit →
      ∀ text, Json.read? text = some program.encode → ofText? text = some program := by
    intro program within text read
    rw [ofText?, read]
    exact decode_encode program within
  refine ⟨?_, print_encode_injective, ?_, ?_⟩
  · intro program within
    exact ⟨accepted program within _ (read?_print_encode program), accepted program within⟩
  · intro text other program another text_read other_read
    simp only [reprint?, text_read, other_read, Option.map_some, Option.some.injEq]
    exact print_encode_injective.eq_iff
  · intro text program text_read within
    have full_read := accepted program within _ (read?_print_encode program)
    exact ⟨program.encode.print, by simp [reprint?, text_read], by simp [reprint?, full_read]⟩

/-! A program in two spellings: with records as lists, a type as an object, a member that stands for
nothing and no list of variables, and with all fields by name. -/

def briefText : String :=
  "[[\x7b\"fun_def\":[\"f\",\x7b\"void\":null\x7d,[],
    \x7b\"stmts\":[\x7b\"return\":null\x7d],\"at\":1.5\x7d]\x7d]]"

def plainText : String :=
  "\x7b\"decls\":[\x7b\"fun_def\":\x7b
    \"body\":\x7b\"vars\":[],\"stmts\":[\x7b\"return\":null\x7d]\x7d,
    \"name\":\"f\",\"ret\":\"void\",\"params\":[]\x7d\x7d]\x7d"

theorem reprint_brief :
    ∃ program, ofText? briefText = some program ∧ ofText? plainText = some program ∧
      program.encode.depth ≤ nestingLimit ∧ ofText? program.encode.print = some program := by
  have brief : (ofText? briefText).any (·.encode.depth ≤ nestingLimit) = true := by decide +kernel
  have plain : (ofText? plainText).isSome = true := by decide +kernel
  have full : reprint? briefText = reprint? plainText := by decide +kernel
  obtain ⟨program, brief_read, within⟩ := Option.any_eq_true .. |>.1 brief
  obtain ⟨another, plain_read⟩ := Option.isSome_iff_exists.1 plain
  obtain rfl := (reprint_faithful.2.2.1 _ _ _ _ brief_read plain_read).1 full
  have within := of_decide_eq_true within
  exact ⟨program, brief_read, plain_read, within, (reprint_faithful.1 program within).1⟩

end Program

end MipsBackend
