import MipsBackend.Proofs.Assignment.Acceptance
import MipsBackend.Proofs.Text.RoundTrip

/-!
# The registers of an instruction

Liveness and rewriting see of an instruction the registers that it reads and the one that it writes.
These are all that its text names, and rebuilding the instruction visits them once each, first those
that it reads, in operand order, and then the one that it writes. All else stays as it is
(`Instr.registers_exact`).
-/

namespace MipsBackend

/-! ## Registers in texts -/

/-- Whether a character stands between the operands of an instruction. -/
def Text.separates (c : Char) : Bool := c ∈ [' ', ',', '(', ')']

theorem Text.separates_eq_false {c : Char} (inside : c.isAlphanum = true ∨ c ∈ ['$', '%', '-']) :
    separates c = false := by
  apply decide_eq_false
  intro other
  simp only [List.mem_cons, List.not_mem_nil, or_false] at other
  rcases other with rfl | rfl | rfl | rfl <;> exact absurd inside (by decide)

namespace Reg

/-- The registers that the words of a text name, in order. -/
def allIn (text : List Char) : List Reg := (text.splitOnP Text.separates).filterMap read?

@[simp] theorem allIn_nil : allIn [] = [] := by decide

@[simp] theorem allIn_append {separator : Char} (separates : Text.separates separator = true)
    (first second : List Char) :
    allIn (first ++ separator :: second) = allIn first ++ allIn second := by
  rw [allIn, List.splitOnP_append_cons _ _ separates, List.filterMap_append]
  rfl

theorem allIn_word {word : List Char} (whole : ∀ c ∈ word, Text.separates c = false) :
    allIn word = (read? word).toList := by
  rw [allIn, List.splitOnP_eq_singleton (by simpa using whole), List.filterMap_cons]
  cases read? word <;> rfl

theorem mark_of_read? {word : List Char} {reg : Reg} (known : read? word = some reg) :
    '$' ∈ word ∨ '%' ∈ word := by
  unfold read? at known
  split at known
  · exact .inr List.mem_cons_self
  · obtain ⟨phys, found, -⟩ := Option.map_eq_some_iff.1 known
    have same : phys.text = String.ofList word := by simpa using List.find?_some found
    have marked : '$' ∈ phys.text.toList := by cases phys <;> decide
    exact .inl (by simpa [same] using marked)

theorem allIn_unmarked {word : List Char}
    (plain : ∀ c ∈ word, c.isAlphanum = true ∨ c = '-') : allIn word = [] := by
  have whole : ∀ c ∈ word, Text.separates c = false := fun c member =>
    Text.separates_eq_false ((plain c member).imp_right fun sign => by simp [sign])
  rw [allIn_word whole]
  cases known : read? word with
  | none => rfl
  | some reg =>
    rcases mark_of_read? known with mark | mark <;> exact absurd (plain _ mark) (by decide)

@[simp] theorem allIn_text (reg : Reg) : allIn reg.text.toList = [reg] := by
  have whole : ∀ c ∈ reg.text.toList, Text.separates c = false := by
    intro c member
    have kind := char_of_mem_text member
    simp only [Bool.or_eq_true, beq_iff_eq] at kind
    rcases kind with (rfl | rfl) | letter
    · decide
    · decide
    · exact Text.separates_eq_false (.inl letter)
  rw [allIn_word whole, read?_text]
  rfl

@[simp] theorem allIn_toString (value : Int) : allIn (toString value).toList = [] :=
  allIn_unmarked fun c member => by
    rcases char_of_mem_toString member with sign | digit
    · exact .inr sign
    · exact .inl (by simp [Char.isAlphanum, digit])

theorem allIn_intercalate (first : String) (others : List String) :
    allIn (", ".intercalate (first :: others)).toList =
      (first :: others).flatMap fun text => allIn text.toList := by
  induction others generalizing first with
  | nil => simp
  | cons second others ih =>
    have split : (", ".intercalate (first :: second :: others)).toList =
        first.toList ++ ',' :: ([] ++ ' ' :: (", ".intercalate (second :: others)).toList) := by
      simp
    rw [split, allIn_append (by decide), allIn_append (by decide), ih]
    simp

end Reg

/-- The registers in the text of an operand. -/
def Operand.registers : Operand → List Reg
  | reg operand => [operand]
  | imm _ => []
  | label operand => Reg.allIn operand.text.toList
  | indexed _ base => [base]

theorem Operand.allIn_text (operand : Operand) :
    Reg.allIn operand.text.toList = operand.registers := by
  cases operand with
  | reg reg => exact Reg.allIn_text reg
  | imm value => exact Reg.allIn_toString _
  | label label => rfl
  | indexed offset base =>
    have split : (indexed offset base).text.toList =
        (toString offset.toInt).toList ++ '(' :: (base.text.toList ++ ')' :: []) := by
      simp [text]
    rw [split, Reg.allIn_append (by decide), Reg.allIn_append (by decide), Reg.allIn_toString,
      Reg.allIn_text, Reg.allIn_nil]
    rfl

namespace Instr

theorem allIn_text (instr : Instr) :
    Reg.allIn instr.text.toList = instr.operands.flatMap Operand.registers := by
  have mnemonic : Reg.allIn instr.mnemonic.toList = [] :=
    Reg.allIn_unmarked fun c member => by
      rw [← mnemonic_opcode] at member
      have letter := instr.opcode.mnemonic_letters.2 c member
      exact .inl (by simp [Char.isAlphanum, letter])
  rw [text]
  cases instr.operands with
  | nil => exact mnemonic
  | cons first others =>
    have split : (instr.mnemonic ++ " " ++
        ", ".intercalate ((first :: others).map Operand.text)).toList =
        instr.mnemonic.toList ++ ' ' ::
          (", ".intercalate ((first :: others).map Operand.text)).toList := by
      simp
    show Reg.allIn (_ : String).toList = _
    rw [split, Reg.allIn_append (by decide), mnemonic, List.map_cons, Reg.allIn_intercalate,
      ← List.map_cons, List.flatMap_map, List.nil_append]
    simp only [Operand.allIn_text]

/-! ## Visits -/

/-- The instruction with other registers: those that it reads, in operand order, and the one that it
writes. -/
def withRegisters : Instr → List Reg → Option Reg → Instr
  | loadImm _ imm, [], some dst => loadImm dst imm
  | loadAddr _ label, [], some dst => loadAddr dst label
  | arithImm op _ _ imm, [src], some dst => arithImm op dst src imm
  | arith op _ _ _, [lhs, rhs], some dst => arith op dst lhs rhs
  | hiLo op _ _, [lhs, rhs], none => hiLo op lhs rhs
  | moveFrom op _, [], some dst => moveFrom op dst
  | load op _ offset _, [base], some dst => load op dst offset base
  | store op _ offset _, [src, base], none => store op src offset base
  | branchZero op _ target, [src], none => branchZero op src target
  | branchPair op _ _ target, [lhs, rhs], none => branchPair op lhs rhs target
  | jumpReg _, [src], none => jumpReg src
  | instr, _, _ => instr

def label? : Instr → Option Label
  | loadAddr _ label | branchZero _ _ label | branchPair _ _ _ label | jump label | call label =>
    some label
  | _ => none

def imm? : Instr → Option Int32
  | loadImm _ imm | arithImm _ _ _ imm | load _ _ imm _ | store _ _ imm _ => some imm
  | _ => none

/-- The two instructions do the same with their registers. -/
structure Alike (first second : Instr) : Prop where
  mnemonic : second.mnemonic = first.mnemonic
  imm : second.imm? = first.imm?
  label : second.label? = first.label?
  target : second.branchTarget? = first.branchTarget?
  falls : second.fallsThrough = first.fallsThrough

/-- Both visits in a row, each with a state of its own. -/
def visitBoth {σ τ : Type} (first : Role → Reg → StateM σ Reg) (second : Role → Reg → StateM τ Reg)
    (role : Role) (reg : Reg) : StateM (σ × τ) Reg := fun (one, two) =>
  let (made, one) := (first role reg).run one
  let (last, two) := (second role made).run two
  (last, one, two)

structure RegistersExact (instr : Instr) : Prop where
  /-- Only the name of a label could hold others. -/
  printed : Reg.allIn instr.text.toList = instr.def?.toList ++ instr.uses ++
    instr.label?.toList.flatMap fun label => Reg.allIn label.text.toList
  visited : ∀ (m : Type → Type) [Monad m] [LawfulMonad m] (visit : Role → Reg → m Reg),
    instr.mapRegistersM visit = do
      let reads ← instr.uses.mapM (visit .use)
      let written ← instr.def?.mapM (visit .define)
      return instr.withRegisters reads written
  replaced : ∀ reads written, reads.length = instr.uses.length →
    written.isSome = instr.def?.isSome →
      (instr.withRegisters reads written).uses = reads ∧
        (instr.withRegisters reads written).def? = written ∧
        instr.Alike (instr.withRegisters reads written)
  renamed : ∀ rename, (instr.mapRegisters rename).uses = instr.uses.map (rename .use) ∧
    (instr.mapRegisters rename).def? = instr.def?.map (rename .define) ∧
    instr.Alike (instr.mapRegisters rename)
  kept : instr.mapRegisters (fun _ reg => reg) = instr
  composed : ∀ first second, (instr.mapRegisters first).mapRegisters second =
    instr.mapRegisters fun role reg => second role (first role reg)
  /-- A visit may answer from what it has seen before. -/
  composedStates : ∀ {σ τ : Type} (first : Role → Reg → StateM σ Reg)
    (second : Role → Reg → StateM τ Reg) (one : σ) (two : τ),
    (instr.mapRegistersM (visitBoth first second)).run (one, two) =
      let (made, one) := (instr.mapRegistersM first).run one
      let (last, two) := (made.mapRegistersM second).run two
      (last, one, two)

theorem mapRegistersM_eq {m : Type → Type} [Monad m] [LawfulMonad m] (visit : Role → Reg → m Reg)
    (instr : Instr) :
    instr.mapRegistersM visit = do
      let reads ← instr.uses.mapM (visit .use)
      let written ← instr.def?.mapM (visit .define)
      return instr.withRegisters reads written := by
  cases instr <;> simp only [mapRegistersM, uses, def?, withRegisters, List.mapM_cons,
    List.mapM_nil, Option.mapM_some, Option.mapM_none, bind_assoc, pure_bind, map_eq_pure_bind]

theorem mapRegisters_eq (rename : Role → Reg → Reg) (instr : Instr) :
    instr.mapRegisters rename =
      instr.withRegisters (instr.uses.map (rename .use)) (instr.def?.map (rename .define)) := by
  cases instr <;> rfl

theorem withRegisters_exact {instr : Instr} {reads : List Reg} {written : Option Reg}
    (count : reads.length = instr.uses.length) (writes : written.isSome = instr.def?.isSome) :
    (instr.withRegisters reads written).uses = reads ∧
      (instr.withRegisters reads written).def? = written ∧
      instr.Alike (instr.withRegisters reads written) := by
  have unwritten : written.isSome = false → written = none := by simp
  cases instr with
  | syscall | marker | jump | call =>
    obtain rfl := List.length_eq_zero_iff.1 count
    obtain rfl := unwritten writes
    exact ⟨rfl, rfl, rfl, rfl, rfl, rfl, rfl⟩
  | loadImm | loadAddr | moveFrom =>
    obtain rfl := List.length_eq_zero_iff.1 count
    obtain ⟨dst, rfl⟩ := Option.isSome_iff_exists.1 writes
    exact ⟨rfl, rfl, rfl, rfl, rfl, rfl, rfl⟩
  | arithImm | load =>
    obtain ⟨src, rfl⟩ := List.length_eq_one_iff.1 count
    obtain ⟨dst, rfl⟩ := Option.isSome_iff_exists.1 writes
    exact ⟨rfl, rfl, rfl, rfl, rfl, rfl, rfl⟩
  | arith =>
    obtain ⟨lhs, rhs, rfl⟩ := List.length_eq_two.1 count
    obtain ⟨dst, rfl⟩ := Option.isSome_iff_exists.1 writes
    exact ⟨rfl, rfl, rfl, rfl, rfl, rfl, rfl⟩
  | branchZero | jumpReg =>
    obtain ⟨src, rfl⟩ := List.length_eq_one_iff.1 count
    obtain rfl := unwritten writes
    exact ⟨rfl, rfl, rfl, rfl, rfl, rfl, rfl⟩
  | hiLo | store | branchPair =>
    obtain ⟨lhs, rhs, rfl⟩ := List.length_eq_two.1 count
    obtain rfl := unwritten writes
    exact ⟨rfl, rfl, rfl, rfl, rfl, rfl, rfl⟩

/-- Every instruction names the registers that it reads and the one that it writes, and no others.
Rebuilding it is to visit the former in operand order, then the latter, each once and in its role,
and to put the answers in their places; nothing else about the instruction changes. So the identity
gives the instruction back, and two rebuildings in a row are one. -/
theorem registers_exact (instr : Instr) : instr.RegistersExact where
  printed := by
    rw [allIn_text]
    cases instr <;> simp [operands, Operand.registers, def?, uses, label?]
  visited _ _ _ visit := mapRegistersM_eq visit instr
  replaced _ _ count writes := withRegisters_exact count writes
  renamed rename := by
    rw [mapRegisters_eq]
    exact withRegisters_exact (by simp) (by simp)
  kept := by cases instr <;> rfl
  composed first second := by cases instr <;> rfl
  composedStates first second one two := by cases instr <;> rfl

end Instr

end MipsBackend
