import MipsBackend.Proofs.Text.Reader
import Mathlib.Tactic.FinCases
import Std.Data.String.ToInt
import Std.Data.String.ToNat

/-!
The text of an assembly program is read back as the program, so that no two programs are written
alike. Labels are words and comments are lines; strings are arbitrary, as their escapes keep them
on one line and between their quotes.
-/

namespace MipsBackend

/-! ## Strings -/

namespace Text

theorem namedChar?_of_escapeLetter? {c letter : Char} (named : escapeLetter? c = some letter) :
    namedChar? letter = some c := by
  unfold escapeLetter? at named
  split at named <;> cases named <;> rfl

theorem not_mark_of_escapeLetter? {c : Char} (unnamed : escapeLetter? c = none) :
    c ≠ '\\' ∧ c ≠ '"' ∧ c ≠ '\n' := by
  refine ⟨?_, ?_, ?_⟩ <;> rintro rfl <;> cases unnamed

theorem unescape?_escapeChar (c : Char) (rest : List Char) :
    unescape? (escapeChar c ++ rest) = (unescape? rest).map (c :: ·) := by
  unfold escapeChar
  split
  case h_1 letter named =>
    rw [List.cons_append, List.cons_append, List.nil_append, unescape?,
      namedChar?_of_escapeLetter? named]
    cases unescape? rest <;> rfl
  case h_2 unnamed =>
    have plain := (not_mark_of_escapeLetter? unnamed).1
    rw [List.singleton_append, unescape?]
    · cases unescape? rest <;> rfl
    · intros; contradiction
    · intros; contradiction

theorem hasBareQuote_escapeChar (c : Char) (rest : List Char) :
    hasBareQuote (escapeChar c ++ rest) = hasBareQuote rest := by
  unfold escapeChar
  split
  case h_1 letter named => simp [hasBareQuote]
  case h_2 unnamed =>
    have plain := not_mark_of_escapeLetter? unnamed
    simp [hasBareQuote, plain]

theorem unescape?_escape (text : String) : unescape? (escape text).toList = some text.toList := by
  rw [escape, String.toList_ofList]
  induction text.toList with
  | nil => rfl
  | cons c cs ih => rw [List.flatMap_cons, unescape?_escapeChar, ih, Option.map_some]

theorem hasBareQuote_escape (text : String) : hasBareQuote (escape text).toList = false := by
  rw [escape, String.toList_ofList]
  induction text.toList with
  | nil => rfl
  | cons c cs ih => rw [List.flatMap_cons, hasBareQuote_escapeChar, ih]

theorem newline_not_mem_escape (text : String) : '\n' ∉ (escape text).toList := by
  rw [escape, String.toList_ofList, List.mem_flatMap]
  rintro ⟨c, -, member⟩
  unfold escapeChar at member
  split at member
  case h_1 letter named =>
    obtain rfl : '\n' = letter := by simpa using member
    cases namedChar?_of_escapeLetter? named
  case h_2 unnamed =>
    exact (not_mark_of_escapeLetter? unnamed).2.2 (List.mem_singleton.1 member).symm

end Text

/-! ## Operands -/

theorem Reg.read?_text (reg : Reg) : Reg.read? reg.text.toList = some reg := by
  cases reg with
  | phys reg => cases reg <;> decide
  | virt reg =>
    have number : (toString reg).toNat? = some reg := Nat.toNat?_repr reg
    rw [text, VReg.text, String.toList_append]
    show (String.ofList (toString reg).toList).toNat?.map Reg.virt = some (.virt reg)
    rw [String.ofList_toList, number, Option.map_some]

theorem readImm?_toString (value : Int32) :
    readImm? (toString value.toInt).toList = some value := by
  have number : (toString value.toInt).toInt? = some value.toInt := Int.toInt?_repr value.toInt
  rw [readImm?, String.ofList_toList, number, Option.map_some, Int32.ofInt_toInt]

theorem isDigit_of_mem_toString {number : Nat} {c : Char} (member : c ∈ (toString number).toList) :
    c.isDigit = true :=
  Nat.isDigit_of_mem_toDigits (by decide) (by decide) (Nat.toList_repr ▸ member)

theorem char_of_mem_toString {value : Int} {c : Char} (member : c ∈ (toString value).toList) :
    c = '-' ∨ c.isDigit = true := by
  rw [Int.toString_eq_repr, Int.repr_eq_if] at member
  split at member
  case isTrue => exact Or.inr (isDigit_of_mem_toString member)
  case isFalse =>
    rw [String.toList_append, List.mem_append] at member
    rcases member with sign | digit
    · exact Or.inl (by simpa using sign)
    · exact Or.inr (isDigit_of_mem_toString digit)

theorem readIndexed?_text (offset : Int32) (base : Reg) :
    readIndexed? (Operand.indexed offset base).text.toList = some (offset, base) := by
  have number : ∀ c ∈ (toString offset.toInt).toList, decide (c ≠ '(') = true := by
    intro c member
    apply decide_eq_true
    rintro rfl
    exact absurd (char_of_mem_toString member) (by decide)
  have shown : (Operand.indexed offset base).text.toList =
      (toString offset.toInt).toList ++ '(' :: (base.text.toList ++ [')']) := by
    simp [Operand.text]
  rw [shown, readIndexed?, List.takeWhile_append_of_pos number, List.dropWhile_append_of_pos number]
  rw [List.takeWhile_cons_of_neg (by simp), List.dropWhile_cons_of_neg (by simp), List.append_nil,
    readImm?_toString]
  simp [Reg.read?_text]

theorem Reg.char_of_mem_text {reg : Reg} {c : Char} (member : c ∈ reg.text.toList) :
    (c == '$' || c == '%' || c.isAlphanum) = true := by
  cases reg with
  | phys reg =>
    have chars : reg.text.toList.all (fun c => c == '$' || c == '%' || c.isAlphanum) = true := by
      cases reg <;> decide
    exact List.all_eq_true.1 chars c member
  | virt reg =>
    rw [text, VReg.text, String.toList_append, List.mem_append] at member
    rcases member with mark | digit
    · have chars : "%v".toList.all (fun c => c == '$' || c == '%' || c.isAlphanum) = true := by
        decide
      exact List.all_eq_true.1 chars c mark
    · simp [Char.isAlphanum, isDigit_of_mem_toString digit]

/-! ## Legible programs -/

/-- Whether the label could be a word: it has no blank, no comma and no line break. -/
def Label.isLegible (label : Label) : Bool := label.text.toList.all (· ∉ ['\n', ',', ' '])

theorem Label.isLegible_of_word {label : Label}
    (word : ∀ c ∈ label.text.toList, c.isAlphanum = true ∨ c = '_') : label.isLegible = true := by
  rw [isLegible, List.all_eq_true]
  intro c member
  apply decide_eq_true
  intro mark
  simp only [List.mem_cons, List.not_mem_nil, or_false] at mark
  rcases mark with rfl | rfl | rfl <;> rcases word _ member with letter | score <;> contradiction

theorem Label.mark_not_mem_text {label : Label} (legible : label.isLegible = true) {mark : Char}
    (other : mark ∈ ['\n', ',', ' ']) : mark ∉ label.text.toList :=
  fun member => of_decide_eq_true (List.all_eq_true.1 legible mark member) other

def Operand.isLegible : Operand → Bool
  | label l => l.isLegible
  | reg _ | imm _ | indexed _ _ => true

def Instr.isLegible (instr : Instr) : Bool := instr.operands.all Operand.isLegible

def TextItem.isLegible : TextItem → Bool
  | label l => l.isLegible
  | instr i => i.isLegible
  | comment text => '\n' ∉ text.toList

def DataItem.isLegible : DataItem → Bool
  | label l => l.isLegible
  | directive _ => true
  | comment text => '\n' ∉ text.toList

/-- Whether all labels are words and all comments are lines. -/
def Assembly.isLegible (program : Assembly) : Bool :=
  program.data.all DataItem.isLegible && program.sections.all (·.items.all TextItem.isLegible)

/-! ## Instructions -/

theorem mem_intercalate {c : Char} {separator : List Char} {pieces : List (List Char)}
    (member : c ∈ separator.intercalate pieces) : c ∈ separator ∨ ∃ piece ∈ pieces, c ∈ piece := by
  induction pieces with
  | nil => contradiction
  | cons first others ih =>
    cases others with
    | nil => exact Or.inr ⟨first, by simpa using member⟩
    | cons second others =>
      rw [List.intercalate_cons_cons, List.mem_append, List.mem_append] at member
      rcases member with (inside | mark) | later
      · exact Or.inr ⟨first, List.mem_cons_self, inside⟩
      · exact Or.inl mark
      · obtain mark | ⟨piece, listed, inside⟩ := ih later
        · exact Or.inl mark
        · exact Or.inr ⟨piece, List.mem_cons_of_mem _ listed, inside⟩

theorem blank_intercalate (first : String) (others : List String) :
    ' ' :: (", ".intercalate (first :: others)).toList =
      [','].intercalate ((first :: others).map fun text => ' ' :: text.toList) := by
  induction others generalizing first with
  | nil => simp
  | cons second others ih =>
    have rest := ih second
    simp only [String.toList_intercalate, List.map_cons, List.intercalate_cons_cons] at rest ⊢
    simp [← rest]

theorem Operand.mark_not_mem_text {operand : Operand} (legible : operand.isLegible = true)
    {mark : Char} (other : mark ∈ ['\n', ',']) : mark ∉ operand.text.toList := by
  have number : ∀ value : Int, mark ∉ (toString value).toList := by
    intro value member
    rcases char_of_mem_toString member with rfl | digit
    · contradiction
    · revert digit
      fin_cases other <;> decide
  have register : ∀ reg : Reg, mark ∉ reg.text.toList := by
    intro reg member
    have char := Reg.char_of_mem_text member
    revert char
    fin_cases other <;> decide
  cases operand with
  | reg reg => exact register reg
  | imm value => exact number value.toInt
  | label label =>
    apply Label.mark_not_mem_text legible
    fin_cases other <;> decide
  | indexed offset base =>
    have bracket : mark ≠ '(' ∧ mark ≠ ')' := by fin_cases other <;> decide
    simp only [text, String.toList_append, List.mem_append, not_or]
    exact ⟨⟨⟨number offset.toInt, by simpa using bracket.1⟩, register base⟩,
      by simpa using bracket.2⟩

namespace Opcode

theorem ofMnemonic?_mnemonic (opcode : Opcode) : ofMnemonic? opcode.mnemonic = some opcode := by
  cases opcode with
  | marker kind => cases kind <;> decide
  | arithImm op => cases op <;> decide
  | arith op => cases op <;> decide
  | hiLo op => cases op <;> decide
  | moveFrom op => cases op <;> decide
  | load op => cases op <;> decide
  | store op => cases op <;> decide
  | branchZero op => cases op <;> decide
  | branchPair op => cases op <;> decide
  | syscall | loadImm | loadAddr | jump | call | jumpReg => decide

theorem mem_all (opcode : Opcode) : opcode ∈ all :=
  List.mem_of_find?_eq_some (ofMnemonic?_mnemonic opcode)

theorem mnemonic_letters (opcode : Opcode) :
    opcode.mnemonic ≠ "" ∧ ∀ c ∈ opcode.mnemonic.toList, c.isAlpha = true := by
  have letters : all.all (fun opcode =>
      opcode.mnemonic != "" && opcode.mnemonic.toList.all Char.isAlpha) = true := by
    decide
  simpa using List.all_eq_true.1 letters opcode opcode.mem_all

end Opcode

namespace Instr

def opcode : Instr → Opcode
  | syscall => .syscall
  | marker kind => .marker kind
  | loadImm _ _ => .loadImm
  | loadAddr _ _ => .loadAddr
  | arithImm op _ _ _ => .arithImm op
  | arith op _ _ _ => .arith op
  | hiLo op _ _ => .hiLo op
  | moveFrom op _ => .moveFrom op
  | load op _ _ _ => .load op
  | store op _ _ _ => .store op
  | branchZero op _ _ => .branchZero op
  | branchPair op _ _ _ => .branchPair op
  | jump _ => .jump
  | call _ => .call
  | jumpReg _ => .jumpReg

theorem mnemonic_opcode (instr : Instr) : instr.opcode.mnemonic = instr.mnemonic := by
  cases instr <;> rfl

theorem read?_operands (instr : Instr) :
    instr.opcode.read? (instr.operands.map (·.text.toList)) = some instr := by
  have imm : ∀ value, readImm? (Operand.imm value).text.toList = some value := readImm?_toString
  have reg : ∀ reg, Reg.read? (Operand.reg reg).text.toList = some reg := Reg.read?_text
  have label : ∀ label, Label.read (Operand.label label).text.toList = label := by
    simp [Operand.text, Label.read]
  cases instr <;> simp [opcode, operands, Opcode.read?, imm, reg, label, readIndexed?_text]

/-- What follows the mnemonic. -/
def operandChars (instr : Instr) : List Char :=
  match instr.operands with
  | [] => []
  | operands => ' ' :: (", ".intercalate (operands.map Operand.text)).toList

theorem text_toList (instr : Instr) :
    instr.text.toList = instr.opcode.mnemonic.toList ++ instr.operandChars := by
  rw [mnemonic_opcode, text, operandChars]
  cases instr.operands <;> simp

theorem readOperands_operandChars {instr : Instr} (legible : instr.isLegible = true) :
    readOperands instr.operandChars = instr.operands.map (·.text.toList) := by
  rw [isLegible, List.all_eq_true] at legible
  unfold operandChars
  cases listed : instr.operands with
  | nil => rfl
  | cons first others =>
    rw [listed] at legible
    have apart : ∀ piece ∈ ((first :: others).map Operand.text).map fun text => ' ' :: text.toList,
        ',' ∉ piece := by
      intro piece member
      rw [List.map_map] at member
      obtain ⟨operand, listed, rfl⟩ := List.mem_map.1 member
      have comma : ',' ∉ operand.text.toList :=
        Operand.mark_not_mem_text (legible operand listed) (by decide)
      simpa using comma
    show ((' ' :: (", ".intercalate ((first :: others).map Operand.text)).toList).splitOn ',').map
      List.tail = _
    rw [List.map_cons, blank_intercalate, ← List.map_cons,
      List.splitOn_intercalate ',' apart (by simp)]
    simp

theorem read?_text {instr : Instr} (legible : instr.isLegible = true) :
    Instr.read? instr.text.toList = some instr := by
  have letters : ∀ c ∈ instr.opcode.mnemonic.toList, decide (c ≠ ' ') = true := by
    intro c member
    apply decide_eq_true
    rintro rfl
    exact absurd (instr.opcode.mnemonic_letters.2 _ member) (by decide)
  have stop : instr.operandChars.takeWhile (· ≠ ' ') = [] ∧
      instr.operandChars.dropWhile (· ≠ ' ') = instr.operandChars := by
    unfold operandChars
    split <;> simp
  rw [text_toList, Instr.read?, List.takeWhile_append_of_pos letters,
    List.dropWhile_append_of_pos letters, stop.1, stop.2, List.append_nil, String.ofList_toList,
    Opcode.ofMnemonic?_mnemonic, readOperands_operandChars legible]
  exact read?_operands instr

theorem newline_not_mem_text {instr : Instr} (legible : instr.isLegible = true) :
    '\n' ∉ instr.text.toList := by
  rw [isLegible, List.all_eq_true] at legible
  rw [text_toList, List.mem_append, not_or]
  constructor
  · intro member
    exact absurd (instr.opcode.mnemonic_letters.2 _ member) (by decide)
  · unfold operandChars
    split
    case h_1 => exact List.not_mem_nil
    case h_2 =>
      rw [List.mem_cons, String.toList_intercalate, not_or]
      apply And.intro (by decide)
      intro member
      obtain mark | ⟨piece, listed, inside⟩ := mem_intercalate member
      · exact absurd mark (by decide)
      · rw [List.map_map] at listed
        obtain ⟨operand, among, rfl⟩ := List.mem_map.1 listed
        exact Operand.mark_not_mem_text (legible operand among) (by decide) inside

theorem text_head (instr : Instr) : ∃ c rest, instr.text.toList = c :: rest ∧ c.isAlpha = true := by
  obtain ⟨nonempty, letters⟩ := instr.opcode.mnemonic_letters
  rw [text_toList]
  cases mnemonic : instr.opcode.mnemonic.toList with
  | nil => exact absurd (String.toList_eq_nil_iff.1 mnemonic) nonempty
  | cons c rest => exact ⟨c, rest ++ instr.operandChars, rfl, letters c (by simp [mnemonic])⟩

end Instr

/-! ## Lines -/

theorem Label.readLine?_text (label : Label) :
    Label.readLine? (label.text.toList ++ [':']) = some label := by
  simp [readLine?, Label.read]

theorem Label.blank_not_mem_line {label : Label} (legible : label.isLegible = true) :
    ' ' ∉ label.text.toList ++ [':'] := by
  have solid : ' ' ∉ label.text.toList := Label.mark_not_mem_text legible (by decide)
  simp [solid]

theorem TextItem.read?_line {item : TextItem} (legible : item.isLegible = true) :
    TextItem.read? item.line = some item := by
  cases item with
  | label label =>
    have shown : (label.text ++ ":").toList = label.text.toList ++ [':'] := by simp
    have solid := Label.blank_not_mem_line legible
    rw [read?, line, shown]
    split
    case h_1 same => simp [same] at solid
    case h_2 same => simp [same] at solid
    case h_3 => rw [Label.readLine?_text, Option.map_some]
  | instr instr =>
    obtain ⟨c, rest, head, letter⟩ := instr.text_head
    have shown : ("  " ++ instr.text).toList = ' ' :: ' ' :: instr.text.toList := by simp
    have hash : c ≠ '#' := by
      rintro rfl
      contradiction
    rw [read?, line, shown]
    have read := Instr.read?_text legible
    rw [head] at read ⊢
    simp [hash, read]
  | comment text =>
    have shown : ("  # " ++ text).toList = ' ' :: ' ' :: '#' :: ' ' :: text.toList := by simp
    rw [read?, line, shown]
    simp

theorem Directive.read?_text (directive : Directive) :
    Directive.read? directive.text.toList = some directive := by
  cases directive with
  | space bytes =>
    have number : (toString bytes).toNat? = some bytes := Nat.toNat?_repr bytes
    rw [text, String.toList_append]
    show (String.ofList (toString bytes).toList).toNat?.map space = some (space bytes)
    rw [String.ofList_toList, number, Option.map_some]
  | align exponent =>
    have number : (toString exponent).toNat? = some exponent := Nat.toNat?_repr exponent
    rw [text, String.toList_append]
    show (String.ofList (toString exponent).toList).toNat?.map align = some (align exponent)
    rw [String.ofList_toList, number, Option.map_some]
  | asciiz text =>
    rw [Directive.text, String.toList_append, String.toList_append]
    show (Text.unescape? ((Text.escape text).toList ++ ['"']).dropLast).map
      (asciiz ∘ String.ofList) = some (asciiz text)
    rw [List.dropLast_concat, Text.unescape?_escape]
    simp

theorem DataItem.read?_line {item : DataItem} (legible : item.isLegible = true) :
    DataItem.read? item.line = some item := by
  cases item with
  | label label =>
    have shown : (label.text ++ ":").toList = label.text.toList ++ [':'] := by simp
    have solid := Label.blank_not_mem_line legible
    rw [read?, line, shown]
    split
    case h_1 same => simp [same] at solid
    case h_2 same => simp [same] at solid
    case h_3 => rw [Label.readLine?_text, Option.map_some]
  | directive directive =>
    have shown : ("  " ++ directive.text).toList = ' ' :: ' ' :: directive.text.toList := by simp
    rw [read?, line, shown]
    simp [Directive.read?_text]
  | comment text =>
    have shown : ("# " ++ text).toList = '#' :: ' ' :: text.toList := by simp
    rw [read?, line, shown]
    simp

theorem Directive.newline_not_mem_text (directive : Directive) :
    '\n' ∉ directive.text.toList := by
  have number : ∀ n : Nat, '\n' ∉ (toString n).toList := by
    intro n member
    exact absurd (isDigit_of_mem_toString member) (by decide)
  cases directive with
  | space bytes =>
    rw [text, String.toList_append, List.mem_append, not_or]
    exact ⟨by decide, number bytes⟩
  | align exponent =>
    rw [text, String.toList_append, List.mem_append, not_or]
    exact ⟨by decide, number exponent⟩
  | asciiz text =>
    simp only [Directive.text, String.toList_append, List.mem_append, not_or]
    exact ⟨⟨by decide, Text.newline_not_mem_escape text⟩, by decide⟩

/-! A line is not empty and has no line break, so that it can be told from the end of a section and
from two lines. -/

theorem TextItem.line_ne_empty (item : TextItem) : item.line ≠ "" := by
  cases item <;> simp [line]

theorem DataItem.line_ne_empty (item : DataItem) : item.line ≠ "" := by
  cases item <;> simp [line]

theorem TextItem.newline_not_mem_line {item : TextItem} (legible : item.isLegible = true) :
    '\n' ∉ item.line.toList := by
  cases item with
  | label label =>
    have plain : '\n' ∉ label.text.toList := Label.mark_not_mem_text legible (by decide)
    simp [line, plain]
  | instr instr => simp [line, Instr.newline_not_mem_text legible]
  | comment text => simpa [line] using of_decide_eq_true legible

theorem DataItem.newline_not_mem_line {item : DataItem} (legible : item.isLegible = true) :
    '\n' ∉ item.line.toList := by
  cases item with
  | label label =>
    have plain : '\n' ∉ label.text.toList := Label.mark_not_mem_text legible (by decide)
    simp [line, plain]
  | directive directive => simp [line, directive.newline_not_mem_text]
  | comment text => simpa [line] using of_decide_eq_true legible

/-! ## Programs -/

theorem piecesBefore_flatMap {α : Type} [DecidableEq α] {mark : α} {pieces : List (List α)}
    (apart : ∀ piece ∈ pieces, mark ∉ piece) :
    piecesBefore mark (pieces.flatMap (· ++ [mark])) = pieces := by
  have joined : pieces.flatMap (· ++ [mark]) = [mark].intercalate (pieces ++ [[]]) := by
    clear apart
    induction pieces with
    | nil => rfl
    | cons first others ih =>
      obtain ⟨second, rest, tail⟩ := List.exists_cons_of_ne_nil (List.concat_ne_nil [] others)
      rw [List.flatMap_cons, ih, List.cons_append, tail, List.intercalate_cons_cons]
  rw [piecesBefore, joined, List.splitOn_intercalate mark _ (by simp), List.dropLast_concat]
  intro piece listed
  rcases List.mem_append.1 listed with listed | last
  · exact apart piece listed
  · simp [List.mem_singleton.1 last]

theorem mapM_eq_some {α β : Type} {read? : β → Option α} {write : α → β} {values : List α}
    (inverse : ∀ a ∈ values, read? (write a) = some a) :
    (values.map write).mapM read? = some values := by
  induction values with
  | nil => rfl
  | cons first others ih =>
    rw [List.forall_mem_cons] at inverse
    simp [inverse.1, ih inverse.2]

theorem Section.read?_lines {code : Section}
    (legible : ∀ item ∈ code.items, item.isLegible = true) :
    Section.read? (code.items.map TextItem.line) = some code := by
  rw [read?, mapM_eq_some fun item listed => TextItem.read?_line (legible item listed)]
  rfl

namespace Assembly

/-- The lines of all sections, each with the empty line that ends it. -/
def codeLines (program : Assembly) : List String :=
  (program.sections.map fun code => code.items.map TextItem.line).flatMap (· ++ [""])

theorem lines_eq (program : Assembly) :
    program.lines =
      ".data" :: (program.data.map DataItem.line ++ "" :: ".text" :: program.codeLines) := by
  simp [lines, codeLines, List.flatMap_map]

variable {program : Assembly} (legible : program.isLegible = true)
include legible

theorem data_legible : ∀ item ∈ program.data, item.isLegible = true :=
  List.all_eq_true.1 (Bool.and_eq_true_iff.1 legible).1

theorem item_legible : ∀ code ∈ program.sections, ∀ item ∈ code.items, item.isLegible = true :=
  fun code listed =>
    List.all_eq_true.1 (List.all_eq_true.1 (Bool.and_eq_true_iff.1 legible).2 code listed)

theorem newline_not_mem_lines : ∀ line ∈ program.lines, '\n' ∉ line.toList := by
  have data : ∀ item ∈ program.data, '\n' ∉ item.line.toList :=
    fun item listed => DataItem.newline_not_mem_line (data_legible legible item listed)
  have code : ∀ line ∈ program.codeLines, '\n' ∉ line.toList := by
    intro line listed
    simp only [codeLines, List.mem_flatMap, List.mem_map, List.mem_append, List.mem_singleton]
      at listed
    obtain ⟨_, ⟨code, among, rfl⟩, listed | rfl⟩ := listed
    · obtain ⟨item, inside, rfl⟩ := List.mem_map.1 listed
      exact TextItem.newline_not_mem_line (item_legible legible code among item inside)
    · simp
  simpa [lines_eq, or_imp, forall_and] using ⟨data, code⟩

theorem linesOf_text :
    (piecesBefore '\n' program.text.toList).map String.ofList = program.lines := by
  have chars : program.text.toList = (program.lines.map String.toList).flatMap (· ++ ['\n']) := by
    simp [text, String.toList_join, List.flatMap_map]
  rw [chars, piecesBefore_flatMap]
  · simp
  · simpa using newline_not_mem_lines legible

theorem sections_read :
    (piecesBefore "" program.codeLines).mapM Section.read? = some program.sections := by
  have apart : ∀ lines ∈ program.sections.map fun code => code.items.map TextItem.line,
      "" ∉ lines := by
    intro lines listed empty
    obtain ⟨code, among, rfl⟩ := List.mem_map.1 listed
    obtain ⟨item, inside, none⟩ := List.mem_map.1 empty
    exact item.line_ne_empty none
  rw [codeLines, piecesBefore_flatMap apart]
  exact mapM_eq_some fun code listed => Section.read?_lines (item_legible legible code listed)

theorem read?_text : read? program.text = some program := by
  have data : ∀ line ∈ program.data.map DataItem.line, decide (line ≠ "") = true := by
    simpa using fun item _ => DataItem.line_ne_empty item
  have data_read : (program.data.map DataItem.line).mapM DataItem.read? = some program.data :=
    mapM_eq_some fun item listed => DataItem.read?_line (data_legible legible item listed)
  rw [read?, linesOf_text legible, lines_eq]
  simp only [List.takeWhile_append_of_pos data, List.dropWhile_append_of_pos data]
  simp [data_read, sections_read legible]

end Assembly

namespace Assembly

/-- The text of a program tells everything about it, if its labels are words and its comments are
lines. Strings are arbitrary: an escaped string has no line break and no quote that could be taken
for its end, and undoing the escapes gives the string back. -/
theorem text_faithful :
    (∀ program : Assembly, program.isLegible = true → read? program.text = some program) ∧
    (∀ program other : Assembly, program.isLegible = true → other.isLegible = true →
      program.text = other.text → program = other) ∧
    ∀ string : String,
      '\n' ∉ (Text.escape string).toList ∧ Text.hasBareQuote (Text.escape string).toList = false ∧
        Text.unescape? (Text.escape string).toList = some string.toList := by
  refine ⟨fun _ => read?_text, ?_, ?_⟩
  · intro program other legible other_legible same
    have read := read?_text legible
    rw [same, read?_text other_legible] at read
    exact (Option.some.inj read).symm
  · exact fun string => ⟨Text.newline_not_mem_escape string, Text.hasBareQuote_escape string,
      Text.unescape?_escape string⟩

/-- Lines that could be taken for others: a comment that looks like a label, a label that looks like
a number, a section without lines, and a string of marks. -/
def disguised : Assembly where
  data := [.comment "main:", .label ⟨"7"⟩, .directive (.asciiz "\"\n\\0\x00,"),
    .directive (.align 2)]
  sections := [
    { items := [] },
    { items := [.label ⟨"li"⟩, .comment "# .text", .instr (.loadImm (.virt 7) (-7)),
        .instr (.load .lw .v0 (-4) .sp), .instr (.store .sw .v0 (-4) .sp),
        .instr (.branchPair .beq .v0 (.virt 0) ⟨"7"⟩), .instr .syscall] }]

theorem disguised_read : read? disguised.text = some disguised ∧
    ∀ other, other.isLegible = true → disguised.text = other.text → disguised = other := by
  have legible : disguised.isLegible = true := by decide
  exact ⟨text_faithful.1 disguised legible,
    fun other other_legible => text_faithful.2.1 disguised other legible other_legible⟩

end Assembly

end MipsBackend
