import MipsBackend.Assembly.Section

/-!
A reader of assembly text. It knows the three kinds of lines by their indentation and marks, the
end of a section by an empty line, and the operands of an instruction by its mnemonic. It reads
whatever `Assembly.text` writes, and makes no effort to refuse anything else.
-/

namespace MipsBackend

/-! ## Strings -/

namespace Text

/-- The character that a letter names after a backslash. -/
def namedChar? (letter : Char) : Option Char :=
  match letter with
  | 'a' => some '\x07'
  | 'b' => some '\x08'
  | 'n' => some '\n'
  | 'r' => some '\r'
  | 't' => some '\t'
  | '\\' => some '\\'
  | '\'' => some '\''
  | '"' => some '"'
  | '0' => some '\x00'
  | _ => none

def unescape? : List Char → Option (List Char)
  | [] => some []
  | ['\\'] => none
  | '\\' :: letter :: rest => do return (← namedChar? letter) :: (← unescape? rest)
  | c :: rest => do return c :: (← unescape? rest)

/-- Whether a quote stands there without a backslash of its own. -/
def hasBareQuote : List Char → Bool
  | [] => false
  | '\\' :: _ :: rest => hasBareQuote rest
  | c :: rest => c = '"' || hasBareQuote rest

end Text

/-! ## Operands -/

def Reg.read? (text : List Char) : Option Reg :=
  match text with
  | '%' :: 'v' :: number => (String.ofList number).toNat?.map .virt
  | text => (PhysReg.ofText? (String.ofList text)).map .phys

def readImm? (text : List Char) : Option Int32 := (String.ofList text).toInt?.map .ofInt

/-- An offset, and a base register in parentheses. -/
def readIndexed? (text : List Char) : Option (Int32 × Reg) := do
  let offset ← readImm? (text.takeWhile (· ≠ '('))
  let base ← Reg.read? ((text.dropWhile (· ≠ '(')).tail.dropLast)
  return (offset, base)

def Label.read (text : List Char) : Label := ⟨String.ofList text⟩

/-! ## Instructions -/

/-- An instruction without its operands. -/
inductive Opcode where
  | syscall
  | marker (kind : Marker)
  | loadImm
  | loadAddr
  | arithImm (op : ImmOp)
  | arith (op : ArithOp)
  | hiLo (op : HiLoOp)
  | moveFrom (op : MoveFromOp)
  | load (op : LoadOp)
  | store (op : StoreOp)
  | branchZero (op : ZeroTest)
  | branchPair (op : PairTest)
  | jump
  | call
  | jumpReg
deriving DecidableEq, Repr

namespace Opcode

def mnemonic : Opcode → String
  | syscall => "syscall"
  | marker kind => kind.mnemonic
  | loadImm => "li"
  | loadAddr => "la"
  | arithImm op => op.mnemonic
  | arith op => op.mnemonic
  | hiLo op => op.mnemonic
  | moveFrom op => op.mnemonic
  | load op => op.mnemonic
  | store op => op.mnemonic
  | branchZero op => op.mnemonic
  | branchPair op => op.mnemonic
  | jump => "j"
  | call => "jal"
  | jumpReg => "jr"

def all : List Opcode :=
  [syscall, marker .save, marker .restore, loadImm, loadAddr, jump, call, jumpReg] ++
    ImmOp.all.map arithImm ++ ArithOp.all.map arith ++ HiLoOp.all.map hiLo ++
    MoveFromOp.all.map moveFrom ++ LoadOp.all.map load ++ StoreOp.all.map store ++
    ZeroTest.all.map branchZero ++ PairTest.all.map branchPair

def ofMnemonic? (mnemonic : String) : Option Opcode := all.find? (·.mnemonic = mnemonic)

/-- The instruction with these operands. -/
def read? (opcode : Opcode) (operands : List (List Char)) : Option Instr :=
  match opcode, operands with
  | syscall, [] => some .syscall
  | marker kind, [] => some (.marker kind)
  | loadImm, [dst, imm] => do return .loadImm (← Reg.read? dst) (← readImm? imm)
  | loadAddr, [dst, label] => do return .loadAddr (← Reg.read? dst) (.read label)
  | arithImm op, [dst, src, imm] => do
    return .arithImm op (← Reg.read? dst) (← Reg.read? src) (← readImm? imm)
  | arith op, [dst, lhs, rhs] => do
    return .arith op (← Reg.read? dst) (← Reg.read? lhs) (← Reg.read? rhs)
  | hiLo op, [lhs, rhs] => do return .hiLo op (← Reg.read? lhs) (← Reg.read? rhs)
  | moveFrom op, [dst] => do return .moveFrom op (← Reg.read? dst)
  | load op, [dst, place] => do
    let (offset, base) ← readIndexed? place
    return .load op (← Reg.read? dst) offset base
  | store op, [src, place] => do
    let (offset, base) ← readIndexed? place
    return .store op (← Reg.read? src) offset base
  | branchZero op, [src, target] => do return .branchZero op (← Reg.read? src) (.read target)
  | branchPair op, [lhs, rhs, target] => do
    return .branchPair op (← Reg.read? lhs) (← Reg.read? rhs) (.read target)
  | jump, [target] => some (.jump (.read target))
  | call, [target] => some (.call (.read target))
  | jumpReg, [src] => do return .jumpReg (← Reg.read? src)
  | _, _ => none

end Opcode

/-- Every operand follows a blank, and a comma if it is not the first. -/
def readOperands (text : List Char) : List (List Char) :=
  match text with
  | [] => []
  | text => (text.splitOn ',').map List.tail

def Instr.read? (text : List Char) : Option Instr := do
  let opcode ← Opcode.ofMnemonic? (String.ofList (text.takeWhile (· ≠ ' ')))
  opcode.read? (readOperands (text.dropWhile (· ≠ ' ')))

/-! ## Lines -/

/-- A label ends in a colon. -/
def Label.readLine? (line : List Char) : Option Label :=
  if line.getLast? = some ':' then some (.read line.dropLast) else none

def TextItem.read? (line : String) : Option TextItem :=
  match line.toList with
  | ' ' :: ' ' :: '#' :: ' ' :: text => some (.comment (String.ofList text))
  | ' ' :: ' ' :: text => (Instr.read? text).map .instr
  | line => (Label.readLine? line).map .label

def Directive.read? (text : List Char) : Option Directive :=
  match String.ofList (text.takeWhile (· ≠ ' ')), (text.dropWhile (· ≠ ' ')).tail with
  | ".space", number => (String.ofList number).toNat?.map .space
  | ".align", number => (String.ofList number).toNat?.map .align
  | ".asciiz", '"' :: quoted => (Text.unescape? quoted.dropLast).map (.asciiz ∘ String.ofList)
  | _, _ => none

def DataItem.read? (line : String) : Option DataItem :=
  match line.toList with
  | '#' :: ' ' :: text => some (.comment (String.ofList text))
  | ' ' :: ' ' :: text => (Directive.read? text).map .directive
  | line => (Label.readLine? line).map .label

/-! ## Programs -/

/-- The pieces of a list in which each piece is followed by a mark. -/
def piecesBefore {α : Type} [DecidableEq α] (mark : α) (whole : List α) : List (List α) :=
  (whole.splitOn mark).dropLast

def Section.read? (lines : List String) : Option Section := do
  return { items := ← lines.mapM TextItem.read? }

def Assembly.read? (text : String) : Option Assembly :=
  match (piecesBefore '\n' text.toList).map String.ofList with
  | ".data" :: lines =>
    match lines.dropWhile (· ≠ "") with
    | "" :: ".text" :: code => do
      let data ← (lines.takeWhile (· ≠ "")).mapM DataItem.read?
      return { data, sections := ← (piecesBefore "" code).mapM Section.read? }
    | _ => none
  | _ => none

end MipsBackend
