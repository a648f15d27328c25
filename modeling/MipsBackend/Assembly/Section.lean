import MipsBackend.Assembly.Instruction
import MipsBackend.Text.Escape
import Std.Data.ExtTreeSet

/-!
Assembly programs: one data section and a list of text sections, each a function, a library stub
or the entry code. `Program.lines` writes a program down.
-/

namespace MipsBackend

inductive TextItem where
  | label (label : Label)
  | instr (instr : Instr)
  | comment (text : String)
deriving DecidableEq, Repr

def TextItem.instr? : TextItem → Option Instr
  | instr i => some i
  | _ => none

def TextItem.label? : TextItem → Option Label
  | label l => some l
  | _ => none

/-- Code that is allocated on its own: nothing branches into it from elsewhere. -/
structure Section where
  items : List TextItem
deriving DecidableEq, Repr

namespace Section

def instructions (code : Section) : List Instr := code.items.filterMap TextItem.instr?

def labels (code : Section) : List Label := code.items.filterMap TextItem.label?

def registers (code : Section) : Std.ExtTreeSet VReg :=
  .ofList (code.instructions.flatMap Instr.virtualOperands)

theorem mem_instructions {code : Section} {instr : Instr} :
    instr ∈ code.instructions ↔ .instr instr ∈ code.items := by
  unfold instructions
  rw [List.mem_filterMap]
  constructor
  · rintro ⟨item, member, same⟩
    cases item <;> simp_all [TextItem.instr?]
  · exact fun member => ⟨_, member, rfl⟩

theorem mem_labels {code : Section} {label : Label} :
    label ∈ code.labels ↔ .label label ∈ code.items := by
  unfold labels
  rw [List.mem_filterMap]
  constructor
  · rintro ⟨item, member, same⟩
    cases item <;> simp_all [TextItem.label?]
  · exact fun member => ⟨_, member, rfl⟩

theorem instructions_map (code : List Instr) :
    instructions { items := code.map .instr } = code := by
  rw [instructions, List.filterMap_map]
  exact List.filterMap_some

theorem mem_registers {code : Section} {reg : VReg} :
    reg ∈ code.registers ↔ ∃ instr ∈ code.instructions, reg ∈ instr.virtualOperands := by
  simp [registers, Std.ExtTreeSet.mem_ofList]

end Section

inductive Directive where
  | space (bytes : Nat)
  /-- Aligns to a power of two, given by its exponent. -/
  | align (exponent : Nat)
  /-- The bytes of the text and a zero byte; the text is kept unescaped. -/
  | asciiz (text : String)
deriving DecidableEq, Repr

def Directive.text : Directive → String
  | space bytes => ".space " ++ toString bytes
  | align exponent => ".align " ++ toString exponent
  | asciiz text => ".asciiz \"" ++ Text.escape text ++ "\""

inductive DataItem where
  | label (label : Label)
  | directive (directive : Directive)
  | comment (text : String)
deriving DecidableEq, Repr

def DataItem.object (label : Label) (directives : List Directive) : List DataItem :=
  .label label :: directives.map .directive

structure Assembly where
  data : List DataItem
  sections : List Section
deriving DecidableEq, Repr

namespace Assembly

def instructions (program : Assembly) : List Instr := program.sections.flatMap Section.instructions

def sectionOf? (program : Assembly) (label : Label) : Option Section :=
  program.sections.find? (label ∈ ·.labels)

end Assembly

/-! ## Text -/

def TextItem.line : TextItem → String
  | label l => l.text ++ ":"
  | instr i => "  " ++ i.text
  | comment text => "  # " ++ text

def DataItem.line : DataItem → String
  | label l => l.text ++ ":"
  | directive d => "  " ++ d.text
  | comment text => "# " ++ text

namespace Assembly

/-- Every section is followed by an empty line. -/
def lines (program : Assembly) : List String :=
  ".data" :: program.data.map DataItem.line ++ ["", ".text"] ++
    program.sections.flatMap fun code => code.items.map TextItem.line ++ [""]

def text (program : Assembly) : String :=
  String.join (program.lines.map (· ++ "\n"))

end Assembly

end MipsBackend
