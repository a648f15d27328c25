/-!
Escaped strings of `.asciiz` directives. Nine characters have a named escape and every other
character stands for itself, so an escaped string has no line break and no bare quote.
-/

namespace MipsBackend.Text

/-- The letter that names `c` after a backslash. -/
def escapeLetter? (c : Char) : Option Char :=
  match c with
  | '\x07' => some 'a'
  | '\x08' => some 'b'
  | '\n' => some 'n'
  | '\r' => some 'r'
  | '\t' => some 't'
  | '\\' => some '\\'
  | '\'' => some '\''
  | '"' => some '"'
  | '\x00' => some '0'
  | _ => none

def escapeChar (c : Char) : List Char :=
  match escapeLetter? c with
  | some letter => ['\\', letter]
  | none => [c]

def escape (text : String) : String :=
  String.ofList (text.toList.flatMap escapeChar)

end MipsBackend.Text
