import MipsBackend.Json.Value

/-!
JSON values as text, without blanks.
-/

namespace MipsBackend.Json

def printChar (c : Char) : List Char :=
  match c with
  | '"' => ['\\', '"']
  | '\\' => ['\\', '\\']
  | '\n' => ['\\', 'n']
  | '\r' => ['\\', 'r']
  | '\t' => ['\\', 't']
  | c =>
    if c.toNat < 0x20 then
      ['\\', 'u', '0', '0', Nat.digitChar (c.toNat / 16), Nat.digitChar (c.toNat % 16)]
    else [c]

/-- A text without meaning is written as half a surrogate pair. -/
def printText : Option String → String
  | some text => "\"" ++ String.ofList (text.toList.flatMap printChar) ++ "\""
  | none => "\"\\ud800\""

mutual

def print : Json → String
  | null => "null"
  | bool true => "true"
  | bool false => "false"
  | integer value => toString value
  | decimal literal => literal
  | string text => printText text
  | list items => "[" ++ ",".intercalate (printItems items) ++ "]"
  | object members => "\x7b" ++ ",".intercalate (printMembers members) ++ "\x7d"

def printItems : List Json → List String
  | [] => []
  | item :: rest => item.print :: printItems rest

def printMembers : List (Option String × Json) → List String
  | [] => []
  | (key, value) :: rest => (printText key ++ ":" ++ value.print) :: printMembers rest

end

end MipsBackend.Json
