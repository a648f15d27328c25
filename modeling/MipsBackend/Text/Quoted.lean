import MipsBackend.Text.CharClass

/-!
Quoted characters and strings, as messages show them. A line break, tab, return, zero byte,
backslash and the quote itself have a named escape; a character that would not show as itself is
written by its code point.
-/

namespace MipsBackend.Text

def hexDigits (n : Nat) : String :=
  String.ofList (Nat.toDigits 16 n)

def quoteChar (quote c : Char) : String :=
  match c with
  | '\x00' => "\\0"
  | '\t' => "\\t"
  | '\r' => "\\r"
  | '\n' => "\\n"
  | '\\' => "\\\\"
  | c =>
    if c = quote then "\\" ++ c.toString
    else if standsAlone c then c.toString
    else "\\u\x7b" ++ hexDigits c.toNat ++ "\x7d"

def quotedChar (c : Char) : String :=
  "'" ++ quoteChar '\'' c ++ "'"

def quotedString (text : String) : String :=
  "\"" ++ String.join (text.toList.map (quoteChar '"')) ++ "\""

end MipsBackend.Text
