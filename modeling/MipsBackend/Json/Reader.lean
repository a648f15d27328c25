import MipsBackend.Json.Value

/-!
Reading JSON text, strictly: no trailing commas, no leading zeros, no raw control characters in
strings, only the format's own escapes, and nothing after the value but blanks.
-/

namespace MipsBackend.Json

def isBlank (c : Char) : Bool := c = ' ' || c = '\t' || c = '\n' || c = '\r'

def skipBlanks (text : List Char) : List Char := text.dropWhile isBlank

/-! ## Numbers -/

def isDigit (c : Char) : Bool := '0' ≤ c && c ≤ '9'

def digitsValue (digits : List Char) : Nat :=
  digits.foldl (fun value digit => 10 * value + (digit.toNat - '0'.toNat)) 0

/-- One or more digits. -/
def readDigits? (text : List Char) : Option (List Char × List Char) :=
  match text.takeWhile isDigit with
  | [] => none
  | digits => some (digits, text.dropWhile isDigit)

/-- Digits without a superfluous zero in front. -/
def readWhole? (text : List Char) : Option (List Char × List Char) :=
  match text with
  | '0' :: rest => some (['0'], rest)
  | text => readDigits? text

/-- What may follow the point of a number, the point included; nothing if there is no point. -/
def readFraction? (text : List Char) : Option (List Char × List Char) :=
  match text with
  | '.' :: rest => (readDigits? rest).map fun (digits, rest) => ('.' :: digits, rest)
  | text => some ([], text)

def readExponent? (text : List Char) : Option (List Char × List Char) :=
  match text with
  | mark :: rest =>
    if mark = 'e' ∨ mark = 'E' then
      let (sign, rest) :=
        match rest with
        | '+' :: rest => (['+'], rest)
        | '-' :: rest => (['-'], rest)
        | rest => ([], rest)
      (readDigits? rest).map fun (digits, rest) => (mark :: sign ++ digits, rest)
    else some ([], text)
  | [] => some ([], [])

def readNumber? (text : List Char) : Option (Json × List Char) := do
  let (sign, rest) :=
    match text with
    | '-' :: rest => (['-'], rest)
    | text => ([], text)
  let (whole, rest) ← readWhole? rest
  let (fraction, rest) ← readFraction? rest
  let (exponent, rest) ← readExponent? rest
  let magnitude := digitsValue whole
  let value :=
    if fraction = [] ∧ exponent = [] ∧ (sign = [] ∨ magnitude ≠ 0) then
      integer (if sign = [] then magnitude else -magnitude)
    else decimal (String.ofList (sign ++ whole ++ fraction ++ exponent))
  return (value, rest)

/-! ## Strings -/

def hexValue? (c : Char) : Option Nat :=
  if '0' ≤ c ∧ c ≤ '9' then some (c.toNat - '0'.toNat)
  else if 'a' ≤ c ∧ c ≤ 'f' then some (c.toNat - 'a'.toNat + 10)
  else if 'A' ≤ c ∧ c ≤ 'F' then some (c.toNat - 'A'.toNat + 10)
  else none

def hexValue4? (a b c d : Char) : Option Nat := do
  return (((← hexValue? a) * 16 + (← hexValue? b)) * 16 + (← hexValue? c)) * 16 + (← hexValue? d)

/-- The character that a letter names after a backslash. -/
def namedEscape? (c : Char) : Option Char :=
  match c with
  | '"' => some '"'
  | '\\' => some '\\'
  | '/' => some '/'
  | 'b' => some '\x08'
  | 'f' => some '\x0c'
  | 'n' => some '\n'
  | 'r' => some '\r'
  | 't' => some '\t'
  | _ => none

/-- The rest of a string after its opening quote, as numbers: code points, or halves of surrogate
pairs where escapes name them. `seen` holds what was read so far, the latest first. -/
def readUnits? (seen : List Nat) : List Char → Option (List Nat × List Char)
  | [] => none
  | '"' :: rest => some (seen.reverse, rest)
  | '\\' :: 'u' :: a :: b :: c :: d :: rest =>
    match hexValue4? a b c d with
    | some unit => readUnits? (unit :: seen) rest
    | none => none
  | '\\' :: letter :: rest =>
    match namedEscape? letter with
    | some named => readUnits? (named.toNat :: seen) rest
    | none => none
  | c :: rest => if c.toNat < 0x20 then none else readUnits? (c.toNat :: seen) rest

def isHighSurrogate (unit : Nat) : Bool := 0xd800 ≤ unit && unit < 0xdc00

def isLowSurrogate (unit : Nat) : Bool := 0xdc00 ≤ unit && unit < 0xe000

/-- Joins the pairs of surrogates; fails if one has no partner. -/
def joinSurrogates? (seen : List Char) : List Nat → Option (List Char)
  | [] => some seen.reverse
  | [unit] =>
    if isHighSurrogate unit || isLowSurrogate unit then none
    else some (Char.ofNat unit :: seen).reverse
  | unit :: next :: rest =>
    if isHighSurrogate unit then
      if isLowSurrogate next then
        let joined := Char.ofNat (0x10000 + (unit - 0xd800) * 0x400 + (next - 0xdc00))
        joinSurrogates? (joined :: seen) rest
      else none
    else if isLowSurrogate unit then none
    else joinSurrogates? (Char.ofNat unit :: seen) (next :: rest)

/-- The rest of a string after its opening quote. -/
def readText? (text : List Char) : Option (Option String × List Char) :=
  (readUnits? [] text).map fun (units, rest) => ((joinSurrogates? [] units).map String.ofList, rest)

/-! ## Values -/

mutual

/-- A value at the start of the text, and what follows it. -/
def readValue? : Nat → List Char → Option (Json × List Char)
  | 0, _ => none
  | fuel + 1, text =>
    match skipBlanks text with
    | '"' :: rest => (readText? rest).map fun (text, rest) => (string text, rest)
    | '[' :: rest =>
      match skipBlanks rest with
      | ']' :: rest => some (list [], rest)
      | rest => readItems? fuel [] rest
    | '{' :: rest =>
      match skipBlanks rest with
      | '}' :: rest => some (object [], rest)
      | rest => readMembers? fuel [] rest
    | 'n' :: 'u' :: 'l' :: 'l' :: rest => some (null, rest)
    | 't' :: 'r' :: 'u' :: 'e' :: rest => some (bool true, rest)
    | 'f' :: 'a' :: 'l' :: 's' :: 'e' :: rest => some (bool false, rest)
    | text => readNumber? text

/-- The items of a list that is not empty, up to its closing bracket. `seen` holds those before, the
latest first. -/
def readItems? : Nat → List Json → List Char → Option (Json × List Char)
  | 0, _, _ => none
  | fuel + 1, seen, text =>
    match readValue? fuel text with
    | none => none
    | some (item, rest) =>
      match skipBlanks rest with
      | ',' :: rest => readItems? fuel (item :: seen) rest
      | ']' :: rest => some (list (item :: seen).reverse, rest)
      | _ => none

/-- The members of an object that is not empty, up to its closing brace. -/
def readMembers? : Nat → List (Option String × Json) → List Char → Option (Json × List Char)
  | 0, _, _ => none
  | fuel + 1, seen, text =>
    match skipBlanks text with
    | '"' :: rest =>
      match readText? rest with
      | none => none
      | some (key, rest) =>
        match skipBlanks rest with
        | ':' :: rest =>
          match readValue? fuel rest with
          | none => none
          | some (value, rest) =>
            match skipBlanks rest with
            | ',' :: rest => readMembers? fuel ((key, value) :: seen) rest
            | '}' :: rest => some (object ((key, value) :: seen).reverse, rest)
            | _ => none
        | _ => none
    | _ => none

end

/-- Reads a whole text. Each step of nesting and each further item consumes a character, so that
twice the length of the text is enough fuel. -/
def read? (text : String) : Option Json :=
  match readValue? (2 * text.length + 2) text.toList with
  | some (value, rest) => if skipBlanks rest = [] then some value else none
  | none => none

end MipsBackend.Json
