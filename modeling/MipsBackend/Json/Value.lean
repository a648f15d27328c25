/-!
JSON values. An object keeps its members in order and keeps repeated keys, an integer is told apart
from a number with a fraction or an exponent, and a text is absent when an escape in it names half a
surrogate pair, because no text says what that means.
-/

namespace MipsBackend

inductive Json where
  | null
  | bool (value : Bool)
  | integer (value : Int)
  /-- A number with a fraction or an exponent, or a negative zero, as it is written. -/
  | decimal (literal : String)
  | string (text : Option String)
  | list (items : List Json)
  | object (members : List (Option String × Json))

namespace Json

def ofString (text : String) : Json := string (some text)

def ofNat (n : Nat) : Json := integer n

/-- An object whose keys are all texts. -/
def record (members : List (String × Json)) : Json :=
  object (members.map fun (key, value) => (some key, value))

end Json

end MipsBackend
