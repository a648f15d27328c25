import MipsBackend.Json.Value

/-!
The shapes that JSON values take when they stand for data: numbers in a range, texts, characters,
records and variants. The number `depth` is how many objects and lists may still be opened around
what is read; a value that would open more is refused.
-/

namespace MipsBackend.Json

def text? : Json → Option String
  | string text => text
  | _ => none

def isObject : Json → Bool
  | object _ => true
  | _ => false

def int32? : Json → Option Int32
  | integer value =>
    if Int32.minValue.toInt ≤ value ∧ value ≤ Int32.maxValue.toInt then some (.ofInt value)
    else none
  | _ => none

def uint32? : Json → Option UInt32
  | integer value =>
    if 0 ≤ value ∧ value.toNat < UInt32.size then some (.ofNat value.toNat) else none
  | _ => none

def uint64? : Json → Option UInt64
  | integer value =>
    if 0 ≤ value ∧ value.toNat < UInt64.size then some (.ofNat value.toNat) else none
  | _ => none

def char? (json : Json) : Option Char :=
  match json.text?.map String.toList with
  | some [c] => some c
  | _ => none

/-- One of several names, written as a text or as an object that maps the name to null. -/
def choice? {α : Type} (names : List (String × α)) : Nat → Json → Option α
  | _, string (some name) => names.lookup name
  | _ + 1, object [(some name, null)] => names.lookup name
  | _, _ => none

/-- The value of a key, if the object has it. -/
def member? (members : List (Option String × Json)) (name : String) : Option Json :=
  members.lookup (some name)

/-- The fields of a record, each with its value if it is there. A record is an object, in which a
field may not be repeated and other keys are ignored, or a list of the values in the order of
`names`, from which those after the first `required` may be missing at the end. -/
def record? (names : List String) (required : Nat) : Json → Option (List (Option Json))
  | object members =>
    if members.all (·.1.isSome) ∧ names.all (fun name => members.countP (·.1 = some name) ≤ 1) then
      some (names.map (member? members))
    else none
  | list items =>
    if required ≤ items.length ∧ items.length ≤ names.length then
      some (items.map some ++ List.replicate (names.length - items.length) none)
    else none
  | _ => none

/-- A list whose items all have one shape. -/
def items? {α : Type} (item : Nat → Json → Option α) : Nat → Json → Option (List α)
  | depth + 1, list items => items.mapM (item depth)
  | _, _ => none

end MipsBackend.Json
