import MipsBackend.Assembly.Instruction
import MipsBackend.Text.Quoted

/-!
What can be wrong with a program tree or a text section. The front end promises that none of these
occurs; each cause carries what its message names.
-/

namespace MipsBackend

/-- The expressions that are values only and denote no place in memory. -/
inductive PureValue where
  | integerLiteral | characterLiteral | binaryOperation | sizeofExpression
deriving DecidableEq, Repr

def PureValue.text : PureValue → String
  | integerLiteral => "integer literal"
  | characterLiteral => "character literal"
  | binaryOperation => "binary operation"
  | sizeofExpression => "sizeof expression"

inductive Violation where
  | noAddress (operand : PureValue)
  | unresolvedVariable (id : UInt32) (name : String)
  | uninternedString (text : String)
  | undeclaredStruct (name : String)
  | fieldOfNonStruct (field : String)
  | unknownField (owner field : String)
  | unknownFunction (name : String)
  | breakOutsideLoop
  | continueOutsideLoop
  | unboundLabel (target : Label)
  | unboundRegister (reg : VReg)
  | registerMarkers (found : List Marker)
  | missingEntryPoint (name : String)
  | charOutOfRange (c : Char)
  /-- A struct that contains itself by value has no size. -/
  | endlessStruct (name : String)
deriving DecidableEq, Repr

namespace Violation

def kind : Violation → String
  | noAddress _ => "NoAddress"
  | unresolvedVariable _ _ => "UnresolvedVariable"
  | uninternedString _ => "UninternedString"
  | undeclaredStruct _ | fieldOfNonStruct _ => "UnknownStruct"
  | unknownField _ _ => "UnknownField"
  | unknownFunction _ => "UnknownFunction"
  | breakOutsideLoop => "BreakOutsideLoop"
  | continueOutsideLoop => "ContinueOutsideLoop"
  | unboundLabel _ => "UnboundLabel"
  | unboundRegister _ => "UnboundRegister"
  | registerMarkers _ => "RegisterMarkers"
  | missingEntryPoint _ => "MissingEntryPoint"
  | charOutOfRange _ => "CharOutOfRange"
  | endlessStruct _ => "EndlessStruct"

def detail : Violation → String
  | noAddress operand => operand.text ++ " has no address"
  | unresolvedVariable id name =>
    "variable " ++ name ++ " (" ++ toString id.toNat ++ ") has no storage"
  | uninternedString text => "string literal " ++ Text.quotedString text ++ " was never interned"
  | undeclaredStruct name => "struct " ++ name ++ " has no declaration"
  | fieldOfNonStruct field => "field " ++ field ++ " accessed on a non-struct value"
  | unknownField owner field => "struct " ++ owner ++ " has no field " ++ field
  | unknownFunction name => "call to undeclared function " ++ name
  | breakOutsideLoop => "break with no enclosing loop"
  | continueOutsideLoop => "continue with no enclosing loop"
  | unboundLabel target =>
    "branch to " ++ target.text ++ ", which labels no instruction in this section"
  | unboundRegister reg => VReg.text reg ++ " has neither a register nor a spill slot"
  | registerMarkers found =>
    "expected one pushRegisters before one popRegisters, found [" ++
      ", ".intercalate (found.map Marker.mnemonic) ++ "]"
  | missingEntryPoint name => "no definition for entry function " ++ name
  | charOutOfRange c => "character literal " ++ Text.quotedChar c ++ " does not fit in one byte"
  | endlessStruct name => "struct " ++ name ++ " contains itself"

def message (violation : Violation) : String :=
  "ContractViolation:" ++ violation.kind ++ " - " ++ violation.detail

end Violation

/-! ## Computations that may stop at a violation -/

section Except

variable {α β : Type} {result : β}

theorem bind_eq_ok {first : Except Violation α} {next : α → Except Violation β} :
    (first >>= next) = .ok result ↔ ∃ value, first = .ok value ∧ next value = .ok result := by
  cases first with
  | error violation => exact ⟨fun same => (nomatch same), fun ⟨_, same, _⟩ => (nomatch same)⟩
  | ok value =>
    constructor
    · intro same
      exact ⟨value, rfl, same⟩
    · rintro ⟨_, here, same⟩
      cases here
      exact same

theorem bind_eq_error {first : Except Violation α} {next : α → Except Violation β}
    {violation : Violation} :
    (first >>= next) = .error violation ↔
      first = .error violation ∨ ∃ value, first = .ok value ∧ next value = .error violation := by
  cases first with
  | error found =>
    constructor
    · intro same
      cases same
      exact .inl rfl
    · rintro (same | ⟨_, here, _⟩)
      · cases same
        rfl
      · cases here
  | ok value =>
    constructor
    · intro same
      exact .inr ⟨value, rfl, same⟩
    · rintro (same | ⟨_, here, same⟩)
      · cases same
      · cases here
        exact same

theorem map_eq_ok {first : Except Violation α} {change : α → β} :
    first.map change = .ok result ↔ ∃ value, first = .ok value ∧ change value = result := by
  cases first with
  | error violation => exact ⟨fun same => (nomatch same), fun ⟨_, same, _⟩ => (nomatch same)⟩
  | ok value =>
    constructor
    · intro same
      exact ⟨value, rfl, Except.ok.inj same⟩
    · rintro ⟨_, here, same⟩
      cases here
      exact congrArg Except.ok same

theorem map_eq_error {first : Except Violation α} {change : α → β} {violation : Violation} :
    first.map change = .error violation ↔ first = .error violation := by
  cases first with
  | error found =>
    constructor <;> intro same <;> cases same <;> rfl
  | ok value => exact ⟨fun same => (nomatch same), fun same => nomatch same⟩

end Except

theorem exists_ok_of_toBool {ε α : Type} {result : Except ε α} (succeeds : result.toBool = true) :
    ∃ value, result = .ok value := by
  cases result with
  | error failure => cases succeeds
  | ok value => exact ⟨value, rfl⟩

end MipsBackend
