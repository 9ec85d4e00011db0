import MiniC.Value.Basic
import MiniC.Decimal.Integer
import MiniC.Decimal.Layout
import MiniC.Text.Utf8

/-!
# Failures of running programs

A `Fault` is the cause of a failure; `Fault.kind` classifies it and `Fault.details` words it.  A
`Failure` is a fault with the lexeme that it is attributed to, once one is known.
-/

namespace MiniC

/-- The classes of faults. -/
inductive FaultKind
  | identifierNotFound
  | duplicateIdentifier
  | mismatchedType
  | mismatchedArguments
  | outOfBounds
  | jumpWithoutLoop
  | invalidMain
  | arrayReturn
  | divisionByZero
  | inputOutput
deriving DecidableEq

/-- How messages name a class. -/
def FaultKind.text : FaultKind → String
  | .identifierNotFound => "identifier not found"
  | .duplicateIdentifier => "duplicate identifier"
  | .mismatchedType => "mismatched type"
  | .mismatchedArguments => "mismatched arguments"
  | .outOfBounds => "out of bounds"
  | .jumpWithoutLoop => "break or continue without loop"
  | .invalidMain => "invalid main"
  | .arrayReturn => "array as function return"
  | .divisionByZero => "division by zero"
  | .inputOutput => "input/output failure"

/-- Why a program stops. -/
inductive Fault
  -- names
  | undeclared (name : String)
  | noBuiltin (name : String)
  | redeclared (name : String)
  | namesBuiltin (name : String)
  -- types
  | notIndexable (found : Description)
  | emptyList
  | noElement (found : Description)
  | mixedList (first odd : Description)
  | dimensionCount (dims : Nat) (type : TypeName) (found : Description)
  | dimensionLength (declared actual : Nat)
  | leafMismatch (type : TypeName) (found : Description)
  | notStorable (found : Description) (type : TypeName)
  | outsideInt (x : Float)
  | notNumeric (found : Description)
  | notInt (role : String) (found : Description)
  | notAssignable (found : Description)
  | unaryUndefined (op : UnaryOp) (found : Description)
  | binaryUndefined (op : BinaryOp) (left right : Description)
  | unreadable (text : String) (target : TypeName)
  | notCastable (found : Description) (target : TypeName)
  | notFunction (name : String) (found : Description)
  | wrongResult (function : String) (returns : TypeName) (found : Description)
  -- arguments
  | argumentCount (function : String) (expected found : Nat)
  | argumentType (parameter function : String) (expected : String) (found : Description)
  -- bounds
  | indexOutside (index : Int64) (length : Nat)
  | arrayTooLarge (dims : List Nat)
  | missingIndex
  | dimensionNotPositive (found : Int64)
  | sizeMissing (array : String)
  | shiftOutside (count : Int64)
  -- control
  | strayJump
  | mainMissing
  | mainNoFunction
  | mainNotInt
  | mainHasParameters
  | mainReturned (found : Description)
  | returnsArray (function : String)
  | zeroDivisor
  -- input and output
  | inputEnded
  | wordNotUtf8 (flaw : Text.Utf8.Flaw)
  | lineNotUtf8
  | wordNoInt (word : String)
  | wordNoFloat (word : String)
  | writeRefused
  | flushRefused

namespace Fault

/-- The class of a fault. -/
def kind : Fault → FaultKind
  | undeclared _ | noBuiltin _ => .identifierNotFound
  | redeclared _ | namesBuiltin _ => .duplicateIdentifier
  | notIndexable _ | emptyList | noElement _ | mixedList _ _ | dimensionCount _ _ _
  | dimensionLength _ _ | leafMismatch _ _ | notStorable _ _ | outsideInt _ | notNumeric _
  | notInt _ _ | notAssignable _ | unaryUndefined _ _ | binaryUndefined _ _ _ | unreadable _ _
  | notCastable _ _ | notFunction _ _ | wrongResult _ _ _ => .mismatchedType
  | argumentCount _ _ _ | argumentType _ _ _ _ => .mismatchedArguments
  | indexOutside _ _ | arrayTooLarge _ | missingIndex | dimensionNotPositive _ | sizeMissing _
  | shiftOutside _ => .outOfBounds
  | strayJump => .jumpWithoutLoop
  | mainMissing | mainNoFunction | mainNotInt | mainHasParameters | mainReturned _ => .invalidMain
  | returnsArray _ => .arrayReturn
  | zeroDivisor => .divisionByZero
  | inputEnded | wordNotUtf8 _ | lineNotUtf8 | wordNoInt _ | wordNoFloat _ | writeRefused
  | flushRefused => .inputOutput

/-- The largest number of leaves that an array filled with a default can have. -/
def maxLeaves : Nat := Nat.pow 2 24

/-- What a message says beyond the class of a fault. -/
def details : Fault → Option String
  | undeclared name => some ("'" ++ name ++ "' is not declared")
  | noBuiltin name => some ("no built-in named '" ++ name ++ "'")
  | redeclared name => some ("'" ++ name ++ "' is already declared in this scope")
  | namesBuiltin name => some ("'" ++ name ++ "' is a built-in function")
  | notIndexable found => some ("cannot index into " ++ found.text)
  | emptyList => some "initializer list is empty"
  | noElement found => some (found.text ++ " cannot be an array element")
  | mixedList first odd => some ("initializer list mixes " ++ first.text ++ " and " ++ odd.text)
  | dimensionCount dims type found =>
    some ("cannot initialize a " ++ Decimal.ofNat dims ++ "-dimensional " ++ type.text
      ++ " array with " ++ found.text)
  | dimensionLength declared actual =>
    some ("dimension " ++ Decimal.ofNat declared ++ " does not match initializer length "
      ++ Decimal.ofNat actual)
  | leafMismatch type found =>
    some ("cannot initialize a " ++ type.text ++ " array with " ++ found.text)
  | notStorable found type => some ("cannot store " ++ found.text ++ " in " ++ type.text)
  | outsideInt x => some (Decimal.Layout.plain.render x ++ " does not fit in an int")
  | notNumeric found => some ("condition must be numeric, found " ++ found.text)
  | notInt role found => some (role ++ " must be an int, found " ++ found.text)
  | notAssignable found => some ("cannot assign to " ++ found.text)
  | unaryUndefined op found =>
    some ("operator '" ++ op.text ++ "' is not defined for " ++ found.text)
  | binaryUndefined op left right =>
    some ("operator '" ++ op.text ++ "' is not defined for " ++ left.text ++ " and " ++ right.text)
  | unreadable text target => some ("cannot cast '" ++ text ++ "' to " ++ target.text)
  | notCastable found target => some ("cannot cast " ++ found.text ++ " to " ++ target.text)
  | notFunction name found => some ("'" ++ name ++ "' is " ++ found.text ++ ", not a function")
  | wrongResult function returns found =>
    some ("'" ++ function ++ "' must return " ++ returns.text ++ ", returned " ++ found.text)
  | argumentCount function expected found =>
    some ("'" ++ function ++ "' takes " ++ Decimal.ofNat expected ++ " argument(s), found "
      ++ Decimal.ofNat found)
  | argumentType parameter function expected found =>
    some ("parameter '" ++ parameter ++ "' of '" ++ function ++ "' expects " ++ expected
      ++ ", found " ++ found.text)
  | indexOutside index length =>
    some ("index " ++ Decimal.ofInt64 index ++ " outside 0.." ++ Decimal.ofNat length)
  | arrayTooLarge dims =>
    some ("array of dimensions [" ++ ", ".intercalate (dims.map Decimal.ofNat) ++ "] exceeds "
      ++ Decimal.ofNat maxLeaves ++ " elements")
  | missingIndex => some "missing array index"
  | dimensionNotPositive found =>
    some ("array dimension must be positive, found " ++ Decimal.ofInt64 found)
  | sizeMissing array => some ("array '" ++ array ++ "' needs a size or an initializer")
  | shiftOutside count => some ("shift count " ++ Decimal.ofInt64 count ++ " outside 0..64")
  | strayJump => none
  | mainMissing => some "no 'main' function declared"
  | mainNoFunction => some "'main' is not a function"
  | mainNotInt => some "'main' must return int"
  | mainHasParameters => some "'main' must not take parameters"
  | mainReturned found => some ("main returned " ++ found.text)
  | returnsArray function => some ("'" ++ function ++ "' is declared to return an array")
  | zeroDivisor => none
  | inputEnded => some "unexpected end of input"
  | wordNotUtf8 (.invalid length index) =>
    some ("invalid utf-8 sequence of " ++ Decimal.ofNat length ++ " bytes from index "
      ++ Decimal.ofNat index)
  | wordNotUtf8 (.incomplete index) =>
    some ("incomplete utf-8 byte sequence from index " ++ Decimal.ofNat index)
  | lineNotUtf8 => some "stream did not contain valid UTF-8"
  | wordNoInt word => some ("expected an int input, found '" ++ word ++ "'")
  | wordNoFloat word => some ("expected a float input, found '" ++ word ++ "'")
  | writeRefused => some "failed to write whole buffer"
  | flushRefused => some "flush failed"

end Fault

/-- A fault and the lexeme that it is attributed to. -/
structure Failure where
  fault : Fault
  lexeme : Option Lexeme

namespace Failure

/-- A fault that no lexeme is known for yet. -/
def unlocated (fault : Fault) : Failure := ⟨fault, none⟩

/-- Attributes a failure to a lexeme unless it has one: the innermost lexeme wins. -/
def locate (f : Failure) (l : Lexeme) : Failure :=
  { f with lexeme := f.lexeme <|> some l }

/-- The text of a failure. -/
def message (f : Failure) : String :=
  "Error "
    ++ (match f.lexeme with
      | some l => "near " ++ l.describe
      | none => "at unknown position")
    ++ ": " ++ f.fault.kind.text
    ++ (match f.fault.details with
      | some text => ": " ++ text
      | none => "")

end Failure

end MiniC
