import MiniC.Value.Array
import MiniC.Value.Render
import MiniC.Decimal.Read
import MiniC.Text.Blank

/-!
# Conversions

Ints and floats convert into each other where a value is stored; casts convert between all three
scalar types.
-/

namespace MiniC

/-- The float nearest to an int. -/
def intToFloat (n : Int64) : Float := Decimal.nearestInt n.toInt

/-- A float without its fraction, if that is in the range of ints. -/
def floatToInt? (x : Float) : Option Int64 :=
  (Decimal.FloatForm.ofFloat x).truncated?.bind Decimal.toInt64?

namespace Value

/-- A value as it is stored in a slot of a type: numbers convert, a float losing its fraction. -/
def coerce (v : Value) (type : TypeName) : Except Fault Value :=
  match v, type with
  | .int n, .float => .ok (.float (intToFloat n))
  | .float x, .int =>
    match floatToInt? x with
    | some n => .ok (.int n)
    | none => .error (.outsideInt x)
  | v, type =>
    if v.isScalar && v.typeName? = some type then .ok v else .error (.notStorable v.describe type)

/-- A value as a condition: numbers hold unless they are zero. -/
def truth : Value → Except Fault Bool
  | .int n => .ok (n ≠ 0)
  | .float x => .ok (x != Float.ofBits 0)
  | v => .error (.notNumeric v.describe)

/-- The int that a value is; `role` says what for. -/
def toInt (v : Value) (role : String) : Except Fault Int64 :=
  match v with
  | .int n => .ok n
  | v => .error (.notInt role v.describe)

/-- A value cast to a type.  A string is read as a number without the white space around it. -/
def cast (target : TypeName) (v : Value) : Except Fault Value :=
  match target, v with
  | .int, .int n => .ok (.int n)
  | .int, .float x =>
    match floatToInt? x with
    | some n => .ok (.int n)
    | none => .error (.outsideInt x)
  | .int, .string s =>
    match Decimal.readInt? (Text.trim s.toList) with
    | some n => .ok (.int n)
    | none => .error (.unreadable s .int)
  | .float, .int n => .ok (.float (intToFloat n))
  | .float, .float x => .ok (.float x)
  | .float, .string s =>
    match Decimal.readFloat? (Text.trim s.toList) with
    | some x => .ok (.float x)
    | none => .error (.unreadable s .float)
  | .string, .int n => .ok (.string (Value.int n).render)
  | .string, .float x => .ok (.string (Value.float x).render)
  | .string, .string s => .ok (.string s)
  | target, v => .error (.notCastable v.describe target)

end Value

end MiniC
