import MiniC.Value.Convert

/-!
# Operations

Unary and binary operators on values.  Each family of binary operators has a table that decides by
the types of the operands; a pair that the table does not list is a mismatch.  An int and a float
together count as two floats.
-/

namespace MiniC

/-- A shift count; it has to be below the width of an int. -/
def shiftAmount? (n : Int64) : Option Nat :=
  if 0 ≤ n.toInt ∧ n.toInt < 64 then some n.toInt.toNat else none

/-- The remainder whose sign follows the divisor. -/
def floorMod (a b : Int64) : Int64 :=
  let r := a % b
  if r ≠ 0 ∧ ((r < 0) ≠ (b < 0)) then r + b else r

/-- How two floats compare; not at all if one is a NaN. -/
def compareFloats? (x y : Float) : Option Ordering :=
  if x < y then some .lt
  else if x == y then some .eq
  else if y < x then some .gt
  else none

/-- Whether a comparison holds of operands in the given order.  Of operands without an order only
`!=` holds. -/
def BinaryOp.holds (op : BinaryOp) : Option Ordering → Bool
  | none => op = .notEqual
  | some o =>
    match op with
    | .equal => o.isEq
    | .notEqual => o.isNe
    | .less => o.isLT
    | .lessEqual => o.isLE
    | .greater => o.isGT
    | .greaterEqual => o.isGE
    | _ => false

namespace Value

/-- A number as a float. -/
def toFloat? : Value → Option Float
  | .int n => some (intToFloat n)
  | .float x => some x
  | _ => none

/-- Two numbers as floats. -/
def numericPair? (left right : Value) : Option (Float × Float) :=
  match left.toFloat?, right.toFloat? with
  | some x, some y => some (x, y)
  | _, _ => none

/-- The mismatch of a pair of operands that an operator has no meaning for. -/
def undefined (op : BinaryOp) (left right : Value) : Except Fault α :=
  .error (.binaryUndefined op left.describe right.describe)

/-- Arithmetic on ints, modulo `2 ^ 64`: division truncates, the remainder is floored. -/
def intArithmetic (op : BinaryOp) (a b : Int64) : Except Fault Value :=
  match op with
  | .add => .ok (.int (a + b))
  | .sub => .ok (.int (a - b))
  | .mul => .ok (.int (a * b))
  | .div => if b = 0 then .error .zeroDivisor else .ok (.int (a / b))
  | .mod => if b = 0 then .error .zeroDivisor else .ok (.int (floorMod a b))
  | _ => undefined op (.int a) (.int b)

/-- Arithmetic on floats. -/
def floatArithmetic (op : BinaryOp) (x y : Float) : Except Fault Value :=
  match op with
  | .add => .ok (.float (x + y))
  | .sub => .ok (.float (x - y))
  | .mul => .ok (.float (x * y))
  | .div => if y == Float.ofBits 0 then .error .zeroDivisor else .ok (.float (x / y))
  | _ => undefined op (.float x) (.float y)

/-- `+`, `-`, `*`, `/` and `%`.  Strings can be added, remainders need ints. -/
def arithmetic (op : BinaryOp) (left right : Value) : Except Fault Value :=
  match left, right with
  | .int a, .int b => intArithmetic op a b
  | .string s, .string t =>
    if op = .add then .ok (.string (s ++ t)) else undefined op left right
  | _, _ =>
    match numericPair? left right with
    | some (x, y) => if op = .mod then undefined op left right else floatArithmetic op x y
    | none => undefined op left right

/-- A shift by a count that is below the width of an int. -/
def shift (f : Int64 → Int64 → Int64) (a count : Int64) : Except Fault Value :=
  match shiftAmount? count with
  | some n => .ok (.int (f a (Int64.ofNat n)))
  | none => .error (.shiftOutside count)

/-- `&`, `|`, `^`, `<<` and `>>` on ints.  A shift to the right keeps the sign. -/
def bitwise (op : BinaryOp) (left right : Value) : Except Fault Value :=
  match left, right with
  | .int a, .int b =>
    match op with
    | .bitAnd => .ok (.int (a &&& b))
    | .bitOr => .ok (.int (a ||| b))
    | .bitXor => .ok (.int (a ^^^ b))
    | .shiftLeft => shift (· <<< ·) a b
    | .shiftRight => shift (· >>> ·) a b
    | _ => undefined op left right
  | _, _ => undefined op left right

/-- Comparisons.  Strings can only be equal or not. -/
def comparison (op : BinaryOp) (left right : Value) : Except Fault Value :=
  match left, right with
  | .int a, .int b => .ok (ofBool (op.holds (some (compare a.toInt b.toInt))))
  | .string s, .string t =>
    match op with
    | .equal => .ok (ofBool (s == t))
    | .notEqual => .ok (ofBool (s != t))
    | _ => undefined op left right
  | _, _ =>
    match numericPair? left right with
    | some (x, y) => .ok (ofBool (op.holds (compareFloats? x y)))
    | none => undefined op left right

/-- `&&` and `||` on two values, both of which are conditions. -/
def logic (op : BinaryOp) (left right : Value) : Except Fault Value :=
  match left.truth, right.truth with
  | .ok a, .ok b =>
    match op with
    | .and => .ok (ofBool (a && b))
    | .or => .ok (ofBool (a || b))
    | _ => undefined op left right
  | _, _ => undefined op left right

/-- A binary operator applied to two values. -/
def binary (op : BinaryOp) (left right : Value) : Except Fault Value :=
  match op.level with
  | .multiplicative | .additive => arithmetic op left right
  | .bitwise => bitwise op left right
  | .relational => comparison op left right
  | .logical => logic op left right

/-- A unary operator applied to a value. -/
def unary (op : UnaryOp) (v : Value) : Except Fault Value :=
  match op, v with
  | .negate, .int n => .ok (.int (-n))
  | .negate, .float x => .ok (.float (-x))
  | .not, .int n => .ok (ofBool (n = 0))
  | .not, .float x => .ok (ofBool (x == Float.ofBits 0))
  | .bitNot, .int n => .ok (.int (~~~n))
  | op, v => .error (.unaryUndefined op v.describe)

/-- What an assignment stores in a slot that holds `current`: a compound operator is applied to both
first, then the result converts to the type of the slot. -/
def assigned (current : Value) (op : AssignOp) (new : Value) : Except Fault Value :=
  match current.typeName? with
  | some type =>
    if current.isScalar then
      match op with
      | .plain => new.coerce type
      | .compound op => (binary op current new).bind (·.coerce type)
    else
      .error (.notAssignable current.describe)
  | none => .error (.notAssignable current.describe)

end Value

end MiniC
