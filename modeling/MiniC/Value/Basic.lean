import MiniC.Decimal.Digits
import MiniC.Syntax.Same

/-!
# Values

What expressions evaluate to and names are bound to.  The elements of an array are values again;
its shape and its leaf type are read off along the first elements.
-/

namespace MiniC

/-- Values. -/
inductive Value
  | int (n : Int64)
  | float (x : Float)
  | string (s : String)
  | array (elements : Array Value)
  /-- What a function without a result returns. -/
  | void
  | function (f : FunctionDecl)
deriving Inhabited

/-- How diagnostics describe the type of a value. -/
inductive Description
  | type (t : TypeName)
  | array (leaf : Option TypeName) (shape : List Nat)
  | function (name : String)
deriving DecidableEq

/-- The text of a description. -/
def Description.text : Description → String
  | .type t => t.text
  | .array leaf shape =>
    (match leaf with
      | some t => t.text
      | none => "?")
      ++ String.join (shape.map fun d => "[" ++ Decimal.ofNat d ++ "]")
  | .function name => "function '" ++ name ++ "'"

namespace Value

/-- The truth values are the ints one and zero. -/
def ofBool (b : Bool) : Value := .int (if b then 1 else 0)

/-- The type of a value; functions have none. -/
def typeName? : Value → Option TypeName
  | .int _ => some .int
  | .float _ => some .float
  | .string _ => some .string
  | .array _ => some .array
  | .void => some .void
  | .function _ => none

/-- Ints, floats and strings. -/
def isScalar : Value → Bool
  | .int _ | .float _ | .string _ => true
  | _ => false

/-- Whether a value is an array. -/
def isArray : Value → Bool
  | .array _ => true
  | _ => false

/-- The type at the bottom of a value, along the first elements. -/
def leafType? : Value → Option TypeName
  | .int _ => some .int
  | .float _ => some .float
  | .string _ => some .string
  | .array ⟨first :: _⟩ => first.leafType?
  | .array ⟨[]⟩ | .void | .function _ => none

/-- The length of each dimension, outermost first, along the first elements. -/
def shape : Value → List Nat
  | .array ⟨first :: rest⟩ => (rest.length + 1) :: first.shape
  | .array ⟨[]⟩ => [0]
  | _ => []

/-- How diagnostics describe a value. -/
def describe : Value → Description
  | .int _ => .type .int
  | .float _ => .type .float
  | .string _ => .type .string
  | .void => .type .void
  | .array elements => .array (Value.array elements).leafType? (Value.array elements).shape
  | .function f => .function f.name

/-- The value that a variable of a type has without an initial value. -/
def defaultFor : TypeName → Value
  | .int => .int 0
  | .float => .float (Float.ofBits 0)
  | .string => .string ""
  | .void | .array => .void

mutual

/-- Equal values: floats as numbers, functions by their trees. -/
def same : Value → Value → Bool
  | .int m, .int n => m == n
  | .float x, .float y => x == y
  | .string s, .string t => s == t
  | .array ⟨xs⟩, .array ⟨ys⟩ => sameAll xs ys
  | .void, .void => true
  | .function f, .function g => f.same g
  | _, _ => false

/-- Equal lists of values. -/
def sameAll : List Value → List Value → Bool
  | [], [] => true
  | x :: xs, y :: ys => same x y && sameAll xs ys
  | _, _ => false

end

end Value

/-- The value of a literal. -/
def Literal.toValue : Literal → Value
  | .int n => .int n
  | .float x => .float x
  | .string s => .string s

end MiniC
