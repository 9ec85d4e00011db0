import MiniC.Fault

/-!
# Arrays

Arrays are built from the elements of a list or filled with one value; paths of indices select
elements and sub-arrays.
-/

namespace MiniC

/-- An index as a position.  It must not be negative. -/
def position? (index : Int64) : Option Nat :=
  if 0 ≤ index.toInt then some index.toInt.toNat else none

/-- An index as a position among `length` elements. -/
def checkedIndex? (index : Int64) (length : Nat) : Option Nat :=
  (position? index).filter (· < length)

/-- A declared dimension as a length.  It has to be positive. -/
def dimension? (n : Int64) : Option Nat :=
  if 0 < n.toInt then some n.toInt.toNat else none

/-- The product of a count and a length if it fits in 64 bits. -/
def checkedMul? (count length : Nat) : Option Nat :=
  if count * length < Nat.pow 2 64 then some (count * length) else none

/-- The number of leaves of an array, multiplied from the outermost dimension on; absent once a
product does not fit in 64 bits. -/
def leafCount? (dims : List Nat) : Option Nat :=
  dims.foldlM checkedMul? 1

namespace Value

/-- The array of the elements of a list.  There has to be an element, and all have one leaf type and
one shape. -/
def ofElements (elements : List Value) : Except Fault Value :=
  match elements with
  | [] => .error .emptyList
  | first :: _ =>
    match first.leafType? with
    | none => .error (.noElement first.describe)
    | some leaf =>
      match elements.find? fun e => e.leafType? ≠ some leaf ∨ e.shape ≠ first.shape with
      | some odd => .error (.mixedList first.describe odd.describe)
      | none => .ok (.array elements.toArray)

/-- Nested arrays of the given dimensions around one leaf. -/
def nested : List Nat → Value → Value
  | [], leaf => leaf
  | length :: dims, leaf => .array (Array.replicate length (nested dims leaf))

/-- An array of the given dimensions with every leaf the same, unless it has too many leaves. -/
def filled (dims : List Nat) (leaf : Value) : Except Fault Value :=
  match leafCount? dims with
  | some count =>
    if count ≤ Fault.maxLeaves then .ok (nested dims leaf) else .error (.arrayTooLarge dims)
  | none => .error (.arrayTooLarge dims)

/-- The first declared dimension that differs from the actual one. -/
def lengthMismatch? : List (Option Nat) → List Nat → Option (Nat × Nat)
  | some declared :: dims, actual :: shape =>
    if declared = actual then lengthMismatch? dims shape else some (declared, actual)
  | none :: dims, _ :: shape => lengthMismatch? dims shape
  | _, _ => none

/-- Checks that a value can initialize an array of a leaf type and dimensions, of which some take
the length of the value, and gives the dimensions. -/
def conform (v : Value) (type : TypeName) (dims : List (Option Nat)) : Except Fault (List Nat) :=
  if v.shape.length ≠ dims.length then
    .error (.dimensionCount dims.length type v.describe)
  else
    match lengthMismatch? dims v.shape with
    | some (declared, actual) => .error (.dimensionLength declared actual)
    | none =>
      if v.leafType? ≠ some type then .error (.leafMismatch type v.describe) else .ok v.shape

/-- The element at an index. -/
def element (v : Value) (index : Int64) : Except Fault Value :=
  match v with
  | .array elements =>
    match (position? index).bind (elements[·]?) with
    | some e => .ok e
    | none => .error (.indexOutside index elements.size)
  | _ => .error (.notIndexable v.describe)

/-- The element or sub-array that a path of indices selects, outermost index first. -/
def atPath : Value → List Int64 → Except Fault Value
  | v, [] => .ok v
  | v, index :: path => (v.element index).bind (·.atPath path)

/-- The value with the element at a path replaced.  A path that selects nothing changes nothing. -/
def setAt (v : Value) (path : List Int64) (new : Value) : Value :=
  match path with
  | [] => new
  | index :: path =>
    match v, position? index with
    | .array elements, some i => .array (elements.modify i (·.setAt path new))
    | v, _ => v

/-- A place in a value: what is there, and the value with something else there instead. -/
structure Slot where
  value : Value
  replace : Value → Value

/-- A slot of what another slot holds, as one of the value around both. -/
def Slot.inside (outer inner : Slot) : Slot :=
  ⟨inner.value, fun new => outer.replace (inner.replace new)⟩

/-- The slot at an index. -/
def slot (v : Value) (index : Int64) : Except Fault Slot :=
  match v with
  | .array elements =>
    match (checkedIndex? index elements.size).bind fun i => elements[i]?.map (i, ·) with
    | some (i, e) => .ok ⟨e, fun new => .array (elements.setIfInBounds i new)⟩
    | none => .error (.indexOutside index elements.size)
  | _ => .error (.notIndexable v.describe)

/-- The slot that a path of indices selects, outermost index first. -/
def slotAt : Value → List Int64 → Except Fault Slot
  | v, [] => .ok ⟨v, id⟩
  | v, index :: path =>
    (v.slot index).bind fun outer => (outer.value.slotAt path).map outer.inside

/-- Replaces the element at a path, which has to select one. -/
def replaceAt (v : Value) (path : List Int64) (new : Value) : Except Fault Value :=
  (v.slotAt path).map (·.replace new)

end Value

end MiniC
