import MiniC.Machine
import MiniC.Value.Operation

/-!
# Places, declarations and assignments

What evaluates the parts of a statement is a parameter here: `eval` evaluates an expression.
-/

namespace MiniC

variable (eval : Expr → Run Value)

/-- Whether a condition holds. -/
def evalCondition (e : Expr) : Run Bool := do
  let v ← eval e
  Run.locate e.lexeme (Run.lift v.truth)

/-- The value of an index; empty brackets have none. -/
def evalIndex : Option Expr → Run Int64
  | some e => do
    let v ← eval e
    Run.locate e.lexeme (Run.lift (v.toInt "array index"))
  | none => Run.fail .missingIndex

/-- The length that a declared dimension asks for; empty brackets ask for none. -/
def evalDimension : Option Expr → Run (Option Nat)
  | none => pure none
  | some e => do
    let v ← eval e
    let n ← Run.locate e.lexeme (Run.lift (v.toInt "array dimension"))
    match dimension? n with
    | some length => pure (some length)
    | none => Run.failAt (.dimensionNotPositive n) e.lexeme

/-- The value at a place.  The indices are evaluated before the name is looked up. -/
def evalPlace (name : String) (indices : List (Option Expr)) : Run Value := do
  let path ← Run.each (evalIndex eval) indices
  let v ← Run.lookup name
  Run.lift (v.atPath path)

/-- All lengths, if none is left open. -/
def allLengths? : List (Option Nat) → Option (List Nat)
  | [] => some []
  | some length :: rest => (allLengths? rest).map (length :: ·)
  | none :: _ => none

/-- The value that a declared name gets: an initial value converts to a scalar type and has to fit
an array type as it is; without one there is a default. -/
def initialValue (d : Declaration) (dims : List (Option Nat)) (initial : Option Value) :
    Except Fault Value :=
  match dims, initial with
  | [], some v => v.coerce d.type
  | [], none => .ok (Value.defaultFor d.type)
  | dims, some v => (v.conform d.type dims).map fun _ => v
  | dims, none =>
    match allLengths? dims with
    | some lengths => Value.filled lengths (Value.defaultFor d.type)
    | none => .error (.sizeMissing d.target.name)

/-- An optional expression. -/
def evalOption : Option Expr → Run (Option Value)
  | none => pure none
  | some e => do
    let v ← eval e
    pure (some v)

/-- Declares a variable in the innermost frame.  Dimensions are evaluated before the initial
value. -/
def execDeclaration (d : Declaration) : Run Unit :=
  Run.locate d.target.lexeme do
    let dims ← Run.each (evalDimension eval) d.target.indices
    let initial ← evalOption eval d.initial
    let v ← Run.lift (initialValue d dims initial)
    Run.changeScope (·.declare d.target.name v)

/-- Assigns to a place.  The new value is evaluated first, then the indices; the new value converts
to the type that the place holds. -/
def execAssignment (target : Place) (op : AssignOp) (value : Expr) : Run Unit := do
  let new ← eval value
  match target.indices with
  | [] =>
    let current ← Run.locate target.lexeme (Run.lookup target.name)
    let updated ← Run.lift (current.assigned op new)
    Run.modifyScope (·.modify target.name fun _ => updated)
  | indices =>
    let path ← Run.each (evalIndex eval) indices
    let current ← Run.locate target.lexeme do
      let v ← Run.lookup target.name
      Run.lift (v.atPath path)
    let updated ← Run.lift (current.assigned op new)
    Run.modifyScope (·.modify target.name (·.setAt path updated))

end MiniC
