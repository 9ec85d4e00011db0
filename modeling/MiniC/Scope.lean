import MiniC.Value.Array

/-!
# Scopes

Names are bound in frames.  The root frame lives as long as the scope and is always visible.  The
other frames form contexts: one outside all calls, and one for each active call.  Only the current
context is visible besides the root, so a callee does not see the variables of its caller.
-/

namespace MiniC

/-- The bindings of one frame, the latest first. -/
structure Frame where
  bindings : List (String × Value)
deriving Inhabited

namespace Frame

/-- The frame without bindings. -/
def empty : Frame := ⟨[]⟩

/-- What a name is bound to. -/
def find? (f : Frame) (name : String) : Option Value := f.bindings.lookup name

/-- Whether a name is bound. -/
def binds (f : Frame) (name : String) : Bool := (f.find? name).isSome

/-- The names that are bound. -/
def names (f : Frame) : List String := f.bindings.map Prod.fst

/-- Binds a name that is not bound yet. -/
def insert (f : Frame) (name : String) (v : Value) : Frame := ⟨(name, v) :: f.bindings⟩

/-- Changes the first of some bindings that is one of the name. -/
def modifyFirst (name : String) (change : Value → Value) :
    List (String × Value) → List (String × Value)
  | [] => []
  | (bound, v) :: rest =>
    if name == bound then (bound, change v) :: rest
    else (bound, v) :: modifyFirst name change rest

/-- Changes what a name is bound to, if it is bound. -/
def modify (f : Frame) (name : String) (change : Value → Value) : Frame :=
  ⟨modifyFirst name change f.bindings⟩

/-- Binds a name whether it is bound or not. -/
def put (f : Frame) (name : String) (v : Value) : Frame :=
  if f.binds name then f.modify name fun _ => v else f.insert name v

end Frame

/-- Frames one inside the other, the innermost first. -/
abbrev Context := List Frame

namespace Context

/-- The innermost binding of a name. -/
def find? (c : Context) (name : String) : Option Value := c.findSome? (·.find? name)

/-- Whether a frame binds a name. -/
def binds (c : Context) (name : String) : Bool := c.any (·.binds name)

/-- Changes the innermost binding of a name, if there is one. -/
def modify (c : Context) (name : String) (change : Value → Value) : Context :=
  match c with
  | [] => []
  | f :: outer =>
    if f.binds name then f.modify name change :: outer else f :: modify outer name change

end Context

/-- The root frame, the current context, and the contexts of its callers, the latest first.  The
context of a call always has a frame, the one outside all calls may be empty. -/
structure Scope where
  root : Frame
  current : Context
  callers : List Context
deriving Inhabited

namespace Scope

/-- A root frame without bindings alone. -/
def empty : Scope := ⟨.empty, [], []⟩

/-- The number of frames, the root included. -/
def depth (s : Scope) : Nat :=
  1 + s.current.length + s.callers.flatten.length

/-- The innermost visible binding of a name. -/
def find? (s : Scope) (name : String) : Option Value :=
  (s.current.find? name).or (s.root.find? name)

/-- The innermost visible binding of a name, which has to be there. -/
def lookup (s : Scope) (name : String) : Except Fault Value :=
  match s.find? name with
  | some v => .ok v
  | none => .error (.undeclared name)

/-- Changes the innermost visible binding of a name, if there is one. -/
def modify (s : Scope) (name : String) (change : Value → Value) : Scope :=
  if s.current.binds name then { s with current := s.current.modify name change }
  else { s with root := s.root.modify name change }

/-- Replaces the innermost visible binding of a name, which has to be there. -/
def assign (s : Scope) (name : String) (v : Value) : Except Fault Scope :=
  (s.lookup name).map fun _ => s.modify name fun _ => v

/-- Replaces the element at a path of the innermost visible binding of a name. -/
def store (s : Scope) (name : String) (path : List Int64) (v : Value) : Except Fault Scope :=
  ((s.lookup name).bind (·.atPath path)).map fun _ => s.modify name (·.setAt path v)

/-- Binds a name in the innermost frame, where it must not be bound yet. -/
def declare (s : Scope) (name : String) (v : Value) : Except Fault Scope :=
  match s.current with
  | [] =>
    if s.root.binds name then .error (.redeclared name)
    else .ok { s with root := s.root.insert name v }
  | f :: outer =>
    if f.binds name then .error (.redeclared name)
    else .ok { s with current := f.insert name v :: outer }

/-- Binds a name in the root frame, whether it is bound there or not. -/
def defineGlobal (s : Scope) (name : String) (v : Value) : Scope :=
  { s with root := s.root.put name v }

/-- Opens a frame. -/
def push (s : Scope) : Scope := { s with current := .empty :: s.current }

/-- Closes the innermost frame, but neither the root nor the first frame of a call. -/
def pop (s : Scope) : Scope :=
  match s.current, s.callers with
  | _ :: outer, [] => { s with current := outer }
  | _ :: f :: outer, _ => { s with current := f :: outer }
  | _, _ => s

/-- Begins a call: a context with one frame. -/
def enterCall (s : Scope) : Scope :=
  { s with current := [.empty], callers := s.current :: s.callers }

/-- Ends the innermost call: its context is dropped and the caller's is current again. -/
def exitCall (s : Scope) : Scope :=
  match s.callers with
  | [] => s
  | caller :: callers => { s with current := caller, callers }

end Scope

end MiniC
