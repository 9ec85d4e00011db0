/-!
# Built-in functions

The fixed set of functions that every program can call, by name.
-/

namespace MiniC

/-- The built-in functions. -/
inductive Builtin
  | printi | printf | prints | printl
  | inputi | inputf | inputs | inputline
deriving DecidableEq, Inhabited

namespace Builtin

/-- All built-in functions, in the order in which they are installed. -/
def all : List Builtin :=
  [.printi, .printf, .prints, .printl, .inputi, .inputf, .inputs, .inputline]

/-- The name that calls a built-in function. -/
def name : Builtin → String
  | .printi => "printi"
  | .printf => "printf"
  | .prints => "prints"
  | .printl => "printl"
  | .inputi => "inputi"
  | .inputf => "inputf"
  | .inputs => "inputs"
  | .inputline => "inputline"

/-- The built-in function with the given name. -/
def ofName? (s : String) : Option Builtin :=
  all.find? (·.name == s)

/-- Whether a name calls a built-in function. -/
def isName (s : String) : Bool := (ofName? s).isSome

end Builtin

end MiniC
