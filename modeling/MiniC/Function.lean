import MiniC.Value.Array

/-!
# Calling functions: checks

A call binds arguments to parameters without conversion, so the arguments are checked first; what a
function returns is checked against its declared type.  Here stand also the declarations of the
built-in functions.
-/

namespace MiniC

/-- How diagnostics name what a parameter accepts. -/
def Parameter.expects (p : Parameter) : String :=
  match p.type with
  | .array => "an array"
  | type => type.text ++ String.join (List.replicate p.dims "[]")

/-- Whether an argument can be bound to a parameter: a scalar of its type, or an array of its leaf
type with as many dimensions. -/
def Parameter.accepts (p : Parameter) (v : Value) : Bool :=
  match p.type with
  | .array => v.isArray
  | type =>
    if v.isArray then 0 < p.dims && v.shape.length = p.dims && v.leafType? = some type
    else p.dims = 0 && v.isScalar && v.typeName? = some type

namespace FunctionDecl

/-- Checks the arguments of a call, first their number. -/
def checkArguments (f : FunctionDecl) (arguments : List Value) : Except Fault Unit :=
  if arguments.length ≠ f.parameters.length then
    .error (.argumentCount f.name f.parameters.length arguments.length)
  else
    match (f.parameters.zip arguments).find? fun (p, v) => !p.accepts v with
    | some (p, v) => .error (.argumentType p.name f.name p.expects v.describe)
    | none => .ok ()

/-- Whether a function can return a value: nothing if it is declared `void`, else a scalar of its
declared type. -/
def canReturn (f : FunctionDecl) (v : Value) : Bool :=
  match f.returns with
  | .void =>
    match v with
    | .void => true
    | _ => false
  | type => v.isScalar && v.typeName? = some type

/-- Checks what a function returns. -/
def checkResult (f : FunctionDecl) (v : Value) : Except Fault Value :=
  if f.canReturn v then .ok v else .error (.wrongResult f.name f.returns v.describe)

end FunctionDecl

namespace Builtin

/-- The name that the argument of a print function is bound to. -/
def parameterName : String := "p"

/-- The type that a built-in function returns, and the type of its parameter if it has one. -/
def signature : Builtin → TypeName × Option TypeName
  | .printi => (.void, some .int)
  | .printf => (.void, some .float)
  | .prints => (.void, some .string)
  | .printl => (.void, some .array)
  | .inputi => (.int, none)
  | .inputf => (.float, none)
  | .inputs | .inputline => (.string, none)

/-- The declaration of a built-in function.  It has no place in a source text. -/
def declaration (b : Builtin) : FunctionDecl where
  returns := b.signature.1
  name := b.name
  returnDims := 0
  parameters := b.signature.2.toList.map fun type => ⟨type, parameterName, 0, .absent⟩
  body := .builtin b
  lexeme := .absent

end Builtin

end MiniC
