import MiniC.Machine
import MiniC.Function
import MiniC.Value.Convert
import MiniC.Text.Escape

/-!
# Running built-in functions

A print function writes the value that its parameter is bound to; an input function reads a word or
a line and returns what it denotes.
-/

namespace MiniC.Builtin

/-- The number that a word of input denotes. -/
def readAs (read? : List Char → Option α) (refusal : String → Fault) (s : Source) :
    Except Fault α × Source :=
  match s.readWord with
  | (.ok word, rest) =>
    (match read? word.toList with
      | some n => .ok n
      | none => .error (refusal word), rest)
  | (.error fault, rest) => (.error fault, rest)

/-- What `prints` writes: a string with its escape sequences expanded. -/
def expandedText : Value → String
  | .string s => String.ofList (Text.unescape s.toList)
  | v => v.render

/-- Writes the parameter as a line. -/
def printParameter (text : Value → String) : Run Flow := do
  let v ← Run.lookup parameterName
  Run.writeLine (text v)
  pure .normal

/-- Returns a value that was read. -/
def returning (toValue : α → Value) (r : Run α) : Run Flow := do
  let x ← r
  pure (.returned (toValue x) none)

/-- Runs a built-in function in the current frames. -/
def run : Builtin → Run Flow
  | .printi | .printf | .printl => printParameter Value.render
  | .prints => printParameter expandedText
  | .inputi => returning .int (Run.read (readAs Decimal.readInt? .wordNoInt))
  | .inputf => returning .float (Run.read (readAs Decimal.readFloat? .wordNoFloat))
  | .inputs => returning .string (Run.read Source.readWord)
  | .inputline => returning .string (Run.read Source.readLine)

/-- Runs the built-in function with a name, which has to exist. -/
def runNamed (name : String) : Run Flow :=
  match ofName? name with
  | some b => b.run
  | none => Run.fail (.noBuiltin name)

end MiniC.Builtin
