import MiniC.Value.Basic
import MiniC.Decimal.Integer
import MiniC.Decimal.Layout

/-!
# Texts of values

What the print functions and casts to strings write.  Strings inside an array stand in quotes.
-/

namespace MiniC.Value

mutual

/-- The text of a value. -/
def render : Value → String
  | .int n => Decimal.ofInt64 n
  | .float x => Decimal.Layout.general.render x
  | .string s => s
  | .array ⟨elements⟩ => "[" ++ ", ".intercalate (elementTexts elements) ++ "]"
  | .void => "void"
  | .function f => "<function " ++ f.name ++ ">"

/-- The texts of the elements of an array. -/
def elementTexts : List Value → List String
  | [] => []
  | .string s :: rest => ("'" ++ s ++ "'") :: elementTexts rest
  | v :: rest => render v :: elementTexts rest

end

end MiniC.Value
