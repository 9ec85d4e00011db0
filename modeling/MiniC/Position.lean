import MiniC.Decimal.Digits

/-!
# Positions

Where a character stands in a source text.  Lines and columns count from one; a column counts
Unicode scalar values since the last line break.
-/

namespace MiniC

/-- A place in a source text. -/
structure Position where
  line : Nat
  column : Nat
deriving DecidableEq, Inhabited

namespace Position

/-- The place of the first character of a text. -/
def start : Position := ⟨1, 1⟩

/-- The place that lexemes without a source text carry. -/
def nowhere : Position := ⟨0, 0⟩

/-- The place after one character: a line break opens the next line. -/
def step (p : Position) (c : Char) : Position :=
  if c = '\n' then ⟨p.line + 1, 1⟩ else ⟨p.line, p.column + 1⟩

/-- The place after a text. -/
def advance (p : Position) (text : List Char) : Position :=
  text.foldl step p

/-- The place after a text whose line breaks do not open a line. -/
def advanceInLine (p : Position) (text : List Char) : Position :=
  ⟨p.line, p.column + text.length⟩

/-- Written as `line:column`. -/
def render (p : Position) : String :=
  Decimal.ofNat p.line ++ ":" ++ Decimal.ofNat p.column

@[simp] theorem advance_nil (p : Position) : p.advance [] = p := rfl

@[simp] theorem advance_cons (p : Position) (c : Char) (text : List Char) :
    p.advance (c :: text) = (p.step c).advance text := rfl

theorem advance_append (p : Position) (a b : List Char) :
    p.advance (a ++ b) = (p.advance a).advance b :=
  List.foldl_append

end Position

end MiniC
