import MiniC.Token

/-!
# Types and operators

The names of types, the unary, binary and assignment operators, how they are written, and which
symbols spell them.
-/

namespace MiniC

/-- The name of a type.  `array` is never written: it marks a parameter that takes an array of any
shape. -/
inductive TypeName
  | int | float | string | void | array
deriving DecidableEq, Inhabited

namespace TypeName

/-- How a type is named. -/
def text : TypeName → String
  | .int => "int"
  | .float => "float"
  | .string => "string"
  | .void => "void"
  | .array => "array"

/-- The type that a keyword names. -/
def ofKind? : TokenKind → Option TypeName
  | .keyword .int => some .int
  | .keyword .float => some .float
  | .keyword .string => some .string
  | .keyword .void => some .void
  | _ => none

end TypeName

/-- The operators in front of one operand. -/
inductive UnaryOp
  | negate | bitNot | not
deriving DecidableEq, Inhabited

namespace UnaryOp

/-- How an operator is written. -/
def text : UnaryOp → String
  | .negate => "-"
  | .bitNot => "~"
  | .not => "!"

/-- The unary operator that a symbol spells. -/
def ofKind? : TokenKind → Option UnaryOp
  | .symbol .minus => some .negate
  | .symbol .tilde => some .bitNot
  | .symbol .bang => some .not
  | _ => none

end UnaryOp

/-- The operators between two operands. -/
inductive BinaryOp
  | add | sub | mul | div | mod
  | bitAnd | bitOr | bitXor | shiftLeft | shiftRight
  | and | or
  | equal | notEqual | less | lessEqual | greater | greaterEqual
deriving DecidableEq, Inhabited

/-- The levels of binary operators; operators of one level associate to the left. -/
inductive Level
  | multiplicative | additive | relational | bitwise | logical
deriving DecidableEq, Inhabited

/-- How loosely a level binds. -/
def Level.looseness : Level → Nat
  | .multiplicative => 0
  | .additive => 1
  | .relational => 2
  | .bitwise => 3
  | .logical => 4

namespace BinaryOp

/-- All binary operators. -/
def all : List BinaryOp :=
  [.add, .sub, .mul, .div, .mod, .bitAnd, .bitOr, .bitXor, .shiftLeft, .shiftRight, .and, .or,
   .equal, .notEqual, .less, .lessEqual, .greater, .greaterEqual]

/-- The symbol that spells an operator. -/
def symbol : BinaryOp → Symbol
  | .add => .plus
  | .sub => .minus
  | .mul => .star
  | .div => .slash
  | .mod => .percent
  | .bitAnd => .ampersand
  | .bitOr => .pipe
  | .bitXor => .caret
  | .shiftLeft => .shiftLeft
  | .shiftRight => .shiftRight
  | .and => .andAnd
  | .or => .orOr
  | .equal => .equalEqual
  | .notEqual => .notEqual
  | .less => .less
  | .lessEqual => .lessEqual
  | .greater => .greater
  | .greaterEqual => .greaterEqual

/-- How an operator is written. -/
def text (op : BinaryOp) : String := op.symbol.text

/-- The binary operator that a symbol spells. -/
def ofKind? : TokenKind → Option BinaryOp
  | .symbol s => all.find? (·.symbol = s)
  | _ => none

/-- The level of an operator. -/
def level : BinaryOp → Level
  | .mul | .div | .mod => .multiplicative
  | .add | .sub => .additive
  | .equal | .notEqual | .less | .lessEqual | .greater | .greaterEqual => .relational
  | .bitAnd | .bitOr | .bitXor | .shiftLeft | .shiftRight => .bitwise
  | .and | .or => .logical

/-- Whether an operator compares. -/
def isRelational (op : BinaryOp) : Bool := op.level = .relational

end BinaryOp

/-- The assignment operators: `=`, and the compound ones that apply a binary operator first. -/
inductive AssignOp
  | plain
  | compound (op : BinaryOp)
deriving DecidableEq, Inhabited

namespace AssignOp

/-- How an operator is written. -/
def text : AssignOp → String
  | .plain => "="
  | .compound op => op.text ++ "="

/-- The assignment operator that a symbol spells. -/
def ofKind? : TokenKind → Option AssignOp
  | .symbol .assign => some .plain
  | .symbol .plusAssign => some (.compound .add)
  | .symbol .minusAssign => some (.compound .sub)
  | .symbol .starAssign => some (.compound .mul)
  | .symbol .slashAssign => some (.compound .div)
  | .symbol .percentAssign => some (.compound .mod)
  | .symbol .ampersandAssign => some (.compound .bitAnd)
  | .symbol .pipeAssign => some (.compound .bitOr)
  | .symbol .caretAssign => some (.compound .bitXor)
  | .symbol .shiftLeftAssign => some (.compound .shiftLeft)
  | .symbol .shiftRightAssign => some (.compound .shiftRight)
  | _ => none

end AssignOp

end MiniC
