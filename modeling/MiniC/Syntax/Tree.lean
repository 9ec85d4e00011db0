import MiniC.Lexeme
import MiniC.Builtin
import MiniC.Syntax.Operator

/-!
# Syntax trees

Expressions, statements, declarations and programs.  Every node keeps the lexeme that errors in it
refer to.
-/

namespace MiniC

/-- The value of a literal.  A string keeps its escape sequences. -/
inductive Literal
  | int (value : Int64)
  | float (value : Float)
  | string (raw : String)
deriving Inhabited

/-- Expressions.  An index is absent where the brackets are empty. -/
inductive Expr
  | literal (value : Literal) (lexeme : Lexeme)
  | list (elements : List Expr) (lexeme : Lexeme)
  | variable (name : String) (indices : List (Option Expr)) (lexeme : Lexeme)
  | unary (op : UnaryOp) (operand : Expr) (lexeme : Lexeme)
  | binary (op : BinaryOp) (left right : Expr) (lexeme : Lexeme)
  | cast (target : TypeName) (operand : Expr) (lexeme : Lexeme)
  | call (name : String) (arguments : List Expr) (lexeme : Lexeme)
deriving Inhabited

/-- The lexeme that errors in an expression refer to. -/
def Expr.lexeme : Expr → Lexeme
  | .literal _ l | .list _ l | .variable _ _ l | .unary _ _ l | .binary _ _ _ l | .cast _ _ l
  | .call _ _ l => l

/-- A name with indices: what is declared, assigned or read. -/
structure Place where
  name : String
  indices : List (Option Expr)
  lexeme : Lexeme
deriving Inhabited

/-- The expression that reads a place. -/
def Place.read (p : Place) : Expr := .variable p.name p.indices p.lexeme

/-- A function call. -/
structure Call where
  name : String
  arguments : List Expr
  lexeme : Lexeme
deriving Inhabited

/-- The expression that calls. -/
def Call.expr (c : Call) : Expr := .call c.name c.arguments c.lexeme

/-- The declaration of a variable. -/
structure Declaration where
  type : TypeName
  target : Place
  initial : Option Expr
deriving Inhabited

/-- The statements that the header of a `for` loop can hold. -/
inductive SimpleStatement
  | declaration (d : Declaration)
  | assignment (target : Place) (op : AssignOp) (value : Expr) (lexeme : Lexeme)
  | call (c : Call)
deriving Inhabited

/-- Statements. -/
inductive Statement
  | empty
  | simple (s : SimpleStatement)
  | block (body : List Statement) (lexeme : Lexeme)
  | ifElse (branches : List (Expr × Statement)) (otherwise : Option Statement) (lexeme : Lexeme)
  | forLoop (first : Option SimpleStatement) (condition : Expr) (step : Option SimpleStatement)
      (body : Statement) (lexeme : Lexeme)
  | whileLoop (condition : Expr) (body : Statement) (lexeme : Lexeme)
  | doWhile (body : Statement) (condition : Expr) (lexeme : Lexeme)
  | breakLoop (lexeme : Lexeme)
  | continueLoop (lexeme : Lexeme)
  | returnValue (value : Option Expr) (lexeme : Lexeme)
deriving Inhabited

/-- A parameter of a function; `dims` counts its brackets. -/
structure Parameter where
  type : TypeName
  name : String
  dims : Nat
  lexeme : Lexeme
deriving Inhabited

/-- The body of a function. -/
inductive FunctionBody
  | block (body : List Statement) (lexeme : Lexeme)
  | builtin (b : Builtin)
deriving Inhabited

/-- The declaration of a function.  `returnDims` counts the brackets after its name; a function with
any is rejected when it is declared. -/
structure FunctionDecl where
  returns : TypeName
  name : String
  returnDims : Nat
  parameters : List Parameter
  body : FunctionBody
  lexeme : Lexeme
deriving Inhabited

/-- An item at the top of a program. -/
inductive Item
  | function (f : FunctionDecl)
  | global (d : Declaration)
deriving Inhabited

/-- A program: its items in source order. -/
structure Program where
  items : List Item
deriving Inhabited

end MiniC
