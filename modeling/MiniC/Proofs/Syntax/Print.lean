import MiniC.Proofs.Parse.Grammar
import MiniC.Proofs.Syntax.Unplaced

/-!
# Writing trees

A tree as lexemes without places, and a program as a source text: its lexemes separated by blanks.
A literal is spelled as its lexeme is.  Parentheses stand around a binary operation exactly where
its operator binds looser than the place allows (`Tier.admits`): as the right operand of an operator
of its level, as a looser left operand, and as the operand of a prefix operator or a cast.
-/

namespace MiniC

namespace Lexeme

/-- A symbol as it is written. -/
def ofSymbol (s : Symbol) : Lexeme := ⟨.symbol s, s.text, .nowhere⟩

/-- A reserved word as it is written. -/
def ofKeyword (w : Keyword) : Lexeme := ⟨.keyword w, w.text, .nowhere⟩

/-- A name as it is written. -/
def ofName (name : String) : Lexeme := ⟨.identifier name, name, .nowhere⟩

end Lexeme

/-- Lexemes between two symbols. -/
def enclosed (opening closing : Symbol) (ls : List Lexeme) : List Lexeme :=
  .ofSymbol opening :: (ls ++ [.ofSymbol closing])

/-- Lexemes in parentheses. -/
abbrev inParens : List Lexeme → List Lexeme := enclosed .leftParen .rightParen

/-- Lexemes in braces. -/
abbrev inBraces : List Lexeme → List Lexeme := enclosed .leftBrace .rightBrace

/-- Groups of lexemes with a lexeme between them. -/
def separatedBy (between : Lexeme) (groups : List (List Lexeme)) : List Lexeme :=
  [between].intercalate groups

/-- Groups of lexemes with commas between them. -/
abbrev separated : List (List Lexeme) → List Lexeme := separatedBy (.ofSymbol .comma)

/-! ## Types and operators -/

/-- The reserved word that names a type, if it can be written. -/
def TypeName.keyword? : TypeName → Option Keyword
  | .int => some .int
  | .float => some .float
  | .string => some .string
  | .void => some .void
  | .array => none

/-- A type as it is written. -/
def TypeName.write (t : TypeName) : List Lexeme := (t.keyword?.map Lexeme.ofKeyword).toList

/-- The symbol that spells a unary operator. -/
def UnaryOp.symbol : UnaryOp → Symbol
  | .negate => .minus
  | .bitNot => .tilde
  | .not => .bang

/-- The symbol that spells an assignment operator, if there is one. -/
def AssignOp.symbol? : AssignOp → Option Symbol
  | .plain => some .assign
  | .compound .add => some .plusAssign
  | .compound .sub => some .minusAssign
  | .compound .mul => some .starAssign
  | .compound .div => some .slashAssign
  | .compound .mod => some .percentAssign
  | .compound .bitAnd => some .ampersandAssign
  | .compound .bitOr => some .pipeAssign
  | .compound .bitXor => some .caretAssign
  | .compound .shiftLeft => some .shiftLeftAssign
  | .compound .shiftRight => some .shiftRightAssign
  | .compound _ => none

/-- An assignment operator as it is written. -/
def AssignOp.write (op : AssignOp) : List Lexeme := (op.symbol?.map Lexeme.ofSymbol).toList

/-! ## Expressions -/

mutual

/-- An expression as it is written at a tier. -/
def Expr.write (tier : Tier) : Expr → List Lexeme
  | .literal _ l => [l.unplaced]
  | .list xs _ => inBraces (separated (Expr.writeAll xs))
  | .variable name is _ => .ofName name :: Expr.writeIndices is
  | .unary op x _ => .ofSymbol op.symbol :: x.write .unary
  | .binary op x y _ =>
    let operation :=
      x.write (.binary op.level) ++ .ofSymbol op.symbol :: y.write (.operand op.level)
    if tier.admits op then operation else inParens operation
  | .cast t x _ => inParens t.write ++ x.write .unary
  | .call name xs _ => .ofName name :: inParens (separated (Expr.writeAll xs))

/-- Expressions as they are written. -/
def Expr.writeAll : List Expr → List (List Lexeme)
  | [] => []
  | x :: xs => x.write .expression :: Expr.writeAll xs

/-- Indices as they are written. -/
def Expr.writeIndices : List (Option Expr) → List Lexeme
  | [] => []
  | none :: is => enclosed .leftBracket .rightBracket [] ++ Expr.writeIndices is
  | some i :: is =>
    enclosed .leftBracket .rightBracket (i.write .expression) ++ Expr.writeIndices is

end

/-! ## Statements -/

/-- What is written of something that can be absent. -/
def writeOptional {α : Type} (write : α → List Lexeme) : Option α → List Lexeme
  | none => []
  | some x => write x

/-- A place as it is written. -/
def Place.write (p : Place) : List Lexeme := .ofName p.name :: Expr.writeIndices p.indices

/-- A call as it is written. -/
def Call.write (c : Call) : List Lexeme :=
  .ofName c.name :: inParens (separated (Expr.writeAll c.arguments))

/-- A declaration as it is written. -/
def Declaration.write (d : Declaration) : List Lexeme :=
  d.type.write ++ (d.target.write ++
    writeOptional (fun x => .ofSymbol .assign :: x.write .expression) d.initial)

/-- A simple statement as it is written. -/
def SimpleStatement.write : SimpleStatement → List Lexeme
  | .declaration d => d.write
  | .assignment target op x _ => target.write ++ (op.write ++ x.write .expression)
  | .call c => c.write

/-- A condition as it is written. -/
def Expr.writeCondition (c : Expr) : List Lexeme := inParens (c.write .expression)

mutual

/-- A statement as it is written.  The branches of an `if` are a chain with `else` in between. -/
def Statement.write : Statement → List Lexeme
  | .empty => [.ofSymbol .semicolon]
  | .simple s => s.write ++ [.ofSymbol .semicolon]
  | .block body _ => inBraces (Statement.writeAll body)
  | .ifElse branches otherwise _ =>
    separatedBy (.ofKeyword .else)
      (Statement.writeBranches branches ++ Statement.writeOtherwise otherwise)
  | .forLoop first c step body _ =>
    .ofKeyword .for ::
      (inParens (writeOptional SimpleStatement.write first ++ .ofSymbol .semicolon ::
        (c.write .expression ++ .ofSymbol .semicolon :: writeOptional SimpleStatement.write step))
        ++ body.write)
  | .whileLoop c body _ => .ofKeyword .while :: (c.writeCondition ++ body.write)
  | .doWhile body c _ =>
    .ofKeyword .do ::
      (body.write ++ .ofKeyword .while :: (c.writeCondition ++ [.ofSymbol .semicolon]))
  | .breakLoop _ => [.ofKeyword .break, .ofSymbol .semicolon]
  | .continueLoop _ => [.ofKeyword .continue, .ofSymbol .semicolon]
  | .returnValue x _ =>
    .ofKeyword .return :: (writeOptional (Expr.write .expression) x ++ [.ofSymbol .semicolon])

/-- Statements as they are written. -/
def Statement.writeAll : List Statement → List Lexeme
  | [] => []
  | s :: body => s.write ++ Statement.writeAll body

/-- The branches of an `if` as they are written. -/
def Statement.writeBranches : List (Expr × Statement) → List (List Lexeme)
  | [] => []
  | (c, s) :: branches =>
    (.ofKeyword .if :: (c.writeCondition ++ s.write)) :: Statement.writeBranches branches

/-- The last branch of an `if` as it is written. -/
def Statement.writeOtherwise : Option Statement → List (List Lexeme)
  | none => []
  | some s => [s.write]

end

/-! ## Programs -/

/-- Pairs of empty brackets. -/
def writeDims : Nat → List Lexeme
  | 0 => []
  | n + 1 => enclosed .leftBracket .rightBracket [] ++ writeDims n

/-- A parameter as it is written. -/
def Parameter.write (x : Parameter) : List Lexeme :=
  x.type.write ++ .ofName x.name :: writeDims x.dims

/-- A body as it is written. -/
def FunctionBody.write : FunctionBody → List Lexeme
  | .block body _ => inBraces (Statement.writeAll body)
  | .builtin _ => []

/-- A function as it is written. -/
def FunctionDecl.write (f : FunctionDecl) : List Lexeme :=
  f.returns.write ++ .ofName f.name ::
    (writeDims f.returnDims ++ (inParens (separated (f.parameters.map Parameter.write)) ++
      f.body.write))

/-- An item as it is written. -/
def Item.write : Item → List Lexeme
  | .function f => f.write
  | .global d => d.write ++ [.ofSymbol .semicolon]

/-- A program as lexemes. -/
def Program.write (p : Program) : List Lexeme := p.items.flatMap Item.write

/-- A program as a source text. -/
def Program.print (p : Program) : String :=
  " ".intercalate (p.write.map Lexeme.literal)

example : Expr.write .expression
    (.binary .mul (.binary .add (.variable "a" [] .absent) (.variable "b" [] .absent) .absent)
      (.unary .negate (.variable "c" [] .absent) .absent) .absent) =
    inParens [.ofName "a", .ofSymbol .plus, .ofName "b"] ++
      [.ofSymbol .star, .ofSymbol .minus, .ofName "c"] := rfl

end MiniC
