import MiniC.Parse.Basic

/-!
# Parsing expressions

Binary operators have five levels and associate to the left.  Below them stand the unary operators,
then literals, casts, parentheses, lists, calls and variables with their indices.

The measure of a parser is sixteen times the number of lexemes, plus its rank: the looser it binds
the higher its rank, and a parser that calls a looser one has consumed a lexeme before.
-/

namespace MiniC.Parse

/-- The literal that a token is. -/
def literal? : Token → Option Literal
  | .intLiteral n => some (.int n)
  | .floatLiteral x => some (.float x)
  | .stringLiteral s => some (.string s)
  | _ => none

mutual

/-- Operands of one level with operators of that level between them. -/
def binary (stop : Stop) (level : Level) (ts : List Lexeme) : Parsed ts.length Expr :=
  (operand stop level ts).followedBy fun left rest _ => operators stop level left rest
termination_by 16 * ts.length + (2 * level.looseness + 4)
decreasing_by all_goals omega

/-- An operand of a level: what binds tighter. -/
def operand (stop : Stop) (level : Level) (ts : List Lexeme) : Parsed ts.length Expr :=
  match level with
  | .multiplicative => unary stop ts
  | .additive => binary stop .multiplicative ts
  | .relational => binary stop .additive ts
  | .bitwise => binary stop .relational ts
  | .logical => binary stop .bitwise ts
termination_by 16 * ts.length + (2 * level.looseness + 3)
decreasing_by all_goals simp only [Level.looseness]; omega

/-- Any number of operators of a level with their right operands, after a left operand. -/
def operators (stop : Stop) (level : Level) (left : Expr) (ts : List Lexeme) :
    Parsed (ts.length + 1) Expr :=
  match ts with
  | [] => atEnd stop (.leaving left [])
  | l :: rest =>
    match BinaryOp.ofKind? l.kind with
    | none => .leaving left (l :: rest)
    | some op =>
      if op.level = level then
        ((operand stop level rest).followedBy fun right rest' _ =>
          operators stop level (.binary op left right l) rest').relax.relax
      else
        .leaving left (l :: rest)
termination_by 16 * ts.length + 13
decreasing_by
  all_goals simp only [List.length_cons]
  · cases level <;> simp only [Level.looseness] <;> omega
  · omega

/-- Operators in front of an operand. -/
def unary (stop : Stop) (ts : List Lexeme) : Parsed ts.length Expr :=
  match ts with
  | [] => refuse stop .expression
  | l :: rest =>
    match UnaryOp.ofKind? l.kind with
    | some op => ((unary stop rest).map fun x => .unary op x l).relax
    | none => primary stop (l :: rest)
termination_by 16 * ts.length + 2
decreasing_by all_goals simp only [List.length_cons]; omega

/-- An operand without operators.  A parenthesis opens a cast if the name of a type follows it; a
name is called if a parenthesis follows it. -/
def primary (stop : Stop) (ts : List Lexeme) : Parsed ts.length Expr :=
  match ts with
  | [] => refuse stop .expression
  | l :: rest =>
    match literal? l.token with
    | some v => .leaving (.literal v l) rest
    | none =>
      match l.kind with
      | .symbol .leftParen =>
        match currentKind stop rest with
        | .error e => .error (.lexical e) (l :: rest)
        | .ok next =>
          if (TypeName.ofKind? next).isSome then cast stop (l :: rest)
          else parenthesized stop (l :: rest)
      | .symbol .leftBrace => list stop (l :: rest)
      | .identifier =>
        match currentKind stop rest with
        | .error e => .error (.lexical e) (l :: rest)
        | .ok next =>
          if next = .symbol .leftParen then (call stop (l :: rest)).map Call.expr
          else (place stop (l :: rest)).map Place.read
      | _ => .error (.unexpected l .expression) rest
termination_by 16 * ts.length + 1
decreasing_by all_goals simp only [List.length_cons]; omega

/-- The name of a type in parentheses, and the operand that is cast. -/
def cast (stop : Stop) (ts : List Lexeme) : Parsed ts.length Expr :=
  (eat stop (.symbol .leftParen) ts).andThen fun l rest _ =>
    (valueType stop rest).andThen fun type rest' _ =>
      (eat stop (.symbol .rightParen) rest').andThen fun _ rest'' _ =>
        (unary stop rest'').map (.cast type · l)
termination_by 16 * ts.length
decreasing_by all_goals omega

/-- An expression in parentheses. -/
def parenthesized (stop : Stop) (ts : List Lexeme) : Parsed ts.length Expr :=
  (eat stop (.symbol .leftParen) ts).andThen fun _ rest _ =>
    (binary stop .logical rest).andThen fun inner rest' _ =>
      (eat stop (.symbol .rightParen) rest').map fun _ => inner
termination_by 16 * ts.length
decreasing_by all_goals simp only [Level.looseness]; omega

/-- Expressions in braces. -/
def list (stop : Stop) (ts : List Lexeme) : Parsed ts.length Expr :=
  (eat stop (.symbol .leftBrace) ts).andThen fun l rest _ =>
    (commaSeparated stop .rightBrace rest fun us _ => binary stop .logical us).map (.list · l)
termination_by 16 * ts.length
decreasing_by all_goals simp only [Level.looseness]; omega

/-- A name and its arguments in parentheses. -/
def call (stop : Stop) (ts : List Lexeme) : Parsed ts.length Call :=
  (identifier stop ts).andThen fun (name, l) rest _ =>
    (eat stop (.symbol .leftParen) rest).andThen fun _ rest' _ =>
      (commaSeparated stop .rightParen rest' fun us _ => binary stop .logical us).map
        (⟨name, ·, l⟩)
termination_by 16 * ts.length
decreasing_by all_goals simp only [Level.looseness]; omega

/-- A name and its indices. -/
def place (stop : Stop) (ts : List Lexeme) : Parsed ts.length Place :=
  (identifier stop ts).followedBy fun (name, l) rest _ =>
    (indices stop rest).map (⟨name, ·, l⟩)
termination_by 16 * ts.length
decreasing_by all_goals omega

/-- Any number of indices in brackets; a pair of brackets can be empty. -/
def indices (stop : Stop) (ts : List Lexeme) : Parsed (ts.length + 1) (List (Option Expr)) :=
  match ts with
  | [] => atEnd stop (.leaving [] [])
  | l :: rest =>
    if l.kind = .symbol .leftBracket then
      ((index stop rest).followedBy fun i rest' _ =>
        (indices stop rest').map (i :: ·)).relax.relax
    else
      .leaving [] (l :: rest)
termination_by 16 * ts.length + 13
decreasing_by all_goals simp only [List.length_cons]; omega

/-- An index after its opening bracket, through the closing one. -/
def index (stop : Stop) (ts : List Lexeme) : Parsed ts.length (Option Expr) :=
  ifNext stop (.symbol .rightBracket) ts
    (fun rest _ => .leaving none rest)
    (fun _ => (binary stop .logical ts).andThen fun i rest _ =>
      (eat stop (.symbol .rightBracket) rest).map fun _ => some i)
termination_by 16 * ts.length + 13
decreasing_by all_goals simp only [Level.looseness]; omega

end

/-- An expression. -/
def expression (stop : Stop) (ts : List Lexeme) : Parsed ts.length Expr :=
  binary stop .logical ts

end MiniC.Parse
