import MiniC.Parse.Expr

/-!
# Parsing statements

Simple statements (declarations, assignments, calls) end at a semicolon or stand in the header of a
`for` loop; the other statements begin with a keyword, a brace or a semicolon.  An `else` belongs to
the nearest open `if`, and an `if` after it goes on with the same chain.
-/

namespace MiniC.Parse

/-- A type, a name with its dimensions, and an initial value after `=`. -/
def declaration (stop : Stop) (ts : List Lexeme) : Parsed ts.length Declaration :=
  (valueType stop ts).andThen fun type rest _ =>
    (place stop rest).followedBy fun target rest' _ =>
      (optionalAfter stop (.symbol .assign) rest' (expression stop)).map (⟨type, target, ·⟩)

/-- The operator of an assignment. -/
def assignOp (stop : Stop) (ts : List Lexeme) : Parsed ts.length (AssignOp × Lexeme) :=
  match ts with
  | [] => refuse stop .assignOp
  | l :: rest =>
    match AssignOp.ofKind? l.kind with
    | some op => .leaving (op, l) rest
    | none => .error (.unexpected l .assignOp) rest

/-- A place, an assignment operator and the value. -/
def assignment (stop : Stop) (ts : List Lexeme) : Parsed ts.length SimpleStatement :=
  (place stop ts).andThen fun target rest _ =>
    (assignOp stop rest).andThen fun (op, l) rest' _ =>
      (expression stop rest').map (.assignment target op · l)

/-- A declaration, an assignment or a call.  A name is called if a parenthesis follows it. -/
def simpleStatement (stop : Stop) (ts : List Lexeme) : Parsed ts.length SimpleStatement :=
  match ts with
  | [] => refuse stop .statement
  | l :: rest =>
    if l.kind = .identifier then
      match currentKind stop rest with
      | .error e => .error (.lexical e) (l :: rest)
      | .ok next =>
        if next = .symbol .leftParen then (call stop (l :: rest)).map .call
        else assignment stop (l :: rest)
    else if l.kind.isValueType then
      (declaration stop (l :: rest)).map .declaration
    else
      .error (.unexpected l .statement) rest

/-- A simple statement unless the symbol that ends the place for it follows at once. -/
def optionalSimple (stop : Stop) (closing : Symbol) (ts : List Lexeme) :
    Parsed ts.length (Option SimpleStatement) :=
  ifNext stop (.symbol closing) ts
    (fun rest _ => .leaving none rest)
    (fun _ => (simpleStatement stop ts).andThen fun s rest _ =>
      (eat stop (.symbol closing) rest).map fun _ => some s)

/-- An expression in parentheses, as a condition. -/
def condition (stop : Stop) (ts : List Lexeme) : Parsed ts.length Expr :=
  parenthesized stop ts

/-- A keyword and a semicolon. -/
def jump (stop : Stop) (k : Keyword) (ts : List Lexeme) : Parsed ts.length Lexeme :=
  (eat stop (.keyword k) ts).andThen fun l rest _ =>
    (eat stop (.symbol .semicolon) rest).map fun _ => l

/-- `return` with or without a value. -/
def returnValue (stop : Stop) (ts : List Lexeme) : Parsed ts.length Statement :=
  (eat stop (.keyword .return) ts).andThen fun l rest _ =>
    ifNext stop (.symbol .semicolon) rest
      (fun rest' _ => .leaving (.returnValue none l) rest')
      (fun _ => (expression stop rest).andThen fun x rest' _ =>
        (eat stop (.symbol .semicolon) rest').map fun _ => .returnValue (some x) l)

mutual

/-- A statement. -/
def statement (stop : Stop) (ts : List Lexeme) : Parsed ts.length Statement :=
  match ts with
  | [] => refuse stop .statement
  | l :: rest =>
    match l.kind with
    | .symbol .leftBrace => (block stop (l :: rest)).map fun (body, l) => .block body l
    | .keyword .if => ifElse stop (l :: rest)
    | .keyword .for => forLoop stop (l :: rest)
    | .keyword .while => whileLoop stop (l :: rest)
    | .keyword .do => doWhile stop (l :: rest)
    | .keyword .break => (jump stop .break (l :: rest)).map .breakLoop
    | .keyword .continue => (jump stop .continue (l :: rest)).map .continueLoop
    | .keyword .return => returnValue stop (l :: rest)
    | .symbol .semicolon => .leaving .empty rest
    | _ =>
      (simpleStatement stop (l :: rest)).andThen fun s rest' _ =>
        (eat stop (.symbol .semicolon) rest').map fun _ => .simple s
termination_by 4 * ts.length + 1
decreasing_by all_goals simp only [List.length_cons]; omega

/-- Statements in braces, with the opening brace. -/
def block (stop : Stop) (ts : List Lexeme) : Parsed ts.length (List Statement × Lexeme) :=
  (eat stop (.symbol .leftBrace) ts).andThen fun l rest _ =>
    (statements stop rest).map (·, l)
termination_by 4 * ts.length
decreasing_by all_goals omega

/-- Statements through a closing brace. -/
def statements (stop : Stop) (ts : List Lexeme) : Parsed ts.length (List Statement) :=
  match ts with
  | [] => refuse stop (.kind (.symbol .rightBrace))
  | l :: rest =>
    if l.kind = .symbol .rightBrace then
      .leaving [] rest
    else
      (statement stop (l :: rest)).andThen fun s rest' _ =>
        (statements stop rest').map (s :: ·)
termination_by 4 * ts.length + 2
decreasing_by all_goals simp only [List.length_cons] at *; omega

/-- A condition in parentheses and the statement it guards. -/
def branch (stop : Stop) (ts : List Lexeme) : Parsed ts.length (Expr × Statement) :=
  (condition stop ts).andThen fun c rest _ =>
    (statement stop rest).map (c, ·)
termination_by 4 * ts.length + 2
decreasing_by all_goals omega

/-- `if` with its chain of branches. -/
def ifElse (stop : Stop) (ts : List Lexeme) : Parsed ts.length Statement :=
  (eat stop (.keyword .if) ts).andThen fun l rest _ =>
    (branch stop rest).followedBy fun first rest' _ =>
      (elseChain stop rest').map fun (more, otherwise) => .ifElse (first :: more) otherwise l
termination_by 4 * ts.length
decreasing_by all_goals omega

/-- The `else if` branches that follow, and the `else` branch. -/
def elseChain (stop : Stop) (ts : List Lexeme) :
    Parsed (ts.length + 1) (List (Expr × Statement) × Option Statement) :=
  match ts with
  | [] => atEnd stop (.leaving ([], none) [])
  | l :: rest =>
    if l.kind = .keyword .else then
      (ifNext stop (.keyword .if) rest
        (fun rest' _ =>
          ((branch stop rest').followedBy fun b rest'' _ =>
            (elseChain stop rest'').map fun (more, otherwise) => (b :: more, otherwise)).relax)
        (fun _ => (statement stop rest).map fun s => ([], some s))).relax.relax
    else
      .leaving ([], none) (l :: rest)
termination_by 4 * ts.length + 3
decreasing_by all_goals simp only [List.length_cons]; omega

/-- `for` with its header and body. -/
def forLoop (stop : Stop) (ts : List Lexeme) : Parsed ts.length Statement :=
  (eat stop (.keyword .for) ts).andThen fun l rest _ =>
    (eat stop (.symbol .leftParen) rest).andThen fun _ rest _ =>
      (optionalSimple stop .semicolon rest).andThen fun first rest _ =>
        (expression stop rest).andThen fun c rest _ =>
          (eat stop (.symbol .semicolon) rest).andThen fun _ rest _ =>
            (optionalSimple stop .rightParen rest).andThen fun step rest _ =>
              (statement stop rest).map (.forLoop first c step · l)
termination_by 4 * ts.length
decreasing_by all_goals omega

/-- `while` with its condition and body. -/
def whileLoop (stop : Stop) (ts : List Lexeme) : Parsed ts.length Statement :=
  (eat stop (.keyword .while) ts).andThen fun l rest _ =>
    (branch stop rest).map fun (c, body) => .whileLoop c body l
termination_by 4 * ts.length
decreasing_by all_goals omega

/-- `do` with its body and condition. -/
def doWhile (stop : Stop) (ts : List Lexeme) : Parsed ts.length Statement :=
  (eat stop (.keyword .do) ts).andThen fun l rest _ =>
    (statement stop rest).andThen fun body rest _ =>
      (eat stop (.keyword .while) rest).andThen fun _ rest _ =>
        (condition stop rest).andThen fun c rest _ =>
          (eat stop (.symbol .semicolon) rest).map fun _ => .doWhile body c l
termination_by 4 * ts.length
decreasing_by all_goals omega

end

end MiniC.Parse
