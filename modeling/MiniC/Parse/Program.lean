import MiniC.Parse.Statement

/-!
# Parsing programs

A program is a sequence of functions and global declarations.  Both begin with a type and a name
with brackets; what follows the brackets tells them apart.  `Program.ofSource` reads a whole source
text, `Stream.parse` a single construct at the front of a stream.
-/

namespace MiniC.Parse

/-- A parameter.  What stands in its brackets is only counted. -/
def parameter (stop : Stop) (ts : List Lexeme) : Parsed ts.length Parameter :=
  (valueType stop ts).andThen fun type rest _ =>
    (place stop rest).map fun p => ⟨type, p.name, p.indices.length, p.lexeme⟩

/-- The name of the type that a function returns. -/
def returnType (stop : Stop) (ts : List Lexeme) : Parsed ts.length TypeName :=
  match ts with
  | [] => refuse stop .returnType
  | l :: rest =>
    match TypeName.ofKind? l.kind with
    | some type => .leaving type rest
    | none => .error (.unexpected l .returnType) rest

/-- A function: return type, name, parameters in parentheses, and a block. -/
def function (stop : Stop) (ts : List Lexeme) : Parsed ts.length FunctionDecl :=
  (returnType stop ts).andThen fun returns rest _ =>
    (place stop rest).andThen fun name rest _ =>
      (eat stop (.symbol .leftParen) rest).andThen fun _ rest _ =>
        (commaSeparated stop .rightParen rest fun us _ => parameter stop us).andThen
          fun parameters rest _ =>
            (block stop rest).map fun (body, l) =>
              { returns, name := name.name, returnDims := name.indices.length, parameters,
                body := .block body l, lexeme := name.lexeme }

/-- The lexemes after the bracket groups that a text begins with; `depth` brackets are open.  A
group without an end goes on to the end. -/
def afterBrackets (depth : Nat) (ts : List Lexeme) : List Lexeme :=
  match depth, ts with
  | _, [] => []
  | 0, l :: rest => if l.kind = .symbol .leftBracket then afterBrackets 1 rest else l :: rest
  | depth + 1, l :: rest =>
    if l.kind = .symbol .leftBracket then afterBrackets (depth + 2) rest
    else if l.kind = .symbol .rightBracket then afterBrackets depth rest
    else afterBrackets (depth + 1) rest

/-- A global declaration with its semicolon. -/
def global (stop : Stop) (ts : List Lexeme) : Parsed ts.length Declaration :=
  (declaration stop ts).andThen fun d rest _ =>
    (eat stop (.symbol .semicolon) rest).map fun _ => d

/-- An item.  It is a function if a parenthesis follows the type, the name and its brackets. -/
def item (stop : Stop) (ts : List Lexeme) : Parsed ts.length Item :=
  match currentKind stop (afterBrackets 0 (ts.drop 2)) with
  | .error e => .error (.lexical e) ts
  | .ok next =>
    if next = .symbol .leftParen then (function stop ts).map .function
    else (global stop ts).map .global

/-- Items up to the end of input. -/
def items (stop : Stop) (ts : List Lexeme) : Parsed (ts.length + 1) (List Item) :=
  match ts with
  | [] => atEnd stop (.leaving [] [])
  | l :: rest =>
    ((item stop (l :: rest)).followedBy fun i rest' _ =>
      (items stop rest').map (i :: ·)).relax
termination_by ts.length
decreasing_by assumption

end MiniC.Parse

namespace MiniC

/-- A parser of one construct. -/
abbrev Parser (α : Type) := Stop → (ts : List Lexeme) → Parsed (ts.length + 1) α

/-- A parser that consumes at least one lexeme. -/
def Parser.consuming (p : Stop → (ts : List Lexeme) → Parsed ts.length α) : Parser α :=
  fun stop ts => (p stop ts).relax

namespace Stream

/-- The lexemes that some entries begin with. -/
def leadingLexemes : List (Except LexicalError Lexeme) → List Lexeme
  | .ok l :: rest => l :: leadingLexemes rest
  | _ => []

/-- The lexemes before the first lexical error, or all of them. -/
def readable (s : Stream) : List Lexeme := leadingLexemes s.entries

/-- What is left from the first lexical error on. -/
def unreadable (s : Stream) : List (Except LexicalError Lexeme) :=
  s.entries.drop s.readable.length

/-- What stands after the readable lexemes. -/
def stop (s : Stream) : Stop :=
  match s.unreadable with
  | .error e :: _ => .error e
  | _ => .ok s.last

/-- The stream after a parser has left some of the readable lexemes. -/
def afterParsing (s : Stream) (p : Parsed n α) : Stream :=
  match p with
  | .error (.lexical _) rest => { s with entries := rest.map .ok ++ s.unreadable.drop 1 }
  | .error (.unexpected _ _) rest | .ok _ rest _ =>
    { s with entries := rest.map .ok ++ s.unreadable }

/-- Parses one construct at the front of a stream. -/
def parse (s : Stream) (p : Parser α) : Except SyntaxError α × Stream :=
  let parsed := p s.stop s.readable
  (parsed.outcome, s.afterParsing parsed)

end Stream

/-- The program that a stream holds. -/
def Program.parse (s : Stream) : Except SyntaxError Program × Stream :=
  match s.parse Parse.items with
  | (.ok items, rest) => (.ok ⟨items⟩, rest)
  | (.error e, rest) => (.error e, rest)

/-- The program that a source text holds. -/
def Program.ofSource (source : String) : Except SyntaxError Program :=
  (Program.parse (.ofSource source)).1

end MiniC
