import MiniC.Lexeme.Stream
import MiniC.Syntax.Tree

/-!
# Parsing: results and small parsers

A parser works on the lexemes up to the end of input or the first lexical error, whichever comes
first; `stop` is what stands there.  What it returns on success has fewer lexemes left than it was
given, so parsers that call each other end.  A parser that meets an unexpected lexeme has consumed
it.
-/

namespace MiniC

/-- What the grammar asks for where an unexpected lexeme stands. -/
inductive Expected
  | kind (k : TokenKind)
  | expression
  | statement
  | returnType
  | assignOp
  | valueType
  /-- A comma, or the symbol that ends a list. -/
  | commaOr (closing : Symbol)
deriving DecidableEq

/-- How syntax errors name what is asked for. -/
def Expected.describe : Expected → String
  | .kind k => k.describe
  | .expression => "expression"
  | .statement => "statement"
  | .returnType => "return type"
  | .assignOp => "assignment operator"
  | .valueType => "'int', 'float' or 'string'"
  | .commaOr closing => "',' or " ++ (TokenKind.symbol closing).describe

/-- Why a source text is no program. -/
inductive SyntaxError
  | lexical (e : LexicalError)
  | unexpected (found : Lexeme) (expected : Expected)

/-- The text of a syntax error. -/
def SyntaxError.message : SyntaxError → String
  | .lexical e => e.message
  | .unexpected found expected =>
    "Error near " ++ found.describe ++ ": unexpected " ++ found.kind.describe ++ ", expected "
      ++ expected.describe

/-- What stands after the last lexeme: the end of input, or a lexical error. -/
abbrev Stop := Except LexicalError Lexeme

/-- What a parser makes of fewer than `bound` lexemes. -/
inductive Parsed (bound : Nat) (α : Type)
  | ok (value : α) (rest : List Lexeme) (shorter : rest.length < bound)
  | error (e : SyntaxError) (rest : List Lexeme)

namespace Parsed

/-- A value, with some lexemes left. -/
@[inline] def leaving (value : α) (rest : List Lexeme) : Parsed (rest.length + 1) α :=
  .ok value rest (Nat.lt_succ_self _)

/-- Forgets that one lexeme was consumed. -/
@[inline] def relax (p : Parsed n α) : Parsed (n + 1) α :=
  match p with
  | .ok value rest shorter => .ok value rest (Nat.lt_succ_of_lt shorter)
  | .error e rest => .error e rest

/-- Goes on after a success with a parser that can leave everything. -/
@[inline] def followedBy (p : Parsed n α)
    (next : α → (rest : List Lexeme) → rest.length < n → Parsed (rest.length + 1) β) :
    Parsed n β :=
  match p with
  | .error e rest => .error e rest
  | .ok value rest shorter =>
    match next value rest shorter with
    | .error e left => .error e left
    | .ok value' left noLonger => .ok value' left (by omega)

/-- Goes on after a success with a parser that consumes. -/
@[inline] def andThen (p : Parsed n α)
    (next : α → (rest : List Lexeme) → rest.length < n → Parsed rest.length β) : Parsed n β :=
  p.followedBy fun value rest shorter => (next value rest shorter).relax

/-- Changes the value. -/
@[inline] def map (p : Parsed n α) (f : α → β) : Parsed n β :=
  match p with
  | .ok value rest shorter => .ok (f value) rest shorter
  | .error e rest => .error e rest

/-- The outcome without the rest. -/
def outcome : Parsed n α → Except SyntaxError α
  | .ok value _ _ => .ok value
  | .error e _ => .error e

/-- The lexemes that are left. -/
def left : Parsed n α → List Lexeme
  | .ok _ rest _ => rest
  | .error _ rest => rest

end Parsed

namespace Parse

/-- Fails at the stop: with the lexical error that stands there, or at the end of input. -/
def refuse (stop : Stop) (expected : Expected) : Parsed n α :=
  match stop with
  | .error e => .error (.lexical e) []
  | .ok last => .error (.unexpected last expected) []

/-- Goes on at the stop if it is the end of input. -/
def atEnd (stop : Stop) (next : Parsed n α) : Parsed n α :=
  match stop with
  | .error e => .error (.lexical e) []
  | .ok _ => next

/-- The category of the current lexeme. -/
def currentKind (stop : Stop) (ts : List Lexeme) : Except LexicalError TokenKind :=
  match ts with
  | l :: _ => .ok l.kind
  | [] => stop.map Lexeme.kind

/-- Consumes the current lexeme and goes on with `yes` if it is of a category, and with `no`
otherwise. -/
@[inline] def ifNext (stop : Stop) (k : TokenKind) (ts : List Lexeme)
    (yes : (rest : List Lexeme) → rest.length < ts.length → Parsed (rest.length + 1) α)
    (no : Unit → Parsed ts.length α) : Parsed ts.length α :=
  match ts, stop, yes, no with
  | [], .error e, _, _ => .error (.lexical e) []
  | [], .ok _, _, no => no ()
  | l :: rest, _, yes, no => if l.kind = k then yes rest (Nat.lt_succ_self _) else no ()

/-- What follows a lexeme of a category, if the current one is of it. -/
@[inline] def optionalAfter (stop : Stop) (k : TokenKind) (ts : List Lexeme)
    (following : (rest : List Lexeme) → Parsed rest.length α) :
    Parsed (ts.length + 1) (Option α) :=
  match ts with
  | [] => atEnd stop (.leaving none [])
  | l :: rest =>
    if l.kind = k then ((following rest).map some).relax.relax else .leaving none (l :: rest)

/-- One lexeme of a category. -/
def eat (stop : Stop) (k : TokenKind) (ts : List Lexeme) : Parsed ts.length Lexeme :=
  match ts with
  | [] => refuse stop (.kind k)
  | l :: rest =>
    if l.kind = k then .leaving l rest else .error (.unexpected l (.kind k)) rest

/-- A name. -/
def identifier (stop : Stop) (ts : List Lexeme) : Parsed ts.length (String × Lexeme) :=
  match ts with
  | [] => refuse stop (.kind .identifier)
  | l :: rest =>
    match l.token with
    | .identifier name => .leaving (name, l) rest
    | _ => .error (.unexpected l (.kind .identifier)) rest

/-- The name of a type that a variable can have. -/
def valueType (stop : Stop) (ts : List Lexeme) : Parsed ts.length TypeName :=
  match ts with
  | [] => refuse stop .valueType
  | l :: rest =>
    match TypeName.ofKind? l.kind with
    | some type =>
      if type = .void then .error (.unexpected l .valueType) rest
      else .leaving type rest
    | none => .error (.unexpected l .valueType) rest

/-- The items of a list from one item on, separated by commas, through the closing symbol. -/
def itemsFrom (stop : Stop) (closing : Symbol) (ts : List Lexeme)
    (item : (us : List Lexeme) → us.length ≤ ts.length → Parsed us.length α) :
    Parsed ts.length (List α) :=
  (item ts (Nat.le_refl _)).andThen fun value left shorter =>
    match left, shorter with
    | [], _ => refuse stop (.commaOr closing)
    | l :: rest, shorter =>
      have shorter : rest.length < ts.length := Nat.lt_of_succ_lt shorter
      if l.kind = .symbol .comma then
        ((itemsFrom stop closing rest fun us h => item us (by omega)).map (value :: ·)).relax
      else if l.kind = .symbol closing then
        .leaving [value] rest
      else
        .error (.unexpected l (.commaOr closing)) rest
termination_by ts.length
decreasing_by exact shorter

/-- Items separated by commas, none or more, through the closing symbol. -/
def commaSeparated (stop : Stop) (closing : Symbol) (ts : List Lexeme)
    (item : (us : List Lexeme) → us.length ≤ ts.length → Parsed us.length α) :
    Parsed ts.length (List α) :=
  ifNext stop (.symbol closing) ts
    (fun rest _ => .leaving [] rest)
    (fun _ => itemsFrom stop closing ts item)

end Parse

end MiniC
