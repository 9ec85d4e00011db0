import MiniC.Position
import MiniC.Token

/-!
# Lexemes

A lexeme is a token with its spelling and the place of its first character.  A piece of source text
that is no lexeme is a lexical error.
-/

namespace MiniC

/-- A token as it stands in a source text. -/
structure Lexeme where
  token : Token
  /-- The source text, with the quotes of a string literal. -/
  literal : String
  position : Position
deriving Inhabited

namespace Lexeme

/-- The lexeme of what has no place in a source text. -/
def absent : Lexeme := ⟨.endOfInput, "", .nowhere⟩

/-- The end of a source text. -/
def endOfInput (p : Position) : Lexeme := ⟨.endOfInput, "", p⟩

/-- The category of a lexeme. -/
def kind (l : Lexeme) : TokenKind := l.token.kind

/-- How errors refer to a lexeme. -/
def describe (l : Lexeme) : String :=
  if l.kind = .endOfInput then "end of input at " ++ l.position.render
  else "'" ++ l.literal ++ "' at " ++ l.position.render

/-- Equal tokens with equal spellings at one place. -/
def same (a b : Lexeme) : Bool :=
  a.token.same b.token && a.literal == b.literal && a.position == b.position

end Lexeme

/-- Why a piece of source text is no lexeme. -/
inductive Rejection
  /-- No lexeme begins with this character, or a string literal has no end. -/
  | unrecognized
  /-- An integer literal is no 64-bit integer. -/
  | outOfRange
deriving DecidableEq

/-- A piece of source text that is no lexeme. -/
structure LexicalError where
  reason : Rejection
  text : String
  position : Position
deriving DecidableEq

/-- The text of a lexical error. -/
def LexicalError.message (e : LexicalError) : String :=
  "Error at " ++ e.position.render ++ ": " ++
    match e.reason with
    | .unrecognized => "unrecognized character '" ++ e.text ++ "'"
    | .outOfRange => "integer literal " ++ e.text ++ " is out of range"

end MiniC
