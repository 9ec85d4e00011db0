import MiniC.Lexeme
import MiniC.Decimal.Read

/-!
# Scanning

A source text is cut into pieces, one after the other: layout (blanks, line breaks, comments),
lexemes and rejected text.  `classify` decides what the first piece is and how long it is; `pieces`
cuts, and `text_pieces` says that the pieces put together are the source text.
-/

namespace MiniC

/-- What a piece of source text is. -/
inductive Role
  | layout
  | token (token : Token)
  | rejected (reason : Rejection)

/-- A piece of source text. -/
structure Piece where
  role : Role
  text : List Char

namespace Piece

/-- Blanks and line breaks. -/
def isSpace (c : Char) : Bool :=
  c = ' ' || c = '\t' || c = '\r' || c = '\x0c' || c = '\n'

/-- The characters that a name can begin with. -/
def startsName (c : Char) : Bool := c.isAlpha || c = '_'

/-- The characters that a name can go on with. -/
def continuesName (c : Char) : Bool := c.isAlphanum || c = '_'

/-- How many characters at the front of a text satisfy a predicate. -/
def run (p : Char → Bool) (cs : List Char) : Nat := (cs.takeWhile p).length

/-- The length of a block comment after its opening: through the first `*/`, or all that is left. -/
def blockComment : List Char → Nat
  | [] => 0
  | '*' :: '/' :: _ => 2
  | _ :: rest => blockComment rest + 1

/-- A word is a reserved word or a name. -/
def wordToken (word : String) : Token :=
  match Keyword.ofText? word with
  | some k => .keyword k
  | none => .identifier word

/-- A numeral is an integer literal if it is in range. -/
def integerRole (ds : List Char) : Role :=
  match Decimal.readInt? ds with
  | some n => .token (.intLiteral n)
  | none => .rejected .outOfRange

/-- A piece that begins with the digit `c`: a point after the digits makes a float literal. -/
def classifyNumber (c : Char) (rest : List Char) : Role × Nat :=
  let more := run Char.isDigit rest
  let whole := c :: rest.take more
  match rest.drop more with
  | '.' :: after =>
    let fraction := run Char.isDigit after
    (.token (.floatLiteral (Decimal.readPoint whole (after.take fraction) 0)), more + 1 + fraction)
  | _ => (integerRole whole, more)

/-- A piece that begins with a double quote: a string literal through the next quote.  Without one
all that is left is rejected. -/
def classifyQuoted (rest : List Char) : Role × Nat :=
  let length := run (· ≠ '\"') rest
  if length < rest.length then
    (.token (.stringLiteral (String.ofList (rest.take length))), length + 1)
  else
    (.rejected .unrecognized, length)

/-- A piece that begins with none of the characters of spaces, numbers, strings, names and
comments. -/
def classifySymbol (c : Char) (rest : List Char) : Role × Nat :=
  match Symbol.read? (c :: rest) with
  | some s => (.token (.symbol s), s.chars.length - 1)
  | none => (.rejected .unrecognized, 0)

/-- The role of the piece at the front of a text, and how many characters it has after its first
one. -/
def classify (c : Char) (rest : List Char) : Role × Nat :=
  if isSpace c then (.layout, run isSpace rest)
  else if c.isDigit then classifyNumber c rest
  else if c = '\"' then classifyQuoted rest
  else if startsName c then
    let more := run continuesName rest
    (.token (wordToken (String.ofList (c :: rest.take more))), more)
  else
    match c, rest with
    | '/', '/' :: after => (.layout, run (· ≠ '\n') after + 1)
    | '/', '*' :: after => (.layout, blockComment after + 1)
    | _, _ => classifySymbol c rest

end Piece

/-- A source text as pieces. -/
def pieces : List Char → List Piece
  | [] => []
  | c :: rest =>
    let (role, more) := Piece.classify c rest
    ⟨role, c :: rest.take more⟩ :: pieces (rest.drop more)
termination_by cs => cs.length
decreasing_by simp only [List.length_drop, List.length_cons]; omega

/-- The place after a piece.  Line breaks in a string literal without an end open no line. -/
def Piece.after (p : Position) (piece : Piece) : Position :=
  match piece.role with
  | .rejected _ => p.advanceInLine piece.text
  | _ => p.advance piece.text

/-- Pieces with the places they begin at. -/
def placed (p : Position) : List Piece → List (Position × Piece)
  | [] => []
  | piece :: rest => (p, piece) :: placed (piece.after p) rest

/-- What reading a source text lexeme by lexeme delivers at a piece; nothing for layout. -/
def Piece.entry? (p : Position) (piece : Piece) : Option (Except LexicalError Lexeme) :=
  match piece.role with
  | .layout => none
  | .token t => some (.ok ⟨t, String.ofList piece.text, p⟩)
  | .rejected reason => some (.error ⟨reason, String.ofList piece.text, p⟩)

/-- What reading a source text lexeme by lexeme delivers, the end of input left out. -/
def entries (source : List Char) : List (Except LexicalError Lexeme) :=
  (placed .start (pieces source)).filterMap fun (p, piece) => piece.entry? p

/-- The end of a source text. -/
def endOf (source : List Char) : Lexeme :=
  .endOfInput ((pieces source).foldl Piece.after .start)

theorem pieces_cons (c : Char) (rest : List Char) :
    pieces (c :: rest) =
      ⟨(Piece.classify c rest).1, c :: rest.take (Piece.classify c rest).2⟩ ::
        pieces (rest.drop (Piece.classify c rest).2) := by
  rw [pieces]

/-- No character of a source text is lost or used twice. -/
theorem text_pieces (source : List Char) : (pieces source).flatMap Piece.text = source := by
  induction h : source.length using Nat.strongRecOn generalizing source with
  | ind n ih =>
    match source, h with
    | [], _ => rw [pieces]; rfl
    | c :: rest, h =>
      rw [pieces_cons, List.flatMap_cons,
        ih (rest.drop (Piece.classify c rest).2).length
          (by simp only [List.length_drop, ← h, List.length_cons]; omega) _ rfl,
        List.cons_append, List.take_append_drop]

end MiniC
