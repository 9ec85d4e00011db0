import MiniC.Lexeme.Scan

/-!
# Reading on demand

A lexer reads the next lexeme of a source text when it is asked for one.  It keeps no place: only
how far it has come, in bytes, and the line it is on, by its number and by the offset at which the
line begins.  Where a lexeme stands is worked out from these after it was read.
-/

namespace MiniC

namespace Text

/-! ## Offsets in bytes -/

/-- How many bytes some characters take. -/
def byteLength : List Char → Nat
  | [] => 0
  | c :: cs => c.utf8Size + byteLength cs

/-- The characters at the front of a text that take a number of bytes. -/
def takeBytes : Nat → List Char → List Char
  | 0, _ => []
  | _ + 1, [] => []
  | n + 1, c :: cs => c :: takeBytes (n + 1 - c.utf8Size) cs

/-- The characters behind a number of bytes. -/
def dropBytes : Nat → List Char → List Char
  | 0, cs => cs
  | _ + 1, [] => []
  | n + 1, c :: cs => dropBytes (n + 1 - c.utf8Size) cs

/-- The characters behind the last line break. -/
def lastLine (cs : List Char) : List Char :=
  (cs.reverse.takeWhile (· ≠ '\n')).reverse

end Text

/-- The line that a lexer is on: its number, and the offset at which it begins. -/
structure LineMark where
  line : Nat
  start : Nat
deriving DecidableEq

namespace LineMark

/-- The first line. -/
def first : LineMark := ⟨1, 0⟩

/-- Every line break of a text that begins at an offset opens a line. -/
def through (m : LineMark) (offset : Nat) : List Char → LineMark
  | [] => m
  | c :: cs =>
    (if c = '\n' then ⟨m.line + 1, offset + 1⟩ else m).through (offset + c.utf8Size) cs

/-- The place of an offset.  A string literal moves the mark past its own beginning if it spans
lines; then the line breaks before the offset are counted instead. -/
def place (m : LineMark) (source : List Char) (offset : Nat) : Position :=
  if offset < m.start then
    let before := Text.takeBytes offset source
    ⟨before.count '\n' + 1, (Text.lastLine before).length + 1⟩
  else
    ⟨m.line, (Text.takeBytes (offset - m.start) (Text.dropBytes m.start source)).length + 1⟩

end LineMark

/-- The line behind a piece at an offset.  Line breaks in layout and in string literals open lines;
those of a string literal without an end do not. -/
def Piece.mark (m : LineMark) (offset : Nat) (piece : Piece) : LineMark :=
  match piece.role with
  | .layout | .token (.stringLiteral _) => m.through offset piece.text
  | .token _ | .rejected _ => m

/-- A source text that is read from the front, and how far it was read. -/
structure Lexer where
  source : List Char
  rest : List Char
  offset : Nat
  mark : LineMark

namespace Lexer

/-- The lexer at the beginning of a source text. -/
def ofSource (source : List Char) : Lexer := ⟨source, source, 0, .first⟩

/-- The lexer behind the piece at its front. -/
def behind (x : Lexer) (piece : Piece) : Lexer :=
  { x with
    rest := x.rest.drop piece.text.length
    offset := x.offset + Text.byteLength piece.text
    mark := piece.mark x.mark x.offset }

/-- Reads the next lexeme or lexical error; nothing is left at the end of the source text. -/
def next (x : Lexer) : Option (Except LexicalError Lexeme) × Lexer :=
  match _hrest : x.rest with
  | [] => (none, x)
  | c :: cs =>
    let (role, more) := Piece.classify c cs
    let text := c :: cs.take more
    let y := x.behind ⟨role, text⟩
    match role with
    | .layout => y.next
    | .token t => (some (.ok ⟨t, String.ofList text, y.mark.place x.source x.offset⟩), y)
    | .rejected reason =>
      (some (.error ⟨reason, String.ofList text, y.mark.place x.source x.offset⟩), y)
termination_by x.rest.length
decreasing_by
  simp only [behind, _hrest, List.length_drop, List.length_cons]
  omega

/-- The end of the source text, on the line that the lexer is on. -/
def endOfInput (x : Lexer) : Lexeme :=
  .endOfInput ⟨x.mark.line, (Text.dropBytes x.mark.start x.source).length + 1⟩

end Lexer

end MiniC
