import MiniC.Lexeme.Lexer

/-!
# Looking ahead

A lexer with a buffer.  The buffer is filled as far as a call looks, and no further; a lexical error
on the way is reported at once, and what was buffered before it stays.  The end of input is buffered
once it is met and is never taken out.
-/

namespace MiniC

/-- A lexer, and the lexemes that were read and not yet consumed. -/
structure Lookahead where
  lexer : Lexer
  buffer : List Lexeme

namespace Lookahead

/-- Nothing of a source text was read. -/
def ofSource (source : String) : Lookahead := ⟨.ofSource source.toList, []⟩

/-- The buffer ends with the end of input. -/
def ended (s : Lookahead) : Bool :=
  s.buffer.getLast?.any (·.kind = .endOfInput)

/-- Buffers some more lexemes, fewer if the source text ends before. -/
def fill : Nat → Lookahead → Except LexicalError Unit × Lookahead
  | 0, s => (.ok (), s)
  | missing + 1, s =>
    if s.ended then (.ok (), s)
    else
      match s.lexer.next with
      | (some (.ok l), lexer) => fill missing ⟨lexer, s.buffer ++ [l]⟩
      | (some (.error e), lexer) => (.error e, ⟨lexer, s.buffer⟩)
      | (none, lexer) => fill missing ⟨lexer, s.buffer ++ [lexer.endOfInput]⟩

/-- The lexeme `n` places ahead, the current one being at zero. -/
def peek (s : Lookahead) (n : Nat) : Except LexicalError Lexeme × Lookahead :=
  match s.fill (n + 1 - s.buffer.length) with
  | (.error e, s) => (.error e, s)
  | (.ok (), s) => (.ok (s.buffer[min n (s.buffer.length - 1)]?.getD .absent), s)

/-- Consumes the current lexeme, unless it is the end of input. -/
def advance (s : Lookahead) : Except LexicalError Lexeme × Lookahead :=
  match s.fill (1 - s.buffer.length) with
  | (.error e, s) => (.error e, s)
  | (.ok (), s) =>
    match s.buffer with
    | [] => (.ok .absent, s)
    | l :: rest => (.ok l, if l.kind = .endOfInput then s else { s with buffer := rest })

end Lookahead

end MiniC
