import MiniC.Lexeme.Scan

/-!
# Lexeme streams

A stream delivers the lexemes of a source text one at a time and can look ahead without consuming.
A lexical error is reported by the first call that meets it and is gone then; what stands before it
stays.  The end of input is delivered for ever.
-/

namespace MiniC

/-- What is left to deliver, and the lexeme of the end. -/
structure Stream where
  entries : List (Except LexicalError Lexeme)
  last : Lexeme

namespace Stream

/-- The stream of a source text. -/
def ofSource (source : String) : Stream :=
  ⟨MiniC.entries source.toList, endOf source.toList⟩

/-- The first error among the first `n` entries, with the entries that stay. -/
def firstError : Nat → List (Except LexicalError Lexeme) →
    Option (LexicalError × List (Except LexicalError Lexeme))
  | 0, _ => none
  | _ + 1, [] => none
  | _ + 1, .error e :: rest => some (e, rest)
  | n + 1, .ok l :: rest => (firstError n rest).map fun (e, kept) => (e, .ok l :: kept)

/-- The lexeme `n` places ahead, the current one being at zero. -/
def peek (s : Stream) (n : Nat) : Except LexicalError Lexeme × Stream :=
  match firstError (n + 1) s.entries with
  | some (e, kept) => (.error e, { s with entries := kept })
  | none => ((s.entries[n]?).getD (.ok s.last), s)

/-- Delivers the current lexeme. -/
def advance (s : Stream) : Except LexicalError Lexeme × Stream :=
  match s.entries with
  | [] => (.ok s.last, s)
  | entry :: rest => (entry, { s with entries := rest })

end Stream

end MiniC
