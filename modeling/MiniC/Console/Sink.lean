import MiniC.Console.Source

/-!
# Writing output

Output goes to a sink that may take only so many bytes.  A write that does not fit leaves the bytes
that do, and fails.
-/

namespace MiniC

/-- The bytes written so far, how many bytes the sink takes in all if that is limited, and whether
it refuses to be flushed. -/
structure Sink where
  written : Array UInt8
  capacity : Option Nat
  refusesFlush : Bool

namespace Sink

/-- A sink that takes everything. -/
def unlimited : Sink := ⟨#[], none, false⟩

/-- Writes bytes as far as they fit, and says whether all did. -/
def write (s : Sink) (bytes : List UInt8) : Except Fault Unit × Sink :=
  match s.capacity with
  | none => (.ok (), { s with written := s.written ++ bytes })
  | some capacity =>
    let room := capacity - s.written.size
    let result := if bytes.length ≤ room then .ok () else .error .writeRefused
    (result, { s with written := s.written ++ bytes.take room })

/-- Writes a text and a line feed. -/
def writeLine (s : Sink) (text : String) : Except Fault Unit × Sink :=
  s.write (Text.Utf8.encode (text ++ "\n"))

/-- Flushes what was written. -/
def flush (s : Sink) : Except Fault Unit :=
  if s.refusesFlush then .error .flushRefused else .ok ()

end Sink

/-- What a program reads from and writes to. -/
structure Console where
  input : Source
  output : Sink

end MiniC
