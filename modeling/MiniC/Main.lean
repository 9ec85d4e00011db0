import MiniC.CommandLine

/-!
# Program

Reads the source text and all of standard input, runs the program and reports.
-/

namespace MiniC.CommandLine

/-- All bytes of a stream. -/
partial def readAll (stream : IO.FS.Stream) (read : ByteArray) : IO ByteArray := do
  let chunk ← stream.read 65536
  if chunk.isEmpty then pure read else readAll stream (read ++ chunk)

/-- The source text that the arguments ask for, or the report of its absence. -/
def source : Input → IO (Except Report String)
  | .code text => pure (.ok text)
  | .file path => do
    try
      pure (.ok (← IO.FS.readFile path))
    catch _ =>
      pure (.error (unreadable path))

/-- Writes a report and gives the status of the process. -/
def emit (report : Report) : IO UInt32 := do
  let output ← IO.getStdout
  output.write ⟨report.output⟩
  output.flush
  IO.eprint report.diagnostics
  pure (report.status.toUInt32 % 256)

/-- Runs the program that the arguments ask for.  Input is read only if there is a program. -/
def process (arguments : List String) : IO UInt32 := do
  match parse? arguments with
  | none =>
    IO.eprintln usage
    pure 2
  | some input =>
    match (← source input).bind check with
    | .error report => emit report
    | .ok p =>
      let bytes ← readAll (← IO.getStdin) .empty
      emit (execute p bytes.data.toList)

end MiniC.CommandLine

/-- The entry point of the process. -/
def main (arguments : List String) : IO UInt32 :=
  MiniC.CommandLine.process arguments
