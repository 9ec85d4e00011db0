import MiniC.Eval.Program

/-!
# Command line

What a process that runs a program reports: its status and what it writes to its two outputs.  The
arguments name a source file or, after `--code`, are the source text itself.
-/

namespace MiniC.CommandLine

/-- What a process ends with. -/
structure Report where
  status : Int32
  output : Array UInt8
  diagnostics : String

/-- The report of a process that could not run a program. -/
def refused (message : String) : Report := ⟨1, #[], message ++ "\n"⟩

/-- The program that a source text holds, or the report that it holds none. -/
def check (source : String) : Except Report Program :=
  match Program.ofSource source with
  | .ok p => .ok p
  | .error e => .error (refused e.message)

/-- The report of running a program on some input. -/
def execute (p : Program) (input : List UInt8) : Report :=
  match p.run allSteps (.initial ⟨.ofBytes input, .unlimited⟩) with
  | .done n m => ⟨exitStatus n, m.console.output.written, ""⟩
  | .failed f m => ⟨1, m.console.output.written, f.message ++ "\n"⟩
  | .unfinished => refused "Too many steps."

/-- The report of running a source text on some input. -/
def run (source : String) (input : List UInt8) : Report :=
  match check source with
  | .ok p => execute p input
  | .error report => report

/-- The report for a source file that cannot be read. -/
def unreadable (path : String) : Report :=
  refused
    ("Failed to read the source file '" ++ path ++ "'. Perhaps this file does not exist?")

/-- Where the source text comes from. -/
inductive Input
  | code (source : String)
  | file (path : String)

/-- The arguments of a process.  Options end at `--`. -/
structure Arguments where
  code : Bool
  contents : Option String
  optionsEnded : Bool

/-- Takes one argument: an option, a bundle of one-letter options, or the contents. -/
def Arguments.add (a : Arguments) (argument : String) : Option Arguments :=
  let positional : Option Arguments :=
    if a.contents.isSome then none else some { a with contents := some argument }
  if a.optionsEnded then positional
  else if argument = "--" then some { a with optionsEnded := true }
  else if argument = "--code" then some { a with code := true }
  else if argument = "--verbose" then some a
  else
    match argument.toList with
    | '-' :: letters@(_ :: _) =>
      if letters.all fun c => c = 'c' || c = 'v' then
        some { a with code := a.code || letters.contains 'c' }
      else
        none
    | _ => positional

/-- Reads the arguments of a process. -/
def parse? (arguments : List String) : Option Input := do
  let a ← arguments.foldlM Arguments.add ⟨false, none, false⟩
  let contents ← a.contents
  pure (if a.code then .code contents else .file contents)

/-- How the program is called. -/
def usage : String := "Usage: minic [-c] [-v]... [--] CONTENTS"

end MiniC.CommandLine
