import MiniC.Eval.Statement
import MiniC.Parse.Program

/-!
# Running programs

A program declares its items in source order and then calls `main`, which takes no parameters and
returns an int.  `runSource` reads, checks and runs a source text.
-/

namespace MiniC

/-- Declares a function in the innermost frame. -/
def declareFunction (f : FunctionDecl) : Run Unit :=
  Run.locate f.lexeme <|
    if 0 < f.returnDims then Run.fail (.returnsArray f.name)
    else if Builtin.isName f.name then Run.fail (.namesBuiltin f.name)
    else Run.changeScope (·.declare f.name (.function f))

/-- Declares an item. -/
def declareItem (steps : Nat) : Item → Run Unit
  | .function f => declareFunction f
  | .global d => execDeclaration (eval steps) d

/-- Declares items in order. -/
def declareItems (steps : Nat) : List Item → Run Unit
  | [] => pure ()
  | i :: rest => do
    declareItem steps i
    declareItems steps rest

/-- The function that a program begins with: `int main()`. -/
def entryPoint (s : Scope) : Except Failure FunctionDecl :=
  match s.find? "main" with
  | some (.function f) =>
    if f.returns ≠ .int then .error ⟨.mainNotInt, some f.lexeme⟩
    else if !f.parameters.isEmpty then .error ⟨.mainHasParameters, some f.lexeme⟩
    else .ok f
  | some _ => .error (.unlocated .mainNoFunction)
  | none => .error (.unlocated .mainMissing)

theorem entryPoint_ok {s : Scope} {f : FunctionDecl} (h : entryPoint s = .ok f) :
    s.find? "main" = some (.function f) ∧ f.parameters = [] := by
  unfold entryPoint at h
  split at h
  · next g hg =>
    split at h
    · cases h
    · split at h
      · cases h
      · next hparameters =>
        cases h
        exact ⟨hg, by simpa using hparameters⟩
  · cases h
  · cases h

theorem entryPoint_error {s : Scope} {f : Failure} (h : entryPoint s = .error f) :
    f.fault = .mainMissing ∨ f.fault = .mainNoFunction ∨ f.fault = .mainNotInt ∨
      f.fault = .mainHasParameters := by
  unfold entryPoint at h
  split at h
  · split at h
    · cases h
      simp
    · split at h
      · cases h
        simp
      · cases h
  · cases h
    simp [Failure.unlocated]
  · cases h
    simp [Failure.unlocated]

theorem entryPoint_returns {s : Scope} {f : FunctionDecl} (h : entryPoint s = .ok f) :
    f.returns = .int := by
  unfold entryPoint at h
  split at h
  · split at h
    · cases h
    · next hreturns =>
      split at h
      · cases h
      · cases h
        exact Decidable.not_not.1 hreturns
  · cases h
  · cases h

/-- Calls the entry point of the current scope. -/
def callMain (steps : Nat) : Run Int64 := fun m =>
  match entryPoint m.scope with
  | .error f => .failed f m
  | .ok main =>
    match invoke steps main [] m with
    | .done (.int n) m => .done n m
    | .done v m => .failed ⟨.mainReturned v.describe, some main.lexeme⟩ m
    | .failed f m => .failed f m
    | .unfinished => .unfinished

/-- Flushes the output at the end of an activity.  A failure of the activity counts more than one of
flushing. -/
def Run.flushed (r : Run α) : Run α := fun m =>
  match r m with
  | .done value m =>
    match m.console.output.flush with
    | .ok () => .done value m
    | .error fault => .failed (.unlocated fault) m
  | outcome => outcome

/-- Declares the items of a program and calls `main`. -/
def Program.run (steps : Nat) (p : Program) : Run Int64 :=
  Run.flushed do
    declareItems steps p.items
    callMain steps

/-- The scope in which a program starts: the built-in functions in the root frame. -/
def Scope.initial : Scope :=
  Builtin.all.foldl (fun s b => s.defineGlobal b.name (.function b.declaration)) .empty

/-- A machine in which nothing has run yet. -/
def Machine.initial (console : Console) : Machine := ⟨.initial, console⟩

/-- How running a source text ends. -/
inductive RunResult
  /-- The source text is no program; nothing is read or written. -/
  | rejected (e : SyntaxError)
  | ran (outcome : Outcome Int64)

/-- Reads a source text and runs the program that it holds. -/
def runSource (steps : Nat) (source : String) (console : Console) : RunResult :=
  match Program.ofSource source with
  | .error e => .rejected e
  | .ok p => .ran (p.run steps (.initial console))

/-- The number of nested steps that a program is granted when it is run: more than any run can take
in practice. -/
def allSteps : Nat := Nat.pow 10 18

/-- The status that a process ends with after `main` returned: the low 32 bits, with a sign. -/
def exitStatus (n : Int64) : Int32 := n.toInt32

end MiniC
