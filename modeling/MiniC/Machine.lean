import MiniC.Scope
import MiniC.Console.Sink

/-!
# Machines and runs

A machine is what a running program changes: the scope and the console.  A `Run` takes a machine to
an outcome.  A failure keeps the machine as it was left, and nothing is rolled back.  An outcome is
`unfinished` if the steps granted to a run are used up; that is neither a result nor a failure of
the program.
-/

namespace MiniC

/-- The state of a running program. -/
structure Machine where
  scope : Scope
  console : Console

/-- How a run ends. -/
inductive Outcome (α : Type)
  | done (value : α) (machine : Machine)
  | failed (failure : Failure) (machine : Machine)
  | unfinished

/-- An activity of a machine. -/
def Run (α : Type) : Type := Machine → Outcome α

namespace Run

/-- Gives a value and changes nothing. -/
@[always_inline, inline] protected def pure (value : α) : Run α := fun m => .done value m

/-- One activity after the other; a failure ends both. -/
@[always_inline, inline] protected def bind (r : Run α) (next : α → Run β) : Run β := fun m =>
  match r m with
  | .done value m => next value m
  | .failed f m => .failed f m
  | .unfinished => .unfinished

instance : Monad Run where
  pure := Run.pure
  bind := Run.bind

theorem id_map (r : Run α) : id <$> r = r := by
  funext m
  show Run.bind r _ m = r m
  simp only [Run.bind]
  cases r m <;> rfl

theorem bind_assoc (r : Run α) (f : α → Run β) (g : β → Run γ) :
    r >>= f >>= g = r >>= fun x => f x >>= g := by
  funext m
  show Run.bind (Run.bind r f) g m = Run.bind r _ m
  simp only [Run.bind]
  cases r m <;> rfl

instance : LawfulMonad Run :=
  LawfulMonad.mk' Run id_map (fun _ _ => rfl) bind_assoc

/-- Used-up steps. -/
def unfinished : Run α := fun _ => .unfinished

/-- Fails without a lexeme. -/
def fail (fault : Fault) : Run α := fun m => .failed (.unlocated fault) m

/-- Fails at a lexeme. -/
def failAt (fault : Fault) (l : Lexeme) : Run α := fun m => .failed ⟨fault, some l⟩ m

/-- A computation that needs no machine. -/
def lift (e : Except Fault α) : Run α := fun m =>
  match e with
  | .ok value => .done value m
  | .error fault => .failed (.unlocated fault) m

/-- Attributes a failure to a lexeme unless it has one. -/
def locate (l : Lexeme) (r : Run α) : Run α := fun m =>
  match r m with
  | .failed f m => .failed (f.locate l) m
  | outcome => outcome

/-- The value that a name is bound to. -/
def lookup (name : String) : Run Value := fun m => lift (m.scope.lookup name) m

/-- Changes the scope. -/
def changeScope (change : Scope → Except Fault Scope) : Run Unit := fun m =>
  match change m.scope with
  | .ok scope => .done () { m with scope }
  | .error fault => .failed (.unlocated fault) m

/-- Changes the scope in a way that cannot fail. -/
def modifyScope (change : Scope → Scope) : Run Unit := fun m =>
  .done () { m with scope := change m.scope }

/-- Reads from the input. -/
def read (reader : Source → Except Fault α × Source) : Run α := fun m =>
  let (result, input) := reader m.console.input
  lift result { m with console := { m.console with input } }

/-- Writes a line to the output. -/
def writeLine (text : String) : Run Unit := fun m =>
  let (result, output) := m.console.output.writeLine text
  lift result { m with console := { m.console with output } }

/-- Changes the scope at the end of an activity, whether that fails or not. -/
def afterwards (r : Run α) (change : Scope → Scope) : Run α := fun m =>
  match r m with
  | .done value m => .done value { m with scope := change m.scope }
  | .failed f m => .failed f { m with scope := change m.scope }
  | .unfinished => .unfinished

/-- An activity in a fresh frame, which is closed at the end. -/
def inFrame (r : Run α) : Run α := fun m =>
  afterwards r Scope.pop { m with scope := m.scope.push }

/-- An activity as a call, which is left at the end. -/
def inCall (r : Run α) : Run α := fun m =>
  afterwards r Scope.exitCall { m with scope := m.scope.enterCall }

/-- An activity for each element of a list, in order. -/
def each (f : α → Run β) : List α → Run (List β)
  | [] => pure []
  | x :: xs => do
    let y ← f x
    let ys ← each f xs
    pure (y :: ys)

end Run

/-- How a statement ends: normally, or by a jump that a loop or a call has to catch.  A result that
a built-in function returns has no lexeme. -/
inductive Flow
  | normal
  | broke (lexeme : Lexeme)
  | continued (lexeme : Lexeme)
  | returned (value : Value) (lexeme : Option Lexeme)

end MiniC
