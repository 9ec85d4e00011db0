import MiniC.Eval.Builtin
import MiniC.Eval.Place

/-!
# Evaluation

Expressions, statements and calls.  The first argument of `eval`, `exec` and `invoke` is the number
of nested steps granted; a run that needs more is `unfinished`, and more steps never change a run
that ends.  A failure is attributed to the lexeme of the innermost expression in which it arises.
-/

namespace MiniC

/-- What a loop does with the end of its body: leave with a flow, or go on. -/
def Flow.leavesLoop : Flow → Option Flow
  | .normal | .continued _ => none
  | .broke _ => some .normal
  | .returned v l => some (.returned v l)

namespace Run

/-- Tests, then runs the body and the step, and starts over. -/
def whileLoop (test : Run Bool) (body : Run Flow) (step : Run Unit) : Nat → Run Flow
  | 0 => unfinished
  | n + 1 => do
    if ← test then
      match (← body).leavesLoop with
      | some flow => pure flow
      | none =>
        step
        whileLoop test body step n
    else
      pure .normal

/-- Runs the body, then tests, and starts over. -/
def doWhile (body : Run Flow) (test : Run Bool) : Nat → Run Flow
  | 0 => unfinished
  | n + 1 => do
    match (← body).leavesLoop with
    | some flow => pure flow
    | none =>
      if ← test then doWhile body test n else pure .normal

/-- Statements one after the other, up to the first that jumps. -/
def inSequence (exec : Statement → Run Flow) : List Statement → Run Flow
  | [] => pure .normal
  | s :: rest => do
    match ← exec s with
    | .normal => inSequence exec rest
    | flow => pure flow

end Run

/-- The statement that a chain of branches selects: of the first branch whose condition holds, or of
`else`. -/
def selectBranch (test : Expr → Run Bool) (otherwise : Option Statement) :
    List (Expr × Statement) → Run (Option Statement)
  | [] => pure otherwise
  | (c, s) :: rest => do
    if ← test c then pure (some s) else selectBranch test otherwise rest

/-- Calls a function by name.  The name is looked up before the arguments are evaluated, and nothing
of the function runs unless they all fit. -/
def evalCall (eval : Expr → Run Value) (invoke : FunctionDecl → List Value → Run Value) (c : Call) :
    Run Value :=
  Run.locate c.lexeme do
    match ← Run.lookup c.name with
    | .function f =>
      let arguments ← Run.each eval c.arguments
      Run.lift (f.checkArguments arguments)
      invoke f arguments
    | v => Run.fail (.notFunction c.name v.describe)

/-- A declaration, an assignment or a call. -/
def execSimple (eval : Expr → Run Value) (invoke : FunctionDecl → List Value → Run Value) :
    SimpleStatement → Run Unit
  | .declaration d => execDeclaration eval d
  | .assignment target op value l => Run.locate l (execAssignment eval target op value)
  | .call c => do
    let _ ← evalCall eval invoke c
    pure ()

/-- A simple statement that may be absent. -/
def execOptional (eval : Expr → Run Value) (invoke : FunctionDecl → List Value → Run Value) :
    Option SimpleStatement → Run Unit
  | none => pure ()
  | some s => execSimple eval invoke s

/-- Binds the arguments of a call to the parameters.  Surplus arguments are ignored, and parameters
without an argument stay unbound. -/
def bindParameters : List (Parameter × Value) → Run Unit
  | [] => pure ()
  | (p, v) :: rest => do
    Run.locate p.lexeme (Run.changeScope (·.declare p.name v))
    bindParameters rest

/-- The result of a call whose body ended with a flow. -/
def resultOf : Flow → Run Value
  | .normal => pure .void
  | .returned v _ => pure v
  | .broke l | .continued l => Run.failAt .strayJump l

mutual

/-- The value of an expression. -/
def eval : Nat → Expr → Run Value
  | 0, _ => Run.unfinished
  | n + 1, e =>
    Run.locate e.lexeme <|
      match e with
      | .literal v _ => pure v.toValue
      | .list elements _ => do
        let vs ← Run.each (eval n) elements
        Run.lift (Value.ofElements vs)
      | .variable name indices _ => evalPlace (eval n) name indices
      | .unary op operand _ => do
        let v ← eval n operand
        Run.lift (Value.unary op v)
      | .binary op left right _ => do
        let v ← eval n left
        let w ← eval n right
        Run.lift (Value.binary op v w)
      | .cast target operand _ => do
        let v ← eval n operand
        Run.lift (Value.cast target v)
      | .call name arguments l => evalCall (eval n) (invoke n) ⟨name, arguments, l⟩

/-- Runs a statement. -/
def exec : Nat → Statement → Run Flow
  | 0, _ => Run.unfinished
  | n + 1, s =>
    match s with
    | .empty => pure .normal
    | .simple s => do
      execSimple (eval n) (invoke n) s
      pure .normal
    | .block body _ => Run.inFrame (Run.inSequence (exec n) body)
    | .ifElse branches otherwise _ => do
      match ← selectBranch (evalCondition (eval n)) otherwise branches with
      | some s => Run.inFrame (exec n s)
      | none => pure .normal
    | .forLoop first c step body _ =>
      Run.inFrame do
        execOptional (eval n) (invoke n) first
        Run.whileLoop (evalCondition (eval n) c) (Run.inFrame (exec n body))
          (execOptional (eval n) (invoke n) step) n
    | .whileLoop c body _ =>
      Run.whileLoop (evalCondition (eval n) c) (Run.inFrame (exec n body)) (pure ()) n
    | .doWhile body c _ =>
      Run.doWhile (Run.inFrame (exec n body)) (evalCondition (eval n) c) n
    | .breakLoop l => pure (.broke l)
    | .continueLoop l => pure (.continued l)
    | .returnValue none l => pure (.returned .void (some l))
    | .returnValue (some e) l => do
      let v ← eval n e
      pure (.returned v (some l))

/-- Runs a function with arguments that are not checked any more.  It sees the root frame and its
own parameters only. -/
def invoke : Nat → FunctionDecl → List Value → Run Value
  | 0, _, _ => Run.unfinished
  | n + 1, f, arguments => do
    let flow ← Run.inCall do
      bindParameters (f.parameters.zip arguments)
      match f.body with
      | .block body _ => Run.inFrame (Run.inSequence (exec n) body)
      | .builtin b => b.run
    let v ← resultOf flow
    Run.lift (f.checkResult v)

end

end MiniC
