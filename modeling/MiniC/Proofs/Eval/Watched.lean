import MiniC.Eval.Program
import MiniC.Proofs.Run.Composed

/-!
# Watched evaluation

What the evaluator does in one step, as a function of what evaluates the parts (`evalWith`,
`execWith`, `invokeWith`), and the evaluator in which a `Monitor` stands around every call and every
run of a built-in function.  A monitor can do anything there, so a run that no monitor changes, of
those that leave proper calls alone, makes proper calls only.
-/

namespace MiniC

/-! ## Single steps of the evaluator -/

section Steps

variable (eval : Expr → Run Value) (exec : Statement → Run Flow)
  (invoke : FunctionDecl → List Value → Run Value)

/-- The value of an expression. -/
def evalWith (e : Expr) : Run Value :=
  Run.locate e.lexeme <|
    match e with
    | .literal v _ => pure v.toValue
    | .list elements _ => do
      let vs ← Run.each eval elements
      Run.lift (Value.ofElements vs)
    | .variable name indices _ => evalPlace eval name indices
    | .unary op operand _ => do
      let v ← eval operand
      Run.lift (Value.unary op v)
    | .binary op left right _ => do
      let v ← eval left
      let w ← eval right
      Run.lift (Value.binary op v w)
    | .cast target operand _ => do
      let v ← eval operand
      Run.lift (Value.cast target v)
    | .call name arguments l => evalCall eval invoke ⟨name, arguments, l⟩

/-- Runs a statement, and the body of a loop so many times at most. -/
def execWith (rounds : Nat) : Statement → Run Flow
  | .empty => pure .normal
  | .simple s => do
    execSimple eval invoke s
    pure .normal
  | .block body _ => Run.inFrame (Run.inSequence exec body)
  | .ifElse branches otherwise _ => do
    match ← selectBranch (evalCondition eval) otherwise branches with
    | some s => Run.inFrame (exec s)
    | none => pure .normal
  | .forLoop first c step body _ =>
    Run.inFrame do
      execOptional eval invoke first
      Run.whileLoop (evalCondition eval c) (Run.inFrame (exec body))
        (execOptional eval invoke step) rounds
  | .whileLoop c body _ =>
    Run.whileLoop (evalCondition eval c) (Run.inFrame (exec body)) (pure ()) rounds
  | .doWhile body c _ => Run.doWhile (Run.inFrame (exec body)) (evalCondition eval c) rounds
  | .breakLoop l => pure (.broke l)
  | .continueLoop l => pure (.continued l)
  | .returnValue none l => pure (.returned .void (some l))
  | .returnValue (some e) l => do
    let v ← eval e
    pure (.returned v (some l))

variable (builtin : Builtin → Run Flow)

/-- What a call runs in the context that it opens. -/
def bodyWith (f : FunctionDecl) (arguments : List Value) : Run Flow := do
  bindParameters (f.parameters.zip arguments)
  match f.body with
  | .block body _ => Run.inFrame (Run.inSequence exec body)
  | .builtin b => builtin b

/-- Runs a function with arguments that are not checked any more. -/
def invokeWith (f : FunctionDecl) (arguments : List Value) : Run Value := do
  let flow ← Run.inCall (bodyWith exec builtin f arguments)
  let v ← resultOf flow
  Run.lift (f.checkResult v)

/-- Declares items in order. -/
def declareItemsWith : List Item → Run Unit
  | [] => pure ()
  | i :: rest => do
    match i with
    | .function f => declareFunction f
    | .global d => execDeclaration eval d
    declareItemsWith rest

/-- Calls the entry point of the current scope. -/
def callMainWith : Run Int64 := fun m =>
  match entryPoint m.scope with
  | .error f => .failed f m
  | .ok main =>
    match invoke main [] m with
    | .done (.int n) m => .done n m
    | .done v m => .failed ⟨.mainReturned v.describe, some main.lexeme⟩ m
    | .failed f m => .failed f m
    | .unfinished => .unfinished

end Steps

theorem eval_step (steps : Nat) (e : Expr) :
    eval (steps + 1) e = evalWith (eval steps) (invoke steps) e := by
  unfold eval evalWith
  cases e <;> rfl

theorem exec_step (steps : Nat) (s : Statement) :
    exec (steps + 1) s = execWith (eval steps) (exec steps) (invoke steps) steps s := by
  unfold exec execWith
  cases s <;> rfl

theorem invoke_step (steps : Nat) (f : FunctionDecl) (arguments : List Value) :
    invoke (steps + 1) f arguments = invokeWith (exec steps) Builtin.run f arguments := by
  unfold invoke invokeWith bodyWith
  rfl

theorem declareItems_eq (steps : Nat) (items : List Item) :
    declareItems steps items = declareItemsWith (eval steps) items := by
  induction items with
  | nil => rfl
  | cons i rest ih =>
    unfold declareItems declareItemsWith
    rw [ih]
    cases i <;> rfl

theorem callMain_eq (steps : Nat) : callMain steps = callMainWith (invoke steps) := rfl

/-- A run that is flushed fails by itself or for a flush that is refused. -/
theorem Run.flushed_failed {α : Type} {r : Run α} {m n : Machine} {f : Failure}
    (h : r.flushed m = .failed f n) :
    r m = .failed f n ∨
      ∃ value fault, r m = .done value n ∧ n.console.output.flush = .error fault ∧
        f = .unlocated fault := by
  unfold Run.flushed at h
  cases hr : r m with
  | done value k =>
    rw [hr] at h
    dsimp only at h
    split at h
    · cases h
    · next fault hflush =>
      cases h
      exact Or.inr ⟨value, fault, rfl, hflush, rfl⟩
  | failed g k =>
    rw [hr] at h
    cases h
    exact Or.inl rfl
  | unfinished =>
    rw [hr] at h
    cases h

/-- The call of `main` as a sequence: the entry point is found, called, and its result taken. -/
theorem callMainWith_eq (invoke : FunctionDecl → List Value → Run Value) :
    callMainWith invoke = Run.inspect entryPoint >>= fun
      | .error f => Run.failWith f
      | .ok main => invoke main [] >>= fun
        | .int n => pure n
        | v => Run.failAt (.mainReturned v.describe) main.lexeme := by
  funext m
  show callMainWith invoke m = Run.bind (Run.inspect entryPoint) _ m
  unfold callMainWith Run.bind Run.inspect
  cases entryPoint m.scope with
  | error f => rfl
  | ok main =>
    dsimp only
    show _ = Run.bind (invoke main []) _ m
    unfold Run.bind
    cases invoke main [] m with
    | done v n => cases v <;> rfl
    | failed f n => rfl
    | unfinished => rfl

theorem Builtin.runNamed_name (b : Builtin) : Builtin.runNamed b.name = b.run := by
  cases b <;> rfl

/-! ## Monitors -/

/-- What stands around the calls of a running program.  It is given the function and the arguments
of a call, or the name of a built-in function, and what would run there. -/
structure Monitor where
  call : FunctionDecl → List Value → Run Value → Run Value
  builtin : String → Run Flow → Run Flow

namespace Monitor

/-- The monitor that leaves everything alone. -/
def silent : Monitor := ⟨fun _ _ r => r, fun _ r => r⟩

variable (w : Monitor)

/-- Runs a built-in function by its name. -/
def runBuiltin (b : Builtin) : Run Flow := w.builtin b.name (Builtin.runNamed b.name)

mutual

/-- The value of an expression. -/
def eval : Nat → Expr → Run Value
  | 0, _ => Run.unfinished
  | n + 1, e => evalWith (eval n) (invoke n) e

/-- Runs a statement. -/
def exec : Nat → Statement → Run Flow
  | 0, _ => Run.unfinished
  | n + 1, s => execWith (eval n) (exec n) (invoke n) n s

/-- Runs a function with arguments that are not checked any more. -/
def invoke : Nat → FunctionDecl → List Value → Run Value
  | 0, f, arguments => w.call f arguments Run.unfinished
  | n + 1, f, arguments => w.call f arguments (invokeWith (exec n) w.runBuiltin f arguments)

end

/-- Declares the items of a program and calls `main`. -/
def run (steps : Nat) (p : Program) : Run Int64 :=
  Run.flushed do
    declareItemsWith (w.eval steps) p.items
    callMainWith (w.invoke steps)

end Monitor

end MiniC
