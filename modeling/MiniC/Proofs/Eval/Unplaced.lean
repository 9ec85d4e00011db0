import MiniC.Proofs.Eval.Coupling
import MiniC.Proofs.Run.Unplaced

/-!
# Evaluation without positions

No decision of the evaluator depends on where a lexeme stands: expressions, statements and calls
without positions do what they do with them (`evaluates_unplaced`), and so do programs.  Main
statement: `Program.unplaces_run`.
-/

namespace MiniC

open Run

/-! ## Parts of statements -/

/-- Indices or dimensions, each evaluated in the same way. -/
theorem unplaces_each_option {α : Type} {r r' : Option Expr → Run α}
    (hr : ∀ i, Unplaces id (r i) (r' (i.map Expr.unplaced))) (indices : List (Option Expr)) :
    Unplaces id (each r indices) (each r' (Expr.unplacedIndices indices)) := by
  have heach := unplaces_each hr indices
  rwa [List.map_id_fun, ← Expr.unplacedIndices_eq] at heach

section Parts

variable {eval eval' : Expr → Run Value}
  (heval : ∀ e : Expr, Unplaces Value.unplaced (eval e) (eval' e.unplaced))

include heval

theorem unplaces_evalCondition (e : Expr) :
    Unplaces id (evalCondition eval e) (evalCondition eval' e.unplaced) := by
  unfold evalCondition
  rw [e.lexeme_unplaced]
  exact (heval e).bind fun v => (unplaces_lift_same v.truth_unplaced).locate _

theorem unplaces_evalIndex (i : Option Expr) :
    Unplaces id (evalIndex eval i) (evalIndex eval' (i.map Expr.unplaced)) := by
  cases i with
  | none => exact unplaces_fail _
  | some e =>
    unfold evalIndex
    dsimp only [Option.map_some]
    rw [e.lexeme_unplaced]
    exact (heval e).bind fun v => (unplaces_lift_same (v.toInt_unplaced _)).locate _

theorem unplaces_evalDimension (d : Option Expr) :
    Unplaces id (evalDimension eval d) (evalDimension eval' (d.map Expr.unplaced)) := by
  cases d with
  | none => exact unplaces_pure rfl
  | some e =>
    unfold evalDimension
    dsimp only [Option.map_some]
    rw [e.lexeme_unplaced]
    refine (heval e).bind fun v => ?_
    refine Unplaces.bind ((unplaces_lift_same (v.toInt_unplaced _)).locate _) fun n => ?_
    rw [id]
    cases dimension? n with
    | some length => exact unplaces_pure rfl
    | none => exact unplaces_failAt _ e.lexeme

theorem unplaces_evalPlace (name : String) (indices : List (Option Expr)) :
    Unplaces Value.unplaced (evalPlace eval name indices)
      (evalPlace eval' name (Expr.unplacedIndices indices)) := by
  refine (unplaces_each_option (unplaces_evalIndex heval) indices).bind fun path => ?_
  exact (unplaces_lookup name).bind fun v => unplaces_lift (v.atPath_unplaced path)

theorem unplaces_evalOption (e : Option Expr) :
    Unplaces (Option.map Value.unplaced) (evalOption eval e)
      (evalOption eval' (e.map Expr.unplaced)) := by
  cases e with
  | none => exact unplaces_pure rfl
  | some e => exact (heval e).bind fun v => unplaces_pure rfl

theorem unplaces_execDeclaration (d : Declaration) :
    Unplaces id (execDeclaration eval d) (execDeclaration eval' d.unplaced) := by
  refine Unplaces.locate ?_ d.target.lexeme
  refine (unplaces_each_option (unplaces_evalDimension heval) d.target.indices).bind fun dims => ?_
  refine (unplaces_evalOption heval d.initial).bind fun initial => ?_
  refine (unplaces_lift (initialValue_unplaced d dims initial)).bind fun v => ?_
  exact unplaces_changeScope fun s => s.declare_unplaced d.target.name v

theorem unplaces_execAssignment (target : Place) (op : AssignOp) (value : Expr) :
    Unplaces id (execAssignment eval target op value)
      (execAssignment eval' target.unplaced op value.unplaced) := by
  rw [execAssignment_eq, execAssignment_eq]
  refine (heval value).bind fun new => ?_
  refine (unplaces_each_option (unplaces_evalIndex heval) target.indices).bind fun path => ?_
  have hread : Unplaces Value.unplaced
      (lookup target.name >>= fun v => lift (v.atPath path))
      (lookup target.name >>= fun v => lift (v.atPath path)) :=
    (unplaces_lookup target.name).bind fun v => unplaces_lift (v.atPath_unplaced path)
  refine (hread.locate target.lexeme).bind fun current => ?_
  refine (unplaces_lift (current.assigned_unplaced op new)).bind fun updated => ?_
  exact unplaces_modifyScope fun s =>
    s.modify_unplaced target.name fun v => v.setAt_unplaced updated path

variable {invoke invoke' : FunctionDecl → List Value → Run Value}
  (hinvoke : ∀ (f : FunctionDecl) (arguments : List Value), Unplaces Value.unplaced
    (invoke f arguments) (invoke' f.unplaced (arguments.map Value.unplaced)))

include hinvoke

theorem unplaces_evalCall (c : Call) :
    Unplaces Value.unplaced (evalCall eval invoke c) (evalCall eval' invoke' c.unplaced) := by
  refine Unplaces.locate ?_ c.lexeme
  refine (unplaces_lookup c.name).bind fun v => ?_
  cases v with
  | int _ | float _ | string _ | void => exact unplaces_fail _
  | array elements =>
    have hdescribe := (Value.array elements).describe_unplaced
    rw [Value.unplaced_array] at hdescribe ⊢
    dsimp only
    rw [hdescribe]
    exact unplaces_fail _
  | function f =>
    have harguments := unplaces_each heval c.arguments
    rw [← Expr.unplacedAll_eq] at harguments
    refine harguments.bind fun arguments => ?_
    refine (unplaces_lift_same (f.checkArguments_unplaced arguments)).bind fun _ => ?_
    exact hinvoke f arguments

theorem unplaces_execSimple (s : SimpleStatement) :
    Unplaces id (execSimple eval invoke s) (execSimple eval' invoke' s.unplaced) := by
  cases s with
  | declaration d => exact unplaces_execDeclaration heval d
  | assignment target op value l =>
    exact (unplaces_execAssignment heval target op value).locate l
  | call c => exact (unplaces_evalCall heval hinvoke c).bind fun _ => unplaces_pure rfl

theorem unplaces_execOptional (s : Option SimpleStatement) :
    Unplaces id (execOptional eval invoke s)
      (execOptional eval' invoke' (s.map SimpleStatement.unplaced)) := by
  cases s with
  | none => exact unplaces_pure rfl
  | some s => exact unplaces_execSimple heval hinvoke s

end Parts

/-! ## Calls -/

theorem unplaces_bindParameters (bindings : List (Parameter × Value)) :
    Unplaces id (bindParameters bindings)
      (bindParameters (bindings.map (Prod.map Parameter.unplaced Value.unplaced))) := by
  induction bindings with
  | nil => exact unplaces_pure rfl
  | cons binding rest ih =>
    obtain ⟨p, v⟩ := binding
    have hdeclare : Unplaces id (changeScope (·.declare p.name v))
        (changeScope (·.declare p.name v.unplaced)) :=
      unplaces_changeScope fun s => s.declare_unplaced p.name v
    exact (hdeclare.locate p.lexeme).bind fun _ => ih

theorem Builtin.unplaces_run (b : Builtin) : Unplaces Flow.unplaced b.run b.run := by
  have hprint : ∀ {text : Value → String}, (∀ v : Value, text v.unplaced = text v) →
      Unplaces Flow.unplaced (printParameter text) (printParameter text) := by
    intro text htext
    refine (unplaces_lookup _).bind fun v => ?_
    rw [htext]
    exact (unplaces_writeLine _).bind fun _ => unplaces_pure rfl
  have hreturn : ∀ {α : Type} (toValue : α → Value) (reader : Source → Except Fault α × Source),
      (∀ x, (toValue x).unplaced = toValue x) →
      Unplaces Flow.unplaced (returning toValue (read reader)) (returning toValue (read reader)) :=
    fun toValue reader hvalue => (unplaces_read reader).bind fun x =>
      unplaces_pure (congrArg (Flow.returned · none) (hvalue x).symm)
  cases b with
  | printi | printf | printl => exact hprint Value.render_unplaced
  | prints => exact hprint expandedText_unplaced
  | inputi | inputf | inputs | inputline => exact hreturn _ _ fun _ => rfl

/-! ## The evaluator -/

/-- Under a number of steps positions decide nothing. -/
structure EvaluatesUnplaced (steps : Nat) : Prop where
  eval : ∀ e : Expr, Unplaces Value.unplaced (eval steps e) (eval steps e.unplaced)
  exec : ∀ s : Statement, Unplaces Flow.unplaced (exec steps s) (exec steps s.unplaced)
  invoke : ∀ (f : FunctionDecl) (arguments : List Value), Unplaces Value.unplaced
    (invoke steps f arguments) (invoke steps f.unplaced (arguments.map Value.unplaced))

namespace EvaluatesUnplaced

variable {steps : Nat}

theorem eval_succ (h : EvaluatesUnplaced steps) (e : Expr) :
    Unplaces Value.unplaced (MiniC.eval (steps + 1) e) (MiniC.eval (steps + 1) e.unplaced) := by
  unfold MiniC.eval
  rw [e.lexeme_unplaced]
  refine Unplaces.locate ?_ e.lexeme
  cases e with
  | literal v l => exact unplaces_pure (by cases v <;> rfl)
  | list elements l =>
    have helements := unplaces_each h.eval elements
    rw [← Expr.unplacedAll_eq] at helements
    exact helements.bind fun vs => unplaces_lift (Value.ofElements_unplaced vs)
  | «variable» name indices l => exact unplaces_evalPlace h.eval name indices
  | unary op operand l =>
    exact (h.eval operand).bind fun v => unplaces_lift (Value.unary_unplaced op v)
  | binary op left right l =>
    refine (h.eval left).bind fun v => (h.eval right).bind fun w => ?_
    exact unplaces_lift (Value.binary_unplaced op v w)
  | cast target operand l =>
    exact (h.eval operand).bind fun v => unplaces_lift (Value.cast_unplaced target v)
  | call name arguments l => exact unplaces_evalCall h.eval h.invoke ⟨name, arguments, l⟩

theorem exec_succ (h : EvaluatesUnplaced steps) (s : Statement) :
    Unplaces Flow.unplaced (MiniC.exec (steps + 1) s) (MiniC.exec (steps + 1) s.unplaced) := by
  have hcondition := unplaces_evalCondition h.eval
  have hoptional := unplaces_execOptional h.eval h.invoke
  unfold MiniC.exec
  cases s with
  | empty => exact unplaces_pure rfl
  | simple s =>
    exact (unplaces_execSimple h.eval h.invoke s).bind fun _ => unplaces_pure rfl
  | block body l => exact (unplaces_inSequence h.exec body).inFrame
  | ifElse branches otherwise l =>
    refine (unplaces_selectBranch hcondition otherwise branches).bind fun selected => ?_
    cases selected with
    | none => exact unplaces_pure rfl
    | some s => exact (h.exec s).inFrame
  | forLoop first c step body l =>
    refine Unplaces.inFrame ((hoptional first).bind fun _ => ?_)
    exact unplaces_whileLoop (hcondition c) (h.exec body).inFrame (hoptional step) steps
  | whileLoop c body l =>
    exact unplaces_whileLoop (hcondition c) (h.exec body).inFrame (unplaces_pure rfl) steps
  | doWhile body c l => exact unplaces_doWhile (hcondition c) (h.exec body).inFrame steps
  | breakLoop l | continueLoop l => exact unplaces_pure rfl
  | returnValue value l =>
    cases value with
    | none => exact unplaces_pure rfl
    | some e => exact (h.eval e).bind fun v => unplaces_pure rfl

theorem invoke_succ (h : EvaluatesUnplaced steps) (f : FunctionDecl) (arguments : List Value) :
    Unplaces Value.unplaced (MiniC.invoke (steps + 1) f arguments)
      (MiniC.invoke (steps + 1) f.unplaced (arguments.map Value.unplaced)) := by
  have hbody : Unplaces Flow.unplaced (callBody steps f arguments)
      (callBody steps f.unplaced (arguments.map Value.unplaced)) := by
    have hparameters := unplaces_bindParameters (f.parameters.zip arguments)
    rw [← List.zip_map] at hparameters
    refine hparameters.bind fun _ => ?_
    rw [show f.unplaced.body = f.body.unplaced from rfl]
    cases f.body with
    | block body l => exact (unplaces_inSequence h.exec body).inFrame
    | builtin b => exact b.unplaces_run
  rw [MiniC.invoke_succ, MiniC.invoke_succ]
  refine hbody.inCall.bind fun flow => (unplaces_resultOf flow).bind fun v => ?_
  exact unplaces_lift (f.checkResult_unplaced v)

end EvaluatesUnplaced

theorem evaluates_unplaced (steps : Nat) : EvaluatesUnplaced steps := by
  induction steps with
  | zero =>
    refine ⟨fun e => ?_, fun s => ?_, fun f arguments => ?_⟩
    · unfold eval
      exact unplaces_unfinished
    · unfold exec
      exact unplaces_unfinished
    · unfold invoke
      exact unplaces_unfinished
  | succ steps ih => exact ⟨ih.eval_succ, ih.exec_succ, ih.invoke_succ⟩

/-! ## Programs -/

theorem unplaces_declareFunction (f : FunctionDecl) :
    Unplaces id (declareFunction f) (declareFunction f.unplaced) := by
  refine Unplaces.locate ?_ f.lexeme
  rw [show f.unplaced.returnDims = f.returnDims from rfl, show f.unplaced.name = f.name from rfl]
  split
  · exact unplaces_fail _
  · split
    · exact unplaces_fail _
    · exact unplaces_changeScope fun s => s.declare_unplaced f.name (.function f)

variable (steps : Nat)

theorem unplaces_declareItem (i : Item) :
    Unplaces id (declareItem steps i) (declareItem steps i.unplaced) := by
  cases i with
  | function f => exact unplaces_declareFunction f
  | global d => exact unplaces_execDeclaration (evaluates_unplaced steps).eval d

theorem unplaces_declareItems (items : List Item) :
    Unplaces id (declareItems steps items) (declareItems steps (items.map Item.unplaced)) := by
  induction items with
  | nil => exact unplaces_pure rfl
  | cons i rest ih => exact (unplaces_declareItem steps i).bind fun _ => ih

/-- The entry point is the same function without positions, or it is missing for the same reason. -/
theorem entryPoint_unplaced (s : Scope) :
    entryPoint s.unplaced =
      match entryPoint s with
      | .ok f => .ok f.unplaced
      | .error failure => .error failure.unplaced := by
  unfold entryPoint
  rw [s.find?_unplaced]
  cases s.find? "main" with
  | none => rfl
  | some v =>
    cases v with
    | int _ | float _ | string _ | array _ | void => rfl
    | function f =>
      dsimp only [Option.map_some, Value.unplaced]
      rw [show f.unplaced.returns = f.returns from rfl,
        show f.unplaced.parameters.isEmpty = f.parameters.isEmpty from List.isEmpty_map]
      split
      · rfl
      · split <;> rfl

theorem unplaces_callMain : Unplaces id (callMain steps) (callMain steps) := by
  intro m
  unfold callMain
  rw [show m.unplaced.scope = m.scope.unplaced from rfl, entryPoint_unplaced]
  cases entryPoint m.scope with
  | error failure => rfl
  | ok main =>
    have hinvoke : invoke steps main.unplaced [] m.unplaced =
        (invoke steps main [] m).unplaced Value.unplaced :=
      (evaluates_unplaced steps).invoke main [] m
    dsimp only
    rw [hinvoke]
    cases invoke steps main [] m with
    | failed failure n => rfl
    | unfinished => rfl
    | done v n =>
      cases v with
      | int _ | float _ | string _ | void | function _ => rfl
      | array elements =>
        obtain ⟨vs⟩ := elements
        exact congrArg (fun d => Outcome.failed ⟨.mainReturned d, some main.lexeme.unplaced⟩
          n.unplaced) (Value.array ⟨vs⟩).describe_unplaced

/-- A program without positions does what the program does. -/
theorem Program.unplaces_run (p : Program) :
    Unplaces id (p.run steps) (p.unplaced.run steps) :=
  Unplaces.flushed <| (unplaces_declareItems steps p.items).bind fun _ => unplaces_callMain steps

end MiniC
