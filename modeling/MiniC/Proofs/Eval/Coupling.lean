import MiniC.Proofs.Run.Simulated

/-!
# Couplings of machines

A `Coupling` is a family of relations between machines that the primitive activities respect: what
a program can see of two related machines is the same, and a store, a declaration or an output that
happens to both keeps them related.  The family is indexed by worlds, which say what is known of
the frames that are out of reach: opening a frame or beginning a call goes to another world, and
ending it leads back.  Only in an `opened` world can a name be declared.

Main statement: the whole evaluator respects every coupling, `Coupling.evaluates`.  Whether an
outcome can depend on something, and what a run can change, are then questions about one relation
and its primitive activities.
-/

namespace MiniC

/-- The machine in a fresh frame. -/
def Machine.inFrame (m : Machine) : Machine := { m with scope := m.scope.push }

/-- The machine after the innermost frame was closed. -/
def Machine.leaveFrame (m : Machine) : Machine := { m with scope := m.scope.pop }

/-- The machine at the beginning of a call. -/
def Machine.inCall (m : Machine) : Machine := { m with scope := m.scope.enterCall }

/-- The machine after the innermost call was left. -/
def Machine.leaveCall (m : Machine) : Machine := { m with scope := m.scope.exitCall }

/-- The machine with the element at a path replaced. -/
def Machine.store (m : Machine) (name : String) (path : List Int64) (v : Value) : Machine :=
  { m with scope := m.scope.modify name (·.setAt path v) }

/-- What a call runs in the context that it opens. -/
def Run.callBody (steps : Nat) (f : FunctionDecl) (arguments : List Value) : Run Flow := do
  bindParameters (f.parameters.zip arguments)
  match f.body with
  | .block body _ => Run.inFrame (Run.inSequence (exec steps) body)
  | .builtin b => b.run

theorem invoke_succ (steps : Nat) (f : FunctionDecl) (arguments : List Value) :
    invoke (steps + 1) f arguments =
      Run.inCall (Run.callBody steps f arguments) >>= fun flow =>
        resultOf flow >>= fun v => Run.lift (f.checkResult v) := by
  unfold invoke
  rfl

/-- A family of relations between machines that the primitive activities respect. -/
structure Coupling {W : Type} (opened : W → Prop) (R : W → Machine → Machine → Prop) : Prop where
  find : ∀ {w m m'}, R w m m' → ∀ name, m.scope.find? name = m'.scope.find? name
  console : ∀ {w m m'}, R w m m' → m.console = m'.console
  withConsole : ∀ {w m m'}, R w m m' → ∀ console,
    R w { m with console } { m' with console }
  store : ∀ {w m m'}, R w m m' → ∀ {name v path current op new updated},
    m.scope.find? name = some v → v.atPath path = .ok current →
    current.assigned op new = .ok updated →
    R w (m.store name path updated) (m'.store name path updated)
  declare : ∀ {w}, opened w → ∀ name v,
    Run.Simulated (R w) (Run.changeScope (·.declare name v)) (Run.changeScope (·.declare name v))
  frame : ∀ {w m m'}, R w m m' → ∃ w', opened w' ∧ R w' m.inFrame m'.inFrame ∧
    ∀ {n n'}, R w' n n' → R w n.leaveFrame n'.leaveFrame
  call : ∀ {w m m'}, R w m m' → ∃ w', opened w' ∧ R w' m.inCall m'.inCall ∧
    ∀ {n n'}, R w' n n' → R w n.leaveCall n'.leaveCall

/-- Assigns to the element at a path, or to the whole of a name if the path is empty: what both
forms of an assignment do after their operands are evaluated. -/
def Run.assign (l : Lexeme) (name : String) (path : List Int64) (op : AssignOp) (new : Value) :
    Run Unit := do
  let current ← Run.locate l do
    let v ← Run.lookup name
    Run.lift (v.atPath path)
  let updated ← Run.lift (current.assigned op new)
  Run.modifyScope (·.modify name (·.setAt path updated))

/-- What an assignment does, in one piece. -/
theorem Run.assign_eq (l : Lexeme) (name : String) (path : List Int64) (op : AssignOp)
    (new : Value) (m : Machine) :
    Run.assign l name path op new m =
      match m.scope.find? name with
      | none => .failed ⟨.undeclared name, some l⟩ m
      | some v =>
        match v.atPath path with
        | .error fault => .failed ⟨fault, some l⟩ m
        | .ok current =>
          match current.assigned op new with
          | .error fault => .failed (.unlocated fault) m
          | .ok updated => .done () (m.store name path updated) := by
  show Run.bind _ _ m = _
  simp only [Run.bind, Run.locate, Bind.bind, Run.lookup, Scope.lookup]
  cases m.scope.find? name with
  | none => rfl
  | some v =>
    dsimp only [Run.lift]
    cases v.atPath path with
    | error fault => rfl
    | ok current =>
      dsimp only
      cases current.assigned op new with
      | error fault => rfl
      | ok updated => rfl

/-- An assignment without indices is one along the empty path. -/
theorem execAssignment_eq (eval : Expr → Run Value) (target : Place) (op : AssignOp)
    (value : Expr) :
    execAssignment eval target op value =
      eval value >>= fun new =>
        Run.each (evalIndex eval) target.indices >>= fun path =>
          Run.assign target.lexeme target.name path op new := by
  unfold execAssignment
  refine congrArg (eval value >>= ·) (funext fun new => ?_)
  cases target.indices with
  | nil =>
    have hread : (Run.lookup target.name >>= fun v => Run.lift (v.atPath [])) =
        Run.lookup target.name := bind_pure (Run.lookup target.name)
    simp only [Run.each, pure_bind, Run.assign, hread]
    rfl
  | cons i rest => rfl

namespace Coupling

open Run

variable {W : Type} {opened : W → Prop} {R : W → Machine → Machine → Prop} {w : W}

/-! ## Primitive activities -/

theorem lookup (hc : Coupling opened R) (name : String) :
    Simulated (R w) (Run.lookup name) (Run.lookup name) := by
  intro m m' h
  have hlookup : m.scope.lookup name = m'.scope.lookup name := by
    unfold Scope.lookup
    rw [hc.find h name]
  unfold Run.lookup
  rw [hlookup]
  exact simulated_lift _ h

theorem read (hc : Coupling opened R) (reader : Source → Except Fault α × Source) :
    Simulated (R w) (Run.read reader) (Run.read reader) := by
  intro m m' h
  unfold Run.read
  rw [← hc.console h]
  exact simulated_lift _ (hc.withConsole h _)

theorem writeLine (hc : Coupling opened R) (text : String) :
    Simulated (R w) (Run.writeLine text) (Run.writeLine text) := by
  intro m m' h
  unfold Run.writeLine
  rw [← hc.console h]
  exact simulated_lift _ (hc.withConsole h _)

theorem inFrame (hc : Coupling opened R) {r r' : Run α}
    (h : ∀ {w'}, opened w' → Simulated (R w') r r') :
    Simulated (R w) (Run.inFrame r) (Run.inFrame r') := by
  intro m m' hm
  obtain ⟨w', hopened, hin, hleave⟩ := hc.frame hm
  exact simulated_afterwards (h hopened) hin hleave

theorem inCall (hc : Coupling opened R) {r r' : Run α}
    (h : ∀ {w'}, opened w' → Simulated (R w') r r') :
    Simulated (R w) (Run.inCall r) (Run.inCall r') := by
  intro m m' hm
  obtain ⟨w', hopened, hin, hleave⟩ := hc.call hm
  exact simulated_afterwards (h hopened) hin hleave

/-! ## Built-in functions -/

theorem printParameter (hc : Coupling opened R) (text : Value → String) :
    Simulated (R w) (Builtin.printParameter text) (Builtin.printParameter text) :=
  (hc.lookup _).bind fun v => (hc.writeLine (text v)).bind fun _ => simulated_pure Flow.normal

theorem returning (hc : Coupling opened R) (toValue : α → Value)
    (reader : Source → Except Fault α × Source) :
    Simulated (R w) (Builtin.returning toValue (Run.read reader))
      (Builtin.returning toValue (Run.read reader)) :=
  (hc.read reader).bind fun x => simulated_pure (Flow.returned (toValue x) none)

theorem builtin (hc : Coupling opened R) (b : Builtin) : Simulated (R w) b.run b.run := by
  cases b with
  | printi | printf | printl => exact hc.printParameter Value.render
  | prints => exact hc.printParameter Builtin.expandedText
  | inputi | inputf | inputs | inputline => exact hc.returning _ _

/-! ## Parts of statements -/

section Parts

variable {eval eval' : Expr → Run Value} (heval : ∀ e, Simulated (R w) (eval e) (eval' e))

include heval

theorem condition (e : Expr) :
    Simulated (R w) (evalCondition eval e) (evalCondition eval' e) :=
  (heval e).bind fun v => (simulated_lift v.truth).locate e.lexeme

theorem index (i : Option Expr) : Simulated (R w) (evalIndex eval i) (evalIndex eval' i) := by
  cases i with
  | none => exact simulated_fail _
  | some e => exact (heval e).bind fun v => (simulated_lift _).locate e.lexeme

theorem dimension (d : Option Expr) :
    Simulated (R w) (evalDimension eval d) (evalDimension eval' d) := by
  cases d with
  | none => exact simulated_pure none
  | some e =>
    refine (heval e).bind fun v => ((simulated_lift _).locate e.lexeme).bind fun n => ?_
    cases dimension? n with
    | some length => exact simulated_pure (some length)
    | none => exact simulated_failAt _ _

theorem option (e : Option Expr) : Simulated (R w) (evalOption eval e) (evalOption eval' e) := by
  cases e with
  | none => exact simulated_pure none
  | some e => exact (heval e).bind fun v => simulated_pure (some v)

theorem place (hc : Coupling opened R) (name : String) (indices : List (Option Expr)) :
    Simulated (R w) (evalPlace eval name indices) (evalPlace eval' name indices) :=
  (Simulated.each (index heval) indices).bind fun path =>
    (hc.lookup name).bind fun v => simulated_lift (v.atPath path)

theorem declaration (hc : Coupling opened R) (hopened : opened w) (d : Declaration) :
    Simulated (R w) (execDeclaration eval d) (execDeclaration eval' d) := by
  refine Simulated.locate ?_ d.target.lexeme
  refine (Simulated.each (dimension heval) d.target.indices).bind fun dims => ?_
  refine (option heval d.initial).bind fun initial => ?_
  refine (simulated_lift (initialValue d dims initial)).bind fun v => ?_
  exact hc.declare hopened d.target.name v

end Parts

/-- What an assignment does is decided by the value that its path selects; it ends with a store of a
value that was computed for that slot, or leaves the machine alone. -/
theorem assign (hc : Coupling opened R) (l : Lexeme) (name : String) (path : List Int64)
    (op : AssignOp) (new : Value) :
    Simulated (R w) (Run.assign l name path op new) (Run.assign l name path op new) := by
  intro m m' h
  rw [Run.assign_eq, Run.assign_eq, ← hc.find h name]
  cases hv : m.scope.find? name with
  | none => exact .failed _ h
  | some v =>
    dsimp only
    cases hcurrent : v.atPath path with
    | error fault => exact .failed _ h
    | ok current =>
      dsimp only
      cases hupdated : current.assigned op new with
      | error fault => exact .failed _ h
      | ok updated => exact .done () (hc.store h hv hcurrent hupdated)

section Calls

variable {eval eval' : Expr → Run Value} {invoke invoke' : FunctionDecl → List Value → Run Value}
  (heval : ∀ e, Simulated (R w) (eval e) (eval' e))
  (hinvoke : ∀ f arguments, Simulated (R w) (invoke f arguments) (invoke' f arguments))

include heval in
theorem assignment (hc : Coupling opened R) (target : Place) (op : AssignOp) (value : Expr) :
    Simulated (R w) (execAssignment eval target op value)
      (execAssignment eval' target op value) := by
  rw [execAssignment_eq, execAssignment_eq]
  refine (heval value).bind fun new => ?_
  refine (Simulated.each (index heval) target.indices).bind fun path => ?_
  exact hc.assign target.lexeme target.name path op new

include heval hinvoke

theorem evalCall (hc : Coupling opened R) (c : Call) :
    Simulated (R w) (evalCall eval invoke c) (evalCall eval' invoke' c) := by
  refine Simulated.locate ((hc.lookup c.name).bind fun v => ?_) c.lexeme
  cases v with
  | function f =>
    refine (Simulated.each heval c.arguments).bind fun arguments => ?_
    exact (simulated_lift _).bind fun _ => hinvoke f arguments
  | int _ | float _ | string _ | array _ | void => exact simulated_fail _

theorem simple (hc : Coupling opened R) (s : SimpleStatement)
    (hs : ∀ d, s = .declaration d → opened w) :
    Simulated (R w) (execSimple eval invoke s) (execSimple eval' invoke' s) := by
  cases s with
  | declaration d => exact declaration heval hc (hs d rfl) d
  | assignment target op value l => exact (assignment heval hc target op value).locate l
  | call c => exact (evalCall heval hinvoke hc c).bind fun _ => simulated_pure ()

theorem optional (hc : Coupling opened R) (s : Option SimpleStatement)
    (hs : ∀ d, s = some (.declaration d) → opened w) :
    Simulated (R w) (execOptional eval invoke s) (execOptional eval' invoke' s) := by
  cases s with
  | none => exact simulated_pure ()
  | some s => exact simple heval hinvoke hc s fun d hd => hs d (congrArg some hd)

end Calls

theorem bindParameters (hc : Coupling opened R) (hopened : opened w)
    (bindings : List (Parameter × Value)) :
    Simulated (R w) (bindParameters bindings) (bindParameters bindings) := by
  induction bindings with
  | nil => exact simulated_pure ()
  | cons binding rest ih =>
    obtain ⟨p, v⟩ := binding
    exact ((hc.declare hopened p.name v).locate p.lexeme).bind fun _ => ih

/-! ## The evaluator -/

/-- Under a number of steps and under any larger number, expressions, statements and calls do the
same in machines that a coupling relates.  Only a declaration needs a world that is opened. -/
structure Evaluates (opened : W → Prop) (R : W → Machine → Machine → Prop)
    (steps steps' : Nat) : Prop where
  eval : ∀ {w} e, Simulated (R w) (MiniC.eval steps e) (MiniC.eval steps' e)
  exec : ∀ {w} s, (∀ d, s = .simple (.declaration d) → opened w) →
    Simulated (R w) (MiniC.exec steps s) (MiniC.exec steps' s)
  invoke : ∀ {w} f arguments,
    Simulated (R w) (MiniC.invoke steps f arguments) (MiniC.invoke steps' f arguments)

namespace Evaluates

variable {steps steps' : Nat}

theorem inSequence (h : Evaluates opened R steps steps') (hopened : opened w)
    (body : List Statement) :
    Simulated (R w) (Run.inSequence (MiniC.exec steps) body)
      (Run.inSequence (MiniC.exec steps') body) :=
  Simulated.inSequence (fun s => h.exec s fun _ _ => hopened) body

theorem eval_succ (hc : Coupling opened R) (h : Evaluates opened R steps steps') (e : Expr) :
    Simulated (R w) (MiniC.eval (steps + 1) e) (MiniC.eval (steps' + 1) e) := by
  unfold MiniC.eval
  refine Simulated.locate ?_ e.lexeme
  cases e with
  | literal v l => exact simulated_pure v.toValue
  | list elements l =>
    exact (Simulated.each h.eval elements).bind fun vs => simulated_lift (Value.ofElements vs)
  | «variable» name indices l => exact place h.eval hc name indices
  | unary op operand l => exact (h.eval operand).bind fun v => simulated_lift (Value.unary op v)
  | binary op left right l =>
    refine (h.eval left).bind fun v => ?_
    exact (h.eval right).bind fun u => simulated_lift (Value.binary op v u)
  | cast target operand l => exact (h.eval operand).bind fun v => simulated_lift (v.cast target)
  | call name arguments l => exact evalCall h.eval h.invoke hc ⟨name, arguments, l⟩

theorem exec_succ (hc : Coupling opened R) (h : Evaluates opened R steps steps')
    (hle : steps ≤ steps') (s : Statement) (hs : ∀ d, s = .simple (.declaration d) → opened w) :
    Simulated (R w) (MiniC.exec (steps + 1) s) (MiniC.exec (steps' + 1) s) := by
  -- a statement inside another one runs in a frame of its own, where names can be declared
  have hframe : ∀ {w : W} (t : Statement),
      Simulated (R w) (Run.inFrame (MiniC.exec steps t)) (Run.inFrame (MiniC.exec steps' t)) :=
    fun t => hc.inFrame fun hopened => h.exec t fun _ _ => hopened
  unfold MiniC.exec
  cases s with
  | empty => exact simulated_pure Flow.normal
  | simple s =>
    exact (simple h.eval h.invoke hc s fun d hd => hs d (congrArg _ hd)).bind fun _ =>
      simulated_pure Flow.normal
  | block body l => exact hc.inFrame fun hopened => h.inSequence hopened body
  | ifElse branches otherwise l =>
    refine (Simulated.selectBranch (condition h.eval) otherwise branches).bind fun selected => ?_
    cases selected with
    | none => exact simulated_pure Flow.normal
    | some t => exact hframe t
  | forLoop first c step body l =>
    refine hc.inFrame fun hopened => ?_
    refine (optional h.eval h.invoke hc first fun _ _ => hopened).bind fun _ => ?_
    have hstep := optional h.eval h.invoke hc step fun _ _ => hopened
    exact Simulated.whileLoop (condition h.eval c) (hframe body) hstep hle
  | whileLoop c body l =>
    exact Simulated.whileLoop (condition h.eval c) (hframe body) (simulated_pure ()) hle
  | doWhile body c l => exact Simulated.doWhile (hframe body) (condition h.eval c) hle
  | breakLoop l => exact simulated_pure (Flow.broke l)
  | continueLoop l => exact simulated_pure (Flow.continued l)
  | returnValue value l =>
    cases value with
    | none => exact simulated_pure (Flow.returned .void (some l))
    | some e => exact (h.eval e).bind fun v => simulated_pure (Flow.returned v (some l))

theorem callBody (hc : Coupling opened R) (h : Evaluates opened R steps steps')
    (hopened : opened w) (f : FunctionDecl) (arguments : List Value) :
    Simulated (R w) (Run.callBody steps f arguments) (Run.callBody steps' f arguments) := by
  refine (hc.bindParameters hopened _).bind fun _ => ?_
  cases f.body with
  | block body l => exact hc.inFrame fun hopened => h.inSequence hopened body
  | builtin b => exact hc.builtin b

theorem invoke_succ (hc : Coupling opened R) (h : Evaluates opened R steps steps')
    (f : FunctionDecl) (arguments : List Value) :
    Simulated (R w) (MiniC.invoke (steps + 1) f arguments)
      (MiniC.invoke (steps' + 1) f arguments) := by
  rw [MiniC.invoke_succ, MiniC.invoke_succ]
  refine (hc.inCall fun hopened => h.callBody hc hopened f arguments).bind fun flow => ?_
  exact (simulated_resultOf flow).bind fun v => simulated_lift (f.checkResult v)

end Evaluates

/-- Every coupling is respected by the evaluator. -/
theorem evaluates (hc : Coupling opened R) {steps steps' : Nat} (hle : steps ≤ steps') :
    Evaluates opened R steps steps' := by
  induction steps generalizing steps' with
  | zero =>
    refine ⟨fun e => ?_, fun s _ => ?_, fun f arguments => ?_⟩
    · unfold MiniC.eval
      exact simulated_unfinished _
    · unfold MiniC.exec
      exact simulated_unfinished _
    · unfold MiniC.invoke
      exact simulated_unfinished _
  | succ steps ih =>
    obtain ⟨steps', rfl⟩ := Nat.exists_eq_add_one_of_ne_zero (Nat.ne_zero_of_lt hle)
    have hle' : steps ≤ steps' := Nat.le_of_succ_le_succ hle
    have h := ih hle'
    exact ⟨h.eval_succ hc, h.exec_succ hc hle', h.invoke_succ hc⟩

end Coupling

end MiniC
