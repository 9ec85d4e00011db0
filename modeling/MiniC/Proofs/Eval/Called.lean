import MiniC.Proofs.Eval.Coupling
import MiniC.Proofs.Run.Done

/-!
# Calls of built-in functions

A call of a print function writes the text of its argument as a line, a call of an input function
reads from the input; neither does anything else (`invoke_print`, `invoke_read`).
-/

namespace MiniC

/-- A call of a built-in function with arguments that are evaluated already. -/
def callBuiltin (steps : Nat) (b : Builtin) (arguments : List Value) : Run Value := do
  Run.lift (b.declaration.checkArguments arguments)
  invoke steps b.declaration arguments

namespace Machine

/-- The machine with another output. -/
def withOutput (m : Machine) (output : Sink) : Machine :=
  { m with console := { m.console with output } }

/-- The machine with another input. -/
def withInput (m : Machine) (input : Source) : Machine :=
  { m with console := { m.console with input } }

/-- The machine in a call of a built-in function whose parameter is bound to a value. -/
def inCallWith (m : Machine) (v : Value) : Machine :=
  { m with scope :=
      ⟨m.scope.root, [⟨[(Builtin.parameterName, v)]⟩], m.scope.current :: m.scope.callers⟩ }

end Machine

/-! ## Sinks -/

namespace Sink

variable {s s' : Sink} {bytes : List UInt8}

/-- A write that succeeds wrote all bytes. -/
theorem written_of_write (h : s.write bytes = (.ok (), s')) :
    s'.written.toList = s.written.toList ++ bytes ∧ s'.capacity = s.capacity := by
  unfold write at h
  cases hcapacity : s.capacity with
  | none =>
    rw [hcapacity] at h
    cases h
    exact ⟨by simp, rfl⟩
  | some capacity =>
    rw [hcapacity] at h
    dsimp only at h
    by_cases hroom : bytes.length ≤ capacity - s.written.size
    · rw [if_pos hroom, List.take_of_length_le hroom] at h
      cases h
      exact ⟨by simp, rfl⟩
    · rw [if_neg hroom] at h
      cases h

theorem write_of_unlimited (h : s.capacity = none) (bytes : List UInt8) :
    ∃ s', s.write bytes = (.ok (), s') := by
  unfold write
  rw [h]
  exact ⟨_, rfl⟩

end Sink

/-! ## Calls of built-in functions -/

variable {m : Machine}

/-- What a call ends with, and that it gives the scope back. -/
theorem inCall_of_lift {r : Run Flow} {e : Except Fault Flow} {k : Machine}
    (h : r m.inCall = Run.lift e k) : Run.inCall r m = Run.lift e k.leaveCall := by
  show Run.afterwards r Scope.exitCall m.inCall = Run.lift e k.leaveCall
  unfold Run.afterwards
  rw [h]
  cases e <;> rfl

section Print

variable {text : Value → String} {v : Value} {result : Except Fault Unit} {output : Sink}
  (hwrite : m.console.output.writeLine (text v) = (result, output))

include hwrite

theorem printParameter_inCallWith :
    Builtin.printParameter text (m.inCallWith v) =
      Run.lift (result.map fun _ => .normal) ((m.inCallWith v).withOutput output) := by
  have hwrite' : (m.inCallWith v).console.output.writeLine (text v) = (result, output) := hwrite
  have hline : Run.writeLine (text v) (m.inCallWith v) =
      Run.lift result ((m.inCallWith v).withOutput output) := by
    unfold Run.writeLine
    dsimp only
    rw [hwrite']
    rfl
  unfold Builtin.printParameter
  rw [Run.bind_of_done (Run.lookup_of_find? rfl)]
  cases result with
  | ok _ => exact Run.bind_of_done hline _
  | error fault => exact Run.bind_of_failed hline _

/-- A call of a print function writes a line and does nothing else. -/
theorem invoke_print (steps : Nat) {b : Builtin} {type : TypeName}
    (hsignature : b.signature = (.void, some type)) (hrun : b.run = Builtin.printParameter text) :
    invoke (steps + 1) b.declaration [v] m =
      Run.lift (result.map fun _ => .void) (m.withOutput output) := by
  have hreturns : b.declaration.returns = .void := congrArg Prod.fst hsignature
  have hparameters : b.declaration.parameters = [⟨type, Builtin.parameterName, 0, .absent⟩] := by
    unfold Builtin.declaration
    rw [hsignature]
    rfl
  have hbind : bindParameters (b.declaration.parameters.zip [v]) m.inCall =
      .done () (m.inCallWith v) := by
    rw [hparameters]
    rfl
  have hcall : Run.inCall (Run.callBody steps b.declaration [v]) m =
      Run.lift (result.map fun _ => .normal) (m.withOutput output) := by
    apply inCall_of_lift (k := (m.inCallWith v).withOutput output)
    refine (Run.bind_of_done hbind _).trans ?_
    show b.run (m.inCallWith v) = _
    rw [hrun, printParameter_inCallWith hwrite]
  rw [invoke_succ]
  cases result with
  | ok _ =>
    rw [Run.bind_of_done hcall]
    show Run.lift (b.declaration.checkResult .void) _ = _
    unfold FunctionDecl.checkResult FunctionDecl.canReturn
    rw [hreturns]
    rfl
  | error fault => exact Run.bind_of_failed hcall _

end Print

section Read

variable {α : Type} {reader : Source → Except Fault α × Source} {result : Except Fault α} {x : α}
  {left : Source}

theorem read_of_result (hread : reader m.console.input = (result, left)) :
    Run.read reader m = Run.lift result (m.withInput left) := by
  unfold Run.read
  dsimp only
  rw [hread]
  rfl

/-- A call of an input function reads and does nothing else, also if it fails. -/
theorem invoke_reader (hread : reader m.console.input = (result, left)) (steps : Nat) {b : Builtin}
    (toValue : α → Value) (hparameters : b.declaration.parameters = [])
    (hrun : b.run = Builtin.returning toValue (Run.read reader))
    (hresult : ∀ x, result = .ok x → b.declaration.canReturn (toValue x) = true) :
    invoke (steps + 1) b.declaration [] m =
      Run.lift (result.map toValue) (m.withInput left) := by
  have hinput : reader m.inCall.console.input = (result, left) := hread
  have hcall : Run.inCall (Run.callBody steps b.declaration []) m =
      Run.lift (result.map fun x => .returned (toValue x) none) (m.withInput left) := by
    apply inCall_of_lift (k := m.inCall.withInput left)
    unfold Run.callBody
    rw [hparameters]
    show b.run m.inCall = _
    rw [hrun]
    have hfirst := read_of_result hinput
    cases result with
    | ok x => exact Run.bind_of_done hfirst _
    | error fault => exact Run.bind_of_failed hfirst _
  rw [invoke_succ]
  cases result with
  | ok x =>
    rw [Run.bind_of_done hcall]
    show Run.lift (b.declaration.checkResult (toValue x)) _ = _
    unfold FunctionDecl.checkResult
    rw [if_pos (hresult x rfl)]
    rfl
  | error fault => exact Run.bind_of_failed hcall _

theorem invoke_read (hread : reader m.console.input = (.ok x, left)) (steps : Nat) {b : Builtin}
    (toValue : α → Value) (hparameters : b.declaration.parameters = [])
    (hrun : b.run = Builtin.returning toValue (Run.read reader))
    (hresult : b.declaration.canReturn (toValue x) = true) :
    invoke (steps + 1) b.declaration [] m = .done (toValue x) (m.withInput left) := by
  refine invoke_reader hread steps toValue hparameters hrun ?_
  rintro y ⟨⟩
  exact hresult

end Read

end MiniC
