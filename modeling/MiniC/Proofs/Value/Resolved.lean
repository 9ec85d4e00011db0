import MiniC.Console.Sink
import MiniC.Eval.Builtin
import MiniC.Eval.Place
import MiniC.Value.Operation

/-!
# Faults of names

Names are found and declared by scopes alone, and statements jump.  Whatever else computes a value
or a check fails for other reasons: `Resolved` says that of a computation, and there is one lemma
for each operation on values, for the checks of calls and for the console.
-/

namespace MiniC

/-- Whether faults of a class are about a name that is not declared, or declared twice. -/
def FaultKind.isNaming : FaultKind → Bool
  | .identifierNotFound | .duplicateIdentifier => true
  | _ => false

theorem FaultKind.ne_of_isNaming {k : FaultKind} (h : k.isNaming = false) :
    k ≠ .identifierNotFound ∧ k ≠ .duplicateIdentifier := by
  constructor <;> rintro rfl <;> cases h

/-- Whether faults of a class are about values or the console, and so not about a name, a jump or
the declaration of a function. -/
def FaultKind.isComputed : FaultKind → Bool
  | .mismatchedType | .mismatchedArguments | .outOfBounds | .divisionByZero | .inputOutput => true
  | _ => false

theorem FaultKind.not_isNaming {k : FaultKind} (h : k.isComputed = true) : k.isNaming = false := by
  cases k with
  | identifierNotFound | duplicateIdentifier => cases h
  | _ => rfl

/-- A computation that fails, if it does, for its values or the console. -/
inductive Resolved {α : Type} : Except Fault α → Prop
  | ok (a : α) : Resolved (.ok a)
  | error {fault : Fault} (h : fault.kind.isComputed = true) : Resolved (.error fault)

namespace Resolved

variable {α β : Type} {e : Except Fault α}

theorem isComputed (h : Resolved e) {fault : Fault} (he : e = .error fault) :
    fault.kind.isComputed = true := by
  cases h with
  | ok a => cases he
  | error h =>
    cases he
    exact h

theorem bind {next : α → Except Fault β} (h : Resolved e) (hnext : ∀ a, Resolved (next a)) :
    Resolved (e.bind next) := by
  cases h with
  | ok a => exact hnext a
  | error h => exact .error h

theorem map (h : Resolved e) (f : α → β) : Resolved (e.map f) := by
  cases h with
  | ok a => exact .ok (f a)
  | error h => exact .error h

end Resolved

namespace Value

/-! ## Conversions -/

theorem resolved_truth (v : Value) : Resolved v.truth := by
  unfold truth
  split
  · exact .ok _
  · exact .ok _
  · exact .error rfl

theorem resolved_toInt (v : Value) (role : String) : Resolved (v.toInt role) := by
  unfold toInt
  split
  · exact .ok _
  · exact .error rfl

theorem resolved_coerce (v : Value) (type : TypeName) : Resolved (v.coerce type) := by
  unfold coerce
  split
  · exact .ok _
  · split
    · exact .ok _
    · exact .error rfl
  · split
    · exact .ok _
    · exact .error rfl

theorem resolved_cast (target : TypeName) (v : Value) : Resolved (v.cast target) := by
  unfold cast
  split
  case h_2 | h_3 | h_6 =>
    split
    · exact .ok _
    · exact .error rfl
  case h_10 => exact .error rfl
  all_goals exact .ok _

/-! ## Arrays -/

theorem resolved_ofElements (elements : List Value) : Resolved (ofElements elements) := by
  unfold ofElements
  split
  · exact .error rfl
  · split
    · exact .error rfl
    · split
      · exact .error rfl
      · exact .ok _

theorem resolved_filled (dims : List Nat) (leaf : Value) : Resolved (filled dims leaf) := by
  unfold filled
  split
  · split
    · exact .ok _
    · exact .error rfl
  · exact .error rfl

theorem resolved_conform (v : Value) (type : TypeName) (dims : List (Option Nat)) :
    Resolved (v.conform type dims) := by
  unfold conform
  split
  · exact .error rfl
  · split
    · exact .error rfl
    · split
      · exact .error rfl
      · exact .ok _

theorem resolved_element (v : Value) (index : Int64) : Resolved (v.element index) := by
  unfold element
  split
  · split
    · exact .ok _
    · exact .error rfl
  · exact .error rfl

theorem resolved_atPath (v : Value) (path : List Int64) : Resolved (v.atPath path) := by
  induction path generalizing v with
  | nil => exact .ok v
  | cons index path ih => exact (resolved_element v index).bind ih

/-! ## Operators -/

theorem resolved_unary (op : UnaryOp) (v : Value) : Resolved (unary op v) := by
  unfold unary
  split
  case h_6 => exact .error rfl
  all_goals exact .ok _

theorem resolved_undefined {α : Type} (op : BinaryOp) (left right : Value) :
    Resolved (undefined op left right : Except Fault α) := .error rfl

theorem resolved_intArithmetic (op : BinaryOp) (a b : Int64) :
    Resolved (intArithmetic op a b) := by
  unfold intArithmetic
  split
  case h_4 | h_5 =>
    split
    · exact .error rfl
    · exact .ok _
  case h_6 => exact resolved_undefined _ _ _
  all_goals exact .ok _

theorem resolved_floatArithmetic (op : BinaryOp) (x y : Float) :
    Resolved (floatArithmetic op x y) := by
  unfold floatArithmetic
  split
  case h_4 =>
    split
    · exact .error rfl
    · exact .ok _
  case h_5 => exact resolved_undefined _ _ _
  all_goals exact .ok _

theorem resolved_arithmetic (op : BinaryOp) (left right : Value) :
    Resolved (arithmetic op left right) := by
  unfold arithmetic
  split
  · exact resolved_intArithmetic _ _ _
  · split
    · exact .ok _
    · exact resolved_undefined _ _ _
  · split
    · split
      · exact resolved_undefined _ _ _
      · exact resolved_floatArithmetic _ _ _
    · exact resolved_undefined _ _ _

theorem resolved_shift (f : Int64 → Int64 → Int64) (a count : Int64) :
    Resolved (shift f a count) := by
  unfold shift
  split
  · exact .ok _
  · exact .error rfl

theorem resolved_bitwise (op : BinaryOp) (left right : Value) :
    Resolved (bitwise op left right) := by
  unfold bitwise
  split
  · split
    case h_4 | h_5 => exact resolved_shift _ _ _
    case h_6 => exact resolved_undefined _ _ _
    all_goals exact .ok _
  · exact resolved_undefined _ _ _

theorem resolved_comparison (op : BinaryOp) (left right : Value) :
    Resolved (comparison op left right) := by
  unfold comparison
  split
  · exact .ok _
  · split
    · exact .ok _
    · exact .ok _
    · exact resolved_undefined _ _ _
  · split
    · exact .ok _
    · exact resolved_undefined _ _ _

theorem resolved_logic (op : BinaryOp) (left right : Value) : Resolved (logic op left right) := by
  unfold logic
  split
  · split
    · exact .ok _
    · exact .ok _
    · exact resolved_undefined _ _ _
  · exact resolved_undefined _ _ _

theorem resolved_binary (op : BinaryOp) (left right : Value) :
    Resolved (binary op left right) := by
  unfold binary
  split
  · exact resolved_arithmetic _ _ _
  · exact resolved_arithmetic _ _ _
  · exact resolved_bitwise _ _ _
  · exact resolved_comparison _ _ _
  · exact resolved_logic _ _ _

theorem resolved_assigned (current : Value) (op : AssignOp) (new : Value) :
    Resolved (current.assigned op new) := by
  unfold assigned
  split
  · split
    · cases op with
      | plain => exact resolved_coerce _ _
      | compound op => exact (resolved_binary op current new).bind fun v => resolved_coerce v _
    · exact .error rfl
  · exact .error rfl

end Value

/-! ## Declarations and calls -/

theorem resolved_initialValue (d : Declaration) (dims : List (Option Nat))
    (initial : Option Value) : Resolved (initialValue d dims initial) := by
  unfold initialValue
  split
  · exact Value.resolved_coerce _ _
  · exact .ok _
  · exact (Value.resolved_conform _ _ _).map _
  · split
    · exact Value.resolved_filled _ _
    · exact .error rfl

namespace FunctionDecl

theorem resolved_checkArguments (f : FunctionDecl) (arguments : List Value) :
    Resolved (f.checkArguments arguments) := by
  unfold checkArguments
  split
  · exact .error rfl
  · split
    · exact .error rfl
    · exact .ok ()

theorem resolved_checkResult (f : FunctionDecl) (v : Value) : Resolved (f.checkResult v) := by
  unfold checkResult
  split
  · exact .ok v
  · exact .error rfl

end FunctionDecl

/-! ## The console -/

theorem Source.resolved_readWord (s : Source) : Resolved s.readWord.1 := by
  unfold readWord
  dsimp only
  split
  · exact .error rfl
  · split
    · exact .ok _
    · exact .error rfl

theorem Source.resolved_readLine (s : Source) : Resolved s.readLine.1 := by
  unfold readLine
  dsimp only
  split
  · exact .error rfl
  · split
    · exact .ok _
    · exact .error rfl

theorem Builtin.resolved_readAs {α : Type} (read? : List Char → Option α)
    {refusal : String → Fault} (hrefusal : ∀ word, (refusal word).kind.isComputed = true)
    (s : Source) : Resolved (Builtin.readAs read? refusal s).1 := by
  have hword := s.resolved_readWord
  unfold readAs
  generalize s.readWord = r at hword
  obtain ⟨word, rest⟩ := r
  cases hword with
  | error h => exact .error h
  | ok word =>
    dsimp only
    split
    · exact .ok _
    · exact .error (hrefusal word)

theorem Sink.resolved_writeLine (s : Sink) (text : String) : Resolved (s.writeLine text).1 := by
  unfold writeLine write
  split
  · exact .ok ()
  · dsimp only
    split
    · exact .ok ()
    · exact .error rfl

theorem Sink.resolved_flush (s : Sink) : Resolved s.flush := by
  unfold flush
  split
  · exact .error rfl
  · exact .ok ()

end MiniC
