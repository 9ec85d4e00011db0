import MiniC.Proofs.Decimal.Zero
import MiniC.Proofs.Value.Integer
import MiniC.Proofs.Value.Type

/-!
# Operators by types

Which pairs of values a binary operator takes depends on their types alone, and so does the type of
its result: `BinaryOp.resultOn?` is the table of both.  A pair outside the table is a mismatch.  In
the table an operator fails only by a zero divisor or by a shift count out of range.  Main
statement: `operators_classified`.
-/

namespace MiniC

/-! ## The table -/

/-- Ints and floats. -/
def TypeName.isNumber : TypeName → Bool
  | .int | .float => true
  | .string | .void | .array => false

/-- The type of arithmetic on two numbers. -/
def numberType (left right : TypeName) : TypeName :=
  if left = .int ∧ right = .int then .int else .float

/-- The type of the result of an operator on two operands, if it takes operands of these types. -/
def BinaryOp.resultOn? (op : BinaryOp) (left right : TypeName) : Option TypeName :=
  match op with
  | .add =>
    if left = .string ∧ right = .string then some .string
    else if left.isNumber ∧ right.isNumber then some (numberType left right)
    else none
  | .sub | .mul | .div =>
    if left.isNumber ∧ right.isNumber then some (numberType left right) else none
  | .mod | .bitAnd | .bitOr | .bitXor | .shiftLeft | .shiftRight =>
    if left = .int ∧ right = .int then some .int else none
  | .equal | .notEqual =>
    if (left.isNumber ∧ right.isNumber) ∨ (left = .string ∧ right = .string) then some .int
    else none
  | .less | .lessEqual | .greater | .greaterEqual | .and | .or =>
    if left.isNumber ∧ right.isNumber then some .int else none

namespace Value

/-- The type of the result of an operator on two values, if it takes values of their types.  A
function has no type that an operator takes. -/
def resultOn? (op : BinaryOp) (v w : Value) : Option TypeName :=
  match v.typeName?, w.typeName? with
  | some left, some right => op.resultOn? left right
  | _, _ => none

/-- A number equal to zero.  There are two zeros among the floats. -/
def IsZero : Value → Prop
  | .int n => n = 0
  | .float x => (x == Float.ofBits 0) = true
  | .string _ | .array _ | .void | .function _ => False

/-- An int that is no shift count. -/
def IsOutside : Value → Prop
  | .int n => ¬ (0 ≤ n.toInt ∧ n.toInt < 64)
  | .float _ | .string _ | .array _ | .void | .function _ => False

/-- How an operator can end on two values, by the table. -/
inductive Classified (op : BinaryOp) (v w : Value) : Except Fault Value → Prop
  | mismatch (table : resultOn? op v w = none) : Classified op v w (undefined op v w)
  | zero (table : resultOn? op v w ≠ none) (divides : op = .div ∨ op = .mod) (zero : w.IsZero) :
      Classified op v w (.error .zeroDivisor)
  | outside (table : resultOn? op v w ≠ none) (shifts : op = .shiftLeft ∨ op = .shiftRight)
      (outside : w.IsOutside) {count : Int64} : Classified op v w (.error (.shiftOutside count))
  | value {type : TypeName} {u : Value} (table : resultOn? op v w = some type)
      (divides : op = .div ∨ op = .mod → ¬ w.IsZero)
      (shifts : op = .shiftLeft ∨ op = .shiftRight → ¬ w.IsOutside) (shaped : u.Shaped type []) :
      Classified op v w (.ok u)

/-! ## Pairs of values -/

/-- Two numbers, not both ints, and the floats that they count as. -/
inductive Promoted : Value → Value → Float → Float → Prop
  | left (a : Int64) (y : Float) : Promoted (.int a) (.float y) (intToFloat a) y
  | right (x : Float) (b : Int64) : Promoted (.float x) (.int b) x (intToFloat b)
  | neither (x y : Float) : Promoted (.float x) (.float y) x y

variable {op : BinaryOp} {v w u : Value} {type : TypeName}

/-- An operator that neither divides nor shifts gives a value for each pair that it takes. -/
theorem Classified.of_plain (hdivides : ¬ (op = .div ∨ op = .mod))
    (hshifts : ¬ (op = .shiftLeft ∨ op = .shiftRight)) (htable : resultOn? op v w = some type)
    (hu : u.Shaped type []) : Classified op v w (.ok u) :=
  .value htable (fun h => absurd h hdivides) (fun h => absurd h hshifts) hu

/-- A divisor that is not zero gives a value. -/
theorem Classified.of_quotient (hshifts : ¬ (op = .shiftLeft ∨ op = .shiftRight))
    (hzero : ¬ w.IsZero) (htable : resultOn? op v w = some type) (hu : u.Shaped type []) :
    Classified op v w (.ok u) :=
  .value htable (fun _ => hzero) (fun h => absurd h hshifts) hu

theorem classified_shift (f : Int64 → Int64 → Int64) (hop : op = .shiftLeft ∨ op = .shiftRight)
    (a b : Int64) : Classified op (.int a) (.int b) (shift f a b) := by
  have htable : resultOn? op (.int a) (.int b) = some .int := by
    rcases hop with rfl | rfl <;> rfl
  by_cases hrange : 0 ≤ b.toInt ∧ b.toInt < 64
  · rw [shift_of_range f hrange.1 hrange.2]
    refine .value htable ?_ (fun _ hout => hout hrange) (shaped_int _)
    rcases hop with rfl | rfl <;> simp
  · rw [shift_of_not_range f hrange]
    have hout : (Value.int b).IsOutside := hrange
    exact .outside (by simp [htable]) hop hout

theorem classified_ints (op : BinaryOp) (a b : Int64) :
    Classified op (.int a) (.int b) (binary op (.int a) (.int b)) := by
  cases op with
  | add | sub | mul | bitAnd | bitOr | bitXor =>
    exact .of_plain (by simp) (by simp) rfl (shaped_int _)
  | equal | notEqual | less | lessEqual | greater | greaterEqual | and | or =>
    exact .of_plain (by simp) (by simp) rfl (shaped_ofBool _)
  | div =>
    by_cases hb : b = 0
    · rw [show binary .div (.int a) (.int b) = .error .zeroDivisor from if_pos hb]
      exact .zero (by simp [show resultOn? .div (.int a) (.int b) = some .int from rfl])
        (Or.inl rfl) hb
    · rw [show binary .div (.int a) (.int b) = .ok (.int (a / b)) from if_neg hb]
      exact .of_quotient (by simp) hb rfl (shaped_int _)
  | mod =>
    by_cases hb : b = 0
    · rw [show binary .mod (.int a) (.int b) = .error .zeroDivisor from if_pos hb]
      exact .zero (by simp [show resultOn? .mod (.int a) (.int b) = some .int from rfl])
        (Or.inr rfl) hb
    · rw [binary_mod hb]
      exact .of_quotient (by simp) hb rfl (shaped_int _)
  | shiftLeft => exact classified_shift (· <<< ·) (Or.inl rfl) a b
  | shiftRight => exact classified_shift (· >>> ·) (Or.inr rfl) a b

theorem classified_strings (op : BinaryOp) (s t : String) :
    Classified op (.string s) (.string t) (binary op (.string s) (.string t)) := by
  cases op with
  | add => exact .of_plain (by simp) (by simp) rfl (shaped_string _)
  | equal | notEqual => exact .of_plain (by simp) (by simp) rfl (shaped_ofBool _)
  | sub | mul | div | mod | bitAnd | bitOr | bitXor | shiftLeft | shiftRight | and | or | less
  | lessEqual | greater | greaterEqual => exact .mismatch rfl

theorem Promoted.isZero_iff {x y : Float} (h : Promoted v w x y) :
    w.IsZero ↔ (y == Float.ofBits 0) = true := by
  cases h with
  | left | neither => exact Iff.rfl
  | right x b =>
    rw [intToFloat_beq_zero, decide_eq_true_eq]
    exact Iff.rfl

theorem classified_promoted (op : BinaryOp) {x y : Float} (h : Promoted v w x y) :
    Classified op v w (binary op v w) := by
  cases op with
  | add | sub | mul => cases h <;> exact .of_plain (by simp) (by simp) rfl (shaped_float _)
  | equal | notEqual | less | lessEqual | greater | greaterEqual | and | or =>
    cases h <;> exact .of_plain (by simp) (by simp) rfl (shaped_ofBool _)
  | mod | bitAnd | bitOr | bitXor | shiftLeft | shiftRight => cases h <;> exact .mismatch rfl
  | div =>
    have htable : resultOn? .div v w = some .float := by cases h <;> rfl
    by_cases hy : (y == Float.ofBits 0) = true
    · have hbinary : binary .div v w = .error .zeroDivisor := by cases h <;> exact if_pos hy
      rw [hbinary]
      exact .zero (by simp [htable]) (Or.inl rfl) (h.isZero_iff.2 hy)
    · have hbinary : binary .div v w = .ok (.float (x / y)) := by cases h <;> exact if_neg hy
      rw [hbinary]
      exact .of_quotient (by simp) (mt h.isZero_iff.1 hy) htable (shaped_float _)

/-- No operator takes a string together with a number. -/
theorem classified_mixed (op : BinaryOp) (s : String) (hw : w.toFloat? ≠ none) :
    Classified op (.string s) w (binary op (.string s) w) ∧
      Classified op w (.string s) (binary op w (.string s)) := by
  cases w with
  | string _ | array _ | void | function _ => exact absurd rfl hw
  | int _ | float _ => cases op <;> exact ⟨.mismatch rfl, .mismatch rfl⟩

theorem resultOn?_of_not_scalar (op : BinaryOp) (h : (v.isScalar && w.isScalar) = false) :
    resultOn? op v w = none := by
  cases v with
  | function _ => rfl
  | array _ | void =>
    cases w with
    | function _ => rfl
    | int _ | float _ | string _ | array _ | void => cases op <;> rfl
  | int _ | float _ | string _ =>
    cases w with
    | function _ => rfl
    | array _ | void => cases op <;> rfl
    | int _ | float _ | string _ => simp [isScalar] at h

/-- Each operator ends on each pair of values as the table says. -/
theorem classified_binary (op : BinaryOp) (v w : Value) : Classified op v w (binary op v w) := by
  cases h : v.isScalar && w.isScalar with
  | false =>
    rw [binary_of_not_scalar op h]
    exact .mismatch (resultOn?_of_not_scalar op h)
  | true =>
    obtain ⟨hv, hw⟩ := Bool.and_eq_true_iff.1 h
    rcases isScalar_iff.1 hv with ⟨a, rfl⟩ | ⟨x, rfl⟩ | ⟨s, rfl⟩ <;>
      rcases isScalar_iff.1 hw with ⟨b, rfl⟩ | ⟨y, rfl⟩ | ⟨t, rfl⟩
    · exact classified_ints op a b
    · exact classified_promoted op (.left a y)
    · exact (classified_mixed op t (by simp [toFloat?])).2
    · exact classified_promoted op (.right x b)
    · exact classified_promoted op (.neither x y)
    · exact (classified_mixed op t (by simp [toFloat?])).2
    · exact (classified_mixed op s (by simp [toFloat?])).1
    · exact (classified_mixed op s (by simp [toFloat?])).1
    · exact classified_strings op s t

/-! ## What the types decide -/

/-- How a binary operator ends is decided by types first.  On any two values it fails with a
mismatch if and only if the table has no row for their types.  Where it has one: the operator fails
with a division by zero if and only if it is `/` or `%` and the right operand is zero, it fails out
of bounds if and only if it is a shift and the right operand is no count from zero to 63, there is
no other failure, and what it gives has the type that the table says. -/
theorem operators_classified (op : BinaryOp) (v w : Value) :
    (FailsAs op v w .mismatchedType ↔ resultOn? op v w = none) ∧
    (FailsAs op v w .divisionByZero ↔
      resultOn? op v w ≠ none ∧ (op = .div ∨ op = .mod) ∧ w.IsZero) ∧
    (FailsAs op v w .outOfBounds ↔
      resultOn? op v w ≠ none ∧ (op = .shiftLeft ∨ op = .shiftRight) ∧ w.IsOutside) ∧
    (∀ fault, binary op v w = .error fault →
      fault.kind ∈ [.mismatchedType, .divisionByZero, .outOfBounds]) ∧
    ∀ u, binary op v w = .ok u → ∃ type, resultOn? op v w = some type ∧ u.Shaped type [] := by
  have hclass := classified_binary op v w
  unfold FailsAs
  generalize binary op v w = e at hclass
  cases hclass with
  | mismatch htable => simp [undefined, htable, Fault.kind]
  | zero htable hdivides hzero =>
    have hshifts : ¬ (op = .shiftLeft ∨ op = .shiftRight) := by
      rcases hdivides with rfl | rfl <;> simp
    simp [htable, hdivides, hzero, hshifts, Fault.kind]
  | outside htable hshifts hout =>
    have hdivides : ¬ (op = .div ∨ op = .mod) := by
      rcases hshifts with rfl | rfl <;> simp
    simp [htable, hdivides, hshifts, hout, Fault.kind]
  | @value type u htable hdivides hshifts hu =>
    refine ⟨by simp [htable], ?_, ?_, by simp, ?_⟩
    · simpa using fun _ => hdivides
    · simpa using fun _ => hshifts
    · rintro _ ⟨⟩
      exact ⟨type, htable, hu⟩

end Value

end MiniC
