import Mathlib.Data.List.Forall2
import MiniC.Proofs.Value.Shape
import MiniC.Function
import MiniC.Value.Operation

/-!
# Types of values

A `ValueType` is what the language distinguishes statically: the leaf type and the number of
dimensions of data, the declaration of a function, and `void` for a call without a result.  The
lengths of arrays are no part of it.  Every operator that succeeds gives a scalar whose type depends
on the types of its operands alone (`binary_ok`, `unary_ok`, `cast_ok`, `coerce_ok`), an index takes
one dimension away (`HasType.atPath`), a list adds one (`hasType_ofElements`), and the checks of a
call read types only (`Parameter.accepts_eq`, `FunctionDecl.checkArguments_ok_of_sameType`).
-/

namespace MiniC

/-- What is known statically about a value. -/
inductive ValueType
  | data (leaf : TypeName) (dims : Nat)
  | void
  | function (f : FunctionDecl)

namespace ValueType

/-- The type of what `indices` indices select. -/
def indexed (indices : Nat) : ValueType → Option ValueType
  | .data leaf dims => if indices ≤ dims then some (.data leaf (dims - indices)) else none
  | type => if indices = 0 then some type else none

/-- The type of a list whose elements have a type. -/
def listOf? : ValueType → Option ValueType
  | .data leaf dims => some (.data leaf (dims + 1))
  | _ => none

end ValueType

/-- The type of a sum, difference, product, quotient or remainder of two scalars. -/
def arithmeticType? : TypeName → TypeName → Option TypeName
  | .int, .int => some .int
  | .string, .string => some .string
  | .int, .float | .float, .int | .float, .float => some .float
  | _, _ => none

/-- The type of the result of a binary operator on two scalars. -/
def BinaryOp.resultType? (op : BinaryOp) (left right : TypeName) : Option TypeName :=
  match op.level with
  | .multiplicative | .additive => arithmeticType? left right
  | .bitwise | .relational | .logical => some .int

/-- The type of the result of a unary operator on a scalar. -/
def UnaryOp.resultType : UnaryOp → TypeName → TypeName
  | .not, _ => .int
  | .negate, type | .bitNot, type => type

/-- The type of a literal. -/
def Literal.type : Literal → TypeName
  | .int _ => .int
  | .float _ => .float
  | .string _ => .string

/-- The type of the result of a call. -/
def FunctionDecl.resultType (f : FunctionDecl) : ValueType :=
  match f.returns with
  | .void => .void
  | type => .data type 0

namespace Value

/-- A value of a type: data is rectangular, with as many dimensions as its type says. -/
def HasType (v : Value) : ValueType → Prop
  | .data leaf dims => ∃ shape, shape.length = dims ∧ v.Shaped leaf shape
  | .void => v = .void
  | .function f => v = .function f

/-- Two values of one type. -/
def SameType (v w : Value) : Prop := ∃ type, v.HasType type ∧ w.HasType type

theorem Shaped.hasType {leaf : TypeName} {dims : List Nat} {v : Value} (h : v.Shaped leaf dims) :
    v.HasType (.data leaf dims.length) :=
  ⟨dims, rfl, h⟩

/-- A value has at most one type. -/
theorem HasType.unique {v : Value} {type type' : ValueType} (h : v.HasType type)
    (h' : v.HasType type') : type = type' := by
  cases type with
  | data leaf dims =>
    obtain ⟨shape, rfl, hshaped⟩ := h
    cases type' with
    | data leaf' dims' =>
      obtain ⟨shape', rfl, hshaped'⟩ := h'
      obtain ⟨rfl, rfl⟩ := hshaped.unique hshaped'
      rfl
    | void => exact absurd h' hshaped.ne_void
    | function f => exact absurd h' (hshaped.ne_function f)
  | void =>
    cases h
    cases type' with
    | data leaf' dims' =>
      obtain ⟨shape', -, hshaped'⟩ := h'
      exact absurd rfl hshaped'.ne_void
    | void => rfl
    | function f => cases h'
  | function f =>
    cases h
    cases type' with
    | data leaf' dims' =>
      obtain ⟨shape', -, hshaped'⟩ := h'
      exact absurd rfl (hshaped'.ne_function f)
    | void => cases h'
    | function g =>
      cases h'
      rfl

/-- A well-typed value with a leaf type is data. -/
theorem isData_of_leafType? {v : Value} (h : ∃ type, v.HasType type) (hleaf : v.leafType? ≠ none) :
    v.IsData := by
  obtain ⟨type, h⟩ := h
  cases type with
  | data leaf dims =>
    obtain ⟨shape, -, hshaped⟩ := h
    exact hshaped.isData
  | void =>
    cases h
    exact absurd rfl hleaf
  | function f =>
    cases h
    exact absurd rfl hleaf

/-! ## Operators -/

theorem literal_hasType (l : Literal) : l.toValue.HasType (.data l.type 0) := by
  cases l with
  | int n => exact (shaped_int n).hasType
  | float x => exact (shaped_float x).hasType
  | string s => exact (shaped_string s).hasType

/-- What is stored in a slot of a type has that type. -/
theorem coerce_ok {v w : Value} {type : TypeName} (h : v.coerce type = .ok w) :
    w.Shaped type [] := by
  unfold coerce at h
  split at h
  · cases h
    exact shaped_float _
  · split at h
    · cases h
      exact shaped_int _
    · cases h
  · split at h
    · next hs =>
      cases h
      simpa [Shaped] using hs
    · cases h

theorem cast_ok {v w : Value} {target : TypeName} (h : v.cast target = .ok w) :
    w.Shaped target [] := by
  unfold Value.cast at h
  split at h
  case h_1 | h_4 | h_5 | h_7 | h_8 | h_9 =>
    cases h
    exact ⟨rfl, rfl⟩
  case h_2 | h_3 | h_6 =>
    split at h
    · cases h
      exact ⟨rfl, rfl⟩
    · cases h
  case h_10 => cases h

theorem unary_ok {op : UnaryOp} {v w : Value} (h : unary op v = .ok w) :
    ∃ type, v.Shaped type [] ∧ w.Shaped (op.resultType type) [] := by
  unfold unary at h
  split at h
  case h_6 => cases h
  all_goals
    cases h
    exact ⟨_, ⟨rfl, rfl⟩, rfl, rfl⟩

/-- A number is an int or a float. -/
theorem toFloat?_eq_some {v : Value} {x : Float} (h : v.toFloat? = some x) :
    v.Shaped .int [] ∨ v.Shaped .float [] := by
  cases v with
  | int n => exact Or.inl (shaped_int n)
  | float y => exact Or.inr (shaped_float y)
  | string _ | array _ | void | function _ => cases h

theorem numericPair?_eq_some {v w : Value} {x y : Float} (h : numericPair? v w = some (x, y)) :
    (v.Shaped .int [] ∨ v.Shaped .float []) ∧ (w.Shaped .int [] ∨ w.Shaped .float []) := by
  unfold numericPair? at h
  split at h
  · next hx hy => exact ⟨toFloat?_eq_some hx, toFloat?_eq_some hy⟩
  · cases h

theorem intArithmetic_ok {op : BinaryOp} {a b : Int64} {u : Value}
    (h : intArithmetic op a b = .ok u) : u.Shaped .int [] := by
  unfold intArithmetic at h
  split at h
  case h_4 | h_5 =>
    split at h
    · cases h
    · cases h
      exact shaped_int _
  case h_6 => cases h
  all_goals
    cases h
    exact shaped_int _

theorem floatArithmetic_ok {op : BinaryOp} {x y : Float} {u : Value}
    (h : floatArithmetic op x y = .ok u) : u.Shaped .float [] := by
  unfold floatArithmetic at h
  split at h
  case h_4 =>
    split at h
    · cases h
    · cases h
      exact shaped_float _
  case h_5 => cases h
  all_goals
    cases h
    exact shaped_float _

theorem arithmetic_ok {op : BinaryOp} {v w u : Value} (h : arithmetic op v w = .ok u) :
    ∃ left right type, v.Shaped left [] ∧ w.Shaped right [] ∧
      arithmeticType? left right = some type ∧ u.Shaped type [] := by
  unfold arithmetic at h
  split at h
  · exact ⟨_, _, _, shaped_int _, shaped_int _, rfl, intArithmetic_ok h⟩
  · split at h
    · cases h
      exact ⟨_, _, _, shaped_string _, shaped_string _, rfl, shaped_string _⟩
    · cases h
  · next hint _ =>
    split at h
    · next x y hpair =>
      split at h
      · cases h
      · have hu := floatArithmetic_ok h
        obtain ⟨hv | hv, hw | hw⟩ := numericPair?_eq_some hpair
        · -- two ints are handled by the first row
          obtain ⟨a, rfl⟩ := eq_int_of_shaped hv
          obtain ⟨b, rfl⟩ := eq_int_of_shaped hw
          exact absurd rfl (hint a b rfl)
        · exact ⟨_, _, _, hv, hw, rfl, hu⟩
        · exact ⟨_, _, _, hv, hw, rfl, hu⟩
        · exact ⟨_, _, _, hv, hw, rfl, hu⟩
    · cases h

theorem bitwise_ok {op : BinaryOp} {v w u : Value} (h : bitwise op v w = .ok u) :
    v.Shaped .int [] ∧ w.Shaped .int [] ∧ u.Shaped .int [] := by
  unfold bitwise at h
  split at h
  · refine ⟨shaped_int _, shaped_int _, ?_⟩
    split at h
    case h_4 | h_5 =>
      unfold shift at h
      split at h
      · cases h
        exact shaped_int _
      · cases h
    case h_6 => cases h
    all_goals
      cases h
      exact shaped_int _
  · cases h

theorem comparison_ok {op : BinaryOp} {v w u : Value} (h : comparison op v w = .ok u) :
    ∃ left right, v.Shaped left [] ∧ w.Shaped right [] ∧ u.Shaped .int [] := by
  unfold comparison at h
  split at h
  · cases h
    exact ⟨_, _, shaped_int _, shaped_int _, shaped_ofBool _⟩
  · refine ⟨_, _, shaped_string _, shaped_string _, ?_⟩
    split at h
    case h_3 => cases h
    all_goals
      cases h
      exact shaped_ofBool _
  · split at h
    · next x y hpair =>
      cases h
      obtain ⟨hv | hv, hw | hw⟩ := numericPair?_eq_some hpair <;>
        exact ⟨_, _, hv, hw, shaped_ofBool _⟩
    · cases h

/-- A condition is a number. -/
theorem truth_ok {v : Value} {b : Bool} (h : v.truth = .ok b) : ∃ type, v.Shaped type [] := by
  unfold truth at h
  split at h
  · exact ⟨_, shaped_int _⟩
  · exact ⟨_, shaped_float _⟩
  · cases h

theorem logic_ok {op : BinaryOp} {v w u : Value} (h : logic op v w = .ok u) :
    ∃ left right, v.Shaped left [] ∧ w.Shaped right [] ∧ u.Shaped .int [] := by
  unfold logic at h
  split at h
  · next a b ha hb =>
    obtain ⟨left, hv⟩ := truth_ok ha
    obtain ⟨right, hw⟩ := truth_ok hb
    refine ⟨left, right, hv, hw, ?_⟩
    split at h
    case h_3 => cases h
    all_goals
      cases h
      exact shaped_ofBool _
  · cases h

/-- Binary operators have no meaning for values that are not scalars. -/
theorem binary_of_not_scalar (op : BinaryOp) {v w : Value}
    (h : (v.isScalar && w.isScalar) = false) : binary op v w = undefined op v w := by
  unfold binary
  cases op.level <;> cases v <;> cases w <;> first | rfl | cases h

/-- A binary operator that succeeds has two scalars as its operands, and the type of its result is
the one that its table gives for theirs. -/
theorem binary_ok {op : BinaryOp} {v w u : Value} (h : binary op v w = .ok u) :
    ∃ left right type, v.Shaped left [] ∧ w.Shaped right [] ∧
      op.resultType? left right = some type ∧ u.Shaped type [] := by
  unfold binary at h
  unfold BinaryOp.resultType?
  cases hlevel : op.level with
  | multiplicative | additive =>
    rw [hlevel] at h
    exact arithmetic_ok h
  | bitwise =>
    rw [hlevel] at h
    obtain ⟨hv, hw, hu⟩ := bitwise_ok h
    exact ⟨_, _, _, hv, hw, rfl, hu⟩
  | relational =>
    rw [hlevel] at h
    obtain ⟨left, right, hv, hw, hu⟩ := comparison_ok h
    exact ⟨_, _, _, hv, hw, rfl, hu⟩
  | logical =>
    rw [hlevel] at h
    obtain ⟨left, right, hv, hw, hu⟩ := logic_ok h
    exact ⟨_, _, _, hv, hw, rfl, hu⟩

/-- An assignment needs a scalar in the slot and stores a scalar of the same type. -/
theorem assigned_ok {current new w : Value} {op : AssignOp}
    (h : current.assigned op new = .ok w) : ∃ type, current.Shaped type [] ∧ w.Shaped type [] := by
  unfold assigned at h
  split at h
  · next type htype =>
    split at h
    · next hs =>
      refine ⟨type, ⟨hs, htype⟩, ?_⟩
      split at h
      · exact coerce_ok h
      · next op' =>
        cases hb : binary op' current new with
        | error fault => rw [hb] at h; cases h
        | ok u => rw [hb] at h; exact coerce_ok h
    · cases h
  · cases h

/-! ## Arrays -/

/-- What indices select has a type that depends on their number only. -/
theorem HasType.atPath {v w : Value} {type : ValueType} {path : List Int64}
    (h : v.HasType type) (hw : v.atPath path = .ok w) :
    ∃ type', type.indexed path.length = some type' ∧ w.HasType type' := by
  cases type with
  | data leaf dims =>
    obtain ⟨shape, rfl, hshaped⟩ := h
    obtain ⟨hle, hsel⟩ := hshaped.atPath hw
    refine ⟨.data leaf (shape.length - path.length), by simp [ValueType.indexed, hle], ?_⟩
    exact ⟨shape.drop path.length, List.length_drop, hsel⟩
  | void | function f =>
    cases h
    cases path with
    | nil =>
      cases hw
      exact ⟨_, rfl, rfl⟩
    | cons i path => cases hw

/-- A list of well-typed elements that passes its check has the type that the type of its first
element determines. -/
theorem hasType_ofElements {first w : Value} {rest : List Value} {type : ValueType}
    (hfirst : first.HasType type) (hrest : ∀ e ∈ rest, ∃ type', e.HasType type')
    (hw : ofElements (first :: rest) = .ok w) :
    ∃ type', type.listOf? = some type' ∧ w.HasType type' := by
  obtain ⟨first', rest', hcons, hleaf⟩ := exists_of_ofElements hw
  obtain ⟨rfl, rfl⟩ := List.cons.inj hcons
  cases type with
  | data leaf dims =>
    obtain ⟨shape, rfl, hshaped⟩ := hfirst
    refine ⟨_, rfl, (rest.length + 1) :: shape, rfl, shaped_ofElements hshaped ?_ hw⟩
    intro e he hne
    exact isData_of_leafType? (hrest e he) hne
  | void =>
    cases hfirst
    exact absurd rfl hleaf
  | function f =>
    cases hfirst
    exact absurd rfl hleaf

end Value

/-! ## Calls -/

/-- Whether a parameter accepts the values of a type. -/
def Parameter.acceptsType (p : Parameter) : ValueType → Bool
  | .data leaf dims => if p.type = .array then dims ≠ 0 else p.dims = dims && p.type = leaf
  | .void | .function _ => false

theorem Parameter.accepts_of_ne {p : Parameter} (h : p.type ≠ .array) (v : Value) :
    p.accepts v =
      if v.isArray then 0 < p.dims && v.shape.length = p.dims && v.leafType? = some p.type
      else p.dims = 0 && v.isScalar && v.typeName? = some p.type := by
  unfold Parameter.accepts
  split
  · next harray => exact absurd harray h
  · rfl

theorem Parameter.accepts_eq {p : Parameter} {v : Value} {type : ValueType}
    (h : v.HasType type) : p.accepts v = p.acceptsType type := by
  by_cases harray : p.type = .array
  · have hv : p.accepts v = v.isArray := by
      unfold Parameter.accepts
      rw [harray]
    rw [hv]
    cases type with
    | data leaf dims =>
      obtain ⟨shape, rfl, hshaped⟩ := h
      cases shape <;> simp [hshaped.isArray, Parameter.acceptsType, harray]
    | void | function f =>
      cases h
      rfl
  · rw [Parameter.accepts_of_ne harray]
    cases type with
    | data leaf dims =>
      obtain ⟨shape, rfl, hshaped⟩ := h
      simp only [hshaped.isArray, hshaped.isScalar, hshaped.shape, hshaped.leafType?,
        Parameter.acceptsType, if_neg harray]
      cases shape with
      | nil =>
        have htype : v.typeName? = some leaf := hshaped.2
        simp [htype, eq_comm]
      | cons n shape =>
        by_cases hd : p.dims = shape.length + 1
        · simp [hd, eq_comm]
        · simp [hd, Ne.symm hd]
    | void | function f =>
      cases h
      simp [Parameter.acceptsType, Value.isArray, Value.isScalar]

/-- An argument that a parameter accepts is data. -/
theorem Parameter.isData_of_accepts {p : Parameter} {v : Value} (hv : ∃ type, v.HasType type)
    (h : p.accepts v = true) : v.IsData := by
  obtain ⟨type, hv⟩ := hv
  rw [Parameter.accepts_eq hv] at h
  cases type with
  | data leaf dims =>
    obtain ⟨shape, -, hshaped⟩ := hv
    exact hshaped.isData
  | void | function f => cases h

namespace FunctionDecl

/-- The arguments of a call fit if there are as many as parameters and each is accepted. -/
theorem checkArguments_ok_iff {f : FunctionDecl} {arguments : List Value} :
    f.checkArguments arguments = .ok () ↔
      List.Forall₂ (fun p v => p.accepts v = true) f.parameters arguments := by
  rw [List.forall₂_iff_zip]
  unfold checkArguments
  constructor
  · intro h
    split at h
    · cases h
    · next hlen =>
      refine ⟨(Decidable.not_not.1 hlen).symm, fun {p v} hmem => ?_⟩
      split at h
      · cases h
      · next hnone => simpa using List.find?_eq_none.1 hnone (p, v) hmem
  · rintro ⟨hlen, hall⟩
    rw [if_neg (by simp [hlen])]
    split
    · next p v hsome =>
      have hrejected := List.find?_some hsome
      have haccepted := hall (List.mem_of_find?_eq_some hsome)
      simp [haccepted] at hrejected
    · rfl

/-- Arguments of the same types fit the same parameters. -/
theorem checkArguments_ok_of_sameType {f : FunctionDecl} {arguments arguments' : List Value}
    (same : List.Forall₂ Value.SameType arguments arguments')
    (h : f.checkArguments arguments = .ok ()) : f.checkArguments arguments' = .ok () := by
  rw [checkArguments_ok_iff] at h ⊢
  generalize f.parameters = parameters at h ⊢
  induction same generalizing parameters with
  | nil => exact h
  | cons hvw _ ih =>
    obtain ⟨type, hv, hw⟩ := hvw
    cases h with
    | cons hp hrest =>
      refine .cons ?_ (ih _ hrest)
      rw [Parameter.accepts_eq hw, ← Parameter.accepts_eq hv]
      exact hp

/-- What a call returns has the type that the function is declared with. -/
theorem checkResult_ok {f : FunctionDecl} {v w : Value} (h : f.checkResult v = .ok w) :
    w.HasType f.resultType := by
  unfold checkResult at h
  split at h
  · next hreturn =>
    cases h
    unfold canReturn at hreturn
    unfold resultType
    generalize f.returns = type at hreturn ⊢
    cases type with
    | void =>
      cases v with
      | void => rfl
      | int _ | float _ | string _ | array _ | function _ => cases hreturn
    | int | float | string | array =>
      have hshaped := (Bool.and_eq_true_iff.1 hreturn).imp id of_decide_eq_true
      exact Value.Shaped.hasType (show Value.Shaped _ [] v from hshaped)
  · cases h

end FunctionDecl

end MiniC
