import MiniC.Eval.Builtin
import MiniC.Eval.Place
import MiniC.Proofs.Syntax.Unplaced
import MiniC.Proofs.Value.Type

/-!
# Values without positions

Functions are values and keep the lexemes of their declarations, so positions stand in values too.
No operation on values depends on them: applied to values without positions it gives its result
without positions, or the same fault.  There is one lemma for each operation, and for the checks of
calls.
-/

namespace MiniC

namespace Value

mutual

/-- A value without positions. -/
def unplaced : Value → Value
  | .int n => .int n
  | .float x => .float x
  | .string s => .string s
  | .array ⟨elements⟩ => .array ⟨unplacedAll elements⟩
  | .void => .void
  | .function f => .function f.unplaced

/-- Values without positions. -/
def unplacedAll : List Value → List Value
  | [] => []
  | v :: vs => v.unplaced :: unplacedAll vs

end

theorem unplacedAll_eq (vs : List Value) : unplacedAll vs = vs.map unplaced := by
  induction vs with
  | nil => rfl
  | cons v vs ih => rw [unplacedAll, ih, List.map_cons]

theorem unplaced_array (elements : Array Value) :
    (Value.array elements).unplaced = .array (elements.map unplaced) := by
  obtain ⟨vs⟩ := elements
  rw [unplaced, unplacedAll_eq, List.map_toArray]

theorem unplaced_of_isScalar {v : Value} (h : v.isScalar = true) : v.unplaced = v := by
  cases v with
  | int _ | float _ | string _ => rfl
  | array _ | void | function _ => cases h

theorem Shaped.unplaced {v : Value} {type : TypeName} (h : v.Shaped type []) : v.unplaced = v :=
  unplaced_of_isScalar h.isScalar

/-! ## Types -/

theorem typeName?_unplaced (v : Value) : v.unplaced.typeName? = v.typeName? := by
  cases v <;> rfl

theorem isScalar_unplaced (v : Value) : v.unplaced.isScalar = v.isScalar := by
  cases v <;> rfl

theorem isArray_unplaced (v : Value) : v.unplaced.isArray = v.isArray := by
  cases v <;> rfl

theorem leafType?_unplaced (v : Value) : v.unplaced.leafType? = v.leafType? := by
  fun_induction leafType? v with
  | case4 first rest ih => exact ih
  | case1 | case2 | case3 | case5 | case6 | case7 => rfl

theorem shape_unplaced (v : Value) : v.unplaced.shape = v.shape := by
  fun_induction shape v with
  | case1 first rest ih =>
    rw [unplaced, unplacedAll, shape, ih, unplacedAll_eq, List.length_map]
  | case2 => rfl
  | case3 v hcons hnil =>
    cases v with
    | int _ | float _ | string _ | void | function _ => rfl
    | array elements =>
      obtain ⟨_ | ⟨first, rest⟩⟩ := elements
      · exact absurd rfl hnil
      · exact absurd rfl (hcons first rest)

theorem describe_unplaced (v : Value) : v.unplaced.describe = v.describe := by
  cases v with
  | int _ | float _ | string _ | void | function _ => rfl
  | array elements =>
    have hleaf := leafType?_unplaced (.array elements)
    have hshape := shape_unplaced (.array elements)
    rw [unplaced_array] at hleaf hshape ⊢
    rw [describe, describe, hleaf, hshape]

/-! ## Conversions -/

/-- A computation that gives scalars has no positions in its value. -/
theorem map_unplaced_of_shaped {e : Except Fault Value}
    (h : ∀ v, e = .ok v → ∃ type, v.Shaped type []) : e.map unplaced = e := by
  cases e with
  | error fault => rfl
  | ok v =>
    obtain ⟨type, hv⟩ := h v rfl
    exact congrArg _ hv.unplaced

/-- An operation that refuses all values but scalars, for what they are described as, does not see
positions. -/
theorem eq_unplaced_of_refuses {α : Type} (op : Value → Except Fault α)
    (refusal : Description → Fault)
    (h : ∀ v, v.isScalar = false → op v = .error (refusal v.describe)) (v : Value) :
    op v.unplaced = op v := by
  cases hv : v.isScalar with
  | true => rw [unplaced_of_isScalar hv]
  | false => rw [h v hv, h v.unplaced ((isScalar_unplaced v).trans hv), describe_unplaced]

theorem truth_unplaced (v : Value) : v.unplaced.truth = v.truth := by
  refine eq_unplaced_of_refuses truth .notNumeric (fun w hw => ?_) v
  cases w <;> first | rfl | cases hw

theorem toInt_unplaced (v : Value) (role : String) : v.unplaced.toInt role = v.toInt role := by
  refine eq_unplaced_of_refuses (·.toInt role) (.notInt role) (fun w hw => ?_) v
  cases w <;> first | rfl | cases hw

theorem coerce_unplaced (v : Value) (type : TypeName) :
    v.unplaced.coerce type = (v.coerce type).map unplaced := by
  rw [map_unplaced_of_shaped fun w hw => ⟨type, coerce_ok hw⟩]
  refine eq_unplaced_of_refuses (·.coerce type) (.notStorable · type) (fun w hw => ?_) v
  cases w <;> first | rfl | cases hw

theorem cast_unplaced (target : TypeName) (v : Value) :
    v.unplaced.cast target = (v.cast target).map unplaced := by
  rw [map_unplaced_of_shaped fun w hw => ⟨target, cast_ok hw⟩]
  refine eq_unplaced_of_refuses (·.cast target) (.notCastable · target) (fun w hw => ?_) v
  cases target <;> cases w <;> first | rfl | cases hw

/-! ## Arrays -/

theorem ofElements_unplaced (vs : List Value) :
    ofElements (vs.map unplaced) = (ofElements vs).map unplaced := by
  cases vs with
  | nil => rfl
  | cons first rest =>
    have harray := unplaced_array (first :: rest).toArray
    rw [List.map_toArray] at harray
    rw [ofElements]
    simp only [List.map_cons, ofElements, leafType?_unplaced, describe_unplaced, shape_unplaced]
    cases first.leafType? with
    | none => rfl
    | some leaf =>
      have hodd : (fun e : Value => decide (e.leafType? ≠ some leaf ∨ e.shape ≠ first.shape)) ∘
          unplaced = fun e => decide (e.leafType? ≠ some leaf ∨ e.shape ≠ first.shape) := by
        funext e
        rw [Function.comp_apply, leafType?_unplaced, shape_unplaced]
      dsimp only
      rw [← List.map_cons, List.find?_map, hodd]
      cases List.find? _ (first :: rest) with
      | none => exact congrArg Except.ok harray.symm
      | some odd => exact congrArg (Except.error <| Fault.mixedList _ ·) (describe_unplaced odd)

theorem nested_unplaced (dims : List Nat) (leaf : Value) :
    (nested dims leaf).unplaced = nested dims leaf.unplaced := by
  induction dims with
  | nil => rfl
  | cons length dims ih => rw [nested, unplaced_array, Array.map_replicate, ih, nested]

theorem filled_unplaced (dims : List Nat) (leaf : Value) :
    filled dims leaf.unplaced = (filled dims leaf).map unplaced := by
  unfold filled
  split
  · split
    · rw [Except.map, nested_unplaced]
    · rfl
  · rfl

theorem conform_unplaced (v : Value) (type : TypeName) (dims : List (Option Nat)) :
    v.unplaced.conform type dims = v.conform type dims := by
  unfold conform
  rw [shape_unplaced, leafType?_unplaced, describe_unplaced]

theorem element_unplaced (v : Value) (index : Int64) :
    v.unplaced.element index = (v.element index).map unplaced := by
  cases v with
  | int _ | float _ | string _ | void | function _ => rfl
  | array elements =>
    rw [unplaced_array, element, element, Array.size_map]
    cases position? index with
    | none => rfl
    | some i =>
      rw [Option.bind_some, Option.bind_some, Array.getElem?_map]
      cases elements[i]? <;> rfl

theorem atPath_unplaced (v : Value) (path : List Int64) :
    v.unplaced.atPath path = (v.atPath path).map unplaced := by
  induction path generalizing v with
  | nil => rfl
  | cons index path ih =>
    rw [atPath, atPath, element_unplaced]
    cases v.element index with
    | error fault => rfl
    | ok w => exact ih w

theorem setAt_unplaced (v new : Value) (path : List Int64) :
    (v.setAt path new).unplaced = v.unplaced.setAt path new.unplaced := by
  induction path generalizing v with
  | nil => rfl
  | cons index path ih =>
    cases v with
    | int _ | float _ | string _ | void | function _ => rfl
    | array elements =>
      cases hposition : position? index with
      | none => simp only [setAt, hposition, unplaced_array]
      | some i =>
        simp only [setAt, hposition, unplaced_array]
        congr 1
        refine Array.ext_getElem? fun j => ?_
        rw [Array.getElem?_map, Array.getElem?_modify, Array.getElem?_modify, Array.getElem?_map]
        split
        · cases elements[j]? with
          | none => rfl
          | some e => exact congrArg some (ih e)
        · rfl

/-! ## Operators -/

theorem unary_unplaced (op : UnaryOp) (v : Value) :
    unary op v.unplaced = (unary op v).map unplaced := by
  have hshaped : ∀ w, unary op v = .ok w → ∃ type, w.Shaped type [] := fun w hw => by
    obtain ⟨type, -, hw⟩ := unary_ok hw
    exact ⟨_, hw⟩
  rw [map_unplaced_of_shaped hshaped]
  refine eq_unplaced_of_refuses (unary op) (.unaryUndefined op) (fun w hw => ?_) v
  cases op <;> cases w <;> first | rfl | cases hw

theorem binary_unplaced (op : BinaryOp) (v w : Value) :
    binary op v.unplaced w.unplaced = (binary op v w).map unplaced := by
  have hshaped : ∀ u, binary op v w = .ok u → ∃ type, u.Shaped type [] := fun u hu => by
    obtain ⟨_, _, type, -, -, -, hu⟩ := binary_ok hu
    exact ⟨type, hu⟩
  rw [map_unplaced_of_shaped hshaped]
  cases h : v.isScalar && w.isScalar with
  | true =>
    obtain ⟨hv, hw⟩ := Bool.and_eq_true_iff.1 h
    rw [unplaced_of_isScalar hv, unplaced_of_isScalar hw]
  | false =>
    have hunplaced : (v.unplaced.isScalar && w.unplaced.isScalar) = false := by
      rwa [isScalar_unplaced, isScalar_unplaced]
    rw [binary_of_not_scalar op h, binary_of_not_scalar op hunplaced, undefined, undefined,
      describe_unplaced, describe_unplaced]

theorem assigned_unplaced (current : Value) (op : AssignOp) (new : Value) :
    current.unplaced.assigned op new.unplaced = (current.assigned op new).map unplaced := by
  unfold assigned
  rw [typeName?_unplaced, isScalar_unplaced, describe_unplaced]
  cases current.typeName? with
  | none => rfl
  | some type =>
    dsimp only
    split
    · cases op with
      | plain => exact coerce_unplaced new type
      | compound op =>
        dsimp only
        rw [binary_unplaced]
        cases binary op current new with
        | error fault => rfl
        | ok w => exact coerce_unplaced w type
    · rfl

/-! ## Texts -/

theorem elementTexts_cons (v : Value) (rest : List Value) :
    elementTexts (v :: rest) =
      (match v with
        | .string s => "'" ++ s ++ "'"
        | v => v.render) :: elementTexts rest := by
  cases v <;> simp only [elementTexts]

mutual

theorem render_unplaced : (v : Value) → v.unplaced.render = v.render
  | .int _ | .float _ | .string _ | .void | .function _ => rfl
  | .array ⟨elements⟩ => by rw [unplaced, render, render, elementTexts_unplaced elements]

theorem elementTexts_unplaced : (vs : List Value) →
    elementTexts (unplacedAll vs) = elementTexts vs
  | [] => rfl
  | v :: rest => by
    have hv := render_unplaced v
    rw [unplacedAll, elementTexts_cons, elementTexts_cons, elementTexts_unplaced rest]
    cases v with
    | string s => rfl
    | int _ | float _ | array _ | void | function _ => exact congrArg (· :: _) hv

end

end Value

theorem Builtin.expandedText_unplaced (v : Value) : expandedText v.unplaced = expandedText v := by
  cases v with
  | string s => rfl
  | int _ | float _ | array _ | void | function _ => exact Value.render_unplaced _

/-! ## Declarations -/

theorem initialValue_unplaced (d : Declaration) (dims : List (Option Nat))
    (initial : Option Value) :
    initialValue d.unplaced dims (initial.map Value.unplaced) =
      (initialValue d dims initial).map Value.unplaced := by
  have hdefault : (Value.defaultFor d.type).unplaced = Value.defaultFor d.type := by
    cases d.type <;> rfl
  unfold initialValue
  cases dims with
  | nil =>
    cases initial with
    | some v => exact v.coerce_unplaced d.type
    | none => exact congrArg Except.ok hdefault.symm
  | cons dim dims =>
    cases initial with
    | some v =>
      dsimp only [Option.map_some]
      rw [show d.unplaced.type = d.type from rfl, v.conform_unplaced]
      cases v.conform d.type (dim :: dims) <;> rfl
    | none =>
      dsimp only [Option.map_none]
      cases allLengths? (dim :: dims) with
      | none => rfl
      | some lengths =>
        have hfilled := Value.filled_unplaced lengths (Value.defaultFor d.type)
        rw [hdefault] at hfilled
        exact hfilled

/-! ## Calls -/

theorem Parameter.accepts_unplaced (p : Parameter) (v : Value) :
    p.unplaced.accepts v.unplaced = p.accepts v := by
  unfold accepts
  rw [v.isArray_unplaced, v.shape_unplaced, v.leafType?_unplaced, v.isScalar_unplaced,
    v.typeName?_unplaced]
  rfl

namespace FunctionDecl

variable (f : FunctionDecl)

theorem checkArguments_unplaced (arguments : List Value) :
    f.unplaced.checkArguments (arguments.map Value.unplaced) = f.checkArguments arguments := by
  have hrefused : ∀ refused : Parameter × Value → Bool,
      (∀ p v, refused (p, v) = !Parameter.accepts p v) →
      refused ∘ Prod.map Parameter.unplaced Value.unplaced = refused := by
    intro refused hrefused
    funext b
    obtain ⟨p, v⟩ := b
    rw [Function.comp_apply, Prod.map_apply, hrefused, hrefused, p.accepts_unplaced]
  unfold checkArguments
  rw [List.length_map, show f.unplaced.parameters = f.parameters.map Parameter.unplaced from rfl,
    List.length_map, List.zip_map]
  split
  · rfl
  · rw [List.find?_map, hrefused _ fun _ _ => rfl]
    cases List.find? _ (f.parameters.zip arguments) with
    | none => rfl
    | some b =>
      obtain ⟨p, v⟩ := b
      exact congrArg (Except.error <| Fault.argumentType p.name f.name p.expects ·)
        v.describe_unplaced

theorem canReturn_unplaced (v : Value) : f.unplaced.canReturn v.unplaced = f.canReturn v := by
  unfold canReturn
  rw [v.isScalar_unplaced, v.typeName?_unplaced, show f.unplaced.returns = f.returns from rfl]
  cases f.returns with
  | void => cases v <;> rfl
  | int | float | string | array => rfl

theorem checkResult_unplaced (v : Value) :
    f.unplaced.checkResult v.unplaced = (f.checkResult v).map Value.unplaced := by
  unfold checkResult
  rw [canReturn_unplaced, v.describe_unplaced]
  split <;> rfl

end FunctionDecl

end MiniC
