import MiniC.Value.Array

/-!
# Rectangular values

`v.Shaped leaf dims` says all that a well-formed value can be: a scalar of type `leaf` if `dims` is
empty, and else nested arrays, non-empty and rectangular with the lengths `dims`, around scalars of
the one type `leaf`.  `Value.leafType?` and `Value.shape` look along the first elements only; on a
shaped value they describe all of it (`Shaped.leafType?`, `Shaped.shape`).  Lists, filled arrays and
initializers are shaped when their checks pass, a path into a shaped value selects a shaped one
(`Shaped.atPath`), and replacing a scalar by one of its type keeps the shape (`Shaped.setAt`).
-/

namespace MiniC.Value

/-- A scalar of type `leaf` below non-empty rectangular arrays with the given lengths. -/
def Shaped (leaf : TypeName) : List Nat → Value → Prop
  | [], v => v.isScalar = true ∧ v.typeName? = some leaf
  | n :: dims, v =>
    0 < n ∧ ∃ elements : List Value, v = .array ⟨elements⟩ ∧ elements.length = n ∧
      ∀ e ∈ elements, Shaped leaf dims e

/-- A scalar, or an array that is non-empty at each level, rectangular, and of one leaf type. -/
def IsData (v : Value) : Prop := ∃ leaf dims, v.Shaped leaf dims

/-! ## Scalars -/

theorem isScalar_iff {v : Value} :
    v.isScalar = true ↔ (∃ n, v = .int n) ∨ (∃ x, v = .float x) ∨ ∃ s, v = .string s := by
  cases v <;> simp [isScalar]

theorem shaped_int (n : Int64) : (Value.int n).Shaped .int [] := ⟨rfl, rfl⟩

theorem shaped_float (x : Float) : (Value.float x).Shaped .float [] := ⟨rfl, rfl⟩

theorem shaped_string (s : String) : (Value.string s).Shaped .string [] := ⟨rfl, rfl⟩

/-- A value of type int is an int. -/
theorem eq_int_of_shaped {v : Value} (h : v.Shaped .int []) : ∃ n, v = .int n := by
  obtain ⟨hs, ht⟩ := h
  rcases isScalar_iff.1 hs with hn | ⟨x, rfl⟩ | ⟨s, rfl⟩
  · exact hn
  · cases ht
  · cases ht

theorem shaped_ofBool (b : Bool) : (ofBool b).Shaped .int [] := ⟨rfl, rfl⟩

/-- The types that a variable is declared with have a scalar as their default. -/
theorem shaped_defaultFor {type : TypeName} (hvoid : type ≠ .void) (harray : type ≠ .array) :
    (defaultFor type).Shaped type [] := by
  cases type with
  | int => exact shaped_int 0
  | float => exact shaped_float _
  | string => exact shaped_string ""
  | void => exact absurd rfl hvoid
  | array => exact absurd rfl harray

namespace Shaped

variable {leaf : TypeName} {n : Nat} {dims : List Nat} {v w : Value}

/-! ## What the first elements say -/

theorem leafType? (h : v.Shaped leaf dims) : v.leafType? = some leaf := by
  induction dims generalizing v with
  | nil =>
    obtain ⟨hs, ht⟩ := h
    cases v <;> simp_all [isScalar, typeName?, Value.leafType?]
  | cons n dims ih =>
    obtain ⟨hn, elements, rfl, rfl, he⟩ := h
    cases elements with
    | nil => exact absurd hn (Nat.lt_irrefl 0)
    | cons first rest =>
      rw [Value.leafType?]
      exact ih (he first List.mem_cons_self)

theorem shape (h : v.Shaped leaf dims) : v.shape = dims := by
  induction dims generalizing v with
  | nil =>
    obtain ⟨hs, -⟩ := h
    cases v <;> simp_all [isScalar, Value.shape]
  | cons n dims ih =>
    obtain ⟨hn, elements, rfl, rfl, he⟩ := h
    cases elements with
    | nil => exact absurd hn (Nat.lt_irrefl 0)
    | cons first rest =>
      rw [Value.shape, ih (he first List.mem_cons_self)]
      rfl

/-- A value has at most one leaf type and one list of lengths. -/
theorem unique {leaf' : TypeName} {dims' : List Nat} (h : v.Shaped leaf dims)
    (h' : v.Shaped leaf' dims') : leaf = leaf' ∧ dims = dims' :=
  ⟨Option.some.inj (h.leafType?.symm.trans h'.leafType?), h.shape.symm.trans h'.shape⟩

theorem isData (h : v.Shaped leaf dims) : v.IsData := ⟨leaf, dims, h⟩

/-- Without dimensions a value is no array, and with some it is one. -/
theorem isArray (h : v.Shaped leaf dims) : v.isArray = !dims.isEmpty := by
  cases dims with
  | nil =>
    obtain ⟨hs, -⟩ := h
    cases v <;> simp_all [isScalar, Value.isArray]
  | cons n dims =>
    obtain ⟨-, elements, rfl, -, -⟩ := h
    rfl

theorem isScalar (h : v.Shaped leaf dims) : v.isScalar = dims.isEmpty := by
  cases dims with
  | nil => exact h.1
  | cons n dims =>
    obtain ⟨-, elements, rfl, -, -⟩ := h
    rfl

theorem ne_void (h : v.Shaped leaf dims) : v ≠ .void := by
  rintro rfl
  cases h.leafType?

theorem ne_function (h : v.Shaped leaf dims) (f : FunctionDecl) : v ≠ .function f := by
  rintro rfl
  cases h.leafType?

/-! ## Paths -/

/-- An element of a shaped value has one dimension fewer. -/
theorem element (h : v.Shaped leaf dims) {i : Int64} (hw : v.element i = .ok w) :
    ∃ n rest, dims = n :: rest ∧ w.Shaped leaf rest := by
  cases dims with
  | nil =>
    rcases isScalar_iff.1 h.1 with ⟨n, rfl⟩ | ⟨x, rfl⟩ | ⟨s, rfl⟩ <;> cases hw
  | cons n rest =>
    obtain ⟨-, elements, rfl, -, he⟩ := h
    refine ⟨n, rest, rfl, ?_⟩
    simp only [Value.element] at hw
    split at hw
    · next e hfound =>
      obtain ⟨k, -, hk⟩ := Option.bind_eq_some_iff.1 hfound
      cases hw
      exact he _ (List.mem_of_getElem? (by simpa using hk))
    · cases hw

/-- What a path selects has one dimension fewer for each index. -/
theorem atPath {path : List Int64} (h : v.Shaped leaf dims) (hw : v.atPath path = .ok w) :
    path.length ≤ dims.length ∧ w.Shaped leaf (dims.drop path.length) := by
  induction path generalizing v dims with
  | nil =>
    cases hw
    exact ⟨Nat.zero_le _, h⟩
  | cons i path ih =>
    rw [Value.atPath] at hw
    cases he : v.element i with
    | error fault => rw [he] at hw; cases hw
    | ok e =>
      rw [he] at hw
      obtain ⟨n, rest, rfl, hshaped⟩ := h.element he
      obtain ⟨hle, hsel⟩ := ih hshaped hw
      exact ⟨Nat.succ_le_succ hle, hsel⟩

/-- Replacing what a path selects by something of the same shape keeps the shape of the whole. -/
theorem setAt {path : List Int64} {old new : Value} (h : v.Shaped leaf dims)
    (hold : v.atPath path = .ok old)
    (hnew : ∀ rest, old.Shaped leaf rest → new.Shaped leaf rest) :
    (v.setAt path new).Shaped leaf dims := by
  induction path generalizing v dims with
  | nil =>
    cases hold
    exact hnew dims h
  | cons i path ih =>
    rw [Value.atPath] at hold
    cases he : v.element i with
    | error fault => rw [he] at hold; cases hold
    | ok e =>
      rw [he] at hold
      obtain ⟨n, rest, rfl, hshaped⟩ := h.element he
      obtain ⟨hn, elements, rfl, hlen, hall⟩ := h
      simp only [Value.element] at he
      split at he
      · next e' hfound =>
        obtain ⟨k, hk, hget⟩ := Option.bind_eq_some_iff.1 hfound
        cases he
        have hget : elements[k]? = some e := by simpa using hget
        refine ⟨hn, elements.modify k (·.setAt path new), ?_, by simpa using hlen, ?_⟩
        · simp [Value.setAt, hk]
        · intro x hx
          obtain ⟨j, hj⟩ := List.getElem?_of_mem hx
          rw [List.getElem?_modify] at hj
          split at hj
          · next hjk =>
            subst hjk
            rw [hget] at hj
            cases hj
            exact ih hshaped hold
          · exact hall x (List.mem_of_getElem? (by simpa using hj))
      · cases he

end Shaped

/-! ## Building arrays -/

/-- A nest of arrays with positive lengths around a scalar. -/
theorem shaped_nested {leaf : TypeName} {dims : List Nat} {v : Value} (hv : v.Shaped leaf [])
    (hdims : ∀ d ∈ dims, 0 < d) : (nested dims v).Shaped leaf dims := by
  induction dims with
  | nil => exact hv
  | cons n dims ih =>
    have hinner := ih fun d hd => hdims d (List.mem_cons_of_mem n hd)
    refine ⟨hdims n List.mem_cons_self, List.replicate n (nested dims v), ?_, by simp, ?_⟩
    · simp [nested]
    · intro e he
      rw [List.eq_of_mem_replicate he]
      exact hinner

/-- Filling gives the nested arrays, or fails. -/
theorem eq_nested_of_filled {dims : List Nat} {v w : Value} (h : filled dims v = .ok w) :
    w = nested dims v := by
  unfold filled at h
  split at h
  · split at h
    · cases h
      rfl
    · cases h
  · cases h

theorem shaped_filled {leaf : TypeName} {dims : List Nat} {v w : Value} (hv : v.Shaped leaf [])
    (hdims : ∀ d ∈ dims, 0 < d) (hw : filled dims v = .ok w) : w.Shaped leaf dims := by
  rw [eq_nested_of_filled hw]
  exact shaped_nested hv hdims

/-- The check of a list looks at the leaf types and the shapes of its elements; if the elements are
shaped, the array is. -/
theorem shaped_ofElements {first w : Value} {rest : List Value} {leaf : TypeName} {dims : List Nat}
    (hfirst : first.Shaped leaf dims)
    (hrest : ∀ e ∈ rest, e.leafType? ≠ none → e.IsData)
    (hw : ofElements (first :: rest) = .ok w) :
    w.Shaped leaf ((rest.length + 1) :: dims) := by
  simp only [ofElements, hfirst.leafType?, hfirst.shape] at hw
  split at hw
  · cases hw
  · next hnone =>
    cases hw
    refine ⟨Nat.succ_pos _, first :: rest, by simp, rfl, ?_⟩
    intro e he
    have hodd := List.find?_eq_none.1 hnone e he
    simp only [ne_eq, decide_eq_true_eq, not_or, Decidable.not_not] at hodd
    rcases List.mem_cons.1 he with rfl | he
    · exact hfirst
    · obtain ⟨leaf', dims', hshaped⟩ := hrest e he (by simp [hodd.1])
      rw [hshaped.leafType?, hshaped.shape] at hodd
      cases Option.some.inj hodd.1
      cases hodd.2
      exact hshaped

/-- A list whose check passes has an element with a leaf type. -/
theorem exists_of_ofElements {elements : List Value} {w : Value}
    (hw : ofElements elements = .ok w) :
    ∃ first rest, elements = first :: rest ∧ first.leafType? ≠ none := by
  cases elements with
  | nil => cases hw
  | cons first rest =>
    refine ⟨first, rest, rfl, fun hnone => ?_⟩
    simp only [ofElements, hnone] at hw
    cases hw

/-- An initializer that conforms has a leaf type. -/
theorem leafType?_of_conform {v : Value} {type : TypeName} {dims : List (Option Nat)}
    {lengths : List Nat} (h : v.conform type dims = .ok lengths) : v.leafType? = some type := by
  unfold conform at h
  split at h
  · cases h
  · split at h
    · cases h
    · split at h
      · cases h
      · next hleaf => exact Decidable.not_not.1 hleaf

end MiniC.Value
