import MiniC.Proofs.Value.Type

/-!
# Paths into arrays

What a path of indices selects in a rectangular value is decided by the shape of the value, which is
read off along the first elements only.  Main statement: `atPath_selects`, for any path into any
well-formed value.

`v.DiffersAt path w` says that two values are the same but for one slot, a scalar that the path
selects: the arrays around it have the same elements everywhere else.  Storing a scalar along a path
changes a value there only (`differsAt_setAt`).
-/

namespace MiniC.Value

/-- At most the scalar at the end of a path is not the same, and that is of the same type. -/
inductive DiffersAt : List Int64 → Value → Value → Prop
  | slot {v w : Value} {type : TypeName} (hv : v.Shaped type []) (hw : w.Shaped type []) :
      DiffersAt [] v w
  | element {index : Int64} {path : List Int64} {xs ys : Array Value} {i : Nat} {x y : Value}
      (position : position? index = some i) (old : xs[i]? = some x) (new : ys[i]? = some y)
      (others : ∀ j, j ≠ i → ys[j]? = xs[j]?) (below : DiffersAt path x y) :
      DiffersAt (index :: path) (.array xs) (.array ys)

/-- An index that selects an element is a position in an array. -/
theorem element_ok {v w : Value} {index : Int64} (h : v.element index = .ok w) :
    ∃ elements i, v = .array elements ∧ position? index = some i ∧ elements[i]? = some w := by
  cases v with
  | array elements =>
    unfold element at h
    dsimp only at h
    split at h
    · next e hfound =>
      cases h
      obtain ⟨i, hi, he⟩ := Option.bind_eq_some_iff.1 hfound
      exact ⟨elements, i, rfl, hi, he⟩
    · cases h
  | int _ | float _ | string _ | void | function _ => cases h

/-- Storing along a path changes nothing but the slot at its end. -/
theorem differsAt_setAt {v old new : Value} {path : List Int64} {type : TypeName}
    (hold : v.atPath path = .ok old) (hscalar : old.Shaped type []) (hnew : new.Shaped type []) :
    v.DiffersAt path (v.setAt path new) := by
  induction path generalizing v with
  | nil =>
    cases hold
    exact .slot hscalar hnew
  | cons index path ih =>
    rw [atPath] at hold
    cases hx : v.element index with
    | error fault =>
      rw [hx] at hold
      cases hold
    | ok x =>
      rw [hx] at hold
      obtain ⟨elements, i, rfl, hi, hget⟩ := element_ok hx
      unfold setAt
      rw [hi]
      refine .element hi hget (y := x.setAt path new) ?_ (fun j hj => ?_) (ih hold)
      · simp [Array.getElem?_modify, hget]
      · simp [Array.getElem?_modify, Ne.symm hj]

/-! ## What paths select -/

/-- A path has an index in range for each of the dimensions that it goes through, and goes through
no more than there are. -/
structure PathIn (dims : List Nat) (path : List Int64) : Prop where
  length : path.length ≤ dims.length
  inRange : ∀ index n, (index, n) ∈ path.zip dims → 0 ≤ index.toInt ∧ index.toInt < n

section PathIn

variable {dims : List Nat} {n : Nat} {index : Int64} {path : List Int64}

theorem pathIn_nil (dims : List Nat) : PathIn dims [] :=
  ⟨Nat.zero_le _, fun _ _ h => by cases h⟩

theorem not_pathIn_of_nil : ¬ PathIn [] (index :: path) := by
  intro h
  have hlength := h.length
  simp at hlength

theorem pathIn_cons :
    PathIn (n :: dims) (index :: path) ↔
      (0 ≤ index.toInt ∧ index.toInt < n) ∧ PathIn dims path := by
  constructor
  · intro h
    refine ⟨h.inRange index n (by simp), ?_, ?_⟩
    · exact Nat.le_of_succ_le_succ h.length
    · intro i k hmem
      apply h.inRange i k
      exact List.mem_cons_of_mem _ hmem
  · rintro ⟨hindex, hpath⟩
    refine ⟨Nat.succ_le_succ hpath.length, ?_⟩
    intro i k hmem
    rcases List.mem_cons.1 hmem with hhead | htail
    · cases hhead
      exact hindex
    · exact hpath.inRange i k htail

end PathIn

/-- A path fails at the first of its indices that selects nothing, with the error of that step. -/
theorem atPath_error {v : Value} {path : List Int64} {fault : Fault}
    (h : v.atPath path = .error fault) :
    ∃ before index after w, path = before ++ index :: after ∧ v.atPath before = .ok w ∧
      w.element index = .error fault := by
  induction path generalizing v with
  | nil => cases h
  | cons index path ih =>
    rw [atPath] at h
    cases hx : v.element index with
    | error fault' =>
      rw [hx] at h
      cases h
      exact ⟨[], index, path, v, rfl, rfl, hx⟩
    | ok x =>
      rw [hx] at h
      obtain ⟨before, index', after, w, rfl, hbefore, hw⟩ := ih h
      refine ⟨index :: before, index', after, w, rfl, ?_, hw⟩
      rw [atPath, hx]
      exact hbefore

/-- A scalar has no elements. -/
theorem element_of_isScalar {v : Value} (h : v.isScalar = true) (index : Int64) :
    v.element index = .error (.notIndexable v.describe) := by
  rcases isScalar_iff.1 h with ⟨n, rfl⟩ | ⟨x, rfl⟩ | ⟨s, rfl⟩ <;> rfl

namespace Shaped

variable {leaf : TypeName} {n : Nat} {dims : List Nat} {v : Value} {index : Int64}

/-- Each index in the range of the outermost dimension selects an element, which has the other
dimensions. -/
theorem element_of_inRange (h : v.Shaped leaf (n :: dims))
    (hindex : 0 ≤ index.toInt ∧ index.toInt < n) :
    ∃ w, v.element index = .ok w ∧ w.Shaped leaf dims := by
  obtain ⟨-, elements, rfl, rfl, hall⟩ := h
  obtain ⟨i, hi, hlt⟩ : ∃ i, position? index = some i ∧ i < elements.length :=
    ⟨index.toInt.toNat, if_pos hindex.1, by omega⟩
  refine ⟨elements[i], ?_, hall _ (List.getElem_mem hlt)⟩
  simp [Value.element, hi, hlt]

/-- Any other index is outside, and the error gives the length of the dimension. -/
theorem element_of_not_inRange (h : v.Shaped leaf (n :: dims))
    (hindex : ¬ (0 ≤ index.toInt ∧ index.toInt < n)) :
    v.element index = .error (.indexOutside index n) := by
  obtain ⟨-, elements, rfl, rfl, -⟩ := h
  have hout : ∀ i, position? index = some i → elements.length ≤ i := by
    intro i hi
    unfold position? at hi
    split at hi
    · cases hi
      omega
    · cases hi
  unfold Value.element
  cases hi : position? index with
  | none => simp
  | some i => simp [hout i hi]

/-- The dimensions decide which paths select something. -/
theorem atPath_ok_iff {path : List Int64} (h : v.Shaped leaf dims) :
    (∃ w, v.atPath path = .ok w) ↔ PathIn dims path := by
  induction path generalizing v dims with
  | nil => exact iff_of_true ⟨v, rfl⟩ (pathIn_nil dims)
  | cons index path ih =>
    rw [Value.atPath]
    cases dims with
    | nil =>
      rw [element_of_isScalar h.1]
      apply iff_of_false _ not_pathIn_of_nil
      rintro ⟨w, hw⟩
      cases hw
    | cons n dims =>
      rw [pathIn_cons]
      by_cases hindex : 0 ≤ index.toInt ∧ index.toInt < n
      · obtain ⟨x, hx, hshaped⟩ := h.element_of_inRange hindex
        rw [hx, and_iff_right hindex]
        exact ih hshaped
      · rw [h.element_of_not_inRange hindex]
        apply iff_of_false
        · rintro ⟨w, hw⟩
          cases hw
        · exact fun hin => hindex hin.1

/-- An index that selects no element of an array is out of bounds, and a scalar is of the wrong type
for any index. -/
theorem element_error {fault : Fault} (h : v.Shaped leaf dims)
    (hfault : v.element index = .error fault) :
    (v.isArray = true ∧ fault.kind = .outOfBounds) ∨
      (v.isScalar = true ∧ fault.kind = .mismatchedType) := by
  cases dims with
  | nil =>
    rw [element_of_isScalar h.1] at hfault
    cases hfault
    exact Or.inr ⟨h.1, rfl⟩
  | cons n dims =>
    have hindex : ¬ (0 ≤ index.toInt ∧ index.toInt < n) := by
      intro hin
      obtain ⟨w, hw, -⟩ := h.element_of_inRange hin
      rw [hw] at hfault
      cases hfault
    rw [h.element_of_not_inRange hindex] at hfault
    cases hfault
    exact Or.inl ⟨h.isArray, rfl⟩

end Shaped

/-- The first elements describe all of a well-formed value.  A path selects something in it if and
only if it is no longer than the shape and each index is in the range of its dimension.  What it
selects is well-formed, with the rest of the shape and the same leaf type.  Otherwise the error is
that of the first step that fails: out of bounds if that step indexes an array, and a mismatch of
types if it indexes a scalar. -/
theorem atPath_selects {v : Value} (hv : v.IsData) (path : List Int64) :
    ((∃ w, v.atPath path = .ok w) ↔ PathIn v.shape path) ∧
    (∀ w, v.atPath path = .ok w →
      w.IsData ∧ w.shape = v.shape.drop path.length ∧ w.leafType? = v.leafType?) ∧
    ∀ fault, v.atPath path = .error fault →
      ∃ before index after w, path = before ++ index :: after ∧ v.atPath before = .ok w ∧
        w.element index = .error fault ∧
          ((w.isArray = true ∧ fault.kind = .outOfBounds) ∨
            (w.isScalar = true ∧ fault.kind = .mismatchedType)) := by
  obtain ⟨leaf, dims, hshaped⟩ := hv
  rw [hshaped.shape, hshaped.leafType?]
  refine ⟨hshaped.atPath_ok_iff, fun w hw => ?_, fun fault hfault => ?_⟩
  · obtain ⟨-, hsel⟩ := hshaped.atPath hw
    exact ⟨hsel.isData, hsel.shape, hsel.leafType?⟩
  · obtain ⟨before, index, after, w, hpath, hbefore, hstep⟩ := atPath_error hfault
    obtain ⟨-, hsel⟩ := hshaped.atPath hbefore
    exact ⟨before, index, after, w, hpath, hbefore, hstep, hsel.element_error hstep⟩

/-- A row of a matrix, a negative column, and an index too many. -/
theorem matrix_path_selects :
    let matrix : Value :=
      .array #[.array #[.int 1, .int 2, .int 3], .array #[.int 4, .int 5, .int 6]]
    matrix.IsData ∧ PathIn matrix.shape [1] ∧
      (∃ row, matrix.atPath [1] = .ok row ∧ row.IsData ∧ row.shape = [3]) ∧
      ∀ path ∈ [[0, -1], [1, 2, 0]], ∃ fault, matrix.atPath path = .error fault ∧
        ∃ before index after w, path = before ++ index :: after ∧ matrix.atPath before = .ok w ∧
          w.element index = .error fault ∧
            ((w.isArray = true ∧ fault.kind = .outOfBounds) ∨
              (w.isScalar = true ∧ fault.kind = .mismatchedType)) := by
  intro matrix
  have hrow : ∀ a b c : Int64, (Value.array #[.int a, .int b, .int c]).Shaped .int [3] := by
    intro a b c
    refine ⟨by decide, [.int a, .int b, .int c], rfl, rfl, ?_⟩
    simp [shaped_int]
  have hmatrix : matrix.IsData := by
    refine ⟨.int, [2, 3], by decide, [_, _], rfl, rfl, ?_⟩
    simp [hrow]
  obtain ⟨hiff, hsel, -⟩ := atPath_selects hmatrix [1]
  obtain ⟨hdata, hshape, -⟩ := hsel _ rfl
  refine ⟨hmatrix, hiff.1 ⟨_, rfl⟩, ⟨_, rfl, hdata, hshape⟩, ?_⟩
  intro path hpath
  rcases List.mem_pair.1 hpath with rfl | rfl
  · exact ⟨_, rfl, (atPath_selects hmatrix [0, -1]).2.2 _ rfl⟩
  · exact ⟨_, rfl, (atPath_selects hmatrix [1, 2, 0]).2.2 _ rfl⟩

end MiniC.Value
