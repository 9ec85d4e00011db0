import MiniC.Proofs.Value.Path

/-!
# Slots of arrays

A slot is what a path selects to be replaced.  Paths are followed once to read (`Value.atPath`),
once to find a slot (`Value.slotAt`) and once to store (`Value.setAt`), each by a recursion of its
own.  All three go the same way (`slotAt_eq`), and replacing obeys the laws of reading and writing a
place: what is written is read back, nothing else changes, what is there already changes nothing,
and of two writes the second one counts.  Each law is one on a single index first and then, by
induction, one on paths.  Main statement: `slot_laws`.
-/

namespace MiniC.Value

variable {v x old new : Value} {i j : Int64} {p q : List Int64}

/-! ## One index -/

/-- Two indices at one position are the same. -/
theorem position?_inj {k : Nat} (hi : position? i = some k) (hj : position? j = some k) :
    i = j := by
  unfold position? at hi hj
  split at hi
  · split at hj
    · have hik := Option.some.inj hi
      have hjk := Option.some.inj hj
      apply Int64.toInt_inj.1
      omega
    · cases hj
  · cases hi

/-- A path stores into the element at the position that its first index is. -/
theorem setAt_array {elements : Array Value} {k : Nat} (hk : position? i = some k)
    (hget : elements[k]? = some x) (p : List Int64) (new : Value) :
    (Value.array elements).setAt (i :: p) new =
      .array (elements.setIfInBounds k (x.setAt p new)) := by
  obtain ⟨hlt, rfl⟩ := Array.getElem?_eq_some_iff.1 hget
  simp only [setAt, hk]
  refine congrArg Value.array (Array.ext_getElem? fun m => ?_)
  rw [Array.getElem?_modify, Array.getElem?_setIfInBounds]
  by_cases hkm : k = m
  · subst hkm
    simp [hlt]
  · simp [hkm]

/-- The slot at an index holds the element there. -/
theorem slot_eq (v : Value) (i : Int64) :
    v.slot i = (v.element i).map fun e => ⟨e, v.setAt [i]⟩ := by
  cases v with
  | array elements =>
    unfold slot element checkedIndex?
    cases hk : position? i with
    | none => rfl
    | some k =>
      cases hget : elements[k]? with
      | none =>
        have hnot : ¬ k < elements.size := Nat.not_lt.2 (Array.getElem?_eq_none_iff.1 hget)
        simp [Option.filter, hnot, Except.map]
      | some x =>
        obtain ⟨hlt, -⟩ := Array.getElem?_eq_some_iff.1 hget
        have hreplace : (Value.array elements).setAt [i] =
            fun new => .array (elements.setIfInBounds k new) := funext (setAt_array hk hget [])
        simp [Option.filter, hlt, hreplace, Except.map]
  | int _ | float _ | string _ | void | function _ => rfl

section Index

variable (hx : v.element i = .ok x)

include hx

/-- A path stores into the element that its first index selects. -/
theorem setAt_cons (p : List Int64) (new : Value) :
    v.setAt (i :: p) new = v.setAt [i] (x.setAt p new) := by
  obtain ⟨elements, k, rfl, hk, hget⟩ := element_ok hx
  rw [setAt_array hk hget p, setAt_array hk hget []]
  rfl

theorem element_setAt (y : Value) : (v.setAt [i] y).element i = .ok y := by
  obtain ⟨elements, k, rfl, hk, hget⟩ := element_ok hx
  obtain ⟨hlt, -⟩ := Array.getElem?_eq_some_iff.1 hget
  rw [setAt_array hk hget]
  simp [element, hk, hlt, setAt]

/-- Different indices are different positions, or one of them is no position at all. -/
theorem element_setAt_of_ne (hne : j ≠ i) (y : Value) :
    (v.setAt [i] y).element j = v.element j := by
  obtain ⟨elements, k, rfl, hk, hget⟩ := element_ok hx
  rw [setAt_array hk hget]
  cases hm : position? j with
  | none => simp [element, hm]
  | some m =>
    have hkm : k ≠ m := by
      rintro rfl
      exact hne (position?_inj hm hk)
    simp [element, hm, Array.getElem?_setIfInBounds, hkm]

theorem setAt_element : v.setAt [i] x = v := by
  obtain ⟨elements, k, rfl, hk, hget⟩ := element_ok hx
  obtain ⟨hlt, rfl⟩ := Array.getElem?_eq_some_iff.1 hget
  rw [setAt_array hk hget]
  simp [Array.setIfInBounds, hlt, setAt]

theorem setAt_index_setAt (y z : Value) : (v.setAt [i] y).setAt [i] z = v.setAt [i] z := by
  obtain ⟨elements, k, rfl, hk, hget⟩ := element_ok hx
  obtain ⟨hlt, -⟩ := Array.getElem?_eq_some_iff.1 hget
  have hget' : (elements.setIfInBounds k y)[k]? = some y := by simp [hlt]
  rw [setAt_array hk hget, setAt_array hk hget]
  exact (setAt_array hk hget' [] z).trans (by simp [setAt])

end Index

/-! ## Paths -/

/-- A path into the value selects something below the element at its first index. -/
theorem atPath_cons_ok (h : v.atPath (i :: p) = .ok old) :
    ∃ x, v.element i = .ok x ∧ x.atPath p = .ok old := by
  rw [atPath] at h
  cases hx : v.element i with
  | error fault =>
    rw [hx] at h
    cases h
  | ok x =>
    rw [hx] at h
    exact ⟨x, rfl, h⟩

theorem atPath_cons (hx : v.element i = .ok x) (p : List Int64) :
    v.atPath (i :: p) = x.atPath p := by
  rw [atPath, hx]
  rfl

/-- Reading, finding the slot and storing follow a path in the same way. -/
theorem slotAt_eq (v : Value) (p : List Int64) :
    v.slotAt p = (v.atPath p).map fun old => ⟨old, v.setAt p⟩ := by
  induction p generalizing v with
  | nil => rfl
  | cons i p ih =>
    rw [slotAt, atPath, slot_eq]
    cases hx : v.element i with
    | error fault => rfl
    | ok x =>
      have hstore : v.setAt (i :: p) = fun new => v.setAt [i] (x.setAt p new) :=
        funext (setAt_cons hx p)
      rw [hstore]
      show (x.slotAt p).map _ = (x.atPath p).map _
      rw [ih x]
      cases x.atPath p <;> rfl

/-- What is stored is read back. -/
theorem atPath_setAt (h : v.atPath p = .ok old) (new : Value) :
    (v.setAt p new).atPath p = .ok new := by
  induction p generalizing v with
  | nil => rfl
  | cons i p ih =>
    obtain ⟨x, hx, hold⟩ := atPath_cons_ok h
    rw [setAt_cons hx, atPath_cons (element_setAt hx _)]
    exact ih hold

/-- Paths that part at some index select different things. -/
theorem atPath_setAt_of_apart (h : v.atPath p = .ok old) (hpq : ¬ p <+: q) (hqp : ¬ q <+: p)
    (new : Value) : (v.setAt p new).atPath q = v.atPath q := by
  induction p generalizing v q with
  | nil => exact absurd List.nil_prefix hpq
  | cons i p ih =>
    obtain ⟨x, hx, hold⟩ := atPath_cons_ok h
    rw [setAt_cons hx]
    cases q with
    | nil => exact absurd List.nil_prefix hqp
    | cons j q =>
      by_cases hji : j = i
      · subst hji
        rw [atPath_cons (element_setAt hx _), atPath_cons hx]
        apply ih hold
        · exact fun hpre => hpq (List.cons_prefix_cons.2 ⟨rfl, hpre⟩)
        · exact fun hpre => hqp (List.cons_prefix_cons.2 ⟨rfl, hpre⟩)
      · rw [atPath, atPath, element_setAt_of_ne hx hji]

/-- Storing what is there changes nothing. -/
theorem setAt_atPath (h : v.atPath p = .ok old) : v.setAt p old = v := by
  induction p generalizing v with
  | nil =>
    cases h
    rfl
  | cons i p ih =>
    obtain ⟨x, hx, hold⟩ := atPath_cons_ok h
    rw [setAt_cons hx, ih hold, setAt_element hx]

/-- Of two stores the second one counts. -/
theorem setAt_setAt (h : v.atPath p = .ok old) (first second : Value) :
    (v.setAt p first).setAt p second = v.setAt p second := by
  induction p generalizing v with
  | nil => rfl
  | cons i p ih =>
    obtain ⟨x, hx, hold⟩ := atPath_cons_ok h
    rw [setAt_cons hx p first, setAt_cons hx p second, setAt_cons (element_setAt hx _),
      setAt_index_setAt hx, ih hold]

/-- Slots of arrays obey the laws of a place that is read and written.  For every well-formed value
and every path: there is a slot if and only if the path can be read, and then it holds what is read,
and otherwise the error is the same.  Whatever `w` is put into the slot is what the path reads
afterwards; a path that neither begins with this one nor this one with it reads what it read before,
or fails as before; putting back what was there gives the same value; and the slot of the new value
replaces in it as the first slot does, so that a second replacement overwrites the first.  If the
slot held a scalar of the type of `w`, then the new value is well-formed, with the same shape and
leaf type.  What an assignment stores is what the slot replaces. -/
theorem slot_laws (hv : v.IsData) (p : List Int64) :
    (v.slotAt p).map Slot.value = v.atPath p ∧
    ∀ slot, v.slotAt p = .ok slot →
      (∀ w, (slot.replace w).atPath p = .ok w) ∧
      (∀ w q, ¬ p <+: q → ¬ q <+: p → (slot.replace w).atPath q = v.atPath q) ∧
      slot.replace slot.value = v ∧
      (∀ w, ∃ slot', (slot.replace w).slotAt p = .ok slot' ∧ slot'.value = w ∧
        ∀ u, slot'.replace u = slot.replace u) ∧
      (∀ w type, slot.value.Shaped type [] → w.Shaped type [] →
        (slot.replace w).IsData ∧ (slot.replace w).shape = v.shape ∧
          (slot.replace w).leafType? = v.leafType?) ∧
      ∀ w, slot.replace w = v.setAt p w := by
  rw [slotAt_eq]
  cases hold : v.atPath p with
  | error fault =>
    refine ⟨rfl, fun slot hslot => ?_⟩
    cases hslot
  | ok old =>
    refine ⟨rfl, fun slot hslot => ?_⟩
    cases hslot
    refine ⟨atPath_setAt hold, fun w q hpq hqp => ?_, setAt_atPath hold, fun w => ?_,
      fun w type hscalar hw => ?_, fun w => rfl⟩
    · exact atPath_setAt_of_apart hold hpq hqp w
    · refine ⟨⟨w, (v.setAt p w).setAt p⟩, ?_, rfl, setAt_setAt hold w⟩
      rw [slotAt_eq, atPath_setAt hold]
      rfl
    · obtain ⟨leaf, dims, hshaped⟩ := hv
      have hnew : (v.setAt p w).Shaped leaf dims := by
        apply hshaped.setAt hold
        intro rest hrest
        obtain ⟨rfl, rfl⟩ := hscalar.unique hrest
        exact hw
      rw [hshaped.shape, hshaped.leafType?]
      exact ⟨hnew.isData, hnew.shape, hnew.leafType?⟩

/-- The first element of the second row of a matrix, next to another element of that row and to an
index that is out of bounds. -/
theorem matrix_slot_laws :
    let matrix : Value := .array #[.array #[.int 1, .int 2], .array #[.int 3, .int 4]]
    matrix.IsData ∧ ∃ slot, matrix.slotAt [1, 0] = .ok slot ∧ slot.value = .int 3 ∧
      (slot.replace (.int 9)).atPath [1, 0] = .ok (.int 9) ∧
      (slot.replace (.int 9)).atPath [1, 1] = matrix.atPath [1, 1] ∧
      (slot.replace (.int 9)).atPath [-1, 0] = matrix.atPath [-1, 0] ∧
      slot.replace (.int 3) = matrix ∧
      (slot.replace (.int 9)).IsData ∧ (slot.replace (.int 9)).shape = matrix.shape := by
  intro matrix
  have hrow : ∀ a b : Int64, (Value.array #[.int a, .int b]).Shaped .int [2] := by
    intro a b
    refine ⟨by decide, [.int a, .int b], rfl, rfl, ?_⟩
    simp [shaped_int]
  have hmatrix : matrix.IsData := by
    refine ⟨.int, [2, 2], by decide, [_, _], rfl, rfl, ?_⟩
    simp [hrow]
  obtain ⟨-, hlaws⟩ := slot_laws hmatrix [1, 0]
  obtain ⟨hread, hapart, hsame, -, hkept, -⟩ := hlaws _ rfl
  obtain ⟨hdata, hshape, -⟩ := hkept (.int 9) .int (shaped_int 3) (shaped_int 9)
  refine ⟨hmatrix, _, rfl, rfl, hread _, ?_, ?_, hsame, hdata, hshape⟩
  · exact hapart (.int 9) [1, 1] (by decide) (by decide)
  · exact hapart (.int 9) [-1, 0] (by decide) (by decide)

end MiniC.Value
