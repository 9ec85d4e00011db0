import Mathlib.Algebra.Group.Nat.Defs
import MiniC.Proofs.Value.Leaves
import MiniC.Proofs.Value.Slot

/-!
# Filled and conforming arrays

A declared array is filled with a default, or takes an initial value of its shape.  Filling decides
by a product that is computed with a check for overflow; conforming compares lengths one after the
other.  Both are exact (`fills_and_conforms`): the product decides as the number it stands for, and
the comparison finds each length that differs.
-/

namespace MiniC.Value

/-! ## Filling -/

/-- Each full path into nested arrays selects the leaf. -/
theorem atPath_nested {dims : List Nat} {path : List Int64} (hpath : PathIn dims path)
    (hfull : path.length = dims.length) (leaf : Value) :
    (nested dims leaf).atPath path = .ok leaf := by
  induction dims generalizing path with
  | nil =>
    rw [List.length_eq_zero_iff.1 hfull]
    rfl
  | cons n dims ih =>
    cases path with
    | nil => cases hfull
    | cons index path =>
      obtain ⟨⟨hlow, hhigh⟩, hrest⟩ := pathIn_cons.1 hpath
      obtain ⟨i, hi, hlt⟩ : ∃ i, position? index = some i ∧ i < n :=
        ⟨index.toInt.toNat, if_pos hlow, by omega⟩
      have helement : (nested (n :: dims) leaf).element index = .ok (nested dims leaf) := by
        simp [nested, element, hi, hlt]
      rw [atPath_cons helement]
      apply ih hrest
      exact Nat.succ.inj hfull

/-- Filling gives up where the product of the lengths is above the limit, and nowhere else. -/
theorem filled_eq {dims : List Nat} (hdims : ∀ n ∈ dims, 0 < n) (leaf : Value) :
    filled dims leaf =
      if volume dims ≤ Fault.maxLeaves then .ok (nested dims leaf)
      else .error (.arrayTooLarge dims) := by
  by_cases h : volume dims ≤ Fault.maxLeaves
  · rw [if_pos h, filled_of_le hdims leaf h]
  · rw [if_neg h, filled_of_lt hdims leaf (Nat.lt_of_not_le h)]

/-! ## Conforming -/

/-- A size that a declaration gives is the length, and one that it leaves open is any. -/
def Admits (declared : Option Nat) (length : Nat) : Prop := ∀ size ∈ declared, size = length

theorem admits_none (length : Nat) : Admits none length := fun _ h => by cases h

theorem admits_some {size length : Nat} : Admits (some size) length ↔ size = length := by
  constructor
  · intro h
    exact h size rfl
  · rintro rfl size hsize
    exact (Option.some.inj hsize).symm

/-- Of as many sizes as lengths none differs if and only if each admits its length. -/
theorem lengthMismatch?_eq_none_iff {sizes : List (Option Nat)} {lengths : List Nat}
    (hcount : lengths.length = sizes.length) :
    lengthMismatch? sizes lengths = none ↔ List.Forall₂ Admits sizes lengths := by
  induction sizes generalizing lengths with
  | nil =>
    rw [List.length_eq_zero_iff.1 hcount]
    exact iff_of_true rfl .nil
  | cons declared sizes ih =>
    cases lengths with
    | nil => cases hcount
    | cons length lengths =>
      rw [List.forall₂_cons, ← ih (Nat.succ.inj hcount)]
      cases declared with
      | none =>
        rw [lengthMismatch?]
        exact (and_iff_right (admits_none length)).symm
      | some size =>
        rw [lengthMismatch?, admits_some]
        split
        · next hsize => exact (and_iff_right hsize).symm
        · next hsize =>
          apply iff_of_false
          · exact Option.some_ne_none _
          · exact fun h => hsize h.1

/-- What conforming checks of a value: the length of each dimension, and the type of the leaves. -/
theorem conform_ok_iff {v : Value} {type : TypeName} {sizes : List (Option Nat)}
    {lengths : List Nat} :
    v.conform type sizes = .ok lengths ↔
      lengths = v.shape ∧ List.Forall₂ Admits sizes v.shape ∧ v.leafType? = some type := by
  unfold conform
  by_cases hcount : v.shape.length = sizes.length
  · rw [if_neg (not_not_intro hcount), ← lengthMismatch?_eq_none_iff hcount]
    cases hmismatch : lengthMismatch? sizes v.shape with
    | some mismatch => simp
    | none =>
      by_cases hleaf : v.leafType? = some type
      · simp [hleaf, eq_comm]
      · simp [hleaf]
  · rw [if_pos hcount]
    apply iff_of_false
    · intro h
      cases h
    · intro h
      exact hcount h.2.1.length_eq.symm

/-! ## Both are exact -/

/-- Filling and conforming are exact.  For all positive lengths and every scalar: filling fails, out
of bounds, if and only if the product of the lengths is more than `2 ^ 24`; otherwise it gives a
well-formed value whose shape are the lengths, and each full path in their range selects the scalar
in it.  For every value, type and sizes of which some are left open: the value conforms if and only
if there are as many sizes as lengths in its shape, each size that is given is the length there, and
the type is that of its leaves; and then the shape is the result.  Shape and type of leaves of a
well-formed value are the lengths that it has at each level and the type that all its leaves have. -/
theorem fills_and_conforms :
    (∀ (dims : List Nat) (leaf : Value), (∀ n ∈ dims, 0 < n) → leaf.isScalar = true →
      ((∃ fault, filled dims leaf = .error fault ∧ fault.kind = .outOfBounds) ↔
        2 ^ 24 < volume dims) ∧
      (volume dims ≤ 2 ^ 24 → ∃ v, filled dims leaf = .ok v ∧ v.IsData ∧ v.shape = dims ∧
        ∀ path, PathIn dims path → path.length = dims.length → v.atPath path = .ok leaf)) ∧
    (∀ (v : Value) (type : TypeName) (sizes : List (Option Nat)) (lengths : List Nat),
      v.conform type sizes = .ok lengths ↔
        lengths = v.shape ∧ List.Forall₂ Admits sizes v.shape ∧ v.leafType? = some type) ∧
    ∀ (v : Value) (leaf : TypeName) (dims : List Nat), v.Shaped leaf dims →
      v.shape = dims ∧ v.leafType? = some leaf := by
  refine ⟨fun dims leaf hdims hleaf => ?_, fun v type sizes lengths => conform_ok_iff,
    fun v leaf dims hshaped => ⟨hshaped.shape, hshaped.leafType?⟩⟩
  have hlimit : Fault.maxLeaves = 2 ^ 24 := rfl
  obtain ⟨type, hscalar⟩ : ∃ type, leaf.Shaped type [] := by
    rcases isScalar_iff.1 hleaf with ⟨n, rfl⟩ | ⟨x, rfl⟩ | ⟨s, rfl⟩
    · exact ⟨_, shaped_int n⟩
    · exact ⟨_, shaped_float x⟩
    · exact ⟨_, shaped_string s⟩
  rw [filled_eq hdims, hlimit]
  by_cases h : volume dims ≤ 2 ^ 24
  · rw [if_pos h]
    constructor
    · apply iff_of_false _ (Nat.not_lt.2 h)
      rintro ⟨fault, hfault, -⟩
      cases hfault
    · have hnested := shaped_nested hscalar hdims
      exact fun _ => ⟨_, rfl, hnested.isData, hnested.shape, fun path hpath hfull =>
        atPath_nested hpath hfull leaf⟩
  · rw [if_neg h]
    constructor
    · exact iff_of_true ⟨_, rfl, rfl⟩ (Nat.lt_of_not_le h)
    · intro hle
      exact absurd hle h

/-- As many leaves as the limit and one row more; lengths whose product is zero modulo `2 ^ 64`; and
a row of two that is declared with the number of rows left open, or as three. -/
theorem limit_fills_and_conforms :
    (∃ v, filled [4096, 4096] (.int 7) = .ok v ∧ v.IsData ∧ v.shape = [4096, 4096] ∧
      v.atPath [4095, 0] = .ok (.int 7)) ∧
    (∀ dims ∈ [[4097, 4096], [2 ^ 32, 2 ^ 32]],
      ∃ fault, filled dims (.int 7) = .error fault ∧ fault.kind = .outOfBounds) ∧
    let row : Value := .array #[.array #[.int 1, .int 2]]
    row.Shaped .int [1, 2] ∧ row.conform .int [none, some 2] = .ok [1, 2] ∧
      ∀ lengths, row.conform .int [none, some 3] ≠ .ok lengths := by
  obtain ⟨hfills, hconforms, hshapes⟩ := fills_and_conforms
  refine ⟨?_, fun dims hdims => ?_, ?_⟩
  · obtain ⟨-, hfilled⟩ := hfills [4096, 4096] (.int 7) (by decide) rfl
    obtain ⟨v, hv, hdata, hshape, hleaf⟩ := hfilled (by decide)
    refine ⟨v, hv, hdata, hshape, hleaf [4095, 0] ?_ rfl⟩
    rw [pathIn_cons, pathIn_cons]
    exact ⟨by decide, by decide, pathIn_nil []⟩
  · rcases List.mem_pair.1 hdims with rfl | rfl
    · exact (hfills [4097, 4096] (.int 7) (by decide) rfl).1.2 (by decide)
    · exact (hfills [2 ^ 32, 2 ^ 32] (.int 7) (by decide) rfl).1.2 (by decide)
  · intro row
    have hrow : row.Shaped .int [1, 2] := by
      refine ⟨by decide, [_], rfl, rfl, ?_⟩
      simp only [List.mem_singleton, forall_eq]
      refine ⟨by decide, [.int 1, .int 2], rfl, rfl, ?_⟩
      simp [shaped_int]
    obtain ⟨hshape, hleaf⟩ := hshapes row .int [1, 2] hrow
    have hiff := hconforms row .int
    rw [hshape] at hiff
    refine ⟨hrow, (hiff _ _).2 ⟨rfl, ?_, hleaf⟩, fun lengths h => ?_⟩
    · exact .cons (admits_none 1) (.cons (admits_some.2 rfl) .nil)
    · obtain ⟨-, hsizes, -⟩ := (hiff _ _).1 h
      cases hsizes with
      | cons _ hrest =>
        cases hrest with
        | cons hthree _ => exact absurd (admits_some.1 hthree) (by decide)

end MiniC.Value
