import MiniC.Proofs.Value.Shape

/-!
# The number of leaves of a value

A rectangular value has as many leaves as its lengths multiply to (`Shaped.leaves_eq`).  Filling an
array multiplies the lengths with a check for overflow, and gives up if the product is above the
limit; with positive lengths it gives up only then (`filled_of_le`, `filled_of_lt`).
-/

namespace MiniC

namespace Value

mutual

/-- The number of leaves of a value, which is one unless it is an array. -/
def leaves : Value → Nat
  | .array ⟨elements⟩ => leavesAll elements
  | .int _ | .float _ | .string _ | .void | .function _ => 1

/-- The number of leaves of some values together. -/
def leavesAll : List Value → Nat
  | [] => 0
  | v :: rest => v.leaves + leavesAll rest

end

/-- The product of the lengths of the dimensions. -/
def volume : List Nat → Nat
  | [] => 1
  | n :: dims => n * volume dims

theorem volume_pos {dims : List Nat} (h : ∀ n ∈ dims, 0 < n) : 0 < volume dims := by
  induction dims with
  | nil => exact Nat.one_pos
  | cons n dims ih =>
    obtain ⟨hn, hdims⟩ := List.forall_mem_cons.1 h
    exact Nat.mul_pos hn (ih hdims)

theorem leavesAll_eq {elements : List Value} {count : Nat}
    (h : ∀ e ∈ elements, e.leaves = count) : leavesAll elements = elements.length * count := by
  induction elements with
  | nil => simp [leavesAll]
  | cons e rest ih =>
    obtain ⟨he, hrest⟩ := List.forall_mem_cons.1 h
    rw [leavesAll, he, ih hrest, List.length_cons, Nat.succ_mul, Nat.add_comm]

theorem Shaped.leaves_eq {v : Value} {leaf : TypeName} {dims : List Nat}
    (h : v.Shaped leaf dims) : v.leaves = volume dims := by
  induction dims generalizing v with
  | nil =>
    rcases isScalar_iff.1 h.1 with ⟨n, rfl⟩ | ⟨x, rfl⟩ | ⟨s, rfl⟩ <;> rfl
  | cons n dims ih =>
    obtain ⟨-, elements, rfl, rfl, helements⟩ := h
    rw [leaves]
    exact leavesAll_eq fun e he => ih (helements e he)

/-! ## Filling arrays -/

/-- The multiplication gives up only where a product does not fit. -/
theorem foldlM_checkedMul? {dims : List Nat} (hdims : ∀ n ∈ dims, 0 < n) (count : Nat) :
    (∃ total, dims.foldlM checkedMul? count = some total ∧ total = count * volume dims) ∨
      dims.foldlM checkedMul? count = none ∧ Nat.pow 2 64 ≤ count * volume dims := by
  induction dims generalizing count with
  | nil => exact Or.inl ⟨count, rfl, (Nat.mul_one count).symm⟩
  | cons n dims ih =>
    obtain ⟨-, hrest⟩ := List.forall_mem_cons.1 hdims
    rw [List.foldlM_cons, volume, ← Nat.mul_assoc]
    by_cases hfits : count * n < Nat.pow 2 64
    · have hmul : checkedMul? count n = some (count * n) := if_pos hfits
      rw [hmul]
      exact ih hrest (count * n)
    · have hmul : checkedMul? count n = none := if_neg hfits
      rw [hmul]
      refine Or.inr ⟨rfl, ?_⟩
      calc Nat.pow 2 64 ≤ count * n := Nat.not_lt.1 hfits
        _ ≤ count * n * volume dims := Nat.le_mul_of_pos_right _ (volume_pos hrest)

theorem leafCount?_of_pos {dims : List Nat} (hdims : ∀ n ∈ dims, 0 < n) :
    leafCount? dims = some (volume dims) ∨
      leafCount? dims = none ∧ Nat.pow 2 64 ≤ volume dims := by
  have hcount := foldlM_checkedMul? hdims 1
  rw [Nat.one_mul] at hcount
  rcases hcount with ⟨total, htotal, rfl⟩ | hnone
  · exact Or.inl htotal
  · exact Or.inr hnone

variable {dims : List Nat} (hdims : ∀ n ∈ dims, 0 < n) (leaf : Value)

include hdims

theorem filled_of_le (h : volume dims ≤ Fault.maxLeaves) :
    filled dims leaf = .ok (nested dims leaf) := by
  unfold filled
  rcases leafCount?_of_pos hdims with hcount | ⟨-, hlarge⟩
  · rw [hcount]
    exact if_pos h
  · have hlimit : Fault.maxLeaves < Nat.pow 2 64 := by decide
    exact absurd (Nat.le_trans hlarge h) (Nat.not_le_of_lt hlimit)

theorem filled_of_lt (h : Fault.maxLeaves < volume dims) :
    filled dims leaf = .error (.arrayTooLarge dims) := by
  unfold filled
  rcases leafCount?_of_pos hdims with hcount | ⟨hnone, -⟩
  · rw [hcount]
    exact if_neg (Nat.not_le_of_lt h)
  · rw [hnone]

end Value

/-- A filled array has as many leaves as its lengths multiply to, and no more than the limit. -/
theorem Value.leaves_of_filled {leaf : Value} {type : TypeName} {dims : List Nat} {v : Value}
    (hdims : ∀ n ∈ dims, 0 < n) (hleaf : leaf.Shaped type []) (h : filled dims leaf = .ok v) :
    v.leaves = volume dims ∧ volume dims ≤ Fault.maxLeaves := by
  refine ⟨(shaped_filled hleaf hdims h).leaves_eq, Nat.not_lt.1 fun hlarge => ?_⟩
  rw [filled_of_lt hdims leaf hlarge] at h
  cases h

end MiniC
