import MiniC.Decimal.Integer

/-!
# Integers read as they are written

Main result: `readInt?_ofInt64`.
-/

namespace MiniC.Decimal

variable {c : Char}

/-- Text of an integer has digits only, and perhaps a minus sign. -/
theorem eq_or_isDigit_of_mem_ofInt {n : Int} (h : c ∈ (ofInt n).toList) :
    c = '-' ∨ c.isDigit = true := by
  unfold ofInt at h
  split at h
  · rw [String.toList_ofList] at h
    rcases List.mem_cons.1 h with hminus | hdigit
    · exact Or.inl hminus
    · exact Or.inr (isDigit_of_mem_digits hdigit)
  · rw [ofNat, String.toList_ofList] at h
    exact Or.inr (isDigit_of_mem_digits h)

theorem ofInt_ne_empty (n : Int) : (ofInt n).toList ≠ [] := by
  unfold ofInt
  split
  · simp
  · simpa [ofNat] using digits_ne_nil n.natAbs

/-- Digits have no sign in front. -/
theorem splitSign_of_digits {ds : List Char} (h : ∀ d ∈ ds, d.isDigit = true) :
    splitSign ds = (false, ds) := by
  have hsign : ∀ d ∈ ds, d ≠ '-' ∧ d ≠ '+' := by
    intro d hd
    have hdigit := h d hd
    constructor <;> (rintro rfl; exact absurd hdigit (by decide))
  cases ds with
  | nil => rfl
  | cons d ds =>
    obtain ⟨hminus, hplus⟩ := hsign d List.mem_cons_self
    unfold splitSign
    split
    · next h => exact absurd (List.cons_eq_cons.1 h).1 hminus
    · next h => exact absurd (List.cons_eq_cons.1 h).1 hplus
    · rfl

theorem splitSign_digits (n : Nat) : splitSign (digits n) = (false, digits n) :=
  splitSign_of_digits fun _ => isDigit_of_mem_digits

theorem splitSign_ofInt (n : Int) :
    splitSign (ofInt n).toList = (decide (n < 0), digits n.natAbs) := by
  unfold ofInt
  split
  · next hneg => simp [splitSign, hneg]
  · next hnonneg => simp [ofNat, splitSign_digits, hnonneg]

theorem toInt64?_toInt (n : Int64) : toInt64? n.toInt = some n := by
  have hle : -(intLimit : Int) ≤ n.toInt := Int64.le_toInt n
  have hlt : n.toInt < intLimit := Int64.toInt_lt n
  rw [toInt64?, if_pos ⟨hle, hlt⟩, Int64.ofInt_toInt]

/-- Reading inverts writing, for every 64-bit integer. -/
theorem readInt?_ofInt64 (n : Int64) : readInt? (ofInt64 n).toList = some n := by
  have hvalue : signedValue (decide (n.toInt < 0), digits n.toInt.natAbs) = n.toInt := by
    unfold signedValue
    by_cases hneg : n.toInt < 0
    · simp only [hneg, decide_true, if_true, value_digits]
      omega
    · simp only [hneg, decide_false, Bool.false_eq_true, if_false, value_digits]
      omega
  rw [readInt?_eq, ofInt64, splitSign_ofInt, if_pos (isNumeral_digits _), hvalue, toInt64?_toInt]

end MiniC.Decimal
