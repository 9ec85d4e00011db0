/-!
# Decimal digits

Runs of decimal digits and the numbers they stand for, most significant digit first.  The two
directions are `digits` and `value`; `value_digits` says that writing loses nothing.
-/

namespace MiniC.Decimal

/-- The digit that stands for a number below ten. -/
def digitChar (n : Nat) : Char := Char.ofNat ('0'.toNat + n)

/-- The number that a digit stands for. -/
def digitValue (c : Char) : Nat := c.toNat - '0'.toNat

/-- The digits of a number, without leading zeros; zero is a single digit. -/
def digits (n : Nat) : List Char :=
  if n < 10 then [digitChar n] else digits (n / 10) ++ [digitChar (n % 10)]
termination_by n
decreasing_by omega

/-- The number that a run of digits stands for.  Leading zeros do not count. -/
def value (ds : List Char) : Nat :=
  ds.foldl (fun n d => 10 * n + digitValue d) 0

/-- A non-empty run of decimal digits. -/
def isNumeral (cs : List Char) : Bool :=
  !cs.isEmpty && cs.all Char.isDigit

/-- The digits of a number as text. -/
def ofNat (n : Nat) : String := String.ofList (digits n)

@[simp] theorem value_nil : value [] = 0 := rfl

theorem value_append_singleton (ds : List Char) (d : Char) :
    value (ds ++ [d]) = 10 * value ds + digitValue d := by
  simp [value, List.foldl_append]

theorem value_cons (d : Char) (ds : List Char) :
    value (d :: ds) = digitValue d * Nat.pow 10 ds.length + value ds := by
  suffices h : ∀ n, ds.foldl (fun n d => 10 * n + digitValue d) n
      = n * Nat.pow 10 ds.length + value ds by
    simpa [value] using h (digitValue d)
  induction ds with
  | nil => simp
  | cons c ds ih =>
    intro n
    have hn := ih (10 * n + digitValue c)
    have hc := ih (digitValue c)
    simp only [value, List.foldl_cons, Nat.mul_zero, Nat.zero_add, List.length_cons, Nat.pow_eq,
      Nat.pow_succ] at hn hc ⊢
    rw [hn, hc, Nat.add_mul, Nat.mul_comm 10 n, Nat.mul_assoc, Nat.mul_comm 10, Nat.add_assoc]

/-- Zeros in front do not count. -/
theorem value_dropWhile_zero (ds : List Char) : value (ds.dropWhile (· = '0')) = value ds := by
  induction ds with
  | nil => rfl
  | cons d ds ih =>
    rw [List.dropWhile_cons]
    split
    · next h =>
      rw [ih, value_cons, of_decide_eq_true h]
      simp [digitValue]
    · rfl

theorem digitValue_digitChar {n : Nat} (h : n < 10) : digitValue (digitChar n) = n := by
  match n, h with
  | 0, _ | 1, _ | 2, _ | 3, _ | 4, _ | 5, _ | 6, _ | 7, _ | 8, _ | 9, _ => decide

theorem isDigit_digitChar {n : Nat} (h : n < 10) : (digitChar n).isDigit = true := by
  match n, h with
  | 0, _ | 1, _ | 2, _ | 3, _ | 4, _ | 5, _ | 6, _ | 7, _ | 8, _ | 9, _ => decide

theorem value_digits (n : Nat) : value (digits n) = n := by
  induction n using Nat.strongRecOn with
  | ind n ih =>
    rw [digits]
    split
    · next h => simpa [value] using digitValue_digitChar h
    · next h =>
      rw [value_append_singleton, ih (n / 10) (by omega),
        digitValue_digitChar (Nat.mod_lt n (by decide))]
      omega

theorem digits_ne_nil (n : Nat) : digits n ≠ [] := by
  rw [digits]
  split <;> simp

theorem isDigit_of_mem_digits {n : Nat} {c : Char} (h : c ∈ digits n) : c.isDigit = true := by
  induction n using Nat.strongRecOn with
  | ind n ih =>
    rw [digits] at h
    split at h
    · next hn =>
      rw [List.mem_singleton] at h
      exact h ▸ isDigit_digitChar hn
    · next hn =>
      rcases List.mem_append.1 h with h | h
      · exact ih (n / 10) (by omega) h
      · rw [List.mem_singleton] at h
        exact h ▸ isDigit_digitChar (Nat.mod_lt n (by decide))

theorem isNumeral_digits (n : Nat) : isNumeral (digits n) = true := by
  simp only [isNumeral, Bool.and_eq_true, Bool.not_eq_true', List.isEmpty_eq_false_iff,
    List.all_eq_true]
  exact ⟨digits_ne_nil n, fun _ h => isDigit_of_mem_digits h⟩

end MiniC.Decimal
