import MiniC.Decimal.Digits

/-!
# Integers in decimal

The text of a 64-bit integer, and the integer that a text denotes: an optional sign, then digits,
in range.
-/

namespace MiniC.Decimal

/-- The least number beyond the range of a 64-bit integer. -/
def intLimit : Nat := Nat.pow 2 63

/-- The 64-bit integer equal to a number, if there is one. -/
def toInt64? (n : Int) : Option Int64 :=
  if -(intLimit : Int) ≤ n ∧ n < intLimit then some (Int64.ofInt n) else none

/-- An integer as text: digits, with a minus sign in front if it is negative. -/
def ofInt (n : Int) : String :=
  if n < 0 then String.ofList ('-' :: digits n.natAbs) else ofNat n.natAbs

/-- A 64-bit integer as text. -/
def ofInt64 (n : Int64) : String := ofInt n.toInt

/-- An optional sign: whether it is a minus, and what follows it. -/
def splitSign : List Char → Bool × List Char
  | '-' :: rest => (true, rest)
  | '+' :: rest => (false, rest)
  | cs => (false, cs)

/-- The integer that an optional sign and a run of digits denote. -/
def signedValue (signed : Bool × List Char) : Int :=
  if signed.1 then -(value signed.2 : Int) else value signed.2

/-- The most digits that a 64-bit integer has. -/
def intDigits : Nat := 19

/-- The digits of a numeral from the first that is not zero on. -/
def significant (ds : List Char) : List Char := ds.dropWhile (· = '0')

/-- The 64-bit integer that a text denotes: an optional sign and at least one digit, in range.  A
numeral with more digits than any integer in range is not evaluated. -/
def readInt? (cs : List Char) : Option Int64 :=
  let signed := splitSign cs
  if isNumeral signed.2 && (significant signed.2).length ≤ intDigits then
    toInt64? (signedValue signed)
  else
    none

/-- A numeral with too many digits is out of range. -/
theorem intLimit_lt_value {ds : List Char} (digits : ds.all Char.isDigit)
    (long : intDigits < (significant ds).length) : intLimit < value ds := by
  rw [← value_dropWhile_zero]
  match h : ds.dropWhile (· = '0') with
  | [] => simp [significant, h] at long
  | d :: rest =>
    have nonzero : d ≠ '0' := by
      have := List.head?_dropWhile_not (fun c => decide (c = '0')) ds
      simpa [h] using this
    have digit : d.isDigit := by
      have inside : d ∈ ds.dropWhile (· = '0') := h ▸ List.mem_cons_self
      exact List.all_eq_true.1 digits d ((List.dropWhile_sublist _).subset inside)
    have positive : 1 ≤ digitValue d := by
      have low := (Char.isDigit_iff_toNat.1 digit).1
      have : d.toNat ≠ '0'.toNat := fun e => nonzero (Char.toNat_inj.1 e)
      simp only [digitValue] at *
      omega
    have length : 19 ≤ rest.length := by
      have : intDigits < rest.length + 1 := by simpa [significant, h] using long
      exact Nat.le_of_lt_succ this
    rw [value_cons]
    calc intLimit < Nat.pow 10 19 := by decide
      _ ≤ Nat.pow 10 rest.length := Nat.pow_le_pow_right (by decide) length
      _ ≤ digitValue d * Nat.pow 10 rest.length := Nat.le_mul_of_pos_left _ positive
      _ ≤ _ := Nat.le_add_right _ _

/-- Reading is deciding what the digits denote. -/
theorem readInt?_eq (cs : List Char) :
    readInt? cs =
      if isNumeral (splitSign cs).2 then toInt64? (signedValue (splitSign cs)) else none := by
  unfold readInt?
  by_cases numeral : isNumeral (splitSign cs).2
  · by_cases short : (significant (splitSign cs).2).length ≤ intDigits
    · simp [numeral, short]
    · have beyond := intLimit_lt_value
        (by simp only [isNumeral, Bool.and_eq_true] at numeral; exact numeral.2) (by omega)
      have : toInt64? (signedValue (splitSign cs)) = none := by
        rw [toInt64?, if_neg]
        unfold signedValue
        split <;> omega
      simp [numeral, short, this]
  · simp [numeral]

end MiniC.Decimal
