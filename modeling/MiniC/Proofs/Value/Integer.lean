import Mathlib.Algebra.Group.Int.Defs
import Mathlib.Algebra.Group.Nat.Defs
import MiniC.Value.Operation

/-!
# Operators on ints

What an operator gives for two ints is the result on the integers that they stand for, reduced
modulo `2 ^ 64` into the signed range where it can leave that.  Quotients are truncated and
remainders are floored, shifts multiply and divide by powers of two, and the other operators on bits
go bit by bit.  Main statement: `int_operators_exact`.
-/

namespace MiniC

/-! ## Remainders -/

/-- A truncated remainder is corrected if it is not zero and has not the sign of the divisor. -/
def Corrected (a b : Int64) : Prop := a % b ≠ 0 ∧ ((a % b < 0) ≠ (b < 0))

section FloorMod

variable {a b : Int64}

theorem corrected_iff :
    Corrected a b ↔
      (a % b).toInt ≠ 0 ∧ ¬ ((a % b).toInt < 0 ↔ b.toInt < 0) := by
  unfold Corrected
  rw [ne_eq, ne_eq, ne_eq, eq_iff_iff, Int64.lt_iff_toInt_lt, Int64.lt_iff_toInt_lt,
    ← Int64.toInt_inj, Int64.toInt_zero]

theorem toInt_ne_zero (hb : b ≠ 0) : b.toInt ≠ 0 := fun h => hb (Int64.toInt_inj.1 h)

/-- A truncated remainder is smaller than the divisor. -/
theorem natAbs_toInt_mod_lt (hb : b ≠ 0) : (a % b).toInt.natAbs < b.toInt.natAbs := by
  rw [Int64.toInt_mod, Int.natAbs_tmod]
  apply Nat.mod_lt
  have hne := toInt_ne_zero hb
  omega

/-- The sum of a remainder and a divisor of the other sign is in range, so it is exact. -/
theorem toInt_mod_add (hb : b ≠ 0) (h : Corrected a b) :
    (a % b + b).toInt = (a % b).toInt + b.toInt := by
  obtain ⟨-, hsigns⟩ := corrected_iff.1 h
  have hsmall := natAbs_toInt_mod_lt (a := a) hb
  have hlow := b.le_toInt
  have hhigh := b.toInt_lt
  rw [Int64.toInt_add]
  apply Int.bmod_eq_of_le <;> omega

/-- The remainder differs from the dividend by a multiple of the divisor. -/
theorem exists_floorMod_add (hb : b ≠ 0) :
    ∃ q, (floorMod a b).toInt + b.toInt * q = a.toInt := by
  have hdivision : (a % b).toInt + b.toInt * a.toInt.tdiv b.toInt = a.toInt := by
    rw [Int64.toInt_mod]
    exact Int.tmod_add_mul_tdiv _ _
  by_cases h : Corrected a b
  · refine ⟨a.toInt.tdiv b.toInt - 1, ?_⟩
    rw [show floorMod a b = a % b + b from if_pos h, toInt_mod_add hb h, Int.mul_sub, Int.mul_one]
    omega
  · exact ⟨_, by rwa [show floorMod a b = a % b from if_neg h]⟩

/-- The remainder is between zero and the divisor. -/
theorem floorMod_range (hb : b ≠ 0) :
    (0 < b.toInt → 0 ≤ (floorMod a b).toInt ∧ (floorMod a b).toInt < b.toInt) ∧
      (b.toInt < 0 → b.toInt < (floorMod a b).toInt ∧ (floorMod a b).toInt ≤ 0) := by
  have hsmall := natAbs_toInt_mod_lt (a := a) hb
  by_cases h : Corrected a b
  · rw [show floorMod a b = a % b + b from if_pos h, toInt_mod_add hb h]
    obtain ⟨hzero, hsigns⟩ := corrected_iff.1 h
    omega
  · rw [show floorMod a b = a % b from if_neg h]
    rw [corrected_iff] at h
    omega

/-- The remainder is that of the quotient rounded down. -/
theorem toInt_floorMod (hb : b ≠ 0) : (floorMod a b).toInt = a.toInt.fmod b.toInt := by
  obtain ⟨q, hq⟩ := exists_floorMod_add (a := a) hb
  obtain ⟨hpositive, hnegative⟩ := floorMod_range (a := a) hb
  rcases Int.lt_or_gt_of_ne (toInt_ne_zero hb) with hneg | hpos
  · exact ((Int.fdiv_fmod_unique' hneg).2 ⟨hq, hnegative hneg⟩).2.symm
  · exact ((Int.fdiv_fmod_unique hpos).2 ⟨hq, hpositive hpos⟩).2.symm

end FloorMod

/-! ## Shifts -/

section Shift

variable {n : Nat} (hn : n < 64)

include hn

/-- A count below the width is not reduced. -/
theorem toNat_shiftCount : ((Int64.ofNat n).toBitVec.smod 64).toNat = n := by
  have hpositive : (Int64.ofNat n).toBitVec.toInt = n := by
    rw [Int64.toInt_toBitVec, Int64.toInt_ofNat_of_lt]
    omega
  have hmod : ((Int64.ofNat n).toBitVec.smod 64).toInt = n := by
    rw [BitVec.toInt_smod, hpositive]
    exact Int.fmod_eq_of_lt (by omega) (by simp; omega)
  have hnat := BitVec.toInt_eq_toNat_cond ((Int64.ofNat n).toBitVec.smod 64)
  rw [hmod] at hnat
  split at hnat <;> omega

theorem toInt_shiftLeft (a : Int64) :
    (a <<< Int64.ofNat n).toInt = (a.toInt * 2 ^ n).bmod (2 ^ 64) := by
  have hbits : a.toInt = (a.toBitVec.toNat : Int).bmod (2 ^ 64) := BitVec.toInt_eq_toNat_bmod _
  rw [← Int64.toInt_toBitVec, Int64.toBitVec_shiftLeft, BitVec.shiftLeft_eq', toNat_shiftCount hn,
    BitVec.toInt_shiftLeft, hbits, Int.bmod_mul_bmod, Nat.shiftLeft_eq, Int.natCast_mul,
    Int.natCast_pow]
  rfl

theorem toInt_shiftRight (a : Int64) :
    (a >>> Int64.ofNat n).toInt = a.toInt.fdiv (2 ^ n) := by
  have hpower : (0 : Int) ≤ 2 ^ n := Int.le_of_lt (Int.pow_pos (by decide))
  rw [← Int64.toInt_toBitVec, Int64.toBitVec_shiftRight, BitVec.sshiftRight_eq',
    BitVec.toInt_sshiftRight, toNat_shiftCount hn, Int.shiftRight_eq_div_pow,
    Int.fdiv_eq_ediv_of_nonneg _ hpower, Int64.toInt_toBitVec, Int.natCast_pow]
  rfl

end Shift

/-! ## Operators -/

namespace Value

/-- An operator gives two ints an int that stands for an integer. -/
def GivesInt (op : BinaryOp) (a b : Int64) (n : Int) : Prop :=
  ∃ r, binary op (.int a) (.int b) = .ok (.int r) ∧ r.toInt = n

/-- An operator gives two ints an int each of whose bits depends on the bits there. -/
def GivesBits (op : BinaryOp) (bit : Bool → Bool → Bool) (a b : Int64) : Prop :=
  ∃ r, binary op (.int a) (.int b) = .ok (.int r) ∧
    ∀ i, r.toBitVec.getLsbD i = bit (a.toBitVec.getLsbD i) (b.toBitVec.getLsbD i)

/-- An operator fails on two values with a fault of a class. -/
def FailsAs (op : BinaryOp) (v w : Value) (kind : FaultKind) : Prop :=
  ∃ fault, binary op v w = .error fault ∧ fault.kind = kind

variable {a b : Int64}

theorem givesInt_div (hb : b ≠ 0) :
    GivesInt .div a b ((a.toInt.tdiv b.toInt).bmod (2 ^ 64)) :=
  ⟨a / b, if_neg hb, Int64.toInt_div a b⟩

theorem binary_mod (hb : b ≠ 0) :
    binary .mod (.int a) (.int b) = .ok (.int (floorMod a b)) := if_neg hb

theorem shift_of_range (f : Int64 → Int64 → Int64) (hlow : 0 ≤ b.toInt) (hhigh : b.toInt < 64) :
    shift f a b = .ok (.int (f a (Int64.ofNat b.toInt.toNat))) := by
  have hcount : shiftAmount? b = some b.toInt.toNat := if_pos ⟨hlow, hhigh⟩
  unfold shift
  rw [hcount]

theorem shift_of_not_range (f : Int64 → Int64 → Int64) (h : ¬ (0 ≤ b.toInt ∧ b.toInt < 64)) :
    shift f a b = .error (.shiftOutside b) := by
  have hcount : shiftAmount? b = none := if_neg h
  unfold shift
  rw [hcount]

/-- The operators on two ints compute on integers.  Sums, differences and products are reduced
modulo `2 ^ 64` into the signed range.  Division by zero fails, and so does its remainder; else the
quotient is truncated toward zero, and the one that is out of range is reduced as well.  The
remainder belongs to the quotient rounded down: it is zero or has the sign of the divisor, it is
smaller than the divisor, and where a truncated remainder is corrected by the divisor, the sum is
exact.  By a count from zero to 63, a shift to the left multiplies by a power of two modulo
`2 ^ 64`, and one to the right divides by it, rounding down; any other count is out of bounds.  The
other operators go bit by bit. -/
theorem int_operators_exact (a b : Int64) :
    (GivesInt .add a b ((a.toInt + b.toInt).bmod (2 ^ 64)) ∧
      GivesInt .sub a b ((a.toInt - b.toInt).bmod (2 ^ 64)) ∧
      GivesInt .mul a b ((a.toInt * b.toInt).bmod (2 ^ 64))) ∧
    (b = 0 → FailsAs .div (.int a) (.int b) .divisionByZero ∧
      FailsAs .mod (.int a) (.int b) .divisionByZero) ∧
    (b ≠ 0 → GivesInt .div a b ((a.toInt.tdiv b.toInt).bmod (2 ^ 64)) ∧
      ∃ r, binary .mod (.int a) (.int b) = .ok (.int r) ∧
        r.toInt = a.toInt - b.toInt * a.toInt.fdiv b.toInt ∧
        (r = 0 ∨ (r < 0 ↔ b < 0)) ∧ r.toInt.natAbs < b.toInt.natAbs ∧
        (Corrected a b → r = a % b + b ∧ r.toInt = (a % b).toInt + b.toInt)) ∧
    (0 ≤ b.toInt ∧ b.toInt < 64 →
      GivesInt .shiftLeft a b ((a.toInt * 2 ^ b.toInt.toNat).bmod (2 ^ 64)) ∧
      GivesInt .shiftRight a b (a.toInt.fdiv (2 ^ b.toInt.toNat))) ∧
    (¬ (0 ≤ b.toInt ∧ b.toInt < 64) → FailsAs .shiftLeft (.int a) (.int b) .outOfBounds ∧
      FailsAs .shiftRight (.int a) (.int b) .outOfBounds) ∧
    GivesBits .bitAnd and a b ∧ GivesBits .bitOr or a b ∧ GivesBits .bitXor xor a b := by
  refine ⟨⟨?_, ?_, ?_⟩, fun hzero => ⟨?_, ?_⟩, fun hb => ⟨givesInt_div hb, ?_⟩,
    fun hcount => ⟨?_, ?_⟩, fun hcount => ⟨?_, ?_⟩, ?_, ?_, ?_⟩
  · exact ⟨a + b, rfl, Int64.toInt_add a b⟩
  · exact ⟨a - b, rfl, Int64.toInt_sub a b⟩
  · exact ⟨a * b, rfl, Int64.toInt_mul a b⟩
  · exact ⟨.zeroDivisor, if_pos hzero, rfl⟩
  · exact ⟨.zeroDivisor, if_pos hzero, rfl⟩
  · obtain ⟨hpositive, hnegative⟩ := floorMod_range (a := a) hb
    have hne := toInt_ne_zero hb
    refine ⟨floorMod a b, binary_mod hb, ?_, ?_, ?_, fun hcorrected => ?_⟩
    · rw [toInt_floorMod hb, Int.fmod_def]
    · rw [← Int64.toInt_inj, Int64.lt_iff_toInt_lt, Int64.lt_iff_toInt_lt, Int64.toInt_zero]
      omega
    · omega
    · have hsum : floorMod a b = a % b + b := if_pos hcorrected
      exact ⟨hsum, by rw [hsum, toInt_mod_add hb hcorrected]⟩
  · have hlt : b.toInt.toNat < 64 := by omega
    exact ⟨_, shift_of_range (· <<< ·) hcount.1 hcount.2, toInt_shiftLeft hlt a⟩
  · have hlt : b.toInt.toNat < 64 := by omega
    exact ⟨_, shift_of_range (· >>> ·) hcount.1 hcount.2, toInt_shiftRight hlt a⟩
  · exact ⟨_, shift_of_not_range (· <<< ·) hcount, rfl⟩
  · exact ⟨_, shift_of_not_range (· >>> ·) hcount, rfl⟩
  · refine ⟨a &&& b, rfl, fun i => ?_⟩
    rw [Int64.toBitVec_and, BitVec.getLsbD_and]
  · refine ⟨a ||| b, rfl, fun i => ?_⟩
    rw [Int64.toBitVec_or, BitVec.getLsbD_or]
  · refine ⟨a ^^^ b, rfl, fun i => ?_⟩
    rw [Int64.toBitVec_xor, BitVec.getLsbD_xor]

/-- The quotient that is out of range, a remainder that is corrected and one that is not, a divisor
of zero, and the greatest count next to the least that is too large. -/
theorem int_corners_exact :
    GivesInt .div Int64.minValue (-1) (-(2 ^ 63)) ∧
      (∃ r, binary .mod (.int (-7)) (.int 2) = .ok (.int r) ∧ r.toInt = 1) ∧
      (∃ r, binary .mod (.int Int64.minValue) (.int (-1)) = .ok (.int r) ∧ r.toInt = 0) ∧
      FailsAs .mod (.int 7) (.int 0) .divisionByZero ∧
      GivesInt .shiftLeft 3 63 (-(2 ^ 63)) ∧ GivesInt .shiftRight (-5) 1 (-3) ∧
      FailsAs .shiftRight (.int 1) (.int 64) .outOfBounds := by
  obtain ⟨-, -, hleast, -⟩ := int_operators_exact Int64.minValue (-1)
  obtain ⟨hquotient, m, hm, -, -, hsmall, -⟩ := hleast (by decide)
  obtain ⟨-, -, hseven, -⟩ := int_operators_exact (-7) 2
  obtain ⟨-, r, hr, -, -, -, hcorrected⟩ := hseven (by decide)
  obtain ⟨-, hzero, -⟩ := int_operators_exact 7 0
  obtain ⟨-, -, -, hleft, -⟩ := int_operators_exact 3 63
  obtain ⟨-, -, -, hright, -⟩ := int_operators_exact (-5) 1
  obtain ⟨-, -, -, -, houtside, -⟩ := int_operators_exact 1 64
  refine ⟨hquotient, ⟨r, hr, ?_⟩, ⟨m, hm, ?_⟩, (hzero rfl).2, (hleft (by decide)).1,
    (hright (by decide)).2, (houtside (by decide)).2⟩
  · exact (hcorrected ⟨by decide, by decide⟩).2
  · have hone : (-1 : Int64).toInt.natAbs = 1 := by decide
    omega

end Value

end MiniC
