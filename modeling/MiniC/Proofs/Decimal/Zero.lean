import Mathlib
import MiniC.Value.Convert

/-!
# Doubles that are zero

An int converts to a double that equals zero only if it is zero itself (`intToFloat_beq_zero`).  The
double nearest to a positive integer has an exponent above the least one, so its significand has a
leading bit; neither packing such a double into bits nor changing its sign makes it a zero.
-/

namespace MiniC

open Float.Model Float.Model.UnpackedFloat

/-! ## Doubles with a leading bit -/

/-- Neither a zero nor a number whose significand lacks the leading bit. -/
def IsLarge : UnpackedFloat → Prop
  | .zero _ => False
  | .finite _ significand exponent _ =>
    significand.log2 = Decimal.fractionBits ∧ Decimal.leastExponent ≤ exponent
  | .infinity _ | .notANumber => True

section IsLarge

variable {f : UnpackedFloat} {bits : BitVec 64} {x : Float}

theorem exponentBias_binary64 : Float.Model.Format.binary64.exponentBias = 1023 := rfl

theorem isLarge_neg (h : IsLarge f) : IsLarge f.neg := by
  cases f <;> exact h

/-- Above the least exponent the leading bit is there, although it is not stored. -/
theorem isLarge_unpack (h : @unpackExponent .binary64 bits ≠ 0#11) :
    IsLarge (unpack .binary64 bits) := by
  have hfraction : (@unpackMantissa .binary64 bits).toNat < 2 ^ 52 := BitVec.isLt _
  have hexponent : (@unpackExponent .binary64 bits).toNat ≠ 0 := fun hzero =>
    h (BitVec.eq_of_toNat_eq hzero)
  unfold UnpackedFloat.unpack
  dsimp only
  split
  · split <;> trivial
  · constructor
    · have hleading :
          (1#1).toNat <<< Float.Model.Format.binary64.mantissaBitsWithoutImplicit = 2 ^ 52 := rfl
      rw [BitVec.toNat_append, ← Nat.shiftLeft_add_eq_or_of_lt hfraction, hleading,
        Nat.log2_eq_iff (by omega), Decimal.fractionBits]
      omega
    · rw [exponentBias_binary64, Decimal.leastExponent]
      omega

/-- Packing keeps the exponent, or makes it the greatest one. -/
theorem unpackExponent_pack (h : IsLarge f) :
    @unpackExponent .binary64 (UnpackedFloat.pack .binary64 f) ≠ 0#11 := by
  cases f with
  | zero s => cases h
  | infinity s => simp [UnpackedFloat.pack, packedInfinity]
  | notANumber => simp [UnpackedFloat.pack, packedNaN]
  | finite s significand exponent _ =>
    obtain ⟨hlog, hleast⟩ := h
    unfold UnpackedFloat.pack
    dsimp only
    split
    · simp [packedInfinity]
    · next hsmall =>
      rw [if_pos (by rw [hlog]; rfl), unpackExponent_packComponents]
      rw [exponentBias_binary64] at hsmall ⊢
      rw [Decimal.leastExponent] at hleast
      intro hzero
      have hfield := congrArg BitVec.toNat hzero
      rw [BitVec.toNat_ofNat, BitVec.toNat_ofNat, Nat.mod_eq_of_lt (by omega)] at hfield
      omega

theorem isLarge_ofBits {bits : UInt64}
    (h : @unpackExponent .binary64 bits.toBitVec ≠ 0#11) :
    IsLarge (Float.ofBits bits).toModel.unpack :=
  isLarge_unpack (unpackExponent_pack (isLarge_unpack h))

theorem isLarge_negate (h : IsLarge x.toModel.unpack) : IsLarge (-x).toModel.unpack :=
  isLarge_unpack (unpackExponent_pack (isLarge_neg h))

theorem beq_zero_of_isLarge (h : IsLarge x.toModel.unpack) : (x == Float.ofBits 0) = false := by
  have hzero : (Float.ofBits 0).toModel.unpack = .zero .positive := rfl
  show x.toModel.unpack.beq (Float.ofBits 0).toModel.unpack = false
  rw [hzero]
  cases hx : x.toModel.unpack with
  | zero s =>
    rw [hx] at h
    cases h
  | notANumber => rfl
  | infinity s => cases s <;> rfl
  | finite s _ _ _ => cases s <;> rfl

end IsLarge

/-! ## The doubles nearest to integers -/

section Nearest

variable {n : Nat} (hn : n ≠ 0)

include hn

/-- The double nearest to a positive integer has not the least exponent, and is infinite at most. -/
theorem nearestBits_bounds :
    Decimal.fractionLimit ≤ Decimal.nearestBits n 1 ∧
      Decimal.nearestBits n 1 ≤ Decimal.infinityBits := by
  have horder : -1 ≤ Decimal.binaryOrder n 1 := by
    have hone : Nat.log2 1 = 0 := by decide
    unfold Decimal.binaryOrder
    dsimp only
    rw [hone]
    split <;> omega
  have hlimit : Decimal.fractionLimit ≤ Decimal.infinityBits := by decide
  unfold Decimal.nearestBits
  rw [if_neg hn]
  dsimp only
  generalize Decimal.roundDiv _ _ = rounded
  have hexponent : 1 ≤ (max (Decimal.binaryOrder n 1 - Decimal.fractionBits)
      Decimal.leastExponent - Decimal.leastExponent).toNat := by
    rw [Decimal.fractionBits, Decimal.leastExponent]
    omega
  have hpositive := Nat.le_mul_of_pos_left Decimal.fractionLimit hexponent
  omega

theorem isLarge_nearest : IsLarge (Decimal.nearest n 1).toModel.unpack := by
  obtain ⟨hlow, hhigh⟩ := nearestBits_bounds hn
  have hlimit : Decimal.fractionLimit = 4503599627370496 := rfl
  have hinfinity : Decimal.infinityBits = 9218868437227405312 := rfl
  apply isLarge_ofBits
  intro hzero
  have hfield := congrArg BitVec.toNat hzero
  simp [unpackExponent, Nat.shiftRight_eq_div_pow] at hfield
  omega

end Nearest

/-- An int that converts to a float that equals zero is zero. -/
theorem intToFloat_beq_zero (n : Int64) : (intToFloat n == Float.ofBits 0) = decide (n = 0) := by
  by_cases hn : n = 0
  · subst hn
    rfl
  · have hne : n.toInt.natAbs ≠ 0 := by
      rw [Ne, Int.natAbs_eq_zero]
      exact fun hzero => hn (Int64.toInt_inj.1 hzero)
    rw [decide_eq_false hn]
    apply beq_zero_of_isLarge
    unfold intToFloat Decimal.nearestInt
    split
    · exact isLarge_negate (isLarge_nearest hne)
    · exact isLarge_nearest hne

end MiniC
