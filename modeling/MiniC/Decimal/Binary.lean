/-!
# Doubles as exact fractions

A finite double is `significand · 2 ^ exponent` with a whole significand.  `FloatForm.ofFloat` takes
a double apart; `nearestBits` finds the double nearest to a fraction, a tie going to the even
significand.  Integers convert to doubles by `nearestInt` and back by `FloatForm.truncated?`.
-/

namespace MiniC.Decimal

/-- What a double denotes. -/
inductive FloatForm
  | nan
  | infinite (negative : Bool)
  | finite (negative : Bool) (significand : Nat) (exponent : Int)

/-- The bits of the significand that are stored. -/
def fractionBits : Nat := 52

/-- The significands of normal doubles begin here. -/
def fractionLimit : Nat := Nat.pow 2 fractionBits

/-- The exponent of the last place of the least doubles. -/
def leastExponent : Int := -1074

/-- The pattern of positive infinity; every pattern below it is finite and not negative. -/
def infinityBits : Nat := 2047 * fractionLimit

/-- Takes a bit pattern apart. -/
def FloatForm.ofBits (bits : UInt64) : FloatForm :=
  let n := bits.toNat
  let negative := n ≥ Nat.pow 2 63
  let biased := n / fractionLimit % 2048
  let fraction := n % fractionLimit
  if biased = 2047 then
    if fraction = 0 then .infinite negative else .nan
  else if biased = 0 then
    .finite negative fraction leastExponent
  else
    .finite negative (fractionLimit + fraction) (leastExponent + (biased - 1 : Nat))

/-- Takes a double apart. -/
def FloatForm.ofFloat (x : Float) : FloatForm := .ofBits x.toBits

/-- `numerator / denominator` as a whole number, a tie going to the even one. -/
def roundDiv (numerator denominator : Nat) : Nat :=
  let quotient := numerator / denominator
  let twice := 2 * (numerator % denominator)
  if twice < denominator then quotient
  else if denominator < twice then quotient + 1
  else quotient + quotient % 2

/-- The fraction `numerator / (denominator · 2 ^ exponent)` as numerator and denominator. -/
def scaleDown (numerator denominator : Nat) (exponent : Int) : Nat × Nat :=
  if exponent ≥ 0 then
    (numerator, denominator * Nat.pow 2 exponent.toNat)
  else
    (numerator * Nat.pow 2 (-exponent).toNat, denominator)

/-- The binary order of a positive fraction: the `k` with `2 ^ k ≤ numerator / denominator`
and the fraction below `2 ^ (k + 1)`. -/
def binaryOrder (numerator denominator : Nat) : Int :=
  let guess : Int := (numerator.log2 : Int) - denominator.log2
  let (n, d) := scaleDown numerator denominator guess
  if d ≤ n then guess else guess - 1

/-- The pattern of the double nearest to `numerator / denominator`.  Patterns of positive doubles
count up with their values, so a significand rounded up to the next power of two carries into the
exponent by itself. -/
def nearestBits (numerator denominator : Nat) : Nat :=
  if numerator = 0 then 0
  else
    let last := max (binaryOrder numerator denominator - fractionBits) leastExponent
    let (n, d) := scaleDown numerator denominator last
    min infinityBits ((last - leastExponent).toNat * fractionLimit + roundDiv n d)

/-- The double nearest to `numerator / denominator`; infinite beyond the largest one. -/
def nearest (numerator denominator : Nat) : Float :=
  Float.ofBits (UInt64.ofNat (nearestBits numerator denominator))

/-- The double nearest to an integer. -/
def nearestInt (n : Int) : Float :=
  if n < 0 then -nearest n.natAbs 1 else nearest n.natAbs 1

/-- A finite double without its fraction. -/
def FloatForm.truncated? : FloatForm → Option Int
  | .finite negative significand exponent =>
    let (n, d) := scaleDown significand 1 (-exponent)
    let whole : Nat := n / d
    some (if negative then -whole else whole)
  | .nan | .infinite _ => none

/-- Positive infinity. -/
def infinity : Float := Float.ofBits (UInt64.ofNat infinityBits)

end MiniC.Decimal
