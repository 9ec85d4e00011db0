import MiniC.Decimal.Integer
import MiniC.Decimal.Binary

/-!
# Doubles from decimal text

A text denotes a double if it is an optional sign followed by `inf`, `infinity` or `nan` in any
case, or by digits with an optional point and an optional exponent.  The double is the one nearest
to the decimal value, where of the exponent only the first digits count (`exponentValue`).
-/

namespace MiniC.Decimal

/-- A decimal exponent from which every positive whole significand is infinite, and below whose
negative every significand of fewer digits than the difference is zero. -/
def exponentReach : Int := 400

/-- The double nearest to `significand · 10 ^ exponent`.  Exponents out of reach are decided
without computing the power. -/
def nearestScientific (significand : Nat) (exponent : Int) : Float :=
  if significand = 0 then nearest 0 1
  else if exponent ≥ exponentReach then infinity
  else if exponent + (digits significand).length ≤ -exponentReach then nearest 0 1
  else if exponent ≥ 0 then nearest (significand * Nat.pow 10 exponent.toNat) 1
  else nearest significand (Nat.pow 10 (-exponent).toNat)

/-- How many digits are looked at one by one.  Neither a double nor the midpoint of two neighbouring
doubles has as many, so all that counts of the digits after them is whether they are zeros. -/
def significantDigits : Nat := 800

/-- The double nearest to the number that `ds` are the digits of, scaled by a power of ten.  Digits
that are not looked at one by one stand as a single one unless they are zeros. -/
def nearestDigits (ds : List Char) (exponent : Int) : Float :=
  let ds := significant ds
  let beyond := ds.drop significantDigits
  let leading := value (ds.take significantDigits)
  if beyond.all (· = '0') then nearestScientific leading (exponent + beyond.length)
  else nearestScientific (10 * leading + 1) (exponent + beyond.length - 1)

/-- The double that `whole.fraction` denotes, scaled by a power of ten. -/
def readPoint (whole fraction : List Char) (exponent : Int) : Float :=
  nearestDigits (whole ++ fraction) (exponent - fraction.length)

/-- An exponent that has got as far as this takes no further digit. -/
def exponentCutoff : Nat := 65536

/-- The exponent that a run of digits denotes: its digits count until the cutoff is reached, and the
rest of them is ignored.  Only numbers with tens of thousands of digits can tell. -/
def exponentValue (ds : List Char) : Nat :=
  ds.foldl (fun n d => if n < exponentCutoff then 10 * n + digitValue d else n) 0

/-- The exponent that ends a number: nothing, or a letter `e`, an optional sign and digits. -/
def readExponent? : List Char → Option Int
  | [] => some 0
  | c :: rest =>
    if c = 'e' ∨ c = 'E' then
      let (negative, ds) := splitSign rest
      if isNumeral ds then
        some (if negative then -(exponentValue ds : Int) else exponentValue ds)
      else
        none
    else
      none

/-- An unsigned number: digits with an optional point, at least one digit in all, then an
optional exponent. -/
def readNumber? (cs : List Char) : Option Float :=
  let whole := cs.takeWhile Char.isDigit
  let rest := cs.dropWhile Char.isDigit
  let (fraction, rest) :=
    match rest with
    | '.' :: after => (after.takeWhile Char.isDigit, after.dropWhile Char.isDigit)
    | _ => ([], rest)
  if whole.isEmpty && fraction.isEmpty then none
  else (readExponent? rest).map (readPoint whole fraction)

/-- The named doubles, in any case. -/
def readNamed? (cs : List Char) : Option Float :=
  let name := String.ofList (cs.map Char.toLower)
  if name == "inf" || name == "infinity" then some infinity
  else if name == "nan" then some (Float.ofBits 0x7ff8000000000000)
  else none

/-- The double that a text denotes. -/
def readFloat? (cs : List Char) : Option Float :=
  let (negative, body) := splitSign cs
  ((readNamed? body).or (readNumber? body)).map fun x => if negative then -x else x

end MiniC.Decimal
