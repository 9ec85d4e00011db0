import MiniC.Decimal.Digits
import MiniC.Decimal.Shortest

/-!
# Texts of doubles

`Layout` lists the choices that a notation for doubles makes; `render` writes a double with the
fewest digits under such a notation.  `Layout.general` is what values print as, `Layout.plain` is
never exponential.
-/

namespace MiniC.Decimal

/-- The choices of a notation. -/
structure Layout where
  /-- The range of point positions that are written without an exponent: the point stands after
  that many digits. -/
  positional : Int → Bool
  /-- Whether a whole number keeps `.0`. -/
  keepsPoint : Bool

/-- From `1e-4` up to below `1e16` positional and with a fractional part, exponential otherwise. -/
def Layout.general : Layout := ⟨fun point => -3 ≤ point && point ≤ 16, true⟩

/-- Always positional, and without a fractional part if the number is whole. -/
def Layout.plain : Layout := ⟨fun _ => true, false⟩

/-- The digits `ds` with the point after `point` of them; zeros fill the places between. -/
def positionalText (keepsPoint : Bool) (ds : List Char) (point : Int) : List Char :=
  if point ≤ 0 then
    '0' :: '.' :: (List.replicate (-point).toNat '0' ++ ds)
  else if point < ds.length then
    ds.take point.toNat ++ '.' :: ds.drop point.toNat
  else
    ds ++ List.replicate (point.toNat - ds.length) '0' ++ (if keepsPoint then ['.', '0'] else [])

/-- The digits `ds` with the point after the first of them, and an exponent. -/
def exponentialText (ds : List Char) (point : Int) : List Char :=
  let fraction := ds.drop 1
  ds.take 1 ++ (if fraction.isEmpty then [] else '.' :: fraction)
    ++ 'e' :: (if point - 1 < 0 then '-' :: digits (point - 1).natAbs
      else digits (point - 1).natAbs)

/-- A double that is not negative, `significand · 2 ^ exponent`. -/
def Layout.magnitude (layout : Layout) (significand : Nat) (exponent : Int) : List Char :=
  if significand = 0 then
    positionalText layout.keepsPoint ['0'] 1
  else
    let decimal := shortest significand exponent
    let ds := digits decimal.significand
    let point : Int := ds.length + decimal.exponent
    if layout.positional point then positionalText layout.keepsPoint ds point
    else exponentialText ds point

/-- A double as text.  A zero keeps its sign, a NaN has none. -/
def Layout.render (layout : Layout) (x : Float) : String :=
  match FloatForm.ofFloat x with
  | .nan => "NaN"
  | .infinite true => "-inf"
  | .infinite false => "inf"
  | .finite negative significand exponent =>
    let text := layout.magnitude significand exponent
    String.ofList (if negative then '-' :: text else text)

end MiniC.Decimal
