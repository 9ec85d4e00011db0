import MiniC.Decimal.Binary

/-!
# Fewest digits that read back

Of the decimals that lie closer to a double than to its neighbours, `shortest` finds one with the
fewest digits, and of those the nearest.  It walks down the grids of multiples of `10 ^ p` and stops
at the first grid with a point in the interval of reals that round to the double; if any point of a
grid lies there, so does one of the two grid points around the double.
-/

namespace MiniC.Decimal

/-- The number `significand · 10 ^ exponent`. -/
structure Scientific where
  significand : Nat
  exponent : Int
deriving DecidableEq

/-- A positive double between its neighbours, in quarters of its last place: the double is
`4 · significand` quarters, `below` quarters reach down to the end of its interval and two quarters
reach up to the other end.  The ends belong to the interval if the significand is even. -/
structure Neighbourhood where
  significand : Nat
  exponent : Int
  below : Nat

/-- The interval of `significand · 2 ^ exponent`: the neighbour below a power of two is nearer,
except below the least exponent. -/
def Neighbourhood.of (significand : Nat) (exponent : Int) : Neighbourhood :=
  ⟨significand, exponent,
    if significand = fractionLimit ∧ exponent ≠ leastExponent then 1 else 2⟩

/-- A point of the grid of multiples of `10 ^ p` inside the interval, the nearer if the two around
the double both lie inside, the upper of two equally near. -/
def Neighbourhood.gridPoint? (v : Neighbourhood) (p : Int) : Option Nat :=
  let quarter := Nat.pow 2 (v.exponent - 2).toNat * Nat.pow 10 (-p).toNat
  let spacing := Nat.pow 2 (2 - v.exponent).toNat * Nat.pow 10 p.toNat
  let total := 4 * v.significand * quarter
  let lower := total / spacing
  let toLower := total % spacing
  let toUpper := spacing - toLower
  let reaches (distance room : Nat) : Bool :=
    if v.significand % 2 = 0 then distance ≤ room else distance < room
  let lowerFits := reaches toLower (v.below * quarter)
  let upperFits := reaches toUpper (2 * quarter)
  match lowerFits, upperFits with
  | true, true => some (if toLower < toUpper then lower else lower + 1)
  | true, false => some lower
  | false, true => some (lower + 1)
  | false, false => none

/-- Walks down the grids from `10 ^ p`. -/
def Neighbourhood.search (v : Neighbourhood) : Nat → Int → Scientific
  | 0, p => ⟨0, p⟩
  | grids + 1, p =>
    match v.gridPoint? p with
    | some d => ⟨d, p⟩
    | none => v.search grids (p - 1)

/-- How many grids the search looks at.  A grid with seventeen digits always has a hit, and the
search starts at most three grids above the first digit. -/
def searchedGrids : Nat := 24

/-- The shortest decimal of a positive double.  The search starts at a grid above the double, from
its binary order by `log10 2 ≈ 30103 / 100000`. -/
def shortest (significand : Nat) (exponent : Int) : Scientific :=
  let order : Int := significand.log2 + exponent
  (Neighbourhood.of significand exponent).search searchedGrids
    (Int.fdiv (order * 30103) 100000 + 2)

end MiniC.Decimal
