import DeepPath.Decimal.Binary64

/-!
# Shortest decimals

The decimals that read back as a number `x` fill an interval around it, which ends halfway to the
neighbours of `x` and holds its ends exactly if the significand of `x` is even.  Among them one of
fewest digits is chosen, that is, one on the coarsest grid `10 ^ p` with a point in the interval;
of two such points the nearer one, and of two equally near the greater.

All comparisons are between whole numbers: `n * 2 ^ q` and `k * 10 ^ p` compare like
`n * binaryUnit q p` and `k * decimalUnit q p`.
-/

namespace DeepPath

/-- The number `coefficient * 10 ^ exponent`. -/
structure DecimalNumber where
  coefficient : Nat
  exponent : Int
  deriving DecidableEq

namespace Binary64

/-- `2 ^ q`, on a scale that makes it and `10 ^ p` whole. -/
def binaryUnit (q p : Int) : Nat :=
  Nat.pow 2 q.toNat * Nat.pow 10 (-p).toNat

/-- `10 ^ p`, on the scale of `binaryUnit q p`. -/
def decimalUnit (q p : Int) : Nat :=
  Nat.pow 10 p.toNat * Nat.pow 2 (-q).toNat

/-- Whether `k * 10 ^ p` reads back as `x`; the ends of the interval are counted in quarters of the
unit of `x`. -/
def readsBack (x : Binary64) (p : Int) (k : Nat) : Bool :=
  let quarter := binaryUnit (x.exponent - 2) p
  let point := k * decimalUnit (x.exponent - 2) p
  let low := (4 * x.significand - if x.isBoundary then 1 else 2) * quarter
  let high := (4 * x.significand + 2) * quarter
  if x.significand % 2 = 0 then low ≤ point && point ≤ high else low < point && point < high

/-- The point of the grid `10 ^ p` next to `x` that reads back as `x`. -/
def onGrid? (x : Binary64) (p : Int) : Option DecimalNumber :=
  let value := x.significand * binaryUnit x.exponent p
  let grid := decimalUnit x.exponent p
  let below := value / grid
  let nearer := if 2 * (value % grid) < grid then below else below + 1
  let farther := if 2 * (value % grid) < grid then below + 1 else below
  if x.readsBack p nearer then
    some ⟨nearer, p⟩
  else if x.readsBack p farther then
    some ⟨farther, p⟩
  else
    none

/-- The exponents of the grids, coarse to fine, that can hold a shortest decimal. -/
def grids : List Int :=
  (List.range 654).map fun (i : Nat) => 310 - (i : Int)

/-- The shortest decimal that reads back as the finite number `x`, up to its sign. -/
def shortest (x : Binary64) : DecimalNumber :=
  if x.isZero then ⟨0, 0⟩ else (grids.findSome? x.onGrid?).getD ⟨0, 0⟩

end Binary64

end DeepPath
