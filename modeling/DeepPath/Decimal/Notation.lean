import DeepPath.Decimal.Shortest

/-!
# Notation of floating-point numbers

A number is written in one of three ways, with a sign if its sign bit is set.

* `plain`: the shortest decimal, always positional, without a point if it is whole.
* `fixed`: with a given number of places, rounded from the exact value; exactly between two decimals the
  one with the even last digit is taken.
* `literal`: the shortest decimal, so that it is seen to be no whole number: positional from
  `10 ^ -4` to below `10 ^ 16` and then with at least one place, else with an exponent.
-/

namespace DeepPath

/-! ## Decimals of fixed places -/

/-- The whole number nearest to `n / d`; a tie goes to the even one. -/
def roundQuotient (n d : Nat) : Nat :=
  if 2 * (n % d) < d then n / d
  else if 2 * (n % d) = d ∧ n / d % 2 = 0 then n / d
  else n / d + 1

/-- The number of units `10 ^ -places` nearest to the finite number `x`, up to its sign. -/
def Binary64.rounded (x : Binary64) (places : Nat) : Nat :=
  roundQuotient (x.significand * Nat.pow 2 x.exponent.toNat * Nat.pow 10 places)
    (Nat.pow 2 (-x.exponent).toNat)

/-- Rounding is off by at most half a unit. -/
theorem roundQuotient_bounds (n : Nat) {d : Nat} (h : 0 < d) :
    2 * n ≤ (2 * roundQuotient n d + 1) * d ∧ 2 * roundQuotient n d * d ≤ 2 * n + d := by
  have hn := Nat.div_add_mod n d
  have hlt := Nat.mod_lt n h
  have hc : d * (n / d) = n / d * d := Nat.mul_comm _ _
  unfold roundQuotient
  split
  · simp only [Nat.add_mul, Nat.mul_assoc, Nat.one_mul]
    omega
  · split <;> simp only [Nat.add_mul, Nat.mul_add, Nat.mul_assoc, Nat.one_mul] <;> omega

/-! ## Digits -/

namespace DecimalNumber

/-- The digits of the coefficient. -/
def digits (d : DecimalNumber) : List Char :=
  Nat.toDigits 10 d.coefficient

/-- The exponent of the first digit. -/
def magnitude (d : DecimalNumber) : Int :=
  d.digits.length - 1 + d.exponent

/-- A point in front of the last `places` digits; `0` if no digit is left in front of it. -/
def withPoint (places : Nat) (digits : List Char) : List Char :=
  let padded := List.replicate (places + 1 - digits.length) '0' ++ digits
  let front := padded.length - places
  if places = 0 then padded else padded.take front ++ '.' :: padded.drop front

/-- The positional form. -/
def positional (d : DecimalNumber) : List Char :=
  withPoint (-d.exponent).toNat (d.digits ++ List.replicate d.exponent.toNat '0')

/-- The positional form, with at least one place. -/
def positionalWithPlaces (d : DecimalNumber) : List Char :=
  if d.exponent < 0 then d.positional else d.positional ++ ['.', '0']

/-- The form with one digit in front of the point and an exponent. -/
def scientific (d : DecimalNumber) : List Char :=
  let mantissa :=
    match d.digits with
    | [] => []
    | [digit] => [digit]
    | digit :: rest => digit :: '.' :: rest
  mantissa ++ 'e' :: (toString d.magnitude).toList

end DecimalNumber

/-! ## Numbers -/

namespace Binary64

/-- The sign, and what `write` makes of a finite number; infinities and what is not a number have
names, of which the latter has no sign. -/
def written (x : Binary64) (write : Binary64 → List Char) : String :=
  if x.isNaN then
    "NaN"
  else
    let size := if x.isInfinite then ['i', 'n', 'f'] else write x
    String.ofList (if x.isNegative then '-' :: size else size)

/-- The shortest decimal in positional form. -/
def plain (x : Binary64) : String :=
  x.written fun y => y.shortest.positional

/-- The number rounded to some places. -/
def fixed (places : Nat) (x : Binary64) : String :=
  x.written fun y => DecimalNumber.withPoint places (Nat.toDigits 10 (y.rounded places))

/-- Whether the literal of a decimal is positional. -/
def isPositional (d : DecimalNumber) : Bool :=
  d.coefficient = 0 || -4 ≤ d.magnitude && d.magnitude < 16

/-- The shortest decimal, which shows a point or an exponent. -/
def literal (x : Binary64) : String :=
  x.written fun y =>
    let d := y.shortest
    if isPositional d then d.positionalWithPlaces else d.scientific

end Binary64

end DeepPath
