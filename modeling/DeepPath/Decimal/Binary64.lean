/-!
# Floating-point numbers

A floating-point number is its 64 bits: a sign, eleven bits of exponent and 52 bits of fraction.
A finite one is a whole number of units `2 ^ q`; equality is that of numbers, so the two zeros are
equal and what is not a number differs from everything, itself included.
-/

namespace DeepPath

/-- A binary floating-point number in 64 bits. -/
structure Binary64 where
  bits : UInt64
  deriving DecidableEq

namespace Binary64

/-- The number zero. -/
def zero : Binary64 :=
  ⟨0⟩

/-- The number of fractions, `2 ^ 52`. -/
def fractionCount : Nat :=
  Nat.pow 2 52

/-- Whether the sign bit is set. -/
def isNegative (x : Binary64) : Bool :=
  Nat.pow 2 63 ≤ x.bits.toNat

/-- The bits of the exponent. -/
def exponentBits (x : Binary64) : Nat :=
  x.bits.toNat / fractionCount % 2048

/-- The bits of the fraction. -/
def fraction (x : Binary64) : Nat :=
  x.bits.toNat % fractionCount

/-- Whether the bits are no number. -/
def isNaN (x : Binary64) : Bool :=
  x.exponentBits = 2047 && x.fraction != 0

/-- Whether the bits are an infinity. -/
def isInfinite (x : Binary64) : Bool :=
  x.exponentBits = 2047 && x.fraction == 0

/-- Whether the number is one of the two zeros. -/
def isZero (x : Binary64) : Bool :=
  x.exponentBits = 0 && x.fraction == 0

/-- A finite number is, up to its sign, `significand * 2 ^ exponent`. -/
def significand (x : Binary64) : Nat :=
  if x.exponentBits = 0 then x.fraction else fractionCount + x.fraction

/-- The exponent of the unit. -/
def exponent (x : Binary64) : Int :=
  if x.exponentBits = 0 then -1074 else x.exponentBits - 1075

/-- Whether the next smaller number is only half as far away as the next greater one. -/
def isBoundary (x : Binary64) : Bool :=
  1 < x.exponentBits && x.fraction == 0

/-- Equality of numbers. -/
def equal (x y : Binary64) : Bool :=
  !x.isNaN && !y.isNaN && (x.bits == y.bits || x.isZero && y.isZero)

theorem equal_comm (x y : Binary64) : x.equal y = y.equal x := by
  rw [equal, equal, Bool.and_comm (!x.isNaN), BEq.comm (a := x.bits), Bool.and_comm x.isZero]

/-- Only what is a number equals itself. -/
theorem equal_self (x : Binary64) : x.equal x = !x.isNaN := by
  simp [equal]

end Binary64

end DeepPath
