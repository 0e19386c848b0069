import BlockScript.Number.Rounding

/-!
# Decimals

A decimal is a sign, a coefficient and a power of ten, so `1.5` and `1.50` differ though they are
equal as numbers, and zero has a sign. Sums, differences and products are exact here, and
`Decimal.Limits` then bounds their digits and exponents; a quotient has one place after the point.
A coefficient may have any number of digits: the memory of a host is no matter here.
-/

namespace BlockScript

/-- The number `± coefficient · 10 ^ exponent`. -/
structure Decimal where
  negative : Bool
  coefficient : Nat
  exponent : Int
deriving DecidableEq, Repr

namespace Decimal

def powerOfTen (n : Nat) : Nat := Nat.pow 10 n

/-- The coefficient with its sign. -/
def signed (d : Decimal) : Int :=
  if d.negative then -(d.coefficient : Int) else d.coefficient

/-- The signed coefficient of `d` written with the exponent `e`, which is at most its own. -/
def scaledTo (d : Decimal) (e : Int) : Int :=
  d.signed * powerOfTen (d.exponent - e).toNat

/-- Both numbers as multiples of the smaller power of ten. -/
def align (a b : Decimal) : Int × Int :=
  let e := min a.exponent b.exponent
  (a.scaledTo e, b.scaledTo e)

def isZero (d : Decimal) : Bool := d.coefficient == 0

/-- How many digits the coefficient has. -/
def digitCount (d : Decimal) : Nat := (Nat.toDigits 10 d.coefficient).length

/-- The power of ten that the first digit counts. -/
def leading (d : Decimal) : Int := d.exponent + d.digitCount - 1

/-- The order of two numbers. It is settled by their signs or else by their first digits, if these
are in different places; so numbers of very different size need not be aligned. -/
def order (a b : Decimal) : Ordering :=
  if a.isZero || b.isZero || a.negative != b.negative then compare a.signed b.signed
  else if a.leading = b.leading then
    let (x, y) := align a b
    compare x y
  else if a.negative then compare b.leading a.leading
  else compare a.leading b.leading

/-- Equality as numbers: scales and the sign of zero do not count. -/
def numericEq (a b : Decimal) : Bool := a.order b = .eq

def lt (a b : Decimal) : Bool := a.order b = .lt

def neg (d : Decimal) : Decimal := { d with negative := !d.negative }

/-- The exact sum at the smaller exponent. A zero sum is negative only if both terms are negative,
which then are zeros. -/
def add (a b : Decimal) : Decimal :=
  let (x, y) := align a b
  let sum := x + y
  let negative := if sum = 0 then a.negative && b.negative else sum < 0
  ⟨negative, sum.natAbs, min a.exponent b.exponent⟩

def sub (a b : Decimal) : Decimal := a.add b.neg

def mul (a b : Decimal) : Decimal :=
  ⟨a.negative ^^ b.negative, a.coefficient * b.coefficient, a.exponent + b.exponent⟩

/-- The nearest tenth to the quotient, ties to an even number of tenths; a zero quotient has no
sign. The divisor is not zero. -/
def div (a b : Decimal) : Decimal :=
  let shift := a.exponent - b.exponent + 1
  let tenths := Number.roundHalfEven (a.coefficient * powerOfTen shift.toNat)
    (b.coefficient * powerOfTen (-shift).toNat)
  ⟨tenths != 0 && (a.negative ^^ b.negative), tenths, -1⟩

/-- The least number that rounds to infinity as a double: half a unit above the greatest double. -/
def doubleLimit : Nat := Nat.pow 2 1024 - Nat.pow 2 970

/-- Whether the nearest double is finite. Numbers of at most 308 digits before the point are, those
of more than 310 are not; only between them is the comparison worked out. -/
def isFinite (d : Decimal) : Bool :=
  let whole : Int := d.digitCount + d.exponent
  if d.isZero || whole ≤ 308 then true
  else if 310 < whole then false
  else
    d.coefficient * powerOfTen d.exponent.toNat < doubleLimit * powerOfTen (-d.exponent).toNat

end Decimal

end BlockScript
