import BlockScript.Number.Decimal

/-!
# Decimals within limits

Decimal arithmetic keeps a number of digits and a range of exponents. A result that goes beyond them
is rounded to the nearest number that does not, ties to even, and one that is too large is none.
Operators have limits that are as wide as can be; those of the absolute value are narrow.
-/

namespace BlockScript.Decimal

/-- The decimal without its last `n` digits, rounded. -/
def dropDigits (d : Decimal) (n : Nat) : Decimal :=
  if d.digitCount < n then ⟨d.negative, 0, d.exponent + n⟩
  else ⟨d.negative, Number.roundHalfEven d.coefficient (powerOfTen n), d.exponent + n⟩

/-- How many digits a result has at most, and which powers of ten its first digit may count if there
are as many. Smaller numbers keep the last place of the least of these. -/
structure Limits where
  precision : Nat
  greatest : Int
  least : Int
  positive : 0 < precision
  ordered : least ≤ greatest

namespace Limits

/-- The least exponent of a result. -/
def leastExponent (l : Limits) : Int := l.least - l.precision + 1

/-- How many digits are rounded away: those that are too many, and those of places too small. -/
def excess (l : Limits) (d : Decimal) : Nat :=
  max (d.digitCount - l.precision) (l.leastExponent - d.exponent).toNat

/-- The decimal, rounded. Where that carries into one digit too many, the last one is a zero that
goes into the exponent. -/
def round (l : Limits) (d : Decimal) : Decimal :=
  let rounded := d.dropDigits (l.excess d)
  if l.precision < rounded.digitCount then rounded.dropDigits 1 else rounded

/-- Whether a look at the exponent and at the bits of the coefficient, which are no fewer than its
digits, shows that the decimal is within the limits. -/
def clearlyHolds (l : Limits) (d : Decimal) : Bool :=
  l.leastExponent ≤ d.exponent && d.coefficient.log2 < l.precision &&
    d.exponent + d.coefficient.log2 ≤ l.greatest

/-- The decimal within the limits, none if it is too large. -/
def apply (l : Limits) (d : Decimal) : Option Decimal :=
  if l.clearlyHolds d then some d
  else
    let rounded := l.round d
    if rounded.leading ≤ l.greatest then some rounded
    else if rounded.isZero then some { rounded with exponent := l.greatest }
    else none

/-- The limits of sums, differences and products. -/
def wide : Limits where
  precision := 999999999999999999
  greatest := 999999999999999999
  least := -999999999999999999
  positive := by decide
  ordered := by decide

/-- The limits of absolute values. -/
def narrow : Limits where
  precision := 28
  greatest := 999999
  least := -999999
  positive := by decide
  ordered := by decide

end Limits

/-- The absolute value, if it is not too large. -/
def abs (d : Decimal) : Option Decimal := Limits.narrow.apply { d with negative := false }

end BlockScript.Decimal
