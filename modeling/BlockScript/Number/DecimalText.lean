import BlockScript.Number.Decimal
import BlockScript.Number.Integer

/-!
# Decimals as text

A decimal is written out in full, without an exponent: every place that it keeps is a digit. It is
read from a sign, digits, a fraction and an exponent, of which only the digits must be there.
-/

namespace BlockScript.Decimal

/-- The digits of a fraction behind its point, and what follows. -/
def splitFraction : List Char → List Char × List Char
  | '.' :: cs => (cs.takeWhile Char.isDigit, cs.dropWhile Char.isDigit)
  | cs => ([], cs)

/-- The exponent that a numeral ends with. -/
def splitExponent : List Char → Int
  | c :: cs => if c = 'e' || c = 'E' then Number.integer cs else 0
  | [] => 0

/-- The value of a decimal numeral. -/
def ofNumeral (cs : List Char) : Decimal :=
  let (negative, body) := Number.splitSign cs
  let whole := body.takeWhile Char.isDigit
  let (places, rest) := splitFraction (body.dropWhile Char.isDigit)
  ⟨negative, Number.natural (whole ++ places), splitExponent rest - places.length⟩

/-- The digits of the absolute value. Places behind the point are kept, and a zero has one digit
before it. -/
def digits (d : Decimal) : List Char :=
  let ds := Nat.toDigits 10 d.coefficient
  let places := (-d.exponent).toNat
  if places = 0 then
    if d.isZero then ['0'] else ds ++ List.replicate d.exponent.toNat '0'
  else
    let padded := List.replicate (places + 1 - ds.length) '0' ++ ds
    let whole := padded.length - places
    padded.take whole ++ '.' :: padded.drop whole

def toText (d : Decimal) : String :=
  String.ofList (if d.negative then '-' :: d.digits else d.digits)

end BlockScript.Decimal
