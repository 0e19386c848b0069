/-!
# Rounding a quotient

The natural number nearest to a fraction; halfway between two, the even one.
-/

namespace BlockScript.Number

/-- The natural number nearest to `num / den`, ties to even. -/
def roundHalfEven (num den : Nat) : Nat :=
  let q := num / den
  let r := num % den
  if 2 * r < den then q else if den < 2 * r then q + 1 else q + q % 2

end BlockScript.Number
