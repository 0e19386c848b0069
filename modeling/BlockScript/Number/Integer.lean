/-!
# Integers

Integers are unbounded while a program runs. The static rules admit literals of 32 bits only. A
numeral may have any number of digits: there is no limit to the texts that are converted.
-/

namespace BlockScript.Number

/-- The sign at the front of a numeral, true for minus, and the rest. -/
def splitSign : List Char → Bool × List Char
  | '-' :: cs => (true, cs)
  | '+' :: cs => (false, cs)
  | cs => (false, cs)

/-- The value of a string of decimal digits. -/
def natural (cs : List Char) : Nat := Nat.ofDigitChars 10 cs 0

/-- The value of a numeral: an optional sign, then digits. -/
def integer (cs : List Char) : Int :=
  let (negative, digits) := splitSign cs
  if negative then -(natural digits : Int) else natural digits

/-- The integers that a literal may denote. -/
def inRange (n : Int) : Bool := -2147483648 ≤ n && n ≤ 2147483647

end BlockScript.Number
