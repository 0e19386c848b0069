import BlockScript.Syntax.Basic
import BlockScript.Value.Basic

/-!
# Operations on values

What the operators that evaluate both operands compute. Integers are exact and divide toward zero.
Sums, differences and products of decimals are exact within `Decimal.Limits.wide`; a quotient has no
limits, since one with too many digits for them would not fit into any memory. A string takes up the
text of whatever is added to it.
-/

namespace BlockScript

namespace Value

/-- The order within one kind; strings and characters are ordered by code point. -/
def less : Value → Value → Bool
  | integer a, integer b => a < b
  | character a, character b => a < b
  | string a, string b => a < b
  | decimal a, decimal b => a.lt b
  | _, _ => false

/-- The kinds of values that have an order. -/
def orderedKinds : List String := [Ty.integer, .character, .string, .decimal].map Ty.name

/-- Both values are of one kind, and that kind has an order. -/
def areComparable (a b : Value) : Bool := a.kind = b.kind && orderedKinds.contains a.kind

end Value

namespace Operator

/-- What a comparison says of two comparable values. -/
def holds : Operator → Value → Value → Bool
  | eq, a, b => a.same b
  | ne, a, b => !a.same b
  | lt, a, b => a.less b
  | le, a, b => a.less b || a.same b
  | gt, a, b => b.less a
  | ge, a, b => b.less a || a.same b
  | _, _, _ => false

def operandError (op : Operator) (a b : Value) : Except Breakdown Value :=
  .error (.cause (.operandKinds op.spelling a.kind b.kind))

/-- Whether the operator tells its operands apart without putting them in an order. -/
def isEquality : Operator → Bool
  | eq | ne => true
  | _ => false

/-- A comparison. It goes by kinds, and an object has the name of its type for one: if a host names
a type as an ordered one is named, its objects are let through, and are equal to none but themselves
and in no order with anything. -/
def compare (op : Operator) (a b : Value) : Except Breakdown Value :=
  if a.areComparable b then
    if op.isEquality || !(a.isObject || b.isObject) then .ok (.boolean (op.holds a b))
    else .error (.crash .unorderedObject)
  else op.operandError a b

theorem eq_boolean_of_compare {op : Operator} {a b v : Value} (h : op.compare a b = .ok v) :
    v = .boolean (op.holds a b) := by
  unfold compare at h
  split at h
  · split at h
    · exact (Except.ok.inj h).symm
    · cases h
  · cases h

/-- An operation on two integers or on two decimals. -/
def onNumbers (op : Operator) (integers : Int → Int → Except Breakdown Value)
    (decimals : Decimal → Decimal → Except Breakdown Value) :
    Value → Value → Except Breakdown Value
  | .integer a, .integer b => integers a b
  | .decimal a, .decimal b => decimals a b
  | a, b => op.operandError a b

/-- An operation that is exact on integers, and on decimals within limits. -/
def arithmetic (op : Operator) (integers : Int → Int → Int)
    (decimals : Decimal → Decimal → Decimal) : Value → Value → Except Breakdown Value :=
  op.onNumbers (fun x y => .ok (.integer (integers x y)))
    fun x y => Value.ofArithmetic (Decimal.Limits.wide.apply (decimals x y))

/-- The text of two values, if one is a string. -/
def concatenate? : Value → Value → Option Value
  | .string a, b => some (.string (a ++ b.text))
  | a, .string b => some (.string (a.text ++ b))
  | _, _ => none

/-- The value of an operation. The logical operators have none here, since they may not evaluate
their right operand. -/
def apply (op : Operator) (a b : Value) : Except Breakdown Value :=
  match op with
  | eq | ne | lt | le | gt | ge => op.compare a b
  | add =>
    match concatenate? a b with
    | some value => .ok value
    | none => op.arithmetic (· + ·) Decimal.add a b
  | sub => op.arithmetic (· - ·) Decimal.sub a b
  | mul => op.arithmetic (· * ·) Decimal.mul a b
  | div =>
    op.onNumbers
      (fun x y =>
        if y = 0 then .error (.cause .divisionByZero) else .ok (.integer (x.tdiv y)))
      (fun x y =>
        if y.isZero then .error (.cause .divisionByZero) else .ok (.decimal (x.div y))) a b
  | and | or | unknown _ => .error (.cause (.unknownOperator op.spelling))

end Operator

end BlockScript
