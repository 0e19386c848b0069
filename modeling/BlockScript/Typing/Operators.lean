import BlockScript.Syntax.Basic
import BlockScript.Value.Ty

/-!
# Types of operations

Which operand types an operator takes and what it gives. Operands are never converted, but anything
can be added to a string.
-/

namespace BlockScript

namespace Ty

/-- The types that a comparison takes, on both sides the same. -/
def isComparable (t : Ty) : Bool := t.isOrdered || t = comparable

end Ty

namespace Operator

/-- The type of an operation, none where the operator does not take the operands. -/
def resultType? (op : Operator) (left right : Ty) : Option Ty :=
  match op with
  | and | or => if left = .boolean && right = .boolean then some .boolean else none
  | eq | ne | lt | le | gt | ge =>
    if left = right && left.isComparable then some .boolean else none
  | sub | mul | div => if left = right && left.isNumeric then some left else none
  | add =>
    if left = .string || right = .string then some .string
    else if left = right && left.isNumeric then some left
    else none
  | unknown _ => none

def resultType (op : Operator) (left right : Ty) : Except Cause Ty :=
  match op.resultType? left right with
  | some type => .ok type
  | none => .error (.operandTypes op.spelling left.name right.name)

end Operator

end BlockScript
