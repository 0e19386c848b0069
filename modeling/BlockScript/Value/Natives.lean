import BlockScript.Value.Basic

/-!
# Native bodies

What the built-in methods and functions compute. The receiver is the first argument. An argument
that is missing counts as nil.
-/

namespace BlockScript.Native

def argument (args : List Value) (i : Nat) : Value := args.getD i .nil

def asString : Value → Except Breakdown String
  | .string s => .ok s
  | v => .error (.cause (.notOfKind Ty.string.name v.kind))

def asInteger : Value → Except Breakdown Int
  | .integer n => .ok n
  | v => .error (.cause (.notOfKind Ty.integer.name v.kind))

def asDecimal : Value → Except Breakdown Decimal
  | .decimal d => .ok d
  | v => .error (.cause (.notOfKind Ty.decimal.name v.kind))

def stringLength (args : List Value) : Except Breakdown Value := do
  return .integer (← asString (argument args 0)).length

def stringCharAt (args : List Value) : Except Breakdown Value := do
  let s ← asString (argument args 0)
  let i ← asInteger (argument args 1)
  match (if i < 0 then none else s.toList[i.toNat]?) with
  | some c => return .character c
  | none => .error (.cause (.indexOutOfRange i s.length))

/-- The part of a string from one index up to another, or up to the end if three arguments are not
given. -/
def stringSubstring (args : List Value) : Except Breakdown Value := do
  let s ← asString (argument args 0)
  let start ← asInteger (argument args 1)
  let stop ← if args.length = 3 then asInteger (argument args 2) else pure (s.length : Int)
  if start < 0 || s.length < stop || stop < start then
    .error (.cause (.sliceOutOfRange start stop s.length))
  else
    return .string (String.ofList ((s.toList.take stop.toNat).drop start.toNat))

def integerAbs (args : List Value) : Except Breakdown Value := do
  return .integer (← asInteger (argument args 0)).natAbs

def decimalAbs (args : List Value) : Except Breakdown Value := do
  Value.ofArithmetic (← asDecimal (argument args 0)).abs

def range (args : List Value) : Except Breakdown Value := do
  return .range (← asInteger (argument args 0)) (← asInteger (argument args 1))

end BlockScript.Native
