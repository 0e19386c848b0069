import BlockScript.Number.DecimalText
import BlockScript.Number.Limits
import BlockScript.Value.Ty

/-!
# Values

What expressions evaluate to. An object belongs to the host: it has a type and a frame that holds
its fields, and it is the same object as another if it has the same frame.
-/

namespace BlockScript

/-- The number of a frame in a store. -/
structure FrameId where
  index : Nat
deriving DecidableEq, Repr

inductive Value
  | nil
  | boolean (value : Bool)
  | character (value : Char)
  | string (value : String)
  | integer (value : Int)
  | decimal (value : Decimal)
  /-- The integers from `start` on, up to but without `stop`. -/
  | range (start stop : Int)
  | object (type : Ty) (fields : FrameId)
deriving DecidableEq, Repr

namespace Value

/-- The type that describes a value. -/
def type : Value → Ty
  | nil => .nil
  | boolean _ => .boolean
  | character _ => .character
  | string _ => .string
  | integer _ => .integer
  | decimal _ => .decimal
  | range .. => .iterable
  | object type _ => type

/-- The kind of a value, as messages name it. -/
def kind (v : Value) : String := v.type.name

def isObject : Value → Bool
  | object .. => true
  | _ => false

/-- A value as `print` and concatenation show it. A number has as many digits as it takes: a host
that converts only numbers of so many digits to text is beyond what is described here. -/
def text : Value → String
  | nil => "nil"
  | boolean true => "true"
  | boolean false => "false"
  | character c => c.toString
  | string s => s
  | integer n => toString n
  | decimal d => d.toText
  | range start stop => "range(" ++ toString start ++ ", " ++ toString stop ++ ")"
  | object type _ => "<" ++ type.name ++ ">"

/-- Equality as the language has it: decimals are equal as numbers, objects if they are the same,
and values of different kinds never. -/
def same : Value → Value → Bool
  | decimal a, decimal b => a.numericEq b
  | object _ a, object _ b => a = b
  | a, b => a = b

/-- The values that a range runs through, in order, the first `count` at most. -/
def elements (v : Value) (count : Nat) : List Value :=
  match v with
  | range start stop =>
    (List.range (min count (stop - start).toNat)).map fun (i : Nat) => integer (start + i)
  | _ => []

/-- What decimal arithmetic gives. -/
def ofArithmetic : Option Decimal → Except Breakdown Value
  | some d => .ok (decimal d)
  | none => .error (.crash .decimalOverflow)

theorem eq_decimal_of_ofArithmetic {result : Option Decimal} {v : Value}
    (h : ofArithmetic result = .ok v) : ∃ d, v = decimal d := by
  cases result with
  | some d => exact ⟨d, (Except.ok.inj h).symm⟩
  | none => cases h

/-- A character value from a text that is to hold exactly one. -/
def ofCharacterText (text : String) : Except Misuse Value :=
  match text.toList with
  | [c] => .ok (character c)
  | _ => .error .characterLength

end Value

end BlockScript
