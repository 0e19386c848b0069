import BlockScript.Text.Quoted
import BlockScript.Token.Basic

/-!
# Diagnostics

Why a text is rejected or a run ends: a `Cause`, its wording and the `Family` it belongs to. A
`Diagnostic` adds the place, once it is known. A `Misuse` is no fault of the program at hand but of
whoever drives the library, and has no place. A `Crash` is one of what the language is built on; it
belongs to no family, gets no place, and nothing takes it up.
-/

namespace BlockScript

/-- The kinds of causes that a caller can tell apart. -/
inductive Family
  | token | grammar
  | undefinedVariable | undefinedFunction
  | typeMismatch | unknownType | unknownField | unknownMethod | missingTypeInfo
  | invalidAssignmentTarget | emptyBody | overflow | missingEntryPoint | invalidReturn
  | runtimeFault | typeAssertion | arithmetic
deriving DecidableEq, Repr

namespace Family

/-- Families of the look-up of a name, which both analysis and execution meet. -/
def isUndefinedName : Family → Bool
  | undefinedVariable | undefinedFunction => true
  | _ => false

/-- Families of broken static rules. -/
def isStatic : Family → Bool
  | typeMismatch | unknownType | unknownField | unknownMethod | missingTypeInfo
  | invalidAssignmentTarget | emptyBody | overflow | missingEntryPoint | invalidReturn => true
  | _ => false

/-- Families of what can only go wrong while a program runs. -/
def isDynamic : Family → Bool
  | runtimeFault | typeAssertion | arithmetic => true
  | _ => false

end Family

/-- What is wrong with a quoted literal. -/
inductive QuoteFlaw
  | unterminatedString | unterminatedCharacter | emptyCharacter | unfinishedEscape
  | invalidEscape (c : Char)
deriving DecidableEq, Repr

namespace QuoteFlaw

def message : QuoteFlaw → String
  | unterminatedString => "unterminated string literal"
  | unterminatedCharacter => "unterminated character literal"
  | emptyCharacter => "empty character literal"
  | unfinishedEscape => "unexpected end of input in escape"
  | invalidEscape c => "invalid escape: \\" ++ c.toString

/-- A bad escape is reported where it stands, every other flaw at the opening quote. -/
def isEscape : QuoteFlaw → Bool
  | unfinishedEscape | invalidEscape _ => true
  | _ => false

end QuoteFlaw

/-- What the grammar asks for at a token. -/
inductive Expectation
  | word (text : String)
  | identifier
  | expression
  | declaration
  | blockEnd (closers : List Keyword)
deriving DecidableEq, Repr

def Expectation.message : Expectation → String
  | word text => "'" ++ text ++ "'"
  | identifier => "identifier"
  | expression => "expression"
  | declaration => "LET or DEF"
  | blockEnd closers => " or ".intercalate (closers.map Keyword.spelling)

inductive Cause
  | badQuote (flaw : QuoteFlaw) (index : Nat)
  /-- What was `found` is the token's text, or none at the end of the input. -/
  | unexpected (expected : Expectation) (found : Option String)
  | fieldAfterMethod
  | undefinedVariable (name : String)
  | undefinedFunction (name : String) (arity : Int)
  | fieldNotHeld (kind name : String)
  | methodNotHeld (type name : String) (arity : Int)
  | unknownType (name : String)
  | unknownField (type name : String)
  | unknownMethod (type name : String) (arity : Int)
  | notAssignable (target source : String)
  | operandTypes (operator left right : String)
  | conditionType (type : String)
  | missingTypeInfo (name : String)
  | untargetable
  | emptyBody (opener : Keyword)
  | integerOverflow (raw : String)
  | decimalOverflow (raw : String)
  | noEntryPoint
  /-- The entry point's return type, or none while it is undetermined. -/
  | entryPointType (type : Option String)
  | returnOutsideMethod
  | noBody (name : String) (arity : Nat)
  | indexOutOfRange (index : Int) (length : Nat)
  | sliceOutOfRange (start stop : Int) (length : Nat)
  | stackOverflow (limit : Nat)
  | unsupportedStatement (label : String)
  | unsupportedExpression (label : String)
  | notATarget
  | unknownOperator (operator : String)
  | native (text : String)
  | notOfKind (expected kind : String)
  | notIterable (kind : String)
  | conditionKind (kind : String)
  | logicalOperand (operator kind : String)
  | operandKinds (operator left right : String)
  | divisionByZero
deriving DecidableEq, Repr

namespace Cause

def family : Cause → Family
  | badQuote .. => .token
  | unexpected .. | fieldAfterMethod => .grammar
  | undefinedVariable _ | fieldNotHeld .. => .undefinedVariable
  | undefinedFunction .. | methodNotHeld .. => .undefinedFunction
  | unknownType _ => .unknownType
  | unknownField .. => .unknownField
  | unknownMethod .. => .unknownMethod
  | notAssignable .. | operandTypes .. | conditionType _ => .typeMismatch
  | missingTypeInfo _ => .missingTypeInfo
  | untargetable => .invalidAssignmentTarget
  | emptyBody _ => .emptyBody
  | integerOverflow _ | decimalOverflow _ => .overflow
  | noEntryPoint | entryPointType _ => .missingEntryPoint
  | returnOutsideMethod => .invalidReturn
  | noBody .. | indexOutOfRange .. | sliceOutOfRange .. | stackOverflow _
  | unsupportedStatement _ | unsupportedExpression _ | notATarget | unknownOperator _
  | native _ => .runtimeFault
  | notOfKind .. | notIterable _ | conditionKind _ | logicalOperand .. | operandKinds .. =>
    .typeAssertion
  | divisionByZero => .arithmetic

private def operandText (operator left right : String) : String :=
  "operator '" ++ operator ++ "' cannot be applied to " ++ left ++ " and " ++ right

private def noMethodText (type name : String) (arity : Int) : String :=
  "type " ++ type ++ " has no method '" ++ name ++ "/" ++ toString arity ++ "'"

def message : Cause → String
  | badQuote flaw _ => flaw.message
  | unexpected expected none => "expected " ++ expected.message ++ ", got end of input"
  | unexpected expected (some raw) => "expected " ++ expected.message ++ ", got '" ++ raw ++ "'"
  | fieldAfterMethod => "fields must be declared before methods"
  | undefinedVariable name => "undefined variable '" ++ name ++ "'"
  | undefinedFunction name arity =>
    "undefined function '" ++ name ++ "/" ++ toString arity ++ "'"
  | fieldNotHeld kind name => kind ++ " has no field '" ++ name ++ "'"
  | methodNotHeld type name arity => noMethodText type name arity
  | unknownType name => "unknown type '" ++ name ++ "'"
  | unknownField type name => "type " ++ type ++ " has no field '" ++ name ++ "'"
  | unknownMethod type name arity => noMethodText type name arity
  | notAssignable target source => "expected " ++ target ++ ", received " ++ source
  | operandTypes operator left right => operandText operator left right
  | conditionType type => "condition must be Boolean, got " ++ type
  | missingTypeInfo name => "declaration of '" ++ name ++ "' needs a type or an initial value"
  | untargetable | notATarget => "assignment target must be a variable or field"
  | emptyBody opener => opener.spelling ++ " requires at least one statement"
  | integerOverflow raw => "integer literal " ++ raw ++ " is out of range"
  | decimalOverflow raw => "decimal literal " ++ raw ++ " is out of range"
  | noEntryPoint => "no zero-argument method 'main'"
  | entryPointType type => "'main' must return Integer, not " ++ type.getD "?"
  | returnOutsideMethod => "RETURN outside of a method"
  | noBody name arity => "function '" ++ name ++ "/" ++ toString arity ++ "' has no body"
  | indexOutOfRange index length =>
    "index " ++ toString index ++ " out of range for string of length " ++ toString length
  | sliceOutOfRange start stop length =>
    "substring bounds [" ++ toString start ++ ", " ++ toString stop ++ ") out of range for length "
      ++ toString length
  | stackOverflow limit =>
    "stack overflow: more than " ++ toString limit ++ " nested calls"
  | unsupportedStatement label => "unsupported statement " ++ label
  | unsupportedExpression label => "unsupported expression " ++ label
  | unknownOperator operator => "unknown operator '" ++ operator ++ "'"
  | native text => text
  | notOfKind expected kind => "expected " ++ expected ++ ", got " ++ kind
  | notIterable kind => "FOR expects IntegerIterable, got " ++ kind
  | conditionKind kind => "condition must be Boolean, got " ++ kind
  | logicalOperand operator kind => "operator '" ++ operator ++ "' expects Boolean, got " ++ kind
  | operandKinds operator left right => operandText operator left right
  | divisionByZero => "division by zero"

end Cause

/-- A cause and, once it is known, its place. -/
structure Diagnostic where
  cause : Cause
  position : Option Position
deriving DecidableEq, Repr

namespace Diagnostic

/-- Gives a diagnostic its place; one that has a place keeps it. -/
def locate (d : Diagnostic) (p : Position) : Diagnostic :=
  ⟨d.cause, d.position <|> some p⟩

def message (d : Diagnostic) : String :=
  match d.position with
  | none => d.cause.message
  | some p => d.cause.message ++ " at line " ++ toString p.line ++ " col " ++ toString p.column

@[simp] theorem locate_cause (d : Diagnostic) (p : Position) : (d.locate p).cause = d.cause := rfl

theorem locate_of_position {d : Diagnostic} {p : Position} (q : Position)
    (h : d.position = some p) : d.locate q = d := by
  cases d; simp_all [locate]

end Diagnostic

/-- A request that the library cannot make sense of. -/
inductive Misuse
  | characterLength
  | alreadyRegistered (type : String)
  | builtIn (type : String)
  | unhandledStatement (label : String)
  | unhandledExpression (label : String)
  | unprintableStatement
  | unprintableExpression
  | unprintableOperator (operator : String)
  | noEnclosingFrame
deriving DecidableEq, Repr

def Misuse.message : Misuse → String
  | characterLength => "character value must be a single character"
  | alreadyRegistered type => "type '" ++ type ++ "' already registered"
  | builtIn type => "type '" ++ type ++ "' is built in"
  | unhandledStatement label => "unhandled statement " ++ label
  | unhandledExpression label => "unhandled expression " ++ label
  | unprintableStatement => "unhandled stmt type"
  | unprintableExpression => "unhandled expr type"
  | unprintableOperator operator => Text.Quoted.encode operator
  | noEnclosingFrame => ""

/-- An error for which the language has no words. -/
inductive Crash
  /-- The result of decimal arithmetic is too large. -/
  | decimalOverflow
  /-- An object is to be put before or after another value. -/
  | unorderedObject
deriving DecidableEq, Repr

/-- Why an operation on values gives none. -/
inductive Breakdown
  | cause (cause : Cause)
  | crash (crash : Crash)
deriving DecidableEq, Repr

/-- How an operation fails. Running out of fuel is neither an answer nor an error of the program:
more fuel may give either. -/
inductive Failure
  | diagnostic (d : Diagnostic)
  | misuse (m : Misuse)
  | crash (c : Crash)
  | outOfFuel
deriving DecidableEq, Repr

namespace Failure

/-- A failure whose place is not known yet. -/
def of (cause : Cause) : Failure := .diagnostic ⟨cause, none⟩

def locate : Failure → Position → Failure
  | .diagnostic d, p => .diagnostic (d.locate p)
  | f, _ => f

end Failure

/-- An error that an attempt can fail with, before anything has given it a place. -/
class Failing (ε : Type) where
  failure : ε → Failure
  ne_outOfFuel (e : ε) : failure e ≠ .outOfFuel

instance : Failing Cause where
  failure := .of
  ne_outOfFuel _ := nofun

instance : Failing Breakdown where
  failure
    | .cause cause => .of cause
    | .crash crash => .crash crash
  ne_outOfFuel e := by cases e <;> nofun

end BlockScript
