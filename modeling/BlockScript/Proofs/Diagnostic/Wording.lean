import BlockScript.Diagnostic
import Mathlib.Tactic.Common

/-!
# The wording of diagnostics

A message is made of fixed texts, of numbers and of words that it quotes. Only these words can bring
a line feed into it.
-/

namespace BlockScript

/-- A text without line feeds. -/
def IsLine (s : String) : Prop := '\n' ∉ s.toList

instance (s : String) : Decidable (IsLine s) := inferInstanceAs (Decidable (¬ '\n' ∈ s.toList))

@[simp] theorem isLine_append (s t : String) : IsLine (s ++ t) ↔ IsLine s ∧ IsLine t := by
  simp [IsLine, not_or]

theorem newline_notMem_toDigits (n : Nat) : '\n' ∉ Nat.toDigits 10 n := fun h =>
  absurd (Nat.isDigit_of_mem_toDigits (by decide) (by decide) h) (by decide)

@[simp] theorem isLine_toString_nat (n : Nat) : IsLine (toString n) := by
  simpa [IsLine] using newline_notMem_toDigits n

@[simp] theorem isLine_toString_int (n : Int) : IsLine (toString n) := by
  cases n with
  | ofNat n => exact isLine_toString_nat n
  | negSucc n => simpa [IsLine, toString, Int.repr] using newline_notMem_toDigits (n + 1)

@[simp] theorem isLine_spelling_keyword (word : Keyword) : IsLine word.spelling := by
  cases word <;> decide

theorem isLine_intercalate {separator : String} (hseparator : IsLine separator)
    {texts : List String}
    (h : ∀ s ∈ texts, IsLine s) : IsLine (separator.intercalate texts) := by
  rw [IsLine, String.toList_intercalate]
  induction texts with
  | nil => simp
  | cons s texts ih =>
    cases texts with
    | nil => simpa [IsLine] using h
    | cons t texts =>
      rw [List.forall_mem_cons] at h
      rw [List.map_cons, List.map_cons, List.intercalate_cons_cons]
      simp only [List.mem_append, not_or]
      exact ⟨⟨h.1, hseparator⟩, ih h.2⟩

/-! ## Quoted words -/

/-- The words that a message quotes. -/
def QuoteFlaw.words : QuoteFlaw → List String
  | invalidEscape c => [c.toString]
  | _ => []

@[inherit_doc QuoteFlaw.words]
def Expectation.words : Expectation → List String
  | word text => [text]
  | _ => []

@[inherit_doc QuoteFlaw.words]
def Cause.words : Cause → List String
  | badQuote flaw _ => flaw.words
  | unexpected expected found => expected.words ++ found.toList
  | undefinedVariable name | undefinedFunction name _ | unknownType name | missingTypeInfo name
  | noBody name _ => [name]
  | fieldNotHeld kind name => [kind, name]
  | methodNotHeld type name _ | unknownMethod type name _ | unknownField type name => [type, name]
  | notAssignable target source => [target, source]
  | operandTypes operator left right | operandKinds operator left right => [operator, left, right]
  | conditionType type => [type]
  | integerOverflow raw | decimalOverflow raw => [raw]
  | entryPointType type => type.toList
  | unsupportedStatement label | unsupportedExpression label => [label]
  | unknownOperator operator => [operator]
  | native text => [text]
  | notOfKind expected kind => [expected, kind]
  | notIterable kind | conditionKind kind => [kind]
  | logicalOperand operator kind => [operator, kind]
  | fieldAfterMethod | untargetable | emptyBody _ | noEntryPoint | returnOutsideMethod
  | indexOutOfRange .. | sliceOutOfRange .. | stackOverflow _ | notATarget | divisionByZero => []

theorem QuoteFlaw.isLine_message (flaw : QuoteFlaw) :
    IsLine flaw.message ↔ ∀ w ∈ flaw.words, IsLine w := by
  cases flaw <;> unfold message words <;> simp [IsLine]

theorem Expectation.isLine_message (expected : Expectation) :
    IsLine expected.message ↔ ∀ w ∈ expected.words, IsLine w := by
  cases expected with
  | blockEnd closers =>
    refine iff_of_true (isLine_intercalate (by simp [IsLine]) ?_) nofun
    exact List.forall_mem_map.mpr fun word _ => isLine_spelling_keyword word
  | _ =>
    unfold message words
    simp [IsLine]

namespace Cause

theorem message_operandTypes (operator left right : String) :
    (operandTypes operator left right).message =
      "operator '" ++ operator ++ "' cannot be applied to " ++ left ++ " and " ++ right := rfl

theorem message_methodNotHeld (type name : String) (arity : Int) :
    (methodNotHeld type name arity).message =
      "type " ++ type ++ " has no method '" ++ name ++ "/" ++ toString arity ++ "'" := rfl

/-- A message is a line if all that it quotes is. -/
theorem isLine_message (c : Cause) : IsLine c.message ↔ ∀ w ∈ c.words, IsLine w := by
  cases c with
  | badQuote flaw i => exact flaw.isLine_message
  | unexpected expected found =>
    cases found <;> unfold message words <;>
      simp only [isLine_append, expected.isLine_message, List.forall_mem_append] <;> simp [IsLine]
  | operandTypes operator left right | operandKinds operator left right =>
    refine (iff_of_eq (congrArg IsLine (message_operandTypes operator left right))).trans ?_
    unfold words
    simp [IsLine]
  | methodNotHeld type name arity | unknownMethod type name arity =>
    refine (iff_of_eq (congrArg IsLine (message_methodNotHeld type name arity))).trans ?_
    unfold words
    simp only [isLine_append, isLine_toString_int]
    simp [IsLine]
  | entryPointType type => cases type <;> unfold message words <;> simp [IsLine]
  | _ =>
    unfold message words
    simp only [isLine_append, isLine_toString_nat, isLine_toString_int, isLine_spelling_keyword]
    simp [IsLine]

end Cause

theorem Diagnostic.isLine_message (d : Diagnostic) :
    IsLine d.message ↔ ∀ w ∈ d.cause.words, IsLine w := by
  obtain ⟨cause, position⟩ := d
  cases position with
  | none => exact cause.isLine_message
  | some p =>
    unfold message
    simp only [isLine_append, isLine_toString_nat, cause.isLine_message]
    simp [IsLine]

end BlockScript
