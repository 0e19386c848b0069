import BlockScript.Proofs.Number.Numerals
import BlockScript.Proofs.Syntax.Recognition
import BlockScript.Proofs.Syntax.Writing
import BlockScript.Value.Basic

/-!
# Numbers as text and back

The text of an integer, and of a decimal that has places, is read as one literal of just that
number, and the text of the number that a literal denotes is what the literal was read from, in
plain form.
-/

namespace BlockScript

open Token Grammar Phrase

/-- The text is one token before the end of the input, and as an expression just that literal. -/
def Literal.ReadFrom (text : String) (value : Literal) : Prop :=
  ∃ t eof, tokenize text = .ok [t, eof] ∧ eof.kind = .endOfInput ∧
    Expr.ofTokens [t, eof] = .ok (.literal t.position value, [eof])

/-- A token of a number denotes a number whose text is the token in plain form. -/
def Token.PrintsPlainly (t : Token) : Prop :=
  match t.kind with
  | .integer => ∃ n, literal? t = some (.integer n t.raw) ∧
    (Value.integer n).text.toList = Number.plainWhole t.raw.toList
  | .decimal => ∃ d, literal? t = some (.decimal d t.raw) ∧
    (Value.decimal d).text.toList = Number.plain t.raw.toList
  | _ => True

theorem Token.stops_nil : Stops [] where
  head := by simp
  point := nofun

theorem Grammar.follows_end {eof : Token} (h : eof.kind = .endOfInput) (k : Nat) :
    Follows k [eof] := by
  have hoperator (text : String) : (front [eof]).isOperator text = false :=
    not_isOperator_of_kind (by simp [h])
  exact ⟨hoperator "(", fun _ => hoperator ".", fun j _ => by simp [operatorAt, h]⟩

/-- A literal that some text denotes is read from its own text. -/
theorem Literal.readFrom_text {value : Literal} (hv : value.WellFormed) :
    Literal.ReadFrom (Printer.literal value) value := by
  obtain ⟨_, ⟨t, rfl, ht⟩, hscan⟩ := Writes.literal hv .start 0 [] stops_nil
  have hscans := hscan _ (.done _ _ _)
  rw [List.append_nil] at hscans
  have hspelled : (Expr.literal t.position value).Spelled [t] := one_singleton ⟨ht, rfl⟩
  have hcanonical : (Expr.literal t.position value).Canonical := trivial
  exact ⟨t, _, tokenize_eq_ok_iff.mpr hscans, rfl,
    expression_of_spelled hcanonical hspelled (by simp) (follows_end rfl 0)⟩

theorem Literal.readFrom_integer (n : Int) :
    Literal.ReadFrom (Value.integer n).text (.integer n (Value.integer n).text) := by
  obtain ⟨hwhole, hvalue⟩ := Number.integer_toString n
  have hwell : (Literal.integer n (toString n)).WellFormed := ⟨hwhole, hvalue.symm⟩
  exact readFrom_text hwell

theorem Literal.readFrom_decimal {d : Decimal} (hd : d.exponent ≤ -1) :
    Literal.ReadFrom (Value.decimal d).text (.decimal d (Value.decimal d).text) := by
  obtain ⟨hfractional, hvalue⟩ := Decimal.ofNumeral_toText hd
  have hwell : (Literal.decimal d d.toText).WellFormed := ⟨hfractional, hvalue.symm⟩
  exact readFrom_text hwell

theorem Token.Lexical.printsPlainly {t : Token} (h : t.Lexical) : t.PrintsPlainly := by
  unfold Lexical at h
  unfold PrintsPlainly
  split at h <;> rename_i hkind <;> rw [hkind]
  case h_2 =>
    obtain ⟨hwhole, hraw⟩ := h
    refine ⟨Number.integer t.value.toList, by simp only [literal?, hkind], ?_⟩
    rw [hraw]
    exact Number.toString_integer hwhole
  case h_3 =>
    obtain ⟨hfractional, hraw⟩ := h
    refine ⟨Decimal.ofNumeral t.value.toList, by simp only [literal?, hkind], ?_⟩
    rw [hraw]
    exact Decimal.toText_ofNumeral hfractional
  all_goals trivial

/-- The text of every integer, and of every decimal that has places, is read as one literal of just
that number: sign, coefficient and exponent are those of the decimal. Every token of a number
denotes a number whose text is the token without a plus and redundant zeros, and for integers
without the sign of zero. -/
theorem Value.number_text_readable :
    (∀ n : Int, Literal.ReadFrom (integer n).text (.integer n (integer n).text)) ∧
    (∀ d : Decimal, d.exponent ≤ -1 →
      Literal.ReadFrom (decimal d).text (.decimal d (decimal d).text)) ∧
    ∀ source tokens, tokenize source = .ok tokens → ∀ t ∈ tokens, t.PrintsPlainly :=
  ⟨Literal.readFrom_integer, fun _ => Literal.readFrom_decimal,
    fun _ _ htokens t ht => ((tokenize_eq_ok_iff.mp htokens).lexical t ht).printsPlainly⟩

/-- A negative zero with two places, and a number with a plus and zeros in front. -/
theorem Value.number_text_readable_zeros :
    Literal.ReadFrom "-0.00" (.decimal ⟨true, 0, -2⟩ "-0.00") ∧
      ∃ t eof, tokenize "+007.10" = .ok [t, eof] ∧ t.kind = .decimal ∧ t.PrintsPlainly ∧
        Number.plain t.raw.toList = "7.10".toList := by
  have hzero : (Value.decimal ⟨true, 0, -2⟩).text = "-0.00" := by decide
  have htokens : tokenize "+007.10" = .ok [⟨.decimal, "+007.10", "+007.10", .start, 0⟩,
    Token.endAt ⟨1, 8⟩ 7] := by decide +kernel
  refine ⟨?_, _, _, htokens, rfl, ?_, by decide⟩
  · have hread := number_text_readable.2.1 ⟨true, 0, -2⟩ (by decide)
    rwa [hzero] at hread
  · exact number_text_readable.2.2 _ _ htokens _ (by simp)

end BlockScript
