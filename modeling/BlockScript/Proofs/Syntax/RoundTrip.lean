import BlockScript.Proofs.Syntax.RecognitionProgram
import BlockScript.Proofs.Syntax.WritingProgram
import Mathlib.Data.List.Basic

/-!
# Round trips between texts and trees

The text of a well-formed tree is read as its grouped form, and the text of a tree that was read is
read as that tree again, both up to positions.
-/

namespace BlockScript

/-! ## Trees without their places -/

theorem Expr.canonical_unplaced (e : Expr) : e.unplaced.Canonical ↔ e.Canonical := by
  induction e with
  | literal | name | unknown => rfl
  | group p inner ih => exact ih
  | binary p op left right hl hr => simp [unplaced, Canonical, hl, hr]
  | member p receiver id ih => simp [unplaced, Canonical, ih]
  | call p id arguments ih =>
    simp only [unplaced, Canonical, unplacedAll_eq_map, allCanonical_iff, List.forall_mem_map]
    exact forall₂_congr ih
  | methodCall p receiver id arguments hr ih =>
    simp only [unplaced, Canonical, unplacedAll_eq_map, allCanonical_iff, List.forall_mem_map,
      isOperation_unplaced, hr]
    exact and_congr_right fun _ => and_congr_right fun _ => forall₂_congr ih

theorem Expr.valueText_unplaced (value : Option Expr) :
    valueText (value.map unplaced) = valueText value := by
  cases value <;> simp [valueText]

theorem Binding.text_unplaced (b : Binding) : b.unplaced.text = b.text := by
  simp [unplaced, map, text, Expr.valueText_unplaced]

theorem Stmt.text_unplaced (s : Stmt) (depth : Nat) : s.unplaced.text depth = s.text depth := by
  unfold unplaced
  induction s generalizing depth with
  | expression | assign | ret => simp [map, text]
  | unknown => rfl
  | declare b => exact congrArg (lineText depth) b.text_unplaced
  | conditional p condition thenBody elseBody iht ihe =>
    have hthen := List.flatMap_congr fun s hs => iht s hs (depth + 1)
    have helse := List.flatMap_congr fun s hs => ihe s hs (depth + 1)
    simp [map, text, mapAll_eq_map, textAll_eq_flatMap, List.flatMap_map, hthen, helse]
  | forLoop p name iterable body ih | whileLoop p condition body ih =>
    have hbody := List.flatMap_congr fun s hs => ih s hs (depth + 1)
    simp [map, text, mapAll_eq_map, textAll_eq_flatMap, List.flatMap_map, hbody]

theorem Method.text_unplaced (m : Method) : m.unplaced.text = m.text := by
  have hbody := List.flatMap_congr fun s (_ : s ∈ m.body) => s.text_unplaced 1
  simp only [Stmt.unplaced] at hbody
  have hparams : (m.params.map (Param.map fun _ => .start)).map Param.text =
    m.params.map Param.text := by
    simp [Param.map, Param.text, Function.comp_def]
  simp [unplaced, map, text, Stmt.mapAll_eq_map, Stmt.textAll_eq_flatMap, List.flatMap_map, hbody,
    hparams]

theorem Method.texts_unplaced (ms : List Method) (first : Bool) :
    texts first (ms.map unplaced) = texts first ms := by
  induction ms generalizing first with
  | nil => rfl
  | cons m ms ih => simp [texts, ih, m.text_unplaced]

namespace Program

variable {p q : Program} {text : String}

theorem text_unplaced (p : Program) : p.unplaced.text = p.text := by
  have hfields : (p.fields.map Binding.unplaced).flatMap (fun b => lineText 0 b.text) =
      p.fields.flatMap (fun b => lineText 0 b.text) := by
    simp only [List.flatMap_map, Binding.text_unplaced]
  have hmethods := Method.texts_unplaced p.methods p.fields.isEmpty
  have hempty : (p.fields.map Binding.unplaced).isEmpty = p.fields.isEmpty := List.isEmpty_map
  change (p.fields.map Binding.unplaced).flatMap (fun b => lineText 0 b.text) ++
    Method.texts (p.fields.map Binding.unplaced).isEmpty (p.methods.map Method.unplaced) = _
  rw [hfields, hempty, hmethods]
  rfl

theorem canonical_unplaced (p : Program) : p.unplaced.Canonical ↔ p.Canonical := by
  simp only [Canonical, unplaced, consists_map, Expr.canonical_unplaced]

/-! ## Reading -/

/-- A text that is read spells a well-formed tree, in which no parentheses are missing. -/
theorem wellFormed_of_parse (h : Program.parse text = .ok p) : p.WellFormed ∧ p.Canonical := by
  obtain ⟨ts, hts, h⟩ := parse_eq_ok_iff.mp h
  obtain ⟨rest, h⟩ := ofTokens_eq_ok_iff.mp h
  obtain ⟨used, hused, hs, hcan, -⟩ := Grammar.program_ok h
  refine ⟨wellFormed_of_spelled hs fun t ht => ?_, hcan⟩
  exact (Token.tokenize_eq_ok_iff.mp hts).lexical t (by simp [hused, ht])

/-- The text of a well-formed and canonical tree is read as that tree, at other places. -/
theorem parse_text (hw : p.WellFormed) (hc : p.Canonical) :
    ∃ q, Program.parse (String.ofList p.text) = .ok q ∧ q.unplaced = p.unplaced := by
  obtain ⟨q, used, hq, hs, place, index, hts⟩ := tokenize_text hw
  have hcan : q.Canonical := by rwa [← canonical_unplaced, hq, canonical_unplaced]
  have hlex := (Token.tokenize_eq_ok_iff.mp hts).lexical
  let ts := used ++ [Token.endAt place index]
  have hread : Grammar.program ts.length ts = .ok (q, [Token.endAt place index]) :=
    Grammar.program_of_spelled hcan hs (fun t ht => hlex t (by simp [ht])) (by simp [ts]) rfl
  exact ⟨q, parse_eq_ok_iff.mpr ⟨_, hts, ofTokens_eq_ok_iff.mpr ⟨_, hread⟩⟩, hq⟩

/-- Trees that differ in places only have one text. -/
theorem print_eq_of_unplaced (hq : q.unplaced = p.unplaced) (hw : p.WellFormed)
    (hc : p.Canonical) : q.print = .ok (String.ofList p.text) := by
  have hqw : q.WellFormed := by rwa [← wellFormed_unplaced, hq, wellFormed_unplaced]
  have hqc : q.Canonical := by rwa [← canonical_unplaced, hq, canonical_unplaced]
  rw [print_eq hqw, grouped_of_canonical hqc, ← text_unplaced q, hq, text_unplaced]

/-! ## Round trips -/

/-- The text of a well-formed tree is read as the tree with a group around each operand and receiver
that needs parentheses, and has the same text as that. -/
theorem parse_print (hp : p.WellFormed) :
    ∃ text q, p.print = .ok text ∧ Program.parse text = .ok q ∧
      q.unplaced = p.grouped.unplaced ∧ q.ungrouped.unplaced = p.ungrouped.unplaced ∧
      q.print = .ok text := by
  have hw : p.grouped.WellFormed := (wellFormed_grouped p).mpr hp
  have hc : p.grouped.Canonical := canonical_grouped hp
  obtain ⟨q, hparse, hq⟩ := parse_text hw hc
  refine ⟨_, q, print_eq hp, hparse, hq, ?_, print_eq_of_unplaced hq hw hc⟩
  rw [unplaced_ungrouped, hq, ← unplaced_ungrouped, ungrouped_grouped]

/-- `(1 - -2) * '\''`, built by hand without the group that its text needs. -/
def signedProduct : Program :=
  let one := Expr.literal .start (.integer 1 "1")
  let minusTwo := Expr.literal .start (.integer (-2) "-2")
  let quote := Expr.literal .start (.character "'")
  ⟨[⟨.start, "a", some "Integer",
    some (.binary .start .mul (.binary .start .sub one minusTwo) quote)⟩], []⟩

theorem signedProduct_wellFormed : signedProduct.WellFormed := by
  have hkeyword : ∀ s ∈ ["a", "Integer"], ∀ word : Keyword, word.spelling ≠ s := by
    intro s hs word
    cases word <;> revert s <;> decide
  have ha : IsIdentifier "a" := ⟨⟨'a', [], rfl, rfl, by simp⟩, hkeyword _ (by simp)⟩
  have htype : IsIdentifier "Integer" :=
    ⟨⟨'I', "nteger".toList, rfl, rfl, List.all_eq_true.mp (by decide)⟩, hkeyword _ (by simp)⟩
  have hone : IsWhole "1".toList :=
    ⟨[], ['1'], rfl, .inl rfl, by simp, List.all_eq_true.mp (by decide)⟩
  have htwo : IsWhole "-2".toList :=
    ⟨['-'], ['2'], rfl, .inr (.inr rfl), by simp, List.all_eq_true.mp (by decide)⟩
  refine ⟨?_, by simp [signedProduct]⟩
  simp only [signedProduct, List.forall_mem_singleton, Binding.Consists, Option.mem_def,
    Option.some.injEq, forall_eq', Expr.WellFormed, Literal.WellFormed]
  exact ⟨ha, htype, by decide, ⟨by decide, ⟨hone, by decide⟩, htwo, by decide⟩, '\'', rfl⟩

theorem parse_print_signedProduct :
    signedProduct.WellFormed ∧ ∃ text q, signedProduct.print = .ok text ∧
      Program.parse text = .ok q ∧ q.unplaced = signedProduct.grouped.unplaced ∧
      q.ungrouped.unplaced = signedProduct.ungrouped.unplaced ∧ q.print = .ok text :=
  ⟨signedProduct_wellFormed, parse_print signedProduct_wellFormed⟩

/-- What was read from a text and printed is read again as the same tree, groups included. -/
theorem print_parse (h : Program.parse text = .ok p) :
    ∃ printed q, p.print = .ok printed ∧ Program.parse printed = .ok q ∧
      q.unplaced = p.unplaced ∧ q.print = .ok printed := by
  obtain ⟨hw, hc⟩ := wellFormed_of_parse h
  obtain ⟨q, hparse, hq⟩ := parse_text hw hc
  refine ⟨_, q, ?_, hparse, hq, print_eq_of_unplaced hq hw hc⟩
  rw [print_eq hw, grouped_of_canonical hc]

theorem exists_of_isOk {text : String} (h : (Program.parse text).isOk) :
    ∃ p, Program.parse text = .ok p := by
  cases hp : Program.parse text with
  | ok p => exact ⟨p, rfl⟩
  | error d => rw [hp] at h; cases h

theorem print_parse_nested :
    ∃ p, Program.parse "DEF f(x) DO IF x.y DO ELSE END RETURN ((1)) - -2; END" = .ok p ∧
      ∃ printed q, p.print = .ok printed ∧ Program.parse printed = .ok q ∧
        q.unplaced = p.unplaced ∧ q.print = .ok printed := by
  have hok : (Program.parse "DEF f(x) DO IF x.y DO ELSE END RETURN ((1)) - -2; END").isOk := by
    decide +kernel
  obtain ⟨p, hp⟩ := exists_of_isOk hok
  exact ⟨p, hp, print_parse hp⟩

end Program

end BlockScript
