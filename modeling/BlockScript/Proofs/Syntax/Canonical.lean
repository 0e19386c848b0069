import BlockScript.Proofs.Syntax.Grouping
import BlockScript.Proofs.Token.Spelling
import BlockScript.Syntax.Grammar

/-!
# Well-formed and canonical trees

A tree is well-formed if its names, operators and literals are those of the language, and canonical
if no operand or receiver in it needs parentheses. `grouped` makes trees canonical and leaves
canonical ones as they are.
-/

namespace BlockScript

/-- A literal that some text denotes: a number is written as it says, and a character is one. -/
def Literal.WellFormed : Literal → Prop
  | .nil | .boolean _ | .string _ => True
  | .character value => ∃ c, value.toList = [c]
  | .integer value raw => IsWhole raw.toList ∧ value = Number.integer raw.toList
  | .decimal value raw => IsFractional raw.toList ∧ value = Decimal.ofNumeral raw.toList

namespace Expr

mutual

def WellFormed : Expr → Prop
  | .literal _ value => value.WellFormed
  | .group _ inner => inner.WellFormed
  | .binary _ op left right => op ∈ Operator.known ∧ left.WellFormed ∧ right.WellFormed
  | .name _ id => IsIdentifier id
  | .member _ receiver id => receiver.WellFormed ∧ IsIdentifier id
  | .call _ id arguments => IsIdentifier id ∧ AllWellFormed arguments
  | .methodCall _ receiver id arguments =>
    receiver.WellFormed ∧ IsIdentifier id ∧ AllWellFormed arguments
  | .unknown .. => False

def AllWellFormed : List Expr → Prop
  | [] => True
  | e :: es => e.WellFormed ∧ AllWellFormed es

end

mutual

/-- No operand and no receiver needs parentheses. -/
def Canonical : Expr → Prop
  | .literal .. | .name .. | .unknown .. => True
  | .group _ inner => inner.Canonical
  | .binary _ op left right =>
    op.strength ≤ left.strength ∧ op.strength < right.strength ∧ left.Canonical ∧ right.Canonical
  | .member _ receiver _ => Printer.isOperation receiver = false ∧ receiver.Canonical
  | .call _ _ arguments => AllCanonical arguments
  | .methodCall _ receiver _ arguments =>
    Printer.isOperation receiver = false ∧ receiver.Canonical ∧ AllCanonical arguments

def AllCanonical : List Expr → Prop
  | [] => True
  | e :: es => e.Canonical ∧ AllCanonical es

end

theorem allWellFormed_iff (es : List Expr) : AllWellFormed es ↔ ∀ e ∈ es, e.WellFormed := by
  induction es with
  | nil => simp [AllWellFormed]
  | cons e es ih => simp [AllWellFormed, ih]

theorem allCanonical_iff (es : List Expr) : AllCanonical es ↔ ∀ e ∈ es, e.Canonical := by
  induction es with
  | nil => simp [AllCanonical]
  | cons e es ih => simp [AllCanonical, ih]

end Expr

theorem Operator.strength_le (op : Operator) : op.strength ≤ 4 := by
  cases op <;> simp [strength, precedence?]

namespace Expr

@[simp] theorem grouped_strength (e : Expr) : e.grouped.strength = e.strength := by
  cases e <;> rfl

@[simp] theorem unplaced_strength (e : Expr) : e.unplaced.strength = e.strength := by
  cases e <;> rfl

@[simp] theorem isOperation_grouped (e : Expr) :
    Printer.isOperation e.grouped = Printer.isOperation e := by
  cases e <;> rfl

@[simp] theorem isOperation_unplaced (e : Expr) :
    Printer.isOperation e.unplaced = Printer.isOperation e := by
  cases e <;> rfl

@[simp] theorem groupIf_false (e : Expr) : e.groupIf false = e := rfl

@[simp] theorem groupIf_true (e : Expr) : e.groupIf true = .group e.position e := rfl

@[simp] theorem strength_groupIf (needed : Bool) (e : Expr) :
    (e.groupIf needed).strength = if needed then 5 else e.strength := by
  cases needed <;> rfl

@[simp] theorem ungrouped_groupIf (needed : Bool) (e : Expr) :
    (e.groupIf needed).ungrouped = e.ungrouped := by
  cases needed <;> rfl

@[simp] theorem unplaced_groupIf (needed : Bool) (e : Expr) :
    (e.groupIf needed).unplaced = e.unplaced.groupIf needed := by
  cases needed
  · rfl
  · cases e <;> rfl

@[simp] theorem canonical_groupIf (needed : Bool) (e : Expr) :
    (e.groupIf needed).Canonical ↔ e.Canonical := by
  cases needed <;> simp [Canonical]

@[simp] theorem wellFormed_groupIf (needed : Bool) (e : Expr) :
    (e.groupIf needed).WellFormed ↔ e.WellFormed := by
  cases needed <;> simp [WellFormed]

theorem canonical_grouped (e : Expr) : e.grouped.Canonical := by
  induction e with
  | literal | name | unknown => trivial
  | group p inner ih => exact ih
  | binary p op left right hl hr =>
    have hop := op.strength_le
    refine ⟨?_, ?_, by simpa using hl, by simpa using hr⟩
    · simp only [strength_groupIf, grouped_strength, decide_eq_true_eq]
      split <;> omega
    · simp only [strength_groupIf, grouped_strength, decide_eq_true_eq]
      split <;> omega
  | member p receiver id ih =>
    refine ⟨?_, by simpa using ih⟩
    cases h : Printer.isOperation receiver
    · simpa using h
    · rfl
  | call p id arguments ih =>
    simpa [grouped, Canonical, groupedAll_eq_map, allCanonical_iff] using ih
  | methodCall p receiver id arguments hr ih =>
    refine ⟨?_, by simpa using hr, by simpa [groupedAll_eq_map, allCanonical_iff] using ih⟩
    cases h : Printer.isOperation receiver
    · simpa using h
    · rfl

theorem grouped_of_canonical {e : Expr} (h : e.Canonical) : e.grouped = e := by
  induction e with
  | literal | name | unknown => rfl
  | group p inner ih => simp [grouped, ih h]
  | binary p op left right hl hr =>
    obtain ⟨h₁, h₂, h₃, h₄⟩ := h
    simp [grouped, hl h₃, hr h₄, Nat.not_lt.mpr h₁, Nat.not_le.mpr h₂]
  | member p receiver id ih => simp [grouped, ih h.2, h.1]
  | call p id arguments ih =>
    have hs := (allCanonical_iff arguments).mp h
    simp only [grouped, groupedAll_eq_map]
    rw [List.map_congr_left fun e he => ih e he (hs e he), List.map_id']
  | methodCall p receiver id arguments hr ih =>
    obtain ⟨h₁, h₂, h₃⟩ := h
    have hs := (allCanonical_iff arguments).mp h₃
    simp only [grouped, groupedAll_eq_map, hr h₂, h₁, groupIf_false]
    rw [List.map_congr_left fun e he => ih e he (hs e he), List.map_id']

theorem ungrouped_grouped (e : Expr) : e.grouped.ungrouped = e.ungrouped := by
  induction e with
  | literal | name | unknown => rfl
  | group p inner ih => exact ih
  | binary p op left right hl hr => simp [grouped, ungrouped, hl, hr]
  | member p receiver id ih => simp [grouped, ungrouped, ih]
  | call p id arguments ih => simpa [grouped, ungrouped, groupedAll_eq_map, ungroupedAll_eq_map]
  | methodCall p receiver id arguments hr ih =>
    simpa [grouped, ungrouped, hr, groupedAll_eq_map, ungroupedAll_eq_map]

theorem unplaced_ungrouped (e : Expr) : e.ungrouped.unplaced = e.unplaced.ungrouped := by
  induction e with
  | literal | name | unknown => rfl
  | group p inner ih => exact ih
  | binary p op left right hl hr => simp [ungrouped, unplaced, hl, hr]
  | member p receiver id ih => simp [ungrouped, unplaced, ih]
  | call p id arguments ih => simpa [ungrouped, unplaced, ungroupedAll_eq_map, unplacedAll_eq_map]
  | methodCall p receiver id arguments hr ih =>
    simpa [ungrouped, unplaced, hr, ungroupedAll_eq_map, unplacedAll_eq_map]

theorem wellFormed_grouped (e : Expr) : e.grouped.WellFormed ↔ e.WellFormed := by
  induction e with
  | literal | name | unknown => rfl
  | group p inner ih => exact ih
  | binary p op left right hl hr => simp [grouped, WellFormed, hl, hr]
  | member p receiver id ih => simp [grouped, WellFormed, ih]
  | call p id arguments ih =>
    simp only [grouped, WellFormed, groupedAll_eq_map, allWellFormed_iff, List.forall_mem_map]
    exact and_congr_right fun _ => forall₂_congr ih
  | methodCall p receiver id arguments hr ih =>
    simp only [grouped, WellFormed, groupedAll_eq_map, allWellFormed_iff, List.forall_mem_map,
      wellFormed_groupIf, hr]
    exact and_congr_right fun _ => and_congr_right fun _ => forall₂_congr ih

theorem wellFormed_unplaced (e : Expr) : e.unplaced.WellFormed ↔ e.WellFormed := by
  induction e with
  | literal | name | unknown => rfl
  | group p inner ih => exact ih
  | binary p op left right hl hr => simp [unplaced, WellFormed, hl, hr]
  | member p receiver id ih => simp [unplaced, WellFormed, ih]
  | call p id arguments ih =>
    simp only [unplaced, WellFormed, unplacedAll_eq_map, allWellFormed_iff, List.forall_mem_map]
    exact and_congr_right fun _ => forall₂_congr ih
  | methodCall p receiver id arguments hr ih =>
    simp only [unplaced, WellFormed, unplacedAll_eq_map, allWellFormed_iff, List.forall_mem_map, hr]
    exact and_congr_right fun _ => and_congr_right fun _ => forall₂_congr ih

end Expr

end BlockScript
