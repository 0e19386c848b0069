import BlockScript.Proofs.Diagnostic.Wording
import BlockScript.Proofs.Syntax.Everywhere
import BlockScript.Value.Ty

/-!
# The words of a program

`Uses W T` says that `W` holds of every word of a tree, its names, operators and numbers, and `T` of
every type name. A character is one character everywhere. Trees of the language use lines only.
-/

namespace BlockScript

section

variable (W T : String → Prop)

def Literal.Uses : Literal → Prop
  | .character value => ∃ c, value.toList = [c]
  | .integer _ raw | .decimal _ raw => W raw
  | .nil | .boolean _ | .string _ => True

namespace Expr

mutual

def Uses : Expr → Prop
  | .literal _ value => value.Uses W
  | .group _ inner => inner.Uses
  | .binary _ op left right => W op.spelling ∧ left.Uses ∧ right.Uses
  | .name _ id => W id
  | .member _ receiver id => receiver.Uses ∧ W id
  | .call _ id arguments => W id ∧ AllUse arguments
  | .methodCall _ receiver id arguments => receiver.Uses ∧ W id ∧ AllUse arguments
  | .unknown _ label => W label

def AllUse : List Expr → Prop
  | [] => True
  | e :: es => e.Uses ∧ AllUse es

end

theorem allUse_iff (es : List Expr) : AllUse W es ↔ ∀ e ∈ es, e.Uses W := by
  induction es with
  | nil => simp [AllUse]
  | cons e es ih => simp [AllUse, ih]

end Expr

def Binding.Uses (b : Binding) : Prop :=
  W b.name ∧ (∀ t ∈ b.type, T t) ∧ ∀ e ∈ b.value, e.Uses W

namespace Stmt

mutual

def Uses : Stmt → Prop
  | .expression _ value | .ret _ value => value.Uses W
  | .declare b => b.Uses W T
  | .assign _ target value => target.Uses W ∧ value.Uses W
  | .conditional _ condition thenBody elseBody =>
    condition.Uses W ∧ AllUse thenBody ∧ AllUse elseBody
  | .forLoop _ name iterable body => W name ∧ iterable.Uses W ∧ AllUse body
  | .whileLoop _ condition body => condition.Uses W ∧ AllUse body
  | .unknown _ label => W label

def AllUse : List Stmt → Prop
  | [] => True
  | s :: rest => s.Uses ∧ AllUse rest

end

theorem allUse_iff (ss : List Stmt) : AllUse W T ss ↔ ∀ s ∈ ss, s.Uses W T := by
  induction ss with
  | nil => simp [AllUse]
  | cons s ss ih => simp [AllUse, ih]

end Stmt

def Param.Uses (p : Param) : Prop := W p.name ∧ ∀ t ∈ p.type, T t

def Method.Uses (m : Method) : Prop :=
  W m.name ∧ (∀ p ∈ m.params, p.Uses W T) ∧ (∀ t ∈ m.returnType, T t) ∧ ∀ s ∈ m.body, s.Uses W T

def Program.Uses (p : Program) : Prop :=
  (∀ b ∈ p.fields, b.Uses W T) ∧ ∀ m ∈ p.methods, m.Uses W T

/-- The words that the language has of itself are as `W` says, and so are type names. -/
structure Vocabulary : Prop where
  empty : W ""
  main : W "main"
  type : ∀ t ∈ Ty.builtIn, W t.name
  named : ∀ name, T name → W name

end

/-! ## Lines -/

theorem isLine_name {t : Ty} (ht : t ∈ Ty.builtIn) : IsLine t.name := by
  cases t with
  | custom i label => exact absurd ht (by simp [Ty.builtIn])
  | _ => simp [Ty.name, IsLine]

theorem isLine_spelling_operator {op : Operator} (hop : op ∈ Operator.known) :
    IsLine op.spelling := by
  cases op with
  | unknown spelling => exact absurd hop (by simp [Operator.known])
  | _ => simp [Operator.spelling, IsLine]

theorem vocabulary_isLine : Vocabulary IsLine IsLine :=
  ⟨by simp [IsLine], by simp [IsLine], fun _ => isLine_name, fun _ h => h⟩

theorem vocabulary_true (T : String → Prop) : Vocabulary (fun _ => True) T :=
  ⟨trivial, trivial, fun _ _ => trivial, fun _ _ => trivial⟩

theorem isLine_of_isIdentifier {s : String} (h : IsIdentifier s) : IsLine s := by
  obtain ⟨⟨c, cs, hs, hc, hcs⟩, -⟩ := h
  rw [IsLine, hs, List.mem_cons, not_or]
  refine ⟨?_, fun hn => absurd (hcs _ hn) (by decide)⟩
  rintro rfl
  exact absurd hc (by decide)

theorem newline_notMem_of_isWhole {cs : List Char} (h : IsWhole cs) : '\n' ∉ cs := by
  obtain ⟨sign, digits, rfl, hsign, -, hdigits⟩ := h
  rw [List.mem_append, not_or]
  refine ⟨?_, fun hn => absurd (hdigits _ hn) (by decide)⟩
  rcases hsign with rfl | rfl | rfl <;> decide

theorem newline_notMem_of_isFractional {cs : List Char} (h : IsFractional cs) : '\n' ∉ cs := by
  obtain ⟨whole, places, rfl, hwhole, -, hplaces⟩ := h
  rw [List.mem_append, List.mem_cons, not_or, not_or]
  exact ⟨newline_notMem_of_isWhole hwhole, by decide, fun hn => absurd (hplaces _ hn) (by decide)⟩

theorem Expr.uses_of_wellFormed {e : Expr} (h : e.WellFormed) : e.Uses IsLine := by
  induction e with
  | literal p value =>
    cases value with
    | integer n raw => exact newline_notMem_of_isWhole h.1
    | decimal d raw => exact newline_notMem_of_isFractional h.1
    | character text => exact h
    | nil | boolean | string => trivial
  | group p inner ih => exact ih h
  | binary p op left right hl hr => exact ⟨isLine_spelling_operator h.1, hl h.2.1, hr h.2.2⟩
  | name p id => exact isLine_of_isIdentifier h
  | member p receiver id ih => exact ⟨ih h.1, isLine_of_isIdentifier h.2⟩
  | call p id arguments ih =>
    have harguments := (allWellFormed_iff arguments).mp h.2
    exact ⟨isLine_of_isIdentifier h.1, (allUse_iff _ _).mpr fun e he => ih e he (harguments e he)⟩
  | methodCall p receiver id arguments hr ih =>
    have harguments := (allWellFormed_iff arguments).mp h.2.2
    exact ⟨hr h.1, isLine_of_isIdentifier h.2.1,
      (allUse_iff _ _).mpr fun e he => ih e he (harguments e he)⟩
  | unknown => exact h.elim

theorem Binding.uses_of_consists {b : Binding} (h : b.Consists Expr.WellFormed IsIdentifier) :
    b.Uses IsLine IsLine :=
  ⟨isLine_of_isIdentifier h.1, fun t ht => isLine_of_isIdentifier (h.2.1 t ht),
    fun e he => Expr.uses_of_wellFormed (h.2.2 e he)⟩

theorem Stmt.uses_of_consists {s : Stmt} (h : s.Consists Expr.WellFormed IsIdentifier) :
    s.Uses IsLine IsLine := by
  induction s with
  | expression | ret => exact Expr.uses_of_wellFormed h
  | assign => exact ⟨Expr.uses_of_wellFormed h.1, Expr.uses_of_wellFormed h.2⟩
  | declare b => exact Binding.uses_of_consists h
  | conditional p condition thenBody elseBody ht he =>
    obtain ⟨hc, h₁, h₂⟩ := h
    rw [allConsist_iff] at h₁ h₂
    exact ⟨Expr.uses_of_wellFormed hc, (allUse_iff ..).mpr fun s hs => ht s hs (h₁ s hs),
      (allUse_iff ..).mpr fun s hs => he s hs (h₂ s hs)⟩
  | forLoop p name iterable body ih =>
    obtain ⟨hn, hi, h⟩ := h
    rw [allConsist_iff] at h
    exact ⟨isLine_of_isIdentifier hn, Expr.uses_of_wellFormed hi,
      (allUse_iff ..).mpr fun s hs => ih s hs (h s hs)⟩
  | whileLoop p condition body ih =>
    obtain ⟨hc, h⟩ := h
    rw [allConsist_iff] at h
    exact ⟨Expr.uses_of_wellFormed hc, (allUse_iff ..).mpr fun s hs => ih s hs (h s hs)⟩
  | unknown => exact h.elim

theorem Program.uses_of_wellFormed {p : Program} (h : p.WellFormed) : p.Uses IsLine IsLine := by
  refine ⟨fun b hb => Binding.uses_of_consists (h.1 b hb), fun m hm => ?_⟩
  obtain ⟨hname, hparams, hreturn, hbody⟩ := h.2 m hm
  rw [Stmt.allConsist_iff] at hbody
  refine ⟨isLine_of_isIdentifier hname, fun p hp => ?_,
    fun t ht => isLine_of_isIdentifier (hreturn t ht), fun s hs =>
      Stmt.uses_of_consists (hbody s hs)⟩
  exact ⟨isLine_of_isIdentifier (hparams p hp).1, fun t ht =>
    isLine_of_isIdentifier ((hparams p hp).2 t ht)⟩

end BlockScript
