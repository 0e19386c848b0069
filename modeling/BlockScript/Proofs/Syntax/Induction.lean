import BlockScript.Syntax.Basic

/-!
# Induction on syntax trees

A property of all trees follows from its steps from the parts of a tree to the tree, where the parts
that stand in a list are taken together. What goes from trees to smaller ones comes to an end.
-/

namespace BlockScript

@[induction_eliminator]
theorem Expr.induction {motive : Expr → Prop}
    (literal : ∀ p v, motive (.literal p v))
    (group : ∀ p inner, motive inner → motive (.group p inner))
    (binary : ∀ p op left right, motive left → motive right → motive (.binary p op left right))
    (name : ∀ p id, motive (.name p id))
    (member : ∀ p receiver id, motive receiver → motive (.member p receiver id))
    (call : ∀ p id arguments, (∀ e ∈ arguments, motive e) → motive (.call p id arguments))
    (methodCall : ∀ p receiver id arguments, motive receiver → (∀ e ∈ arguments, motive e) →
      motive (.methodCall p receiver id arguments))
    (unknown : ∀ p label, motive (.unknown p label)) (e : Expr) : motive e :=
  Expr.rec (motive_2 := fun es => ∀ e ∈ es, motive e) literal group binary name member call
    methodCall unknown (by simp) (by simp +contextual) e

@[induction_eliminator]
theorem Stmt.induction {motive : Stmt → Prop}
    (expression : ∀ p value, motive (.expression p value))
    (declare : ∀ b, motive (.declare b))
    (assign : ∀ p target value, motive (.assign p target value))
    (conditional : ∀ p condition thenBody elseBody, (∀ s ∈ thenBody, motive s) →
      (∀ s ∈ elseBody, motive s) → motive (.conditional p condition thenBody elseBody))
    (forLoop : ∀ p name iterable body, (∀ s ∈ body, motive s) →
      motive (.forLoop p name iterable body))
    (whileLoop : ∀ p condition body, (∀ s ∈ body, motive s) → motive (.whileLoop p condition body))
    (ret : ∀ p value, motive (.ret p value))
    (unknown : ∀ p label, motive (.unknown p label)) (s : Stmt) : motive s :=
  Stmt.rec (motive_2 := fun ss => ∀ s ∈ ss, motive s) expression declare assign conditional forLoop
    whileLoop ret unknown (by simp) (by simp +contextual) s

/-! ## Sizes -/

theorem Position.sizeOf_pos (p : Position) : 0 < sizeOf p := by
  cases p
  rw [Position.mk.sizeOf_spec]
  omega

theorem Operator.sizeOf_pos (op : Operator) : 0 < sizeOf op := by
  cases op with
  | unknown spelling =>
    rw [Operator.unknown.sizeOf_spec]
    omega
  | _ => simp

theorem Expr.sizeOf_list_pos (es : List Expr) : 0 < sizeOf es := by
  cases es <;> simp only [List.nil.sizeOf_spec, List.cons.sizeOf_spec] <;> omega

theorem Binding.sizeOf_lt_of_value {b : Binding} {e : Expr} (h : b.value = some e) :
    sizeOf e + 1 < sizeOf b := by
  obtain ⟨p, name, type, _⟩ := b
  cases h
  have := p.sizeOf_pos
  simp only [Binding.mk.sizeOf_spec, Option.some.sizeOf_spec]
  omega

theorem Method.sizeOf_body_lt (m : Method) : sizeOf m.body < sizeOf m := by
  cases m
  simp only [Method.mk.sizeOf_spec]
  omega

theorem Program.sizeOf_fields_lt (p : Program) : sizeOf p.fields < sizeOf p := by
  cases p
  simp only [Program.mk.sizeOf_spec]
  omega

theorem Program.sizeOf_methods_lt (p : Program) : sizeOf p.methods < sizeOf p := by
  cases p
  simp only [Program.mk.sizeOf_spec]
  omega

end BlockScript
