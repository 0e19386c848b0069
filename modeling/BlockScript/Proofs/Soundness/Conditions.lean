import BlockScript.Proofs.Soundness.Values
import Mathlib.Data.List.Nodup

/-!
# Conditions on typed programs

What a program has to be besides accepted, for its values to be of their types.
-/

namespace BlockScript

/-! ## Parts of a program -/

section

variable (P : TypedExpr → Prop) (D : TypedBinding → Prop)

namespace TypedExpr

mutual

/-- `P` holds of an expression and of all its parts. -/
def Everywhere : TypedExpr → Prop
  | .literal p value t => P (.literal p value t)
  | .group p inner t => P (.group p inner t) ∧ inner.Everywhere
  | .binary p op left right t => P (.binary p op left right t) ∧ left.Everywhere ∧ right.Everywhere
  | .name p id slot t => P (.name p id slot t)
  | .member p receiver id slot t => P (.member p receiver id slot t) ∧ receiver.Everywhere
  | .call p id arguments f t => P (.call p id arguments f t) ∧ AllEverywhere arguments
  | .methodCall p receiver id arguments f t =>
    P (.methodCall p receiver id arguments f t) ∧ receiver.Everywhere ∧ AllEverywhere arguments

def AllEverywhere : List TypedExpr → Prop
  | [] => True
  | e :: es => e.Everywhere ∧ AllEverywhere es

end

end TypedExpr

/-- `D` holds of a declaration, and `P` of all expressions in it. -/
def TypedBinding.Everywhere (b : TypedBinding) : Prop := D b ∧ ∀ e ∈ b.value, e.Everywhere P

namespace TypedStmt

mutual

/-- `P` holds of all expressions and `D` of all declarations of a statement. -/
def Everywhere : TypedStmt → Prop
  | .expression _ value => value.Everywhere P
  | .declare b => b.Everywhere P D
  | .assign _ target value => target.Everywhere P ∧ value.Everywhere P
  | .conditional _ condition thenBody elseBody =>
    condition.Everywhere P ∧ AllEverywhere thenBody ∧ AllEverywhere elseBody
  | .forLoop _ _ iterable _ body => iterable.Everywhere P ∧ AllEverywhere body
  | .whileLoop _ condition body => condition.Everywhere P ∧ AllEverywhere body
  | .ret _ value => value.Everywhere P

def AllEverywhere : List TypedStmt → Prop
  | [] => True
  | s :: rest => s.Everywhere ∧ AllEverywhere rest

end

end TypedStmt

end

section

variable {P P' : TypedExpr → Prop} {D : TypedBinding → Prop}

theorem TypedExpr.allEverywhere_iff {es : List TypedExpr} :
    AllEverywhere P es ↔ ∀ e ∈ es, e.Everywhere P := by
  induction es with
  | nil => exact ⟨nofun, fun _ => trivial⟩
  | cons e es ih => rw [AllEverywhere, ih, List.forall_mem_cons]

theorem TypedStmt.allEverywhere_iff {ss : List TypedStmt} :
    AllEverywhere P D ss ↔ ∀ s ∈ ss, s.Everywhere P D := by
  induction ss with
  | nil => exact ⟨nofun, fun _ => trivial⟩
  | cons s ss ih => rw [AllEverywhere, ih, List.forall_mem_cons]

theorem TypedExpr.Everywhere.imp {e : TypedExpr} (he : e.Everywhere P) (h : ∀ e, P e → P' e) :
    e.Everywhere P' := by
  induction e with
  | literal | name => exact h _ he
  | group p inner t ih => exact ⟨h _ he.1, ih he.2⟩
  | binary p op left right t hl hr => exact ⟨h _ he.1, hl he.2.1, hr he.2.2⟩
  | member p receiver id slot t ih => exact ⟨h _ he.1, ih he.2⟩
  | call p id arguments f t ih =>
    have harguments := allEverywhere_iff.mp he.2
    exact ⟨h _ he.1, allEverywhere_iff.mpr fun e hmem => ih e hmem (harguments e hmem)⟩
  | methodCall p receiver id arguments f t hr ih =>
    have harguments := allEverywhere_iff.mp he.2.2
    exact ⟨h _ he.1, hr he.2.1, allEverywhere_iff.mpr fun e hmem => ih e hmem (harguments e hmem)⟩

theorem TypedExpr.Everywhere.and {e : TypedExpr} (he : e.Everywhere P) (he' : e.Everywhere P') :
    e.Everywhere fun e => P e ∧ P' e := by
  induction e with
  | literal | name => exact ⟨he, he'⟩
  | group p inner t ih => exact ⟨⟨he.1, he'.1⟩, ih he.2 he'.2⟩
  | binary p op left right t hl hr => exact ⟨⟨he.1, he'.1⟩, hl he.2.1 he'.2.1, hr he.2.2 he'.2.2⟩
  | member p receiver id slot t ih => exact ⟨⟨he.1, he'.1⟩, ih he.2 he'.2⟩
  | call p id arguments f t ih =>
    have harguments := allEverywhere_iff.mp he.2
    have harguments' := allEverywhere_iff.mp he'.2
    exact ⟨⟨he.1, he'.1⟩,
      allEverywhere_iff.mpr fun e hmem => ih e hmem (harguments e hmem) (harguments' e hmem)⟩
  | methodCall p receiver id arguments f t hr ih =>
    have harguments := allEverywhere_iff.mp he.2.2
    have harguments' := allEverywhere_iff.mp he'.2.2
    exact ⟨⟨he.1, he'.1⟩, hr he.2.1 he'.2.1,
      allEverywhere_iff.mpr fun e hmem => ih e hmem (harguments e hmem) (harguments' e hmem)⟩

theorem TypedBinding.Everywhere.imp {b : TypedBinding} (hb : b.Everywhere P D)
    (h : ∀ e, P e → P' e) : b.Everywhere P' D :=
  ⟨hb.1, fun e he => (hb.2 e he).imp h⟩

theorem TypedStmt.Everywhere.imp {s : TypedStmt} (hs : s.Everywhere P D) (h : ∀ e, P e → P' e) :
    s.Everywhere P' D := by
  have hall {ss : List TypedStmt} (ih : ∀ s ∈ ss, s.Everywhere P D → s.Everywhere P' D)
      (hss : AllEverywhere P D ss) : AllEverywhere P' D ss :=
    allEverywhere_iff.mpr fun s hmem => ih s hmem (allEverywhere_iff.mp hss s hmem)
  induction s with
  | expression p value => exact TypedExpr.Everywhere.imp hs h
  | declare b => exact TypedBinding.Everywhere.imp hs h
  | assign p target value => exact ⟨hs.1.imp h, hs.2.imp h⟩
  | conditional p condition thenBody elseBody hthen helse =>
    exact ⟨hs.1.imp h, hall hthen hs.2.1, hall helse hs.2.2⟩
  | forLoop p name iterable slot body ih => exact ⟨hs.1.imp h, hall ih hs.2⟩
  | whileLoop p condition body ih => exact ⟨hs.1.imp h, hall ih hs.2⟩
  | ret p value => exact TypedExpr.Everywhere.imp hs h

end

/-! ## Conditions can be decided -/

section

variable (P : TypedExpr → Prop) (D : TypedBinding → Prop) [DecidablePred P] [DecidablePred D]

namespace TypedExpr

mutual

def decideEverywhere : (e : TypedExpr) → Decidable (e.Everywhere P)
  | .literal p value t => inferInstanceAs (Decidable (P (.literal p value t)))
  | .group _ inner _ => @instDecidableAnd _ _ _ (decideEverywhere inner)
  | .binary _ _ left right _ =>
    @instDecidableAnd _ _ _ (@instDecidableAnd _ _ (decideEverywhere left) (decideEverywhere right))
  | .name p id slot t => inferInstanceAs (Decidable (P (.name p id slot t)))
  | .member _ receiver _ _ _ => @instDecidableAnd _ _ _ (decideEverywhere receiver)
  | .call _ _ arguments _ _ => @instDecidableAnd _ _ _ (decideAllEverywhere arguments)
  | .methodCall _ receiver _ arguments _ _ =>
    @instDecidableAnd _ _ _
      (@instDecidableAnd _ _ (decideEverywhere receiver) (decideAllEverywhere arguments))

def decideAllEverywhere : (es : List TypedExpr) → Decidable (AllEverywhere P es)
  | [] => .isTrue trivial
  | e :: es => @instDecidableAnd _ _ (decideEverywhere e) (decideAllEverywhere es)

end

instance (e : TypedExpr) : Decidable (e.Everywhere P) := decideEverywhere P e

end TypedExpr

instance (b : TypedBinding) : Decidable (b.Everywhere P D) :=
  inferInstanceAs (Decidable (D b ∧ ∀ e ∈ b.value, e.Everywhere P))

namespace TypedStmt

mutual

def decideEverywhere : (s : TypedStmt) → Decidable (s.Everywhere P D)
  | .expression _ value => inferInstanceAs (Decidable (value.Everywhere P))
  | .declare b => inferInstanceAs (Decidable (b.Everywhere P D))
  | .assign _ target value =>
    inferInstanceAs (Decidable (target.Everywhere P ∧ value.Everywhere P))
  | .conditional _ _ thenBody elseBody =>
    @instDecidableAnd _ _ (inferInstance)
      (@instDecidableAnd _ _ (decideAllEverywhere thenBody) (decideAllEverywhere elseBody))
  | .forLoop _ _ _ _ body => @instDecidableAnd _ _ (inferInstance) (decideAllEverywhere body)
  | .whileLoop _ _ body => @instDecidableAnd _ _ (inferInstance) (decideAllEverywhere body)
  | .ret _ value => inferInstanceAs (Decidable (value.Everywhere P))

def decideAllEverywhere : (ss : List TypedStmt) → Decidable (AllEverywhere P D ss)
  | [] => .isTrue trivial
  | s :: rest => @instDecidableAnd _ _ (decideEverywhere s) (decideAllEverywhere rest)

end

instance (ss : List TypedStmt) : Decidable (AllEverywhere P D ss) := decideAllEverywhere P D ss

end TypedStmt

end

/-! ## Comparisons and declarations -/

/-- No operand of a comparison is only known to be comparable. -/
def TypedExpr.ComparesKnown : TypedExpr → Prop
  | .binary _ op left right _ =>
    op.isComparison = true → left.type ≠ .comparable ∧ right.type ≠ .comparable
  | _ => True

instance : DecidablePred TypedExpr.ComparesKnown
  | .binary _ op left right _ =>
    inferInstanceAs (Decidable
      (op.isComparison = true → left.type ≠ .comparable ∧ right.type ≠ .comparable))
  | .literal .. | .group .. | .name .. | .member .. | .call .. | .methodCall .. => .isTrue trivial

def TypedBinding.HasValue (b : TypedBinding) : Prop := b.value.isSome = true

instance : DecidablePred TypedBinding.HasValue := fun b =>
  inferInstanceAs (Decidable (b.value.isSome = true))

/-! ## Statements that return -/

namespace TypedStmt

mutual

/-- Whether control never goes on after a statement: it returns on every path. -/
def returns : TypedStmt → Bool
  | .ret .. => true
  | .conditional _ _ thenBody elseBody => returnsAll thenBody && returnsAll elseBody
  | .expression .. | .declare _ | .assign .. | .forLoop .. | .whileLoop .. => false

def returnsAll : List TypedStmt → Bool
  | [] => false
  | s :: rest => s.returns || returnsAll rest

end

end TypedStmt

section

variable (P : TypedExpr → Prop) (S : Store)

/-- A method gives what its return type says also where its body ends without a RETURN, and in its
body every declaration has a value and expressions are as `P` says. -/
structure TypedMethod.IsTotal (m : TypedMethod) : Prop where
  returns : ∀ t ∈ (S.function m.function).returns,
    t = .any ∨ t = .nil ∨ TypedStmt.returnsAll m.body = true
  body : TypedStmt.AllEverywhere P TypedBinding.HasValue m.body

/-- No nil stands in for a missing value. -/
structure TypedProgram.IsTotal (p : TypedProgram) : Prop where
  fields : ∀ b ∈ p.fields, b.Everywhere P TypedBinding.HasValue
  methods : ∀ m ∈ p.methods, m.IsTotal P S

instance [DecidablePred P] (m : TypedMethod) : Decidable (m.IsTotal P S) :=
  decidable_of_iff _ ⟨fun h => ⟨h.1, h.2⟩, fun h => And.intro h.returns h.body⟩

instance [DecidablePred P] (p : TypedProgram) : Decidable (p.IsTotal P S) :=
  decidable_of_iff _ ⟨fun h => ⟨h.1, h.2⟩, fun h => And.intro h.fields h.methods⟩

end

theorem TypedProgram.IsTotal.imp {P P' : TypedExpr → Prop} {S : Store} {p : TypedProgram}
    (hp : p.IsTotal P S) (h : ∀ e, P e → P' e) : p.IsTotal P' S where
  fields b hb := (hp.fields b hb).imp h
  methods m hm := by
    obtain ⟨hreturns, hbody⟩ := hp.methods m hm
    refine ⟨hreturns, TypedStmt.allEverywhere_iff.mpr fun s hs => ?_⟩
    exact (TypedStmt.allEverywhere_iff.mp hbody s hs).imp h

/-! ## Programs -/

/-- What the function of a method is known under. -/
def TypedMethod.key (m : TypedMethod) : String × Nat := (m.name, m.params.length)

/-- No method hides another one or a built-in function, and all parts of the program meet the
conditions. -/
structure TypedProgram.Tame (S : Store) (p : TypedProgram) : Prop extends
    p.IsTotal TypedExpr.ComparesKnown S where
  distinct : (p.methods.map TypedMethod.key).Nodup
  builtIn : ∀ m ∈ p.methods, m.key ≠ ("print", 1) ∧ m.key ≠ ("range", 2)

instance (S : Store) (p : TypedProgram) : Decidable (p.Tame S) :=
  decidable_of_iff _ ⟨fun h => ⟨h.1, h.2.1, h.2.2⟩, fun h =>
    And.intro h.toIsTotal (And.intro h.distinct h.builtIn)⟩

/-- The types of the parameters and of the result. -/
def Function.types (fn : Function) : List Ty × Option Ty := (fn.params, fn.returns)

theorem Function.types_inj {fn fn' : Function} :
    fn.types = fn'.types ↔ fn.params = fn'.params ∧ fn.returns = fn'.returns :=
  Iff.of_eq (Prod.mk.injEq ..)

/-- A method that hides another one or a built-in function has the types of what it hides. -/
structure TypedProgram.Consistent (S : Store) (p : TypedProgram) : Prop where
  methods : ∀ m ∈ p.methods, ∀ d ∈ p.methods, m.key = d.key →
    (S.function m.function).types = (S.function d.function).types
  print : ∀ m ∈ p.methods, m.key = ("print", 1) →
    (S.function m.function).types = ([.any], some .nil)
  range : ∀ m ∈ p.methods, m.key = ("range", 2) →
    (S.function m.function).types = ([.integer, .integer], some .iterable)

instance (S : Store) (p : TypedProgram) : Decidable (p.Consistent S) :=
  decidable_of_iff _ ⟨fun h => ⟨h.1, h.2.1, h.2.2⟩, fun h =>
    And.intro h.methods (And.intro h.print h.range)⟩

/-- Methods that hide nothing are consistent. -/
theorem TypedProgram.Tame.consistent {S : Store} {p : TypedProgram} (h : p.Tame S) :
    p.Consistent S where
  methods m hm d hd hkey := by rw [List.inj_on_of_nodup_map h.distinct hm hd hkey]
  print m hm hkey := absurd hkey (h.builtIn m hm).1
  range m hm hkey := absurd hkey (h.builtIn m hm).2

end BlockScript
