import BlockScript.Proofs.Pass.Context
import BlockScript.Typing.Check

/-!
# What the analysis establishes

`Checked` says of a typed tree that its findings are right: names and calls go to what the context
knows, and types follow the rules. The types of variables and functions are those in a store `S`,
which for a whole program is the last store of the analysis, where no return type is open any more.
-/

namespace BlockScript

/-! ## Induction on typed trees -/

@[induction_eliminator]
theorem TypedExpr.induction {motive : TypedExpr → Prop}
    (literal : ∀ p v t, motive (.literal p v t))
    (group : ∀ p inner t, motive inner → motive (.group p inner t))
    (binary : ∀ p op left right t, motive left → motive right →
      motive (.binary p op left right t))
    (name : ∀ p id slot t, motive (.name p id slot t))
    (member : ∀ p receiver id slot t, motive receiver → motive (.member p receiver id slot t))
    (call : ∀ p id arguments f t, (∀ e ∈ arguments, motive e) → motive (.call p id arguments f t))
    (methodCall : ∀ p receiver id arguments f t, motive receiver → (∀ e ∈ arguments, motive e) →
      motive (.methodCall p receiver id arguments f t)) (e : TypedExpr) : motive e :=
  TypedExpr.rec (motive_2 := fun es => ∀ e ∈ es, motive e) literal group binary name member call
    methodCall (by simp) (by simp +contextual) e

@[induction_eliminator]
theorem TypedStmt.induction {motive : TypedStmt → Prop}
    (expression : ∀ p value, motive (.expression p value))
    (declare : ∀ b, motive (.declare b))
    (assign : ∀ p target value, motive (.assign p target value))
    (conditional : ∀ p condition thenBody elseBody, (∀ s ∈ thenBody, motive s) →
      (∀ s ∈ elseBody, motive s) → motive (.conditional p condition thenBody elseBody))
    (forLoop : ∀ p name iterable slot body, (∀ s ∈ body, motive s) →
      motive (.forLoop p name iterable slot body))
    (whileLoop : ∀ p condition body, (∀ s ∈ body, motive s) → motive (.whileLoop p condition body))
    (ret : ∀ p value, motive (.ret p value)) (s : TypedStmt) : motive s :=
  TypedStmt.rec (motive_2 := fun ss => ∀ s ∈ ss, motive s) expression declare assign conditional
    forLoop whileLoop ret (by simp) (by simp +contextual) s

/-! ## Contexts -/

/-- The context after a statement. -/
def Context.after (Γ : Context) : TypedStmt → Context
  | .declare b => Γ.declare b.name b.slot
  | _ => Γ

/-! ## Expressions -/

/-- The type of a call: that which the function returns, or any while that was open. -/
def Store.Returns (S : Store) (f : FunctionId) (t : Ty) : Prop :=
  t = .any ∨ (S.function f).returns = some t

section

variable (S : Store)

namespace TypedExpr

variable (Γ : Context)

mutual

def Checked : TypedExpr → Prop
  | .literal _ value t => Check.literalType value = .ok t
  | .group _ inner t => inner.Checked ∧ t = inner.type
  | .binary _ op left right t =>
    left.Checked ∧ right.Checked ∧ op.resultType? left.type right.type = some t
  | .name _ id slot t => Γ.slots id = some slot ∧ t = (S.slot slot).type
  | .member _ receiver id slot t =>
    receiver.Checked ∧ (S.membersOf receiver.type).fields.find? id = some slot ∧
      t = (S.slot slot).type
  | .call _ id arguments f t =>
    Γ.functions id arguments.length = some f ∧ (S.function f).arity = arguments.length ∧
      AllChecked (S.function f).params arguments ∧ S.Returns f t
  | .methodCall _ receiver id arguments f t =>
    receiver.Checked ∧ S.findMethod? receiver.type id arguments.length = some f ∧
      (S.function f).arity = arguments.length + 1 ∧
        AllChecked (S.function f).params.tail arguments ∧ S.Returns f t

/-- Arguments for parameters of the given types. -/
def AllChecked : List Ty → List TypedExpr → Prop
  | _, [] => True
  | params, e :: es => e.Checked ∧ (params.headD .any).accepts e.type ∧ AllChecked params.tail es

end

end TypedExpr

/-! ## Statements -/

def TypedBinding.Checked (Γ : Context) (b : TypedBinding) : Prop :=
  ∀ e ∈ b.value, e.Checked S Γ ∧ (S.slot b.slot).type.accepts e.type

namespace TypedStmt

variable (f : FunctionId)

mutual

/-- A statement in the body of the method `f`. -/
def Checked (Γ : Context) : TypedStmt → Prop
  | .expression _ value => value.Checked S Γ
  | .declare b => b.Checked S Γ
  | .assign _ target value =>
    target.Checked S Γ ∧ value.Checked S Γ ∧ target.type.accepts value.type
  | .conditional _ condition thenBody elseBody =>
    condition.Checked S Γ ∧ condition.type = .boolean ∧ AllChecked Γ thenBody ∧
      AllChecked Γ elseBody
  | .forLoop _ name iterable slot body =>
    iterable.Checked S Γ ∧ Ty.iterable.accepts iterable.type ∧ (S.slot slot).type = .integer ∧
      AllChecked (Γ.declare name slot) body
  | .whileLoop _ condition body =>
    condition.Checked S Γ ∧ condition.type = .boolean ∧ AllChecked Γ body
  | .ret _ value =>
    value.Checked S Γ ∧ ∃ t, (S.function f).returns = some t ∧ t.accepts value.type

def AllChecked (Γ : Context) : List TypedStmt → Prop
  | [] => True
  | s :: rest => s.Checked Γ ∧ AllChecked (Γ.after s) rest

end

end TypedStmt

/-! ## Programs -/

/-- A method in a context that knows it. -/
structure TypedMethod.Checked (Γ : Context) (m : TypedMethod) : Prop where
  params : (S.function m.function).params = m.slots.map fun v => (S.slot v).type
  length : m.slots.length = m.params.length
  returns : ∃ t, (S.function m.function).returns = some t
  body : TypedStmt.AllChecked S m.function (Γ.declareAll m.params m.slots) m.body

/-- The context after a method. -/
def Context.bind (Γ : Context) (m : TypedMethod) : Context :=
  Γ.define m.name m.params.length m.function

namespace TypedProgram

/-- Fields in the context before them, and the context after them. -/
def FieldsChecked (Γ : Context) : List TypedBinding → Prop
  | [] => True
  | b :: rest => b.Checked S Γ ∧ FieldsChecked (Γ.declare b.name b.slot) rest

def MethodsChecked (Γ : Context) : List TypedMethod → Prop
  | [] => True
  | m :: rest => m.Checked S (Γ.bind m) ∧ MethodsChecked (Γ.bind m) rest

end TypedProgram

end

namespace Context

def declareFields (Γ : Context) (fields : List TypedBinding) : Context :=
  fields.foldl (fun Γ b => Γ.declare b.name b.slot) Γ

def bindAll (Γ : Context) (methods : List TypedMethod) : Context := methods.foldl bind Γ

end Context

/-- All findings about a program that stands in the context `Γ` are right. -/
structure TypedProgram.Checked (S : Store) (Γ : Context) (p : TypedProgram) : Prop where
  fields : FieldsChecked S Γ p.fields
  methods : MethodsChecked S (Γ.declareFields p.fields) p.methods
  main : ∃ f, ((Γ.declareFields p.fields).bindAll p.methods).functions "main" 0 = some f ∧
    (S.function f).params = [] ∧ (S.function f).returns = some .integer

/-! ## The variables of a program -/

/-- The variables with numbers from `m` on, up to but without `n`. -/
def SlotId.between (m n : Nat) : List SlotId := (List.range' m (n - m)).map SlotId.mk

theorem SlotId.between_self (n : Nat) : between n n = [] := by simp [between]

theorem SlotId.between_succ (n : Nat) : between n (n + 1) = [⟨n⟩] := by simp [between]

theorem SlotId.between_append {m k n : Nat} (hm : m ≤ k) (hn : k ≤ n) :
    between m k ++ between k n = between m n := by
  have hlength : k - m + (n - k) = n - m := by omega
  have h := List.range'_append_1 (s := m) (m := k - m) (n := n - k)
  rw [Nat.add_sub_cancel' hm, hlength] at h
  rw [between, between, between, ← h, List.map_append]

theorem SlotId.nodup_between (m n : Nat) : (between m n).Nodup := by
  refine List.Pairwise.map _ (fun i j h => ?_) (List.nodup_range' 1)
  rintro ⟨⟩
  exact h rfl

namespace TypedStmt

mutual

/-- The variables that a statement declares, in the order of the text. -/
def slots : TypedStmt → List SlotId
  | .declare b => [b.slot]
  | .conditional _ _ thenBody elseBody => slotsAll thenBody ++ slotsAll elseBody
  | .forLoop _ _ _ slot body => slot :: slotsAll body
  | .whileLoop _ _ body => slotsAll body
  | .expression .. | .assign .. | .ret .. => []

def slotsAll : List TypedStmt → List SlotId
  | [] => []
  | s :: rest => s.slots ++ slotsAll rest

end

end TypedStmt

def TypedMethod.allSlots (m : TypedMethod) : List SlotId := m.slots ++ TypedStmt.slotsAll m.body

/-- The variables of all declarations of a program, in the order of the text. -/
def TypedProgram.allSlots (p : TypedProgram) : List SlotId :=
  p.fields.map TypedBinding.slot ++ p.methods.flatMap TypedMethod.allSlots

end BlockScript
