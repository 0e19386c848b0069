import BlockScript.Proofs.Syntax.Induction
import BlockScript.Syntax.Printer

/-!
# Grouping

Trees up to positions and up to groups. `grouped` puts a group around each operand and receiver that
the printer writes in parentheses; a canonical tree has a group there already, so that the printer
adds none.
-/

namespace BlockScript

/-- How tightly an operator binds; one without meaning binds least. -/
def Operator.strength (op : Operator) : Nat := op.precedence?.getD 0

/-- How tightly an expression binds; what is not an operation binds tighter than any. -/
def Expr.strength : Expr → Nat
  | .binary _ op _ _ => op.strength
  | _ => 5

namespace Expr

/-- A group around an expression, where one is needed. -/
def groupIf (needed : Bool) (e : Expr) : Expr := if needed then .group e.position e else e

mutual

/-- Puts a group around each operand that binds less tightly than its operation, or as tightly on
the right, and around each operation that is a receiver. -/
def grouped : Expr → Expr
  | .literal p value => .literal p value
  | .group p inner => .group p inner.grouped
  | .binary p op left right =>
    .binary p op (left.grouped.groupIf (left.strength < op.strength))
      (right.grouped.groupIf (right.strength ≤ op.strength))
  | .name p id => .name p id
  | .member p receiver id =>
    .member p (receiver.grouped.groupIf (Printer.isOperation receiver)) id
  | .call p id arguments => .call p id (groupedAll arguments)
  | .methodCall p receiver id arguments =>
    .methodCall p (receiver.grouped.groupIf (Printer.isOperation receiver)) id
      (groupedAll arguments)
  | .unknown p label => .unknown p label

def groupedAll : List Expr → List Expr
  | [] => []
  | e :: es => e.grouped :: groupedAll es

end

mutual

/-- Takes all groups away. -/
def ungrouped : Expr → Expr
  | .literal p value => .literal p value
  | .group _ inner => inner.ungrouped
  | .binary p op left right => .binary p op left.ungrouped right.ungrouped
  | .name p id => .name p id
  | .member p receiver id => .member p receiver.ungrouped id
  | .call p id arguments => .call p id (ungroupedAll arguments)
  | .methodCall p receiver id arguments =>
    .methodCall p receiver.ungrouped id (ungroupedAll arguments)
  | .unknown p label => .unknown p label

def ungroupedAll : List Expr → List Expr
  | [] => []
  | e :: es => e.ungrouped :: ungroupedAll es

end

mutual

/-- The tree without its places: all nodes stand at the start. -/
def unplaced : Expr → Expr
  | .literal _ value => .literal .start value
  | .group _ inner => .group .start inner.unplaced
  | .binary _ op left right => .binary .start op left.unplaced right.unplaced
  | .name _ id => .name .start id
  | .member _ receiver id => .member .start receiver.unplaced id
  | .call _ id arguments => .call .start id (unplacedAll arguments)
  | .methodCall _ receiver id arguments =>
    .methodCall .start receiver.unplaced id (unplacedAll arguments)
  | .unknown _ label => .unknown .start label

def unplacedAll : List Expr → List Expr
  | [] => []
  | e :: es => e.unplaced :: unplacedAll es

end

theorem groupedAll_eq_map (es : List Expr) : groupedAll es = es.map grouped := by
  induction es with
  | nil => rfl
  | cons e es ih => simp [groupedAll, ih]

theorem ungroupedAll_eq_map (es : List Expr) : ungroupedAll es = es.map ungrouped := by
  induction es with
  | nil => rfl
  | cons e es ih => simp [ungroupedAll, ih]

theorem unplacedAll_eq_map (es : List Expr) : unplacedAll es = es.map unplaced := by
  induction es with
  | nil => rfl
  | cons e es ih => simp [unplacedAll, ih]

end Expr

/-! ## Statements and programs

The same change of all expressions and of all places in a statement, a method or a program. -/

variable (f : Expr → Expr) (g : Position → Position)

def Binding.map (b : Binding) : Binding := ⟨g b.position, b.name, b.type, b.value.map f⟩

namespace Stmt

mutual

def map : Stmt → Stmt
  | .expression p value => .expression (g p) (f value)
  | .declare b => .declare (b.map f g)
  | .assign p target value => .assign (g p) (f target) (f value)
  | .conditional p condition thenBody elseBody =>
    .conditional (g p) (f condition) (mapAll thenBody) (mapAll elseBody)
  | .forLoop p name iterable body => .forLoop (g p) name (f iterable) (mapAll body)
  | .whileLoop p condition body => .whileLoop (g p) (f condition) (mapAll body)
  | .ret p value => .ret (g p) (f value)
  | .unknown p label => .unknown (g p) label

def mapAll : List Stmt → List Stmt
  | [] => []
  | s :: rest => map s :: mapAll rest

end

theorem mapAll_eq_map (ss : List Stmt) : mapAll f g ss = ss.map (map f g) := by
  induction ss with
  | nil => rfl
  | cons s ss ih => simp [mapAll, ih]

end Stmt

def Param.map (p : Param) : Param := { p with position := g p.position }

def Method.map (m : Method) : Method :=
  ⟨g m.position, m.name, m.params.map (Param.map g), m.returnType, Stmt.mapAll f g m.body⟩

namespace Program

def map (p : Program) : Program := ⟨p.fields.map (Binding.map f g), p.methods.map (Method.map f g)⟩

@[inherit_doc Expr.grouped]
def grouped (p : Program) : Program := p.map Expr.grouped id

@[inherit_doc Expr.ungrouped]
def ungrouped (p : Program) : Program := p.map Expr.ungrouped id

@[inherit_doc Expr.unplaced]
def unplaced (p : Program) : Program := p.map Expr.unplaced fun _ => .start

end Program

end BlockScript
