import BlockScript.Diagnostic
import BlockScript.Syntax.Basic
import BlockScript.Text.Escape

/-!
# Printing trees

A program as text, one statement a line and blocks indented. An operand gets parentheses where its
operator binds less tightly than the one it belongs to, or as tightly on the right; a receiver gets
them where it is an operation. Trees with nodes or operators of unknown kinds have no text.
-/

namespace BlockScript.Printer

/-- How tightly an expression binds; what is not an operation binds tighter than any. -/
def precedence : Expr → Except Misuse Nat
  | .binary _ op _ _ =>
    match op.precedence? with
    | some p => .ok p
    | none => .error (.unprintableOperator op.spelling)
  | _ => .ok 5

def parenthesise (needed : Bool) (text : String) : String :=
  if needed then "(" ++ text ++ ")" else text

def isOperation : Expr → Bool
  | .binary .. => true
  | _ => false

def literal : Literal → String
  | .nil => "NIL"
  | .boolean true => "TRUE"
  | .boolean false => "FALSE"
  | .character value => Text.enclose '\'' value
  | .string value => Text.enclose '"' value
  | .integer _ raw | .decimal _ raw => raw

mutual

def expr : Expr → Except Misuse String
  | .literal _ value => .ok (literal value)
  | .group _ inner => return parenthesise true (← expr inner)
  | .binary p op left right => do
    let own ← precedence (.binary p op left right)
    let leftOwn ← precedence left
    let leftText ← expr left
    let rightOwn ← precedence right
    let rightText ← expr right
    return parenthesise (leftOwn < own) leftText ++ " " ++ op.spelling ++ " " ++
      parenthesise (rightOwn ≤ own) rightText
  | .name _ id => .ok id
  | .member _ receiver name =>
    return parenthesise (isOperation receiver) (← expr receiver) ++ "." ++ name
  | .call _ name arguments => return name ++ "(" ++ ", ".intercalate (← exprs arguments) ++ ")"
  | .methodCall _ receiver name arguments => do
    let texts ← exprs arguments
    return parenthesise (isOperation receiver) (← expr receiver) ++ "." ++ name ++ "(" ++
      ", ".intercalate texts ++ ")"
  | .unknown .. => .error .unprintableExpression

def exprs : List Expr → Except Misuse (List String)
  | [] => .ok []
  | e :: es => return (← expr e) :: (← exprs es)

end

/-- A colon and the type, where there is one. -/
def typeSuffix : Option String → String
  | some type => ": " ++ type
  | none => ""

def binding (b : Binding) : Except Misuse String := do
  let head := "LET " ++ b.name ++ typeSuffix b.type
  match b.value with
  | some value => return head ++ " = " ++ (← expr value) ++ ";"
  | none => return head ++ ";"

/-- A line of a block at the given depth. -/
def line (depth : Nat) (text : String) : String :=
  String.ofList (List.replicate (4 * depth) ' ') ++ text

mutual

/-- The lines of a statement. -/
def stmt (depth : Nat) : Stmt → Except Misuse (List String)
  | .expression _ value => return [line depth ((← expr value) ++ ";")]
  | .declare b => return [line depth (← binding b)]
  | .assign _ target value =>
    return [line depth ((← expr target) ++ " = " ++ (← expr value) ++ ";")]
  | .conditional _ condition thenBody elseBody => do
    let head := line depth ("IF " ++ (← expr condition) ++ " DO")
    let thenLines ← stmts (depth + 1) thenBody
    let elseLines ← stmts (depth + 1) elseBody
    let alternative := if elseBody.isEmpty then [] else line depth "ELSE" :: elseLines
    return head :: thenLines ++ alternative ++ [line depth "END"]
  | .forLoop _ name iterable body => do
    let head := line depth ("FOR " ++ name ++ " IN " ++ (← expr iterable) ++ " DO")
    return head :: (← stmts (depth + 1) body) ++ [line depth "END"]
  | .whileLoop _ condition body => do
    let head := line depth ("WHILE " ++ (← expr condition) ++ " DO")
    return head :: (← stmts (depth + 1) body) ++ [line depth "END"]
  | .ret _ value => return [line depth ("RETURN " ++ (← expr value) ++ ";")]
  | .unknown .. => .error .unprintableStatement

def stmts (depth : Nat) : List Stmt → Except Misuse (List String)
  | [] => .ok []
  | s :: rest => return (← stmt depth s) ++ (← stmts depth rest)

end

def param (p : Param) : String := p.name ++ typeSuffix p.type

def method (m : Method) : Except Misuse (List String) := do
  let head := "DEF " ++ m.name ++ "(" ++ ", ".intercalate (m.params.map param) ++ ")" ++
    typeSuffix m.returnType ++ " DO"
  return head :: (← stmts 1 m.body) ++ ["END"]

/-- The methods, an empty line before each that is not the first thing in the text. -/
def methods : (first : Bool) → List Method → Except Misuse (List String)
  | _, [] => .ok []
  | first, m :: ms =>
    return (if first then [] else [""]) ++ (← method m) ++ (← methods false ms)

def lines (program : Program) : Except Misuse (List String) := do
  let fields ← program.fields.mapM binding
  return fields ++ (← methods fields.isEmpty program.methods)

end Printer

/-- The text of a program, each line ended by a line feed. -/
def Program.print (program : Program) : Except Misuse String := do
  let lines ← Printer.lines program
  return String.join (lines.map (· ++ "\n"))

end BlockScript
