import BlockScript.Number.DecimalText
import BlockScript.Syntax.Basic
import BlockScript.Token.Lexer

/-!
# Grammar

Reading trees from tokens. Each production is a function on the tokens that are left, and one token
decides how it goes on. The productions that contain themselves take a bound on the number of
tokens left; a bound that large is never used up, because each of them takes a token before it
contains itself.
-/

namespace BlockScript.Grammar

/-- A production: it takes tokens from the front and gives a tree, or the first place where the
tokens cannot be read. The last token is the end of the input and is never taken. -/
abbrev Production (α : Type) := StateT (List Token) (Except Diagnostic) α

variable {α : Type}

/-- The first token of a list that ends with the end of the input. -/
def front (ts : List Token) : Token := ts.headD (Token.endAt .start 0)

def current : Production Token := return front (← get)

/-- Takes one token; the end of the input stays. -/
def advance : Production Unit :=
  modify fun
    | t :: ts => if t.kind == .endOfInput then t :: ts else ts
    | [] => []

/-- Rejects the current token. -/
def reject (cause : Token → Cause) : Production α := do
  let t ← current
  throw ⟨cause t, some t.position⟩

def expected (what : Expectation) : Production α :=
  reject fun t => .unexpected what (if t.kind == .endOfInput then none else some t.raw)

def atOperator (text : String) : Production Bool := return (← current).isOperator text

def atKeyword (word : Keyword) : Production Bool := return (← current).isKeyword word

def operator (text : String) : Production Unit := do
  if ← atOperator text then advance else expected (.word text)

def keyword (word : Keyword) : Production Unit := do
  if ← atKeyword word then advance else expected (.word word.spelling)

def identifier : Production String := do
  let t ← current
  if t.kind == .identifier then
    advance
    return t.value
  else expected .identifier

/-- What follows an operator, where the operator is there. -/
def after (text : String) (item : Production α) : Production (Option α) := do
  if ← atOperator text then
    advance
    return some (← item)
  else return none

/-- Further items, a comma before each. -/
def commaItems (item : Production α) : (bound : Nat) → Production (List α)
  | 0 => return []
  | bound + 1 => do
    if ← atOperator "," then
      advance
      let x ← item
      return x :: (← commaItems item bound)
    else return []

/-- Items in parentheses, separated by commas; there may be none. -/
def parenthesised (item : Production α) (bound : Nat) : Production (List α) := do
  operator "("
  if ← atOperator ")" then
    advance
    return []
  else
    let x ← item
    let xs ← commaItems item bound
    operator ")"
    return x :: xs

/-- Items as long as each begins with a keyword. -/
def whileKeyword (word : Keyword) (item : Production α) : (bound : Nat) → Production (List α)
  | 0 => return []
  | bound + 1 => do
    if ← atKeyword word then
      let x ← item
      return x :: (← whileKeyword word item bound)
    else return []

/-! ## Expressions -/

/-- The binary operator of a given precedence that a token denotes. -/
def operatorAt (precedence : Nat) (t : Token) : Option Operator :=
  match t.kind with
  | .keyword _ | .operator =>
    let op := Operator.ofSpelling t.value
    if op.precedence? = some precedence then some op else none
  | _ => none

/-- Further operands of one precedence, each joined to all before it. -/
def operands (precedence : Nat) (operand : Production Expr) : (bound : Nat) → Expr → Production Expr
  | 0, left => return left
  | bound + 1, left => do
    match operatorAt precedence (← current) with
    | some op =>
      advance
      let right ← operand
      operands precedence operand bound (.binary left.position op left right)
    | none => return left

/-- Operands of one precedence, joined from the left. -/
def chain (precedence : Nat) (operand : Production Expr) (bound : Nat) : Production Expr := do
  operands precedence operand bound (← operand)

/-- Members and method calls of the value before them. -/
def members (nested : Production Expr) (bound : Nat) : (more : Nat) → Expr → Production Expr
  | 0, e => return e
  | more + 1, e => do
    if ← atOperator "." then
      advance
      let name ← identifier
      if ← atOperator "(" then
        let arguments ← parenthesised nested bound
        members nested bound more (.methodCall e.position e name arguments)
      else members nested bound more (.member e.position e name)
    else return e

/-- The literal that a token denotes. -/
def literal? (t : Token) : Option Literal :=
  match t.kind with
  | .keyword .NIL => some .nil
  | .keyword .TRUE => some (.boolean true)
  | .keyword .FALSE => some (.boolean false)
  | .integer => some (.integer (Number.integer t.value.toList) t.raw)
  | .decimal => some (.decimal (Decimal.ofNumeral t.value.toList) t.raw)
  | .character => some (.character t.value)
  | .string => some (.string t.value)
  | _ => none

/-- Literals, names, calls and groups. -/
def primary (nested : Production Expr) (bound : Nat) : Production Expr := do
  let t ← current
  match literal? t with
  | some value =>
    advance
    return .literal t.position value
  | none =>
    if t.kind == .identifier then
      advance
      if ← atOperator "(" then
        return .call t.position t.value (← parenthesised nested bound)
      else return .name t.position t.value
    else if t.isOperator "(" then
      advance
      let inner ← nested
      operator ")"
      return .group t.position inner
    else expected .expression

/-- A primary with its members. -/
def secondary (nested : Production Expr) (bound : Nat) : Production Expr := do
  members nested bound bound (← primary nested bound)

/-- Expressions; the operators of precedence one join last. -/
def expression : (bound : Nat) → Production Expr
  | 0 => expected .expression
  | bound + 1 =>
    chain 1 (chain 2 (chain 3 (chain 4 (secondary (expression bound) bound) bound) bound) bound)
      bound

/-! ## Statements -/

/-- A colon and a type name, where the colon is there. -/
def typeName : Production (Option String) := after ":" identifier

def binding (expr : Production Expr) : Production Binding := do
  let t ← current
  keyword .LET
  let name ← identifier
  let type ← typeName
  let value ← after "=" expr
  operator ";"
  return ⟨t.position, name, type, value⟩

/-- Statements up to one of the closing keywords, which stays. -/
def block (statement : Production Stmt) (closers : List Keyword) :
    (bound : Nat) → Production (List Stmt)
  | 0 => expected (.blockEnd closers)
  | bound + 1 => do
    let t ← current
    if closers.any t.isKeyword then return []
    else if t.kind == .endOfInput then expected (.blockEnd closers)
    else
      let s ← statement
      return s :: (← block statement closers bound)

def conditional (expr : Production Expr) (nested : Production Stmt) (bound : Nat) :
    Production Stmt := do
  let t ← current
  keyword .IF
  let condition ← expr
  keyword .DO
  let thenBody ← block nested [.ELSE, .END] bound
  if ← atKeyword .ELSE then
    advance
    let elseBody ← block nested [.END] bound
    keyword .END
    return .conditional t.position condition thenBody elseBody
  else
    keyword .END
    return .conditional t.position condition thenBody []

def forLoop (expr : Production Expr) (nested : Production Stmt) (bound : Nat) :
    Production Stmt := do
  let t ← current
  keyword .FOR
  let name ← identifier
  keyword .IN
  let iterable ← expr
  keyword .DO
  let body ← block nested [.END] bound
  keyword .END
  return .forLoop t.position name iterable body

def whileLoop (expr : Production Expr) (nested : Production Stmt) (bound : Nat) :
    Production Stmt := do
  let t ← current
  keyword .WHILE
  let condition ← expr
  keyword .DO
  let body ← block nested [.END] bound
  keyword .END
  return .whileLoop t.position condition body

def ret (expr : Production Expr) : Production Stmt := do
  let t ← current
  keyword .RETURN
  let value ← expr
  operator ";"
  return .ret t.position value

/-- An expression, or the assignment of one to another. -/
def simple (expr : Production Expr) : Production Stmt := do
  let t ← current
  let left ← expr
  let right ← after "=" expr
  operator ";"
  match right with
  | some value => return .assign t.position left value
  | none => return .expression t.position left

def statement : (bound : Nat) → Production Stmt
  | 0 => expected .expression
  | bound + 1 => do
    let expr := expression (bound + 1)
    match (← current).kind with
    | .keyword .LET => return .declare (← binding expr)
    | .keyword .IF => conditional expr (statement bound) bound
    | .keyword .FOR => forLoop expr (statement bound) bound
    | .keyword .WHILE => whileLoop expr (statement bound) bound
    | .keyword .RETURN => ret expr
    | _ => simple expr

/-! ## Programs -/

def param : Production Param := do
  let t ← current
  let name ← identifier
  let type ← typeName
  return ⟨t.position, name, type⟩

def method (bound : Nat) : Production Method := do
  let t ← current
  keyword .DEF
  let name ← identifier
  let params ← parenthesised param bound
  let returnType ← typeName
  keyword .DO
  let body ← block (statement bound) [.END] bound
  keyword .END
  return ⟨t.position, name, params, returnType, body⟩

/-- Fields, then methods, then the end of the input. -/
def program (bound : Nat) : Production Program := do
  let fields ← whileKeyword .LET (binding (expression bound)) bound
  let methods ← whileKeyword .DEF (method bound) bound
  let t ← current
  if t.kind == .endOfInput then return ⟨fields, methods⟩
  else if t.isKeyword .LET then reject fun _ => .fieldAfterMethod
  else expected .declaration

end Grammar

/-- Reads a tree from the front of a list of tokens; the tokens that are left come with it. -/
def Expr.ofTokens (tokens : List Token) : Except Diagnostic (Expr × List Token) :=
  (Grammar.expression tokens.length).run tokens

@[inherit_doc Expr.ofTokens]
def Stmt.ofTokens (tokens : List Token) : Except Diagnostic (Stmt × List Token) :=
  (Grammar.statement tokens.length).run tokens

/-- The program that a whole list of tokens denotes. -/
def Program.ofTokens (tokens : List Token) : Except Diagnostic Program :=
  (Grammar.program tokens.length).run' tokens

/-- The program that a text denotes. -/
def Program.parse (source : String) : Except Diagnostic Program := do
  Program.ofTokens (← Token.tokenize source)

end BlockScript
