import BlockScript.Proofs.Syntax.DerivationProgram

/-!
# Places of nodes

The tokens of a program are those of its nodes, one within the other. Which ones belong to a node
depends on the words between its parts and not on any place, and no node can be given other tokens;
the place that the parser has noted in it is that of the first.
-/

namespace BlockScript

open Phrase

/-- What has a place in a text. -/
inductive Node
  | field (b : Binding)
  | method (m : Method)
  | param (p : Param)
  | statement (s : Stmt)
  | expression (e : Expr)

/-- What a node is made of: words, and the nodes between them. -/
inductive Piece
  | word (R : Token → Prop)
  | node (x : Node)
  /-- The end of an IF that has nothing to do otherwise, said by END or by ELSE and END. -/
  | bareEnd

namespace Piece

def keyword (word : Keyword) : Piece := .word (·.isKeyword word)

def sign (text : String) : Piece := .word (·.isOperator text)

def identifier (id : String) : Piece := .word fun t => t.kind = .identifier ∧ t.value = id

def typeName : Option String → List Piece
  | some type => [sign ":", identifier type]
  | none => []

def initial : Option Expr → List Piece
  | some e => [sign "=", node (.expression e)]
  | none => []

def commas : List Node → List Piece
  | [] => []
  | x :: xs => sign "," :: node x :: commas xs

def parenthesised : List Node → List Piece
  | [] => [sign "(", sign ")"]
  | x :: xs => sign "(" :: node x :: (commas xs ++ [sign ")"])

def block (ss : List Stmt) : List Piece := ss.map fun s => node (.statement s)

def alternative : List Stmt → List Piece
  | [] => [bareEnd]
  | s :: ss => keyword .ELSE :: (block (s :: ss) ++ [keyword .END])

def binding (b : Binding) : List Piece :=
  keyword .LET :: identifier b.name :: (typeName b.type ++ (initial b.value ++ [sign ";"]))

def statement : Stmt → List Piece
  | .expression _ value => [node (.expression value), sign ";"]
  | .declare b => binding b
  | .assign _ target value =>
    [node (.expression target), sign "=", node (.expression value), sign ";"]
  | .conditional _ condition thenBody elseBody =>
    keyword .IF :: node (.expression condition) :: keyword .DO ::
      (block thenBody ++ alternative elseBody)
  | .forLoop _ name iterable body =>
    keyword .FOR :: identifier name :: keyword .IN :: node (.expression iterable) ::
      keyword .DO :: (block body ++ [keyword .END])
  | .whileLoop _ condition body =>
    keyword .WHILE :: node (.expression condition) :: keyword .DO :: (block body ++ [keyword .END])
  | .ret _ value => [keyword .RETURN, node (.expression value), sign ";"]
  | .unknown .. => [.word fun _ => False]

def expression : Expr → List Piece
  | .literal _ value => [.word fun t => Grammar.literal? t = some value]
  | .group _ inner => [sign "(", node (.expression inner), sign ")"]
  | .binary _ op left right =>
    [node (.expression left), .word fun t => Grammar.operatorAt op.strength t = some op,
      node (.expression right)]
  | .name _ id => [identifier id]
  | .member _ receiver id => [node (.expression receiver), sign ".", identifier id]
  | .call _ id arguments => identifier id :: parenthesised (arguments.map .expression)
  | .methodCall _ receiver id arguments =>
    node (.expression receiver) :: sign "." :: identifier id ::
      parenthesised (arguments.map .expression)
  | .unknown .. => [.word fun _ => False]

end Piece

namespace Node

def position : Node → Position
  | field b => b.position
  | method m => m.position
  | param p => p.position
  | statement s => s.position
  | expression e => e.position

/-- The pieces of a node, whatever its place. -/
def pieces : Node → List Piece
  | field b => Piece.binding b
  | method m =>
    .keyword .DEF :: .identifier m.name :: (Piece.parenthesised (m.params.map param) ++
      (Piece.typeName m.returnType ++ (.keyword .DO :: (Piece.block m.body ++ [.keyword .END]))))
  | param p => .identifier p.name :: Piece.typeName p.type
  | statement s => Piece.statement s
  | expression e => Piece.expression e

/-- The nodes that a node consists of. -/
def children : Node → List Node
  | field b | statement (.declare b) => b.value.toList.map expression
  | method m => m.params.map param ++ m.body.map statement
  | param _ | statement (.unknown ..) => []
  | statement (.expression _ e) | statement (.ret _ e) => [expression e]
  | statement (.assign _ target value) => [expression target, expression value]
  | statement (.conditional _ condition thenBody elseBody) =>
    expression condition :: (thenBody ++ elseBody).map statement
  | statement (.forLoop _ _ e body) | statement (.whileLoop _ e body) =>
    expression e :: body.map statement
  | expression (.group _ e) | expression (.member _ e _) => [expression e]
  | expression (.binary _ _ left right) => [expression left, expression right]
  | expression (.call _ _ arguments) => arguments.map expression
  | expression (.methodCall _ receiver _ arguments) =>
    expression receiver :: arguments.map expression
  | expression (.literal ..) | expression (.name ..) | expression (.unknown ..) => []

end Node

/-- The nodes of a program. -/
inductive Program.Has (p : Program) : Node → Prop
  | field {b} (h : b ∈ p.fields) : Has p (.field b)
  | method {m} (h : m ∈ p.methods) : Has p (.method m)
  | child {x y} (hx : Has p x) (h : y ∈ x.children) : Has p y

def Program.pieces (p : Program) : List Piece :=
  p.fields.map (fun b => .node (.field b)) ++ p.methods.map fun m => .node (.method m)

/-- A node with the tokens that it was read from. -/
abbrev Span := Node × List Token

/-- Pieces one after another with their tokens, and each node among and within them with its own. -/
inductive Row : List Piece → List Token → List Span → Prop
  | nil : Row [] [] []
  | word {R t ps ts spans} (ht : R t) (h : Row ps ts spans) : Row (.word R :: ps) (t :: ts) spans
  | shut {t ps ts spans} (ht : t.isKeyword .END) (h : Row ps ts spans) :
    Row (.bareEnd :: ps) (t :: ts) spans
  | otherwise {t u ps ts spans} (ht : t.isKeyword .ELSE) (hu : u.isKeyword .END)
    (h : Row ps ts spans) : Row (.bareEnd :: ps) (t :: u :: ts) spans
  | node {x us inner ps ts spans} (hx : Row x.pieces us inner) (h : Row ps ts spans) :
    Row (.node x :: ps) (us ++ ts) ((x, us) :: (inner ++ spans))

/-- The place of a node is that of its first token. -/
def Span.Placed (span : Span) : Prop :=
  ∃ t ts, span.2 = t :: ts ∧ t.position = span.1.position

/-- The operand that an expression begins with. -/
def Expr.leftmost : Expr → Expr
  | .binary _ _ e _ | .member _ e _ | .methodCall _ e _ _ => e.leftmost
  | e => e

/-- The tokens of the nodes of a program, and the places of the nodes. -/
structure Program.Placed (p : Program) (ts : List Token) (spans : List Span) : Prop where
  row : Row p.pieces ts spans
  only : ∀ spans', Row p.pieces ts spans' → spans' = spans
  every : ∀ x, p.Has x → ∃ us, (x, us) ∈ spans
  placed : ∀ span ∈ spans, span.Placed
  leftmost : ∀ e us, (.expression e, us) ∈ spans → ∃ vs ws, us = vs ++ ws ∧
    (.expression e.leftmost, vs) ∈ spans ∧ e.position = e.leftmost.position
  group : ∀ pos inner us, (.expression (.group pos inner), us) ∈ spans →
    ∃ t vs, us = t :: vs ∧ t.isOperator "(" ∧ t.position = pos

/-! ## Rows -/

namespace Row

variable {ps qs : List Piece} {ts us vs ws : List Token} {spans spans' : List Span} {x : Node}

theorem append (h : Row ps ts spans) (h' : Row qs us spans') :
    Row (ps ++ qs) (ts ++ us) (spans ++ spans') := by
  induction h with
  | nil => exact h'
  | word ht _ ih => exact ih.word ht
  | shut ht _ ih => exact ih.shut ht
  | otherwise ht hu _ ih => exact ih.otherwise ht hu
  | node hx _ _ ih =>
    simpa only [List.cons_append, List.append_assoc] using Row.node hx ih

/-- The words say where each piece ends, whatever comes after them. -/
theorem unique (h : Row ps ts spans) (h' : Row ps us spans') (he : ts ++ vs = us ++ ws) :
    ts = us ∧ spans = spans' := by
  induction h generalizing us vs ws spans' with
  | nil =>
    cases h'
    exact ⟨rfl, rfl⟩
  | word ht _ ih =>
    cases h' with
    | word ht' h' =>
      simp only [List.cons_append, List.cons.injEq] at he
      obtain ⟨rfl, he⟩ := he
      obtain ⟨rfl, rfl⟩ := ih h' he
      exact ⟨rfl, rfl⟩
  | shut ht _ ih =>
    cases h' with
    | shut ht' h' =>
      simp only [List.cons_append, List.cons.injEq] at he
      obtain ⟨rfl, he⟩ := he
      obtain ⟨rfl, rfl⟩ := ih h' he
      exact ⟨rfl, rfl⟩
    | otherwise ht' =>
      obtain ⟨rfl, -⟩ := List.cons.inj he
      simp_all [Token.isKeyword]
  | otherwise ht hu _ ih =>
    cases h' with
    | shut ht' =>
      obtain ⟨rfl, -⟩ := List.cons.inj he
      simp_all [Token.isKeyword]
    | otherwise ht' hu' h' =>
      simp only [List.cons_append, List.cons.injEq] at he
      obtain ⟨rfl, rfl, he⟩ := he
      obtain ⟨rfl, rfl⟩ := ih h' he
      exact ⟨rfl, rfl⟩
  | node _ _ ihx ih =>
    cases h' with
    | node hx' h' =>
      rw [List.append_assoc, List.append_assoc] at he
      obtain ⟨rfl, rfl⟩ := ihx hx' he
      obtain ⟨rfl, rfl⟩ := ih h' (List.append_cancel_left he)
      exact ⟨rfl, rfl⟩

/-- Each node has its tokens in a row of its own. -/
theorem of_mem (h : Row ps ts spans) (hx : (x, us) ∈ spans) :
    ∃ inner, Row x.pieces us inner ∧ ∀ span ∈ inner, span ∈ spans := by
  induction h with
  | nil => exact absurd hx List.not_mem_nil
  | word _ _ ih | shut _ _ ih | otherwise _ _ _ ih => exact ih hx
  | @node y us' inner _ _ spans hy _ ihy ih =>
    rcases List.mem_cons.mp hx with he | hmem
    · cases he
      exact ⟨inner, hy, fun span hs => by simp [hs]⟩
    · rcases List.mem_append.mp hmem with hmem | hmem
      · obtain ⟨inner', hrow, hsub⟩ := ihy hmem
        exact ⟨inner', hrow, fun span hs => by simp [hsub span hs]⟩
      · obtain ⟨inner', hrow, hsub⟩ := ih hmem
        exact ⟨inner', hrow, fun span hs => by simp [hsub span hs]⟩

theorem head (h : Row (.node x :: ps) ts spans) : ∃ us vs, ts = us ++ vs ∧ (x, us) ∈ spans := by
  cases h with
  | @node _ us _ _ vs => exact ⟨us, vs, rfl, List.mem_cons_self⟩

theorem mem_of_node (h : Row ps ts spans) (hx : .node x ∈ ps) : ∃ us, (x, us) ∈ spans := by
  induction h with
  | nil => exact absurd hx List.not_mem_nil
  | word _ _ ih | shut _ _ ih | otherwise _ _ _ ih => exact ih (by simpa using hx)
  | node _ _ _ ih =>
    rcases List.mem_cons.mp hx with he | hmem
    · cases he
      exact ⟨_, List.mem_cons_self⟩
    · obtain ⟨us, hus⟩ := ih hmem
      exact ⟨us, by simp [hus]⟩

end Row

/-! ## Parts of nodes -/

namespace Piece

variable {x : Node} {xs : List Node} {ss : List Stmt}

theorem mem_commas (h : x ∈ xs) : node x ∈ commas xs := by
  induction xs with
  | nil => exact absurd h List.not_mem_nil
  | cons y ys ih =>
    rcases List.mem_cons.mp h with rfl | h
    · simp [commas]
    · simp [commas, ih h]

theorem mem_parenthesised (h : x ∈ xs) : node x ∈ parenthesised xs := by
  cases xs with
  | nil => exact absurd h List.not_mem_nil
  | cons y ys =>
    rcases List.mem_cons.mp h with rfl | h
    · simp [parenthesised]
    · simp [parenthesised, mem_commas h]

theorem mem_block (h : x ∈ ss.map Node.statement) : node x ∈ block ss := by
  obtain ⟨s, hs, rfl⟩ := List.mem_map.mp h
  exact List.mem_map_of_mem hs

theorem mem_alternative (h : x ∈ ss.map Node.statement) : node x ∈ alternative ss := by
  cases ss with
  | nil => exact absurd h List.not_mem_nil
  | cons s ss => exact List.mem_cons_of_mem _ (List.mem_append_left _ (mem_block h))

theorem mem_binding {b : Binding} (h : x ∈ b.value.toList.map Node.expression) :
    node x ∈ binding b := by
  obtain ⟨p, name, type, _ | e⟩ := b
  · exact absurd h List.not_mem_nil
  · obtain rfl := List.mem_singleton.mp h
    simp [binding, initial]

end Piece

open Piece in
theorem Node.mem_pieces {x y : Node} (h : y ∈ x.children) : .node y ∈ x.pieces := by
  cases x with
  | field b => exact mem_binding h
  | method m =>
    rcases List.mem_append.mp h with h | h
    · simp [pieces, mem_parenthesised h]
    · simp [pieces, mem_block h]
  | param p => exact absurd h List.not_mem_nil
  | statement s =>
    cases s with
    | declare b => exact mem_binding h
    | assign p target value =>
      rcases List.mem_cons.mp h with rfl | h
      · simp [pieces, Piece.statement]
      · obtain rfl := List.mem_singleton.mp h
        simp [pieces, Piece.statement]
    | conditional p condition thenBody elseBody =>
      rcases List.mem_cons.mp h with rfl | h
      · simp [pieces, Piece.statement]
      · rw [List.map_append] at h
        rcases List.mem_append.mp h with h | h
        · simp [pieces, Piece.statement, mem_block h]
        · simp [pieces, Piece.statement, mem_alternative h]
    | forLoop p name e body | whileLoop p e body =>
      rcases List.mem_cons.mp h with rfl | h
      · simp [pieces, Piece.statement]
      · simp [pieces, Piece.statement, mem_block h]
    | _ => simp_all [children, pieces, Piece.statement]
  | expression e =>
    cases e with
    | call p id arguments => exact List.mem_cons_of_mem _ (mem_parenthesised h)
    | methodCall p receiver id arguments =>
      rcases List.mem_cons.mp h with rfl | h
      · simp [pieces, Piece.expression]
      · simp [pieces, Piece.expression, mem_parenthesised h]
    | _ => simp_all [children, pieces, Piece.expression]

/-! ## Rows of spelled trees -/

/-- The tokens are those of the pieces, and each node among and within them has its place. -/
def Laid (ps : List Piece) (ts : List Token) : Prop :=
  ∃ spans, Row ps ts spans ∧ ∀ span ∈ spans, span.Placed

/-- What is a phrase is laid out in pieces. -/
def Phrase.Lays (P : Phrase) (ps : List Piece) : Prop := ∀ ts, P ts → Laid ps ts

namespace Phrase

variable {P Q : Phrase} {ps qs : List Piece} {α : Type} {f : α → Phrase} {g : α → Node}
  {xs : List α}

theorem lays_empty : empty.Lays [] := by
  rintro _ rfl
  exact ⟨[], .nil, by simp⟩

theorem lays_one {R S : Token → Prop} (hRS : ∀ t, R t → S t) : (one R).Lays [.word S] := by
  rintro _ ⟨t, rfl, ht⟩
  exact ⟨[], .word (hRS t ht) .nil, by simp⟩

theorem Lays.followedBy (hP : P.Lays ps) (hQ : Q.Lays qs) : (P.followedBy Q).Lays (ps ++ qs) := by
  rintro _ ⟨us, vs, rfl, hus, hvs⟩
  obtain ⟨spans, hrow, hplaced⟩ := hP us hus
  obtain ⟨spans', hrow', hplaced'⟩ := hQ vs hvs
  exact ⟨spans ++ spans', hrow.append hrow', List.forall_mem_append.mpr ⟨hplaced, hplaced'⟩⟩

theorem Lays.mono (hQ : Q.Lays ps) (h : ∀ ts, P ts → Q ts) : P.Lays ps :=
  fun ts hts => hQ ts (h ts hts)

theorem Lays.node {x : Node} (hP : P.Lays x.pieces) (hplace : ∀ ts, P ts → Span.Placed (x, ts)) :
    P.Lays [.node x] := by
  intro ts hts
  obtain ⟨inner, hrow, hplaced⟩ := hP ts hts
  refine ⟨[(x, ts)] ++ inner, by simpa using hrow.node .nil, ?_⟩
  exact List.forall_mem_cons.mpr ⟨hplace ts hts, hplaced⟩

theorem lays_keyword (word : Keyword) : (keyword word).Lays [.keyword word] := lays_one fun _ => id

theorem lays_operator (text : String) : (operator text).Lays [.sign text] := lays_one fun _ => id

theorem lays_identifier (id : String) : (identifier id).Lays [.identifier id] :=
  lays_one fun _ h => h

theorem lays_keywordAt (p : Position) (word : Keyword) :
    (keywordAt p word).Lays [.keyword word] := lays_one fun _ => And.left

theorem lays_identifierAt (p : Position) (id : String) :
    (identifierAt p id).Lays [.identifier id] := lays_one fun _ => And.left

theorem lays_typeName (type : Option String) : (typeName type).Lays (Piece.typeName type) := by
  cases type with
  | none => exact lays_empty
  | some type => exact (lays_operator ":").followedBy (lays_identifier type)

theorem lays_all (h : ∀ x ∈ xs, (f x).Lays [.node (g x)]) :
    (all (xs.map f)).Lays (xs.map fun x => .node (g x)) := by
  induction xs with
  | nil => exact lays_empty
  | cons x xs ih =>
    obtain ⟨hx, hxs⟩ := List.forall_mem_cons.mp h
    exact hx.followedBy (ih hxs)

theorem lays_commas (h : ∀ x ∈ xs, (f x).Lays [.node (g x)]) :
    (commas (xs.map f)).Lays (Piece.commas (xs.map g)) := by
  induction xs with
  | nil => exact lays_empty
  | cons x xs ih =>
    obtain ⟨hx, hxs⟩ := List.forall_mem_cons.mp h
    exact (lays_operator ",").followedBy (hx.followedBy (ih hxs))

theorem lays_parenthesised (h : ∀ x ∈ xs, (f x).Lays [.node (g x)]) :
    (parenthesised (xs.map f)).Lays (Piece.parenthesised (xs.map g)) := by
  cases xs with
  | nil => exact (lays_operator "(").followedBy (lays_operator ")")
  | cons x xs =>
    obtain ⟨hx, hxs⟩ := List.forall_mem_cons.mp h
    exact (lays_operator "(").followedBy
      (hx.followedBy ((lays_commas hxs).followedBy (lays_operator ")")))

/-- A phrase that begins with one token has its place. -/
theorem placed_of_one {R : Token → Prop} {x : Node} {ts : List Token}
    (h : (one R).followedBy Q ts) (hR : ∀ t, R t → t.position = x.position) :
    Span.Placed (x, ts) := by
  obtain ⟨_, us, rfl, ⟨t, rfl, ht⟩, -⟩ := h
  exact ⟨t, us, rfl, hR t ht⟩

/-- A phrase that begins with an expression has its place. -/
theorem placed_of_expression {e : Expr} {x : Node} {ts : List Token}
    (h : (e.Spelled).followedBy Q ts) (hx : e.position = x.position) : Span.Placed (x, ts) := by
  obtain ⟨us, vs, rfl, he, -⟩ := h
  obtain ⟨t, us, rfl, ht⟩ := e.cons_of_spelled he
  exact ⟨t, us ++ vs, rfl, ht.trans hx⟩

end Phrase

namespace Expr

theorem lays_node {e : Expr} (h : e.Spelled.Lays (Piece.expression e)) :
    e.Spelled.Lays [.node (.expression e)] :=
  Lays.node h fun _ he => cons_of_spelled he

theorem lays (e : Expr) : e.Spelled.Lays [.node (.expression e)] := by
  refine lays_node ?_
  induction e with
  | literal p value => exact lays_one fun _ => And.left
  | group p inner ih =>
    exact (lays_one fun _ => And.left).followedBy ((lays_node ih).followedBy (lays_operator ")"))
  | binary p op left right ihl ihr =>
    exact ((lays_node ihl).followedBy
      ((lays_one fun _ => id).followedBy (lays_node ihr))).mono fun _ => And.left
  | name p id => exact lays_identifierAt p id
  | member p receiver id ih =>
    exact ((lays_node ih).followedBy
      ((lays_operator ".").followedBy (lays_identifier id))).mono fun _ => And.left
  | call p id arguments ih =>
    rw [Spelled, spellings_eq_map]
    exact (lays_identifierAt p id).followedBy
      (lays_parenthesised fun e he => lays_node (ih e he))
  | methodCall p receiver id arguments ihr ih =>
    rw [Spelled, spellings_eq_map]
    exact ((lays_node ihr).followedBy ((lays_operator ".").followedBy
      ((lays_identifier id).followedBy
        (lays_parenthesised fun e he => lays_node (ih e he))))).mono fun _ => And.left
  | unknown => exact fun _ h => h.elim

end Expr

theorem Binding.lays (b : Binding) : b.Spelled.Lays (Piece.binding b) := by
  have hinitial : (initial (b.value.map Expr.Spelled)).Lays (Piece.initial b.value) := by
    cases b.value with
    | none => exact lays_empty
    | some e => exact (lays_operator "=").followedBy e.lays
  exact (lays_keywordAt _ .LET).followedBy ((lays_identifier b.name).followedBy
    ((lays_typeName b.type).followedBy (hinitial.followedBy (lays_operator ";"))))

theorem Binding.lays_field (b : Binding) : b.Spelled.Lays [.node (.field b)] :=
  Lays.node b.lays fun _ h => placed_of_one h fun _ => And.right

namespace Stmt

theorem placed_of_spelled {s : Stmt} {ts : List Token} (h : s.Spelled ts) :
    Span.Placed (.statement s, ts) := by
  cases s with
  | expression p value => exact placed_of_expression h.1 h.2.symm
  | assign p target value => exact placed_of_expression h.1 h.2.symm
  | unknown => exact h.elim
  | _ => exact placed_of_one h fun _ => And.right

theorem lays_node {s : Stmt} (h : s.Spelled.Lays (Piece.statement s)) :
    s.Spelled.Lays [.node (.statement s)] :=
  Lays.node h fun _ => placed_of_spelled

theorem lays_block {ss : List Stmt} (h : ∀ s ∈ ss, s.Spelled.Lays (Piece.statement s)) :
    (all (spellings ss)).Lays (Piece.block ss) := by
  rw [spellings_eq_map]
  exact lays_all fun s hs => lays_node (h s hs)

theorem lays_alternative {ss : List Stmt} (h : ∀ s ∈ ss, s.Spelled.Lays (Piece.statement s)) :
    (alternative (ss = []) (all (spellings ss))).Lays (Piece.alternative ss) := by
  cases ss with
  | nil =>
    rintro _ (⟨-, t, rfl, ht⟩ | ⟨_, _, rfl, ⟨t, rfl, ht⟩, _, _, rfl, rfl, u, rfl, hu⟩)
    · exact ⟨[], .shut ht .nil, by simp⟩
    · exact ⟨[], .otherwise ht hu .nil, by simp⟩
  | cons s ss =>
    rintro ts (⟨hnil, -⟩ | hts)
    · cases hnil
    · exact (lays_keyword .ELSE).followedBy ((lays_block h).followedBy (lays_keyword .END)) ts hts

theorem lays (s : Stmt) : s.Spelled.Lays (Piece.statement s) := by
  induction s with
  | expression p value => exact (value.lays.followedBy (lays_operator ";")).mono fun _ => And.left
  | declare b => exact b.lays
  | assign p target value =>
    exact (target.lays.followedBy ((lays_operator "=").followedBy
      (value.lays.followedBy (lays_operator ";")))).mono fun _ => And.left
  | conditional p condition thenBody elseBody iht ihe =>
    exact (lays_keywordAt p .IF).followedBy (condition.lays.followedBy
      ((lays_keyword .DO).followedBy ((lays_block iht).followedBy (lays_alternative ihe))))
  | forLoop p name iterable body ih =>
    exact (lays_keywordAt p .FOR).followedBy ((lays_identifier name).followedBy
      ((lays_keyword .IN).followedBy (iterable.lays.followedBy ((lays_keyword .DO).followedBy
        ((lays_block ih).followedBy (lays_keyword .END))))))
  | whileLoop p condition body ih =>
    exact (lays_keywordAt p .WHILE).followedBy (condition.lays.followedBy
      ((lays_keyword .DO).followedBy ((lays_block ih).followedBy (lays_keyword .END))))
  | ret p value =>
    exact (lays_keywordAt p .RETURN).followedBy (value.lays.followedBy (lays_operator ";"))
  | unknown => exact fun _ h => h.elim

end Stmt

theorem Param.lays (p : Param) : p.Spelled.Lays [.node (.param p)] :=
  Lays.node ((lays_identifierAt _ p.name).followedBy (lays_typeName p.type))
    fun _ h => placed_of_one h fun _ => And.right

theorem Method.lays (m : Method) : m.Spelled.Lays [.node (.method m)] := by
  refine Lays.node ?_ fun _ h => placed_of_one h fun _ => And.right
  exact (lays_keywordAt _ .DEF).followedBy ((lays_identifier m.name).followedBy
    ((lays_parenthesised fun p _ => p.lays).followedBy ((lays_typeName m.returnType).followedBy
      ((lays_keyword .DO).followedBy ((Stmt.lays_block fun s _ => s.lays).followedBy
        (lays_keyword .END))))))

/-! ## Programs -/

/-- An expression begins with its leftmost operand. -/
theorem Row.leftmost {ps : List Piece} {ts us : List Token} {spans : List Span} {e : Expr}
    (h : Row ps ts spans) (he : (.expression e, us) ∈ spans) :
    ∃ vs ws, us = vs ++ ws ∧ (.expression e.leftmost, vs) ∈ spans := by
  obtain ⟨inner, hrow, hsub⟩ := h.of_mem he
  induction e generalizing us inner with
  | binary p op left right ih | member p left id ih | methodCall p left id arguments ih =>
    have hrow : Row (.node (.expression left) :: _) us inner := hrow
    obtain ⟨vs, ws, rfl, hleft⟩ := hrow.head
    obtain ⟨inner', hrow', hsub'⟩ := h.of_mem (hsub _ hleft)
    obtain ⟨vs, ws', rfl, hleftmost⟩ := ih (hsub _ hleft) inner' hrow' hsub'
    exact ⟨vs, ws' ++ ws, List.append_assoc .., hleftmost⟩
  | _ => exact ⟨us, [], (List.append_nil us).symm, he⟩

namespace Program

theorem lays (p : Program) : p.Spelled.Lays p.pieces :=
  Lays.followedBy (lays_all fun (b : Binding) _ => b.lays_field)
    (lays_all fun (m : Method) _ => m.lays)

theorem Has.exists_span {p : Program} {ts : List Token} {spans : List Span} {x : Node}
    (h : p.Has x) (hrow : Row p.pieces ts spans) : ∃ us, (x, us) ∈ spans := by
  induction h with
  | field hb => exact hrow.mem_of_node (List.mem_append_left _ (List.mem_map_of_mem hb))
  | method hm => exact hrow.mem_of_node (List.mem_append_right _ (List.mem_map_of_mem hm))
  | child _ hy ih =>
    obtain ⟨us, hx⟩ := ih
    obtain ⟨inner, hinner, hsub⟩ := hrow.of_mem hx
    obtain ⟨vs, hvs⟩ := hinner.mem_of_node (Node.mem_pieces hy)
    exact ⟨vs, hsub _ hvs⟩

theorem placed_of_spelled {p : Program} {ts : List Token} (h : p.Spelled ts) :
    ∃ spans, p.Placed ts spans := by
  obtain ⟨spans, hrow, hplaced⟩ := p.lays ts h
  refine ⟨spans, hrow, fun spans' hrow' => ?_, fun x hx => hx.exists_span hrow, hplaced,
    fun e us he => ?_, fun pos inner us he => ?_⟩
  · have hsame : ts ++ [] = ts ++ [] := rfl
    exact (hrow'.unique hrow hsame).2
  · obtain ⟨vs, ws, rfl, hleft⟩ := hrow.leftmost he
    obtain ⟨t, rest, rfl, ht⟩ := hplaced _ hleft
    obtain ⟨u, rest', hus, hu⟩ := hplaced _ he
    obtain ⟨rfl, -⟩ := List.cons.inj hus
    exact ⟨_, ws, rfl, hleft, hu.symm.trans ht⟩
  · obtain ⟨_, hpieces, -⟩ := hrow.of_mem he
    obtain ⟨t, rest, rfl, ht⟩ := hplaced _ he
    cases hpieces with
    | word hparen => exact ⟨t, rest, rfl, hparen, ht⟩

/-- In what the parser reads from a text, every node has the place of the first token that belongs
to it. -/
theorem places_of_parse {text : String} {p : Program} (h : parse text = .ok p) :
    ∃ ts eof spans, Token.tokenize text = .ok (ts ++ [eof]) ∧ eof.kind = .endOfInput ∧
      p.Placed ts spans := by
  obtain ⟨ts, eof, hts, heof, hderives⟩ := parse_iff_derives.mp h
  have hscans := Token.tokenize_eq_ok_iff.mp hts
  have hlex : ∀ t ∈ ts, t.Lexical := fun t ht => hscans.lexical t (by simp [ht])
  obtain ⟨spans, hplaced⟩ := placed_of_spelled ((Ebnf.derives_iff hlex).mp hderives).1
  exact ⟨ts, eof, spans, hts, heof, hplaced⟩

/-- The operations have the place of the parenthesis, and so has the method call. -/
theorem places_of_parse_group : ∃ p ts eof spans,
    parse "LET x = (a.b - 1).c(2) - 3 - 4;" = .ok p ∧
      Token.tokenize "LET x = (a.b - 1).c(2) - 3 - 4;" = .ok (ts ++ [eof]) ∧
        eof.kind = .endOfInput ∧ p.Placed ts spans := by
  have hok : (parse "LET x = (a.b - 1).c(2) - 3 - 4;").isOk := by decide +kernel
  obtain ⟨p, hp⟩ := exists_of_isOk hok
  obtain ⟨ts, eof, spans, h⟩ := places_of_parse hp
  exact ⟨p, ts, eof, spans, hp, h⟩

end Program

end BlockScript
