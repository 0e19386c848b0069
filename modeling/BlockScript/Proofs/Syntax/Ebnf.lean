import BlockScript.Proofs.Syntax.Spelled

/-!
# The grammar of the language

The productions in extended Backus-Naur form, as data; which stretches of tokens they derive; and
the tree that a derivation stands for. Operations of one level are joined from the left.
-/

namespace BlockScript

inductive Terminal
  | keyword (word : Keyword)
  | operator (text : String)
  | identifier | integer | decimal | character | string

/-- A terminal is matched by a token of its own kind, whatever the text of other tokens. -/
def Terminal.Matches : Terminal → Token → Prop
  | keyword word, t => t.isKeyword word
  | operator text, t => t.isOperator text
  | identifier, t => t.kind = .identifier
  | integer, t => t.kind = .integer
  | decimal, t => t.kind = .decimal
  | character, t => t.kind = .character
  | string, t => t.kind = .string

inductive Nonterminal
  | source | field | method | param
  | stmt | decl | conditional | forLoop | whileLoop | ret
  | expr | logical | equality | additive | multiplicative | secondary | primary

/-- What is derived from a nonterminal. -/
def Nonterminal.Tree : Nonterminal → Type
  | source => Program
  | field | decl => Binding
  | method => Method
  | param => Param
  | stmt | conditional | forLoop | whileLoop | ret => Stmt
  | expr | logical | equality | additive | multiplicative | secondary | primary => Expr

/-- A right side in extended Backus-Naur form; `oneOf` is a choice of terminals. -/
inductive Ebnf
  | oneOf (terminals : List Terminal)
  | ref (n : Nonterminal)
  | seq (first second : Ebnf)
  | alt (first second : Ebnf)
  | opt (item : Ebnf)
  | star (item : Ebnf)

namespace Ebnf

/-- What is derived from a right side: its tokens, with the trees of nonterminals in their place. -/
def Val : Ebnf → Type
  | oneOf _ => Token
  | ref n => n.Tree
  | seq e f => e.Val × f.Val
  | alt e f => e.Val ⊕ f.Val
  | opt e => Option e.Val
  | star e => List e.Val

/-! ## Productions -/

def word (w : Keyword) : Ebnf := oneOf [.keyword w]

def mark (text : String) : Ebnf := oneOf [.operator text]

def name : Ebnf := oneOf [.identifier]

/-- `'(' (n (',' n)*)? ')'` -/
def list (n : Nonterminal) : Ebnf :=
  seq (mark "(") <| seq (opt (seq (ref n) (star (seq (mark ",") (ref n))))) (mark ")")

/-- `(':' identifier)?` -/
def typeName : Ebnf := opt (seq (mark ":") name)

/-- `('=' expr)?` -/
def initial : Ebnf := opt (seq (mark "=") (ref .expr))

/-- `stmt*` -/
def body : Ebnf := star (ref .stmt)

/-- `n (operator n)*` -/
def chain (n : Nonterminal) (operators : List Terminal) : Ebnf :=
  seq (ref n) (star (seq (oneOf operators) (ref n)))

/-- The right sides of the productions. -/
def rule : Nonterminal → Ebnf
  | .source => seq (star (ref .field)) (star (ref .method))
  | .field => seq (word .LET) <| seq name <| seq typeName <| seq initial (mark ";")
  | .method =>
    seq (word .DEF) <| seq name <| seq (list .param) <| seq typeName <| seq (word .DO) <|
      seq body (word .END)
  | .param => seq name typeName
  | .stmt =>
    alt (ref .decl) <| alt (ref .conditional) <| alt (ref .forLoop) <| alt (ref .whileLoop) <|
      alt (ref .ret) <| seq (ref .expr) <| seq initial (mark ";")
  | .decl => seq (word .LET) <| seq name <| seq typeName <| seq initial (mark ";")
  | .conditional =>
    seq (word .IF) <| seq (ref .expr) <| seq (word .DO) <| seq body <|
      seq (opt (seq (word .ELSE) body)) (word .END)
  | .forLoop =>
    seq (word .FOR) <| seq name <| seq (word .IN) <| seq (ref .expr) <| seq (word .DO) <|
      seq body (word .END)
  | .whileLoop => seq (word .WHILE) <| seq (ref .expr) <| seq (word .DO) <| seq body (word .END)
  | .ret => seq (word .RETURN) <| seq (ref .expr) (mark ";")
  | .expr => ref .logical
  | .logical => chain .equality [.keyword .AND, .keyword .OR]
  | .equality =>
    chain .additive
      [.operator "<", .operator "<=", .operator ">", .operator ">=", .operator "==", .operator "!="]
  | .additive => chain .multiplicative [.operator "+", .operator "-"]
  | .multiplicative => chain .secondary [.operator "*", .operator "/"]
  | .secondary => seq (ref .primary) (star (seq (mark ".") (seq name (opt (list .expr)))))
  | .primary =>
    alt (oneOf [.keyword .NIL, .keyword .TRUE, .keyword .FALSE, .integer, .decimal, .character,
      .string]) <|
    alt (seq name (opt (list .expr))) <|
      seq (mark "(") <| seq (ref .expr) (mark ")")

/-! ## Trees -/

/-- The items of a list in parentheses. -/
def items {α : Type} : Token × Option (α × List (Token × α)) × Token → List α
  | (_, none, _) => []
  | (_, some (x, xs), _) => x :: xs.map Prod.snd

/-- An operand that is joined to what stands before it by an operator. -/
def join (left : Expr) : Token × Expr → Expr
  | (t, right) => .binary left.position (.ofSpelling t.value) left right

/-- A member, or a call of a method if there are arguments, of what stands before it. -/
def select (receiver : Expr) :
    Token × Token × Option (Token × Option (Expr × List (Token × Expr)) × Token) → Expr
  | (_, id, none) => .member receiver.position receiver id.value
  | (_, id, some arguments) =>
    .methodCall receiver.position receiver id.value (items arguments)

/-- The constant that a token stands for. -/
def literal (t : Token) : Literal :=
  match t.kind with
  | .keyword .TRUE => .boolean true
  | .keyword .FALSE => .boolean false
  | .integer => .integer (Number.integer t.value.toList) t.raw
  | .decimal => .decimal (Decimal.ofNumeral t.value.toList) t.raw
  | .character => .character t.value
  | .string => .string t.value
  | _ => .nil

def binding : Token × Token × Option (Token × Token) × Option (Token × Expr) × Token → Binding
  | (t, id, type, value, _) =>
    ⟨t.position, id.value, type.map fun v => v.2.value, value.map Prod.snd⟩

/-- The tree of a production. -/
def tree : (n : Nonterminal) → (rule n).Val → n.Tree
  | .source, (fields, methods) => (⟨fields, methods⟩ : Program)
  | .field, v => binding v
  | .method, (t, id, params, type, _, body, _) =>
    (⟨t.position, id.value, items params, type.map fun v => v.2.value, body⟩ : Method)
  | .param, (id, type) => (⟨id.position, id.value, type.map fun v => v.2.value⟩ : Param)
  | .stmt, .inl b => Stmt.declare b
  | .stmt, .inr (.inl s) | .stmt, .inr (.inr (.inl s)) | .stmt, .inr (.inr (.inr (.inl s)))
  | .stmt, .inr (.inr (.inr (.inr (.inl s)))) => s
  | .stmt, .inr (.inr (.inr (.inr (.inr (e, none, _))))) => Stmt.expression e.position e
  | .stmt, .inr (.inr (.inr (.inr (.inr (e, some (_, value), _))))) =>
    Stmt.assign e.position e value
  | .decl, v => binding v
  | .conditional, (t, condition, _, thenBody, elseBody, _) =>
    Stmt.conditional t.position condition thenBody ((elseBody.map Prod.snd).getD [])
  | .forLoop, (t, id, _, iterable, _, body, _) => Stmt.forLoop t.position id.value iterable body
  | .whileLoop, (t, condition, _, body, _) => Stmt.whileLoop t.position condition body
  | .ret, (t, value, _) => Stmt.ret t.position value
  | .expr, e => e
  | .logical, (e, es) => es.foldl join e
  | .equality, (e, es) => es.foldl join e
  | .additive, (e, es) => es.foldl join e
  | .multiplicative, (e, es) => es.foldl join e
  | .secondary, (e, es) => es.foldl select e
  | .primary, .inl t => Expr.literal t.position (literal t)
  | .primary, .inr (.inl (id, none)) => Expr.name id.position id.value
  | .primary, .inr (.inl (id, some arguments)) =>
    Expr.call id.position id.value (items arguments)
  | .primary, .inr (.inr (t, e, _)) => Expr.group t.position e

/-! ## Derivations -/

/-- The tokens are derived from a right side, and the derivation stands for a value. -/
inductive Derives : (e : Ebnf) → e.Val → List Token → Prop
  | oneOf {terminals : List Terminal} {t : Token} (r : Terminal) (hr : r ∈ terminals)
    (h : r.Matches t) : Derives (.oneOf terminals) t [t]
  | ref {n : Nonterminal} {v : (rule n).Val} {ts : List Token} (h : Derives (rule n) v ts) :
    Derives (.ref n) (tree n v) ts
  | seq {e f : Ebnf} {v : e.Val} {w : f.Val} {ts us : List Token} (h : Derives e v ts)
    (h' : Derives f w us) : Derives (.seq e f) (v, w) (ts ++ us)
  | inl {e f : Ebnf} {v : e.Val} {ts : List Token} (h : Derives e v ts) :
    Derives (.alt e f) (.inl v) ts
  | inr {e f : Ebnf} {v : f.Val} {ts : List Token} (h : Derives f v ts) :
    Derives (.alt e f) (.inr v) ts
  | none {e : Ebnf} : Derives (.opt e) none []
  | some {e : Ebnf} {v : e.Val} {ts : List Token} (h : Derives e v ts) :
    Derives (.opt e) (some v) ts
  | nil {e : Ebnf} : Derives (.star e) [] []
  | cons {e : Ebnf} {v : e.Val} {vs : (star e).Val} {ts us : List Token} (h : Derives e v ts)
    (h' : Derives (.star e) vs us) : Derives (.star e) (v :: vs : List e.Val) (ts ++ us)

/-- The end of the input is part of nothing. -/
theorem Derives.kind_ne {e : Ebnf} {v : e.Val} {ts : List Token} (h : Derives e v ts) :
    ∀ t ∈ ts, t.kind ≠ .endOfInput := by
  induction h with
  | @oneOf terminals t r _ h =>
    simp only [List.forall_mem_singleton]
    intro hk
    cases r <;> simp [Terminal.Matches, Token.isKeyword, Token.isOperator, hk] at h
  | ref _ ih | inl _ ih | inr _ ih | some _ ih => exact ih
  | seq _ _ ih ih' | cons _ _ ih ih' => exact List.forall_mem_append.mpr ⟨ih, ih'⟩
  | none | nil => simp

/-! ## One production at a time -/

/-- The tokens match a right side, where `S` says what matches a nonterminal. -/
def Matches (S : (n : Nonterminal) → n.Tree → Phrase) : (e : Ebnf) → e.Val → Phrase
  | oneOf terminals, t => Phrase.one fun u => (∃ r ∈ terminals, r.Matches u) ∧ u = t
  | ref n, x => S n x
  | seq e f, v => (Matches S e v.1).followedBy (Matches S f v.2)
  | alt e _, .inl v => Matches S e v
  | alt _ f, .inr v => Matches S f v
  | opt _, none => Phrase.empty
  | opt e, some v => Matches S e v
  | star e, vs => Phrase.all (List.map (Matches S e) vs)

section

variable {S : (n : Nonterminal) → n.Tree → Phrase} {L : Token → Prop}

/-- What is true of the tree of each production, if it is true of the trees in it, is true of all
that is derived. -/
theorem Derives.matches
    (hS : ∀ n v ts, (∀ t ∈ ts, L t) → Matches S (rule n) v ts → S n (tree n v) ts) {e : Ebnf}
    {v : e.Val} {ts : List Token} (h : Derives e v ts) (hL : ∀ t ∈ ts, L t) : Matches S e v ts := by
  induction h with
  | oneOf r hr h => exact Phrase.one_singleton ⟨⟨r, hr, h⟩, rfl⟩
  | ref _ ih => exact hS _ _ _ hL (ih hL)
  | seq _ _ ih ih' =>
    obtain ⟨h₁, h₂⟩ := List.forall_mem_append.mp hL
    exact Phrase.followedBy_append (ih h₁) (ih' h₂)
  | inl _ ih | inr _ ih | some _ ih => exact ih hL
  | none | nil => exact rfl
  | cons _ _ ih ih' =>
    obtain ⟨h₁, h₂⟩ := List.forall_mem_append.mp hL
    exact Phrase.followedBy_append (ih h₁) (ih' h₂)

def isTerminal : Ebnf → Bool
  | oneOf _ => true
  | _ => false

/-- The nonterminals that all tokens of a right side may be derived from: no token of the right side
must stand before them. -/
def heads : Ebnf → List Nonterminal
  | oneOf _ => []
  | ref n => [n]
  | seq e f => e.heads ++ if e.isTerminal then [] else f.heads
  | alt e f => e.heads ++ f.heads
  | opt e | star e => e.heads

/-- How many productions may follow one another before a token must stand. -/
def rank : Nonterminal → Nat
  | .source => 1
  | .stmt => 7
  | .expr => 6
  | .logical => 5
  | .equality => 4
  | .additive => 3
  | .multiplicative => 2
  | .secondary => 1
  | _ => 0

theorem rank_of_heads (n : Nonterminal) : ∀ m ∈ (rule n).heads, rank m < rank n := by
  cases n <;> decide

theorem length_pos_of_isTerminal {e : Ebnf} {v : e.Val} {ts : List Token} (he : e.isTerminal)
    (h : Matches S e v ts) : 0 < ts.length := by
  cases e with
  | oneOf terminals =>
    obtain ⟨t, rfl, -⟩ := h
    exact Nat.one_pos
  | _ => cases he

theorem derives_star {e : Ebnf} {vs : List e.Val} {ts : List Token}
    (h : Phrase.all (vs.map (Matches S e)) ts)
    (he : ∀ v us, Matches S e v us → us.Sublist ts → Derives e v us) : Derives (.star e) vs ts := by
  induction vs generalizing ts with
  | nil =>
    obtain rfl : ts = [] := h
    exact .nil
  | cons v vs ih =>
    obtain ⟨us, ws, rfl, hv, hvs⟩ := h
    exact .cons (he v us hv (List.sublist_append_left us ws)) <|
      ih hvs fun v xs hv hxs => he v xs hv (hxs.trans (List.sublist_append_right us ws))

theorem derives_of_matches {e : Ebnf} {v : e.Val} {ts : List Token} (h : Matches S e v ts)
    (hS : ∀ n x us, S n x us → us.Sublist ts → us.length < ts.length ∨ n ∈ e.heads →
      Derives (.ref n) x us) : Derives e v ts := by
  induction e generalizing ts with
  | oneOf terminals =>
    obtain ⟨t, rfl, ⟨r, hr, ht⟩, rfl⟩ := h
    exact .oneOf r hr ht
  | ref n => exact hS n v ts h (List.Sublist.refl ts) (.inr (by simp [heads]))
  | seq e f ihe ihf =>
    obtain ⟨us, ws, rfl, he, hf⟩ := h
    simp only [heads, List.mem_append, List.length_append] at hS
    refine .seq (ihe he fun n x xs hx hxs hn => ?_) (ihf hf fun n x xs hx hxs hn => ?_)
    · exact hS n x xs hx (hxs.trans (List.sublist_append_left us ws)) (hn.imp (by omega) .inl)
    · refine hS n x xs hx (hxs.trans (List.sublist_append_right us ws)) ?_
      have hlength := hxs.length_le
      by_cases ht : e.isTerminal
      · have hpos := length_pos_of_isTerminal ht he
        exact .inl (by omega)
      · exact hn.imp (by omega) fun hn => .inr (by simpa [ht] using hn)
  | alt e f ihe ihf =>
    cases v with
    | inl v => exact .inl (ihe h fun n x us hx hus hn => hS n x us hx hus (by simp [heads]; tauto))
    | inr v => exact .inr (ihf h fun n x us hx hus hn => hS n x us hx hus (by simp [heads]; tauto))
  | opt e ih =>
    cases v with
    | none =>
      obtain rfl : ts = [] := h
      exact .none
    | some v => exact .some (ih h hS)
  | star e ih =>
    exact derives_star h fun v us hv hus => ih hv fun n x ws hx hws hn =>
      hS n x ws hx (hws.trans hus) (hn.imp_left fun hlt => Nat.lt_of_lt_of_le hlt hus.length_le)

/-- What each production can be taken apart into, down to tokens, is derived. -/
theorem derives_of
    (hS : ∀ n x ts, (∀ t ∈ ts, L t) → S n x ts → ∃ v, tree n v = x ∧ Matches S (rule n) v ts)
    (n : Nonterminal) (x : n.Tree) (ts : List Token) (hL : ∀ t ∈ ts, L t) (h : S n x ts) :
    Derives (.ref n) x ts := by
  obtain ⟨v, rfl, hv⟩ := hS n x ts hL h
  refine .ref (derives_of_matches hv fun m y us hy hus hm => ?_)
  exact derives_of hS m y us (fun t ht => hL t (hus.subset ht)) hy
termination_by (ts.length, rank n)
decreasing_by
  -- Fewer tokens, or the same tokens for a nonterminal that stands at the head.
  rcases Nat.lt_or_eq_of_le hus.length_le with hlt | heq
  · exact .left _ _ hlt
  · rw [heq]
    exact .right _ (rank_of_heads n m (hm.resolve_left (by omega)))

end

end Ebnf

end BlockScript
