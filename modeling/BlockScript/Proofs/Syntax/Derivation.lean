import BlockScript.Proofs.Syntax.Ebnf
import BlockScript.Proofs.Syntax.RecognitionProgram

/-!
# Derivations of expressions

What is derived from each nonterminal, said by the shape of its trees, and that the productions of
expressions agree with it: each level of operations, the members of a receiver, and the operands.
-/

namespace BlockScript

def Expr.isSelection : Expr → Bool
  | member .. | methodCall .. => true
  | _ => false

namespace Operator

theorem ofSpelling_spelling {op : Operator} (h : op ∈ known) : ofSpelling op.spelling = op := by
  have hknown : ∀ op ∈ known, ofSpelling op.spelling = op := by decide
  exact hknown op h

theorem spelling_ofSpelling (text : String) : (ofSpelling text).spelling = text := by
  unfold ofSpelling
  cases h : known.find? (·.spelling == text) with
  | none => rfl
  | some op => simpa using List.find?_some h

/-- How an operator is written. -/
def terminal : Operator → Terminal
  | and => .keyword .AND
  | or => .keyword .OR
  | op => .operator op.spelling

/-- Among the tokens that can be made from a text, an operator is written by those that say it. -/
theorem terminal_matches {op : Operator} {t : Token} (hop : op ∈ known) (ht : t.Lexical) :
    op.terminal.Matches t ↔
      (t.kind = .operator ∨ ∃ w, t.kind = .keyword w) ∧ t.value = op.spelling := by
  have hne : ∀ s, op ≠ unknown s := by
    rintro s rfl
    simp [known] at hop
  cases hk : t.kind with
  | keyword w =>
    simp only [Token.Lexical, hk] at ht
    cases op <;> cases w <;>
      simp_all [terminal, Terminal.Matches, Token.isKeyword, Token.isOperator, spelling,
        Keyword.spelling]
  | operator =>
    simp only [Token.Lexical, hk] at ht
    have hword : ∀ word ∈ ["AND", "OR"], t.value ≠ word := by
      intro word hword hv
      rw [hv] at ht
      simp only [List.mem_cons, List.not_mem_nil, or_false] at hword
      rcases hword with rfl | rfl <;> simp [Token.isLetter] at ht
    cases op <;> simp_all [terminal, Terminal.Matches, Token.isKeyword, Token.isOperator, spelling]
  | _ => cases op <;> simp [terminal, Terminal.Matches, Token.isKeyword, Token.isOperator, hk]

end Operator

theorem Grammar.operatorAt_eq_some_iff {k : Nat} {t : Token} {op : Operator} (ht : t.Lexical) :
    operatorAt k t = some op ↔
      op ∈ Operator.known ∧ op.precedence? = some k ∧ op.terminal.Matches t := by
  constructor
  · intro h
    have hop := (Operator.mem_known_of_operatorAt h).1
    have hv := ofSpelling_of_operatorAt h
    rw [Operator.terminal_matches hop ht, hv, Operator.spelling_ofSpelling, ← hv]
    refine ⟨hop, ?_, ?_, rfl⟩ <;> unfold operatorAt at h <;> split at h <;> simp_all
  · rintro ⟨hop, hk, h⟩
    obtain ⟨hkind, hv⟩ := (Operator.terminal_matches hop ht).mp h
    have := Operator.ofSpelling_spelling hop
    rcases hkind with hkind | ⟨w, hkind⟩ <;> simp [operatorAt, hkind, hv, this, hk]

/-- The nonterminal that a statement is derived from, besides `stmt`. -/
def Stmt.nonterminal : Stmt → Nonterminal
  | declare _ => .decl
  | conditional .. => .conditional
  | forLoop .. => .forLoop
  | whileLoop .. => .whileLoop
  | ret .. => .ret
  | expression .. | assign .. | unknown .. => .stmt

namespace Ebnf

open Phrase (followedBy_append followedBy_cons one_singleton)
open Grammar (Reads ReadsAll ReadsBinding ReadsStmt ReadsMethod readsAll_iff operatorAt literal?
  strength_of_isOperation)

/-- What is derived from a nonterminal: the tokens spell the tree, no parentheses are missing, and
the tree is one of the nonterminal. -/
def Reading : (n : Nonterminal) → n.Tree → Phrase
  | .source, p => fun ts => Program.Spelled p ts ∧ Program.Canonical p
  | .field, b | .decl, b => ReadsBinding b
  | .method, m => ReadsMethod m
  | .param, p => Param.Spelled p
  | .stmt, s => ReadsStmt s
  | .conditional, s => fun ts => ReadsStmt s ts ∧ Stmt.nonterminal s = .conditional
  | .forLoop, s => fun ts => ReadsStmt s ts ∧ Stmt.nonterminal s = .forLoop
  | .whileLoop, s => fun ts => ReadsStmt s ts ∧ Stmt.nonterminal s = .whileLoop
  | .ret, s => fun ts => ReadsStmt s ts ∧ Stmt.nonterminal s = .ret
  | .expr, e => Reads 0 e
  | .logical, e => Reads 1 e
  | .equality, e => Reads 2 e
  | .additive, e => Reads 3 e
  | .multiplicative, e => Reads 4 e
  | .secondary, e => Reads 5 e
  | .primary, e => fun ts => Reads 5 e ts ∧ Expr.isSelection e = false

/-! ## Terminals -/

section

variable {S : (n : Nonterminal) → n.Tree → Phrase} {r : Terminal} {t : Token} {f : Ebnf}
  {v : f.Val} {ts : List Token}

theorem matches_singleton (ht : r.Matches t) : Matches S (oneOf [r]) t [t] :=
  ⟨t, rfl, ⟨r, List.mem_singleton_self r, ht⟩, rfl⟩

theorem matches_cons (ht : r.Matches t) (h : Matches S f v ts) :
    Matches S (seq (oneOf [r]) f) (t, v) (t :: ts) := ⟨[t], ts, rfl, matches_singleton ht, h⟩

theorem of_matches_terminal (h : Matches S (oneOf [r]) t ts) : ts = [t] ∧ r.Matches t := by
  obtain ⟨_, rfl, ⟨r', hr, ht⟩, rfl⟩ := h
  obtain rfl := List.mem_singleton.mp hr
  exact ⟨rfl, ht⟩

theorem of_matches_cons (h : Matches S (seq (oneOf [r]) f) (t, v) ts) :
    ∃ us, ts = t :: us ∧ r.Matches t ∧ Matches S f v us := by
  obtain ⟨_, us, rfl, h, h'⟩ := h
  obtain ⟨rfl, ht⟩ := of_matches_terminal h
  exact ⟨us, rfl, ht, h'⟩

end

/-! ## Optional parts and lists -/

section

variable {S : (n : Nonterminal) → n.Tree → Phrase} {ts : List Token}

theorem typeName_of_matches {v : Option (Token × Token)} (h : Matches S typeName v ts) :
    Phrase.typeName (v.map fun w => w.2.value) ts := by
  cases v with
  | none => exact h
  | some v =>
    obtain ⟨us, rfl, hcolon, h⟩ := of_matches_cons h
    obtain ⟨rfl, hname⟩ := of_matches_terminal h
    exact followedBy_cons hcolon (one_singleton ⟨hname, rfl⟩)

theorem matches_of_typeName {type : Option String} (h : Phrase.typeName type ts) :
    ∃ v : Option (Token × Token), (v.map fun w => w.2.value) = type ∧ Matches S typeName v ts := by
  cases type with
  | none => exact ⟨none, rfl, h⟩
  | some type =>
    obtain ⟨_, _, rfl, ⟨c, rfl, hcolon⟩, t, rfl, hname, rfl⟩ := h
    exact ⟨some (c, t), rfl, matches_cons hcolon (matches_singleton hname)⟩

theorem initial_of_matches {v : Option (Token × Expr)} (h : Matches S initial v ts) :
    Phrase.initial ((v.map Prod.snd).map (S .expr)) ts := by
  cases v with
  | none => exact h
  | some v =>
    obtain ⟨us, rfl, hequals, h⟩ := of_matches_cons h
    exact followedBy_cons hequals h

theorem matches_of_initial {value : Option Expr} (h : Phrase.initial (value.map (S .expr)) ts) :
    ∃ v : Option (Token × Expr), v.map Prod.snd = value ∧ Matches S initial v ts := by
  cases value with
  | none => exact ⟨none, rfl, h⟩
  | some value =>
    obtain ⟨_, us, rfl, ⟨t, rfl, hequals⟩, h⟩ := h
    exact ⟨some (t, value), rfl, matches_cons hequals h⟩

variable {n : Nonterminal}

theorem commas_of_matches {xs : List (Token × n.Tree)}
    (h : Matches S (star (seq (mark ",") (ref n))) xs ts) :
    Phrase.commas ((xs.map Prod.snd).map (S n)) ts := by
  induction xs generalizing ts with
  | nil => exact h
  | cons x xs ih =>
    obtain ⟨_, us, rfl, hx, hxs⟩ := h
    obtain ⟨vs, rfl, hcomma, h⟩ := of_matches_cons hx
    exact followedBy_cons hcomma (followedBy_append h (ih hxs))

theorem matches_of_commas {xs : List n.Tree} (h : Phrase.commas (xs.map (S n)) ts) :
    ∃ v : List (Token × n.Tree), v.map Prod.snd = xs ∧
      Matches S (star (seq (mark ",") (ref n))) v ts := by
  induction xs generalizing ts with
  | nil => exact ⟨[], rfl, h⟩
  | cons x xs ih =>
    obtain ⟨_, _, rfl, ⟨t, rfl, hcomma⟩, us, vs, rfl, hx, hxs⟩ := h
    obtain ⟨v, rfl, hv⟩ := ih hxs
    exact ⟨(t, x) :: v, rfl, t :: us, vs, rfl, matches_cons hcomma hx, hv⟩

theorem parenthesised_of_matches {v : Token × Option (n.Tree × List (Token × n.Tree)) × Token}
    (h : Matches S (list n) v ts) : Phrase.parenthesised ((items v).map (S n)) ts := by
  obtain ⟨o, _ | ⟨x, xs⟩, c⟩ := v
  · obtain ⟨_, rfl, hopen, _, us, rfl, rfl, hend⟩ := of_matches_cons h
    obtain ⟨rfl, hclose⟩ := of_matches_terminal hend
    exact followedBy_cons hopen (one_singleton hclose)
  · obtain ⟨_, rfl, hopen, _, _, rfl, ⟨us, vs, rfl, hx, hxs⟩, hend⟩ := of_matches_cons h
    obtain ⟨rfl, hclose⟩ := of_matches_terminal hend
    rw [List.append_assoc]
    exact followedBy_cons hopen (followedBy_append hx
      (followedBy_append (commas_of_matches hxs) (one_singleton hclose)))

theorem matches_of_parenthesised {xs : List n.Tree}
    (h : Phrase.parenthesised (xs.map (S n)) ts) :
    ∃ v : Token × Option (n.Tree × List (Token × n.Tree)) × Token,
      items v = xs ∧ Matches S (list n) v ts := by
  cases xs with
  | nil =>
    obtain ⟨_, _, rfl, ⟨o, rfl, hopen⟩, c, rfl, hclose⟩ := h
    exact ⟨(o, none, c), rfl, matches_cons hopen ⟨[], [c], rfl, rfl, matches_singleton hclose⟩⟩
  | cons x xs =>
    obtain ⟨_, _, rfl, ⟨o, rfl, hopen⟩, us, _, rfl, hx, vs, _, rfl, hxs, c, rfl, hclose⟩ := h
    obtain ⟨v, rfl, hv⟩ := matches_of_commas hxs
    exact ⟨(o, some (x, v), c), rfl, matches_cons hopen
      ⟨us ++ vs, [c], by simp, followedBy_append hx hv, matches_singleton hclose⟩⟩

end

/-! ## Operators -/

/-- The terminals are the operators of one precedence. -/
def Precedence (k : Nat) (terminals : List Terminal) : Prop :=
  ∀ r, r ∈ terminals ↔ ∃ op ∈ Operator.known, op.precedence? = some k ∧ op.terminal = r

theorem precedence_logical : Precedence 1 [.keyword .AND, .keyword .OR] := by
  intro r
  simp [Operator.known, Operator.precedence?, Operator.terminal, eq_comm]

theorem precedence_equality : Precedence 2
    [.operator "<", .operator "<=", .operator ">", .operator ">=", .operator "==",
      .operator "!="] := by
  intro r
  simp [Operator.known, Operator.precedence?, Operator.terminal, Operator.spelling, @eq_comm _ r]
  tauto

theorem precedence_additive : Precedence 3 [.operator "+", .operator "-"] := by
  intro r
  simp [Operator.known, Operator.precedence?, Operator.terminal, Operator.spelling, eq_comm]

theorem precedence_multiplicative : Precedence 4 [.operator "*", .operator "/"] := by
  intro r
  simp [Operator.known, Operator.precedence?, Operator.terminal, Operator.spelling, eq_comm]

theorem Precedence.operatorAt {k : Nat} {terminals : List Terminal} (h : Precedence k terminals)
    {t : Token} (ht : t.Lexical) :
    (∃ r ∈ terminals, r.Matches t) ↔ operatorAt k t = some (.ofSpelling t.value) := by
  constructor
  · rintro ⟨r, hr, hm⟩
    obtain ⟨op, hop, hk, rfl⟩ := (h r).mp hr
    have hv := ((Operator.terminal_matches hop ht).mp hm).2
    rw [hv, Operator.ofSpelling_spelling hop]
    exact (Grammar.operatorAt_eq_some_iff ht).mpr ⟨hop, hk, hm⟩
  · intro hop
    obtain ⟨hop, hk, hm⟩ := (Grammar.operatorAt_eq_some_iff ht).mp hop
    exact ⟨_, (h _).mpr ⟨_, hop, hk, rfl⟩, hm⟩

/-! ## Expressions -/

section

variable {α : Type} {P : Expr → Phrase} {Q : α → Phrase} {f : Expr → α → Expr} {xs : List α}
  {us vs : List Token}

theorem all_snoc {x : α} (h : Phrase.all (xs.map Q) us) (hx : Q x vs) :
    Phrase.all ((xs ++ [x]).map Q) (us ++ vs) := by
  induction xs generalizing us with
  | nil =>
    obtain rfl : us = [] := h
    exact ⟨vs, [], by simp, hx, rfl⟩
  | cons y ys ih =>
    obtain ⟨ws, us, rfl, hy, hys⟩ := h
    rw [List.append_assoc]
    exact followedBy_append hy (ih hys)

/-- What is joined to an expression from the left, one item after another. -/
theorem foldl_of_all (hstep : ∀ e x us vs, (∀ t ∈ vs, t.Lexical) → P e us → Q x vs →
    P (f e x) (us ++ vs)) {e : Expr} (hvs : ∀ t ∈ vs, t.Lexical) (he : P e us)
    (h : Phrase.all (xs.map Q) vs) : P (xs.foldl f e) (us ++ vs) := by
  induction xs generalizing e us vs with
  | nil =>
    obtain rfl : vs = [] := h
    simpa using he
  | cons x xs ih =>
    obtain ⟨ws, vs, rfl, hx, hxs⟩ := h
    obtain ⟨hws, hvs⟩ := List.forall_mem_append.mp hvs
    rw [← List.append_assoc]
    exact ih hvs (hstep e x us ws hws he hx) hxs

/-- The tokens split into those of a first expression and those of the items joined to it. -/
def Chained (P : Expr → Phrase) (Q : α → Phrase) (f : Expr → α → Expr) (e : Expr) : Phrase :=
  fun ts => ∃ (first : Expr) (xs : List α) (us vs : List Token), xs.foldl f first = e ∧
    ts = us ++ vs ∧ P first us ∧ Phrase.all (xs.map Q) vs

theorem chained_first {e : Expr} (h : P e us) : Chained P Q f e us :=
  ⟨e, [], us, [], rfl, by simp, h, rfl⟩

theorem Chained.snoc {e : Expr} {x : α} (h : Chained P Q f e us) (hx : Q x vs) :
    Chained P Q f (f e x) (us ++ vs) := by
  obtain ⟨first, xs, us, ws, rfl, rfl, hfirst, hxs⟩ := h
  exact ⟨first, xs ++ [x], us, ws ++ vs, by simp, by simp, hfirst, all_snoc hxs hx⟩

end

section

variable {k : Nat} {terminals : List Terminal} {e : Expr} {us vs ts : List Token}

/-- An operand of precedence `k + 1` and the operator before it. -/
def Operand (k : Nat) (terminals : List Terminal) (x : Token × Expr) : Phrase :=
  (Phrase.one fun u => (∃ r ∈ terminals, r.Matches u) ∧ u = x.1).followedBy (Reads (k + 1) x.2)

theorem reads_join (h : Precedence k terminals) (x : Token × Expr) (hvs : ∀ t ∈ vs, t.Lexical)
    (he : Reads k e us) (hx : Operand k terminals x vs) : Reads k (join e x) (us ++ vs) := by
  obtain ⟨_, right⟩ := x
  obtain ⟨_, vs, rfl, ⟨t, rfl, ht, rfl⟩, hright⟩ := hx
  exact he.binary ((h.operatorAt (hvs t (by simp))).mp ht) hright

theorem chained_of_reads (h : Precedence k terminals) (hk : k ≤ 4) (hts : ∀ t ∈ ts, t.Lexical)
    (he : Reads k e ts) : Chained (Reads (k + 1)) (Operand k terminals) join e ts := by
  induction e generalizing ts with
  | binary p op left right ihl =>
    obtain ⟨hspelled, ⟨hleft, hright, hcan, hcan'⟩, hstrength⟩ := he
    -- An operation of a higher level is a first operand as a whole. One of this level ends in an
    -- operand, and its left side is a chain again.
    by_cases hlt : k + 1 ≤ op.strength
    · exact chained_first ⟨hspelled, ⟨hleft, hright, hcan, hcan'⟩, hlt⟩
    · obtain rfl : k = op.strength := Nat.le_antisymm hstrength (by omega)
      obtain ⟨⟨us, _, rfl, hs, _, vs, rfl, ⟨t, rfl, ht⟩, hs'⟩, rfl⟩ := hspelled
      obtain rfl := Grammar.ofSpelling_of_operatorAt ht
      have hlast : Operand _ terminals (t, right) (t :: vs) :=
        followedBy_cons ⟨(h.operatorAt (hts t (by simp))).mpr ht, rfl⟩ ⟨hs', hcan', hright⟩
      exact (ihl (fun t ht => hts t (by simp [ht])) ⟨hs, hcan, hleft⟩).snoc hlast
  | _ => exact chained_first ⟨he.1, he.2.1, Nat.succ_le_succ hk⟩

/-- The arguments of a call or of a method call. -/
abbrev Arguments := Token × Option (Expr × List (Token × Expr)) × Token

/-- A member or a method call, without what it belongs to. -/
def selection : Ebnf := seq (mark ".") (seq name (opt (list .expr)))

theorem readsAll_of_matches {v : Arguments} (h : Matches Reading (list .expr) v ts) :
    ReadsAll (items v) ts :=
  readsAll_iff.mpr (parenthesised_of_matches (n := .expr) h)

theorem matches_of_readsAll {es : List Expr} (h : ReadsAll es ts) :
    ∃ v : Arguments, items v = es ∧ Matches Reading (list .expr) v ts :=
  matches_of_parenthesised (S := Reading) (n := .expr) (readsAll_iff.mp h)

theorem reads_select (x : Token × Token × Option Arguments) (he : Reads 5 e us)
    (hx : Matches Reading selection x vs) : Reads 5 (select e x) (us ++ vs) := by
  obtain ⟨d, i, v⟩ := x
  obtain ⟨_, rfl, hpoint, h⟩ := of_matches_cons hx
  obtain ⟨vs, rfl, hname, h⟩ := of_matches_cons h
  cases v with
  | none =>
    obtain rfl : vs = [] := h
    exact he.member hpoint hname
  | some v => exact he.methodCall hpoint hname (readsAll_of_matches h)

theorem chained_of_reads_secondary (he : Reads 5 e ts) :
    Chained (Reading .primary) (Matches Reading selection) select e ts := by
  induction e generalizing ts with
  | member p receiver id ih =>
    obtain ⟨⟨⟨us, _, rfl, hs, _, _, rfl, ⟨d, rfl, hpoint⟩, i, rfl, hname, rfl⟩, rfl⟩, ⟨hop, hcan⟩,
      -⟩ := he
    have hlast : Matches Reading selection (d, i, none) [d, i] :=
      matches_cons hpoint (matches_cons hname rfl)
    exact (ih ⟨hs, hcan, strength_of_isOperation hop⟩).snoc hlast
  | methodCall p receiver id arguments ih =>
    obtain ⟨⟨⟨us, _, rfl, hs, _, _, rfl, ⟨d, rfl, hpoint⟩, _, vs, rfl, ⟨i, rfl, hname, rfl⟩,
      harguments⟩, rfl⟩, ⟨hop, hcan, hcan'⟩, -⟩ := he
    obtain ⟨v, rfl, hv⟩ := matches_of_readsAll ⟨harguments, hcan'⟩
    have hlast : Matches Reading selection (d, i, some v) (d :: i :: vs) :=
      matches_cons hpoint (matches_cons hname hv)
    exact (ih ⟨hs, hcan, strength_of_isOperation hop⟩).snoc hlast
  | _ => exact chained_first ⟨he, rfl⟩

/-- The terminals of constants. -/
def literals : List Terminal :=
  [.keyword .NIL, .keyword .TRUE, .keyword .FALSE, .integer, .decimal, .character, .string]

theorem literal?_eq_some_iff {t : Token} {value : Literal} :
    literal? t = some value ↔ (∃ r ∈ literals, r.Matches t) ∧ literal t = value := by
  cases hk : t.kind with
  | keyword w =>
    cases w <;> simp [literals, literal?, literal, Terminal.Matches, Token.isKeyword, hk]
  | _ => simp [literals, literal?, literal, Terminal.Matches, Token.isKeyword, hk]

theorem reads_primary {v : (rule .primary).Val} (h : Matches Reading (rule .primary) v ts) :
    Reading .primary (tree .primary v) ts := by
  obtain t | ⟨i, _ | v⟩ | ⟨o, inner, c⟩ := v
  · obtain ⟨t, rfl, hliteral, rfl⟩ := h
    exact ⟨⟨one_singleton ⟨literal?_eq_some_iff.mpr ⟨hliteral, rfl⟩, rfl⟩, trivial, Nat.le_refl 5⟩,
      rfl⟩
  · obtain ⟨us, rfl, hname, h⟩ := of_matches_cons h
    obtain rfl : us = [] := h
    exact ⟨⟨one_singleton ⟨⟨hname, rfl⟩, rfl⟩, trivial, Nat.le_refl 5⟩, rfl⟩
  · obtain ⟨us, rfl, hname, h⟩ := of_matches_cons h
    obtain ⟨hs, hcan⟩ := readsAll_of_matches h
    exact ⟨⟨followedBy_cons ⟨⟨hname, rfl⟩, rfl⟩ hs, hcan, Nat.le_refl 5⟩, rfl⟩
  · obtain ⟨_, rfl, hopen, us, _, rfl, ⟨hs, hcan, -⟩, hend⟩ := of_matches_cons h
    obtain ⟨rfl, hclose⟩ := of_matches_terminal hend
    exact ⟨⟨followedBy_cons ⟨hopen, rfl⟩ (followedBy_append hs (one_singleton hclose)), hcan,
      Nat.le_refl 5⟩, rfl⟩

theorem matches_of_primary (h : Reading .primary e ts) :
    ∃ v, tree .primary v = e ∧ Matches Reading (rule .primary) v ts := by
  obtain ⟨⟨hspelled, hcan, hstrength⟩, hselection⟩ := h
  cases e with
  | literal p value =>
    obtain ⟨t, rfl, ht, rfl⟩ := hspelled
    obtain ⟨hliteral, rfl⟩ := literal?_eq_some_iff.mp ht
    exact ⟨.inl t, rfl, t, rfl, hliteral, rfl⟩
  | name p id =>
    obtain ⟨t, rfl, ⟨hname, rfl⟩, rfl⟩ := hspelled
    exact ⟨.inr (.inl (t, none)), rfl, matches_cons hname rfl⟩
  | call p id arguments =>
    obtain ⟨_, us, rfl, ⟨t, rfl, ⟨hname, rfl⟩, rfl⟩, harguments⟩ := hspelled
    obtain ⟨v, rfl, hv⟩ := matches_of_readsAll ⟨harguments, hcan⟩
    exact ⟨.inr (.inl (t, some v)), rfl, matches_cons hname hv⟩
  | group p inner =>
    obtain ⟨_, _, rfl, ⟨o, rfl, hopen, rfl⟩, us, _, rfl, hs, c, rfl, hclose⟩ := hspelled
    simp only [List.singleton_append]
    exact ⟨.inr (.inr (o, inner, c)), rfl, matches_cons hopen
      (followedBy_append ⟨hs, hcan, Nat.zero_le _⟩ (matches_singleton hclose))⟩
  | binary p op left right => exact absurd op.strength_le (Nat.not_le.mpr hstrength)
  | member | methodCall => cases hselection
  | unknown => exact hspelled.elim

end

end Ebnf

end BlockScript
