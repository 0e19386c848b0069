import BlockScript.Proofs.Syntax.Derivation
import BlockScript.Proofs.Syntax.RoundTrip

/-!
# The parser accepts the grammar

The productions of statements, methods and programs agree with what is said of their trees by shape,
so that the parser accepts just what is derived from `source`.
-/

namespace BlockScript

namespace Ebnf

open Phrase (followedBy_append followedBy_cons one_singleton)
open Grammar (Reads ReadsBinding ReadsStmt ReadsMethod)

/-! ## Statements and programs -/

section

variable {ts : List Token}

theorem readsBinding_of_matches {v : (rule .field).Val} (h : Matches Reading (rule .field) v ts) :
    ReadsBinding (binding v) ts := by
  obtain ⟨l, i, type, value, c⟩ := v
  obtain ⟨_, rfl, hlet, h⟩ := of_matches_cons h
  obtain ⟨_, rfl, hname, us, _, rfl, htype, vs, _, rfl, hvalue, hend⟩ := of_matches_cons h
  obtain ⟨rfl, hmark⟩ := of_matches_terminal hend
  obtain ⟨hs, hc⟩ := Grammar.readsInitial_iff.mp (initial_of_matches hvalue)
  exact ⟨followedBy_cons ⟨hlet, rfl⟩ (followedBy_cons ⟨hname, rfl⟩
    (followedBy_append (typeName_of_matches htype)
      (followedBy_append hs (one_singleton hmark)))), trivial, fun _ _ => trivial, hc⟩

theorem matches_of_readsBinding {b : Binding} (h : ReadsBinding b ts) :
    ∃ v, binding v = b ∧ Matches Reading (rule .field) v ts := by
  obtain ⟨p, id, type, value⟩ := b
  obtain ⟨⟨_, _, rfl, ⟨l, rfl, hlet, rfl⟩, _, _, rfl, ⟨i, rfl, hname, rfl⟩, us, _, rfl, htype, vs, _,
    rfl, hs, c, rfl, hmark⟩, -, -, hc⟩ := h
  obtain ⟨type, rfl, htype⟩ := matches_of_typeName htype
  obtain ⟨value, rfl, hvalue⟩ := matches_of_initial (S := Reading)
    (Grammar.readsInitial_iff.mpr ⟨hs, hc⟩)
  simp only [List.singleton_append]
  exact ⟨(l, i, type, value, c), rfl, matches_cons hlet (matches_cons hname
    (followedBy_append htype (followedBy_append hvalue (matches_singleton hmark))))⟩

theorem reads_conditional {v : (rule .conditional).Val}
    (h : Matches Reading (rule .conditional) v ts) : ReadsStmt (tree .conditional v) ts := by
  obtain ⟨i, condition, d, thenBody, _ | ⟨l, elseBody⟩, n⟩ := v
  · obtain ⟨_, rfl, hif, us, _, rfl, ⟨hs, hc, -⟩, h⟩ := of_matches_cons h
    obtain ⟨_, rfl, hdo, vs, _, rfl, hthen, _, _, rfl, rfl, hend⟩ := of_matches_cons h
    obtain ⟨rfl, hlast⟩ := of_matches_terminal hend
    obtain ⟨hs', hc'⟩ := Grammar.readsBody_iff.mpr hthen
    exact ⟨followedBy_cons ⟨hif, rfl⟩ (followedBy_append hs (followedBy_cons hdo
      (followedBy_append hs' (.inl ⟨rfl, one_singleton hlast⟩)))), hc, hc', trivial⟩
  · obtain ⟨_, rfl, hif, us, _, rfl, ⟨hs, hc, -⟩, h⟩ := of_matches_cons h
    obtain ⟨_, rfl, hdo, vs, _, rfl, hthen, _, _, rfl, helse, hend⟩ := of_matches_cons h
    obtain ⟨ws, rfl, hword, helse⟩ := of_matches_cons helse
    obtain ⟨rfl, hlast⟩ := of_matches_terminal hend
    obtain ⟨hs', hc'⟩ := Grammar.readsBody_iff.mpr hthen
    obtain ⟨hs'', hc''⟩ := Grammar.readsBody_iff.mpr helse
    exact ⟨followedBy_cons ⟨hif, rfl⟩ (followedBy_append hs (followedBy_cons hdo
      (followedBy_append hs' (.inr (followedBy_cons hword
        (followedBy_append hs'' (one_singleton hlast))))))), hc, hc', hc''⟩

theorem matches_of_conditional {p : Position} {condition : Expr} {thenBody elseBody : List Stmt}
    (h : ReadsStmt (.conditional p condition thenBody elseBody) ts) :
    ∃ v, tree .conditional v = Stmt.conditional p condition thenBody elseBody ∧
      Matches Reading (rule .conditional) v ts := by
  obtain ⟨⟨_, _, rfl, ⟨i, rfl, hif, rfl⟩, us, _, rfl, hs, _, _, rfl, ⟨d, rfl, hdo⟩, vs, ws, rfl,
    hs', halternative⟩, hc, hc', hc''⟩ := h
  have hthen := Grammar.readsBody_iff.mp ⟨hs', hc'⟩
  simp only [List.singleton_append]
  rcases halternative with ⟨rfl, n, rfl, hend⟩ | ⟨_, _, rfl, ⟨l, rfl, hword⟩, xs, _, rfl, hs'', n, rfl,
    hend⟩
  · exact ⟨(i, condition, d, thenBody, none, n), rfl, matches_cons hif
      (followedBy_append ⟨hs, hc, Nat.zero_le _⟩ (matches_cons hdo (followedBy_append hthen
        ⟨[], [n], rfl, rfl, matches_singleton hend⟩)))⟩
  · have helse : Matches Reading (opt (seq (word .ELSE) body)) (some (l, elseBody)) (l :: xs) :=
      matches_cons hword (Grammar.readsBody_iff.mp ⟨hs'', hc''⟩)
    exact ⟨(i, condition, d, thenBody, some (l, elseBody), n), rfl, matches_cons hif
      (followedBy_append ⟨hs, hc, Nat.zero_le _⟩ (matches_cons hdo (followedBy_append hthen
        ⟨l :: xs, [n], rfl, helse, matches_singleton hend⟩)))⟩

theorem reads_forLoop {v : (rule .forLoop).Val} (h : Matches Reading (rule .forLoop) v ts) :
    ReadsStmt (tree .forLoop v) ts := by
  obtain ⟨f, i, k, iterable, d, body, n⟩ := v
  obtain ⟨_, rfl, hfor, h⟩ := of_matches_cons h
  obtain ⟨_, rfl, hname, h⟩ := of_matches_cons h
  obtain ⟨_, rfl, hin, us, _, rfl, ⟨hs, hc, -⟩, h⟩ := of_matches_cons h
  obtain ⟨_, rfl, hdo, vs, _, rfl, hbody, h⟩ := of_matches_cons h
  obtain ⟨rfl, hend⟩ := of_matches_terminal h
  obtain ⟨hs', hc'⟩ := Grammar.readsBody_iff.mpr hbody
  exact ⟨followedBy_cons ⟨hfor, rfl⟩ (followedBy_cons ⟨hname, rfl⟩ (followedBy_cons hin
    (followedBy_append hs (followedBy_cons hdo (followedBy_append hs' (one_singleton hend)))))),
    trivial, hc, hc'⟩

theorem matches_of_forLoop {p : Position} {id : String} {iterable : Expr} {body : List Stmt}
    (h : ReadsStmt (.forLoop p id iterable body) ts) :
    ∃ v, tree .forLoop v = Stmt.forLoop p id iterable body ∧
      Matches Reading (rule .forLoop) v ts := by
  obtain ⟨⟨_, _, rfl, ⟨f, rfl, hfor, rfl⟩, _, _, rfl, ⟨i, rfl, hname, rfl⟩, _, _, rfl, ⟨k, rfl, hin⟩,
    us, _, rfl, hs, _, _, rfl, ⟨d, rfl, hdo⟩, vs, _, rfl, hs', n, rfl, hend⟩, -, hc, hc'⟩ := h
  simp only [List.singleton_append]
  exact ⟨(f, i, k, iterable, d, body, n), rfl, matches_cons hfor (matches_cons hname
    (matches_cons hin (followedBy_append ⟨hs, hc, Nat.zero_le _⟩ (matches_cons hdo
      (followedBy_append (Grammar.readsBody_iff.mp ⟨hs', hc'⟩) (matches_singleton hend))))))⟩

theorem reads_whileLoop {v : (rule .whileLoop).Val} (h : Matches Reading (rule .whileLoop) v ts) :
    ReadsStmt (tree .whileLoop v) ts := by
  obtain ⟨w, condition, d, body, n⟩ := v
  obtain ⟨_, rfl, hwhile, us, _, rfl, ⟨hs, hc, -⟩, h⟩ := of_matches_cons h
  obtain ⟨_, rfl, hdo, vs, _, rfl, hbody, h⟩ := of_matches_cons h
  obtain ⟨rfl, hend⟩ := of_matches_terminal h
  obtain ⟨hs', hc'⟩ := Grammar.readsBody_iff.mpr hbody
  exact ⟨followedBy_cons ⟨hwhile, rfl⟩ (followedBy_append hs (followedBy_cons hdo
    (followedBy_append hs' (one_singleton hend)))), hc, hc'⟩

theorem matches_of_whileLoop {p : Position} {condition : Expr} {body : List Stmt}
    (h : ReadsStmt (.whileLoop p condition body) ts) :
    ∃ v, tree .whileLoop v = Stmt.whileLoop p condition body ∧
      Matches Reading (rule .whileLoop) v ts := by
  obtain ⟨⟨_, _, rfl, ⟨w, rfl, hwhile, rfl⟩, us, _, rfl, hs, _, _, rfl, ⟨d, rfl, hdo⟩, vs, _, rfl,
    hs', n, rfl, hend⟩, hc, hc'⟩ := h
  simp only [List.singleton_append]
  exact ⟨(w, condition, d, body, n), rfl, matches_cons hwhile
    (followedBy_append ⟨hs, hc, Nat.zero_le _⟩ (matches_cons hdo
      (followedBy_append (Grammar.readsBody_iff.mp ⟨hs', hc'⟩) (matches_singleton hend))))⟩

theorem reads_ret {v : (rule .ret).Val} (h : Matches Reading (rule .ret) v ts) :
    ReadsStmt (tree .ret v) ts := by
  obtain ⟨r, value, c⟩ := v
  obtain ⟨_, rfl, hret, us, _, rfl, ⟨hs, hc, -⟩, h⟩ := of_matches_cons h
  obtain ⟨rfl, hmark⟩ := of_matches_terminal h
  exact ⟨followedBy_cons ⟨hret, rfl⟩ (followedBy_append hs (one_singleton hmark)), hc⟩

theorem matches_of_ret {p : Position} {value : Expr} (h : ReadsStmt (.ret p value) ts) :
    ∃ v, tree .ret v = Stmt.ret p value ∧ Matches Reading (rule .ret) v ts := by
  obtain ⟨⟨_, _, rfl, ⟨r, rfl, hret, rfl⟩, us, _, rfl, hs, c, rfl, hmark⟩, hc⟩ := h
  simp only [List.singleton_append]
  exact ⟨(r, value, c), rfl, matches_cons hret
    (followedBy_append ⟨hs, hc, Nat.zero_le _⟩ (matches_singleton hmark))⟩

theorem readsStmt_of_matches {v : (rule .stmt).Val} (h : Matches Reading (rule .stmt) v ts) :
    ReadsStmt (tree .stmt v) ts := by
  obtain b | s | s | s | s | ⟨e, value, c⟩ := v
  · exact h
  · exact h.1
  · exact h.1
  · exact h.1
  · exact h.1
  · obtain ⟨us, _, rfl, ⟨hs, hc, -⟩, vs, _, rfl, hvalue, hend⟩ := h
    obtain ⟨rfl, hmark⟩ := of_matches_terminal hend
    cases value with
    | none =>
      obtain rfl : vs = [] := hvalue
      exact ⟨⟨followedBy_append hs (one_singleton hmark), rfl⟩, hc⟩
    | some value =>
      obtain ⟨ws, rfl, hequals, hs', hc', -⟩ := of_matches_cons hvalue
      exact ⟨⟨followedBy_append hs (followedBy_cons hequals
        (followedBy_append hs' (one_singleton hmark))), rfl⟩, hc, hc'⟩

theorem matches_of_readsStmt {s : Stmt} (h : ReadsStmt s ts) :
    ∃ v, tree .stmt v = s ∧ Matches Reading (rule .stmt) v ts := by
  cases s with
  | declare b => exact ⟨.inl b, rfl, h⟩
  | conditional p condition thenBody elseBody => exact ⟨.inr (.inl _), rfl, h, rfl⟩
  | forLoop p id iterable body => exact ⟨.inr (.inr (.inl _)), rfl, h, rfl⟩
  | whileLoop p condition body => exact ⟨.inr (.inr (.inr (.inl _))), rfl, h, rfl⟩
  | ret p value => exact ⟨.inr (.inr (.inr (.inr (.inl _)))), rfl, h, rfl⟩
  | expression p value =>
    obtain ⟨⟨⟨us, _, rfl, hs, c, rfl, hmark⟩, rfl⟩, hc⟩ := h
    exact ⟨.inr (.inr (.inr (.inr (.inr (value, none, c))))), rfl,
      followedBy_append ⟨hs, hc, Nat.zero_le _⟩
        ⟨[], [c], rfl, rfl, matches_singleton hmark⟩⟩
  | assign p target value =>
    obtain ⟨⟨⟨us, _, rfl, hs, _, _, rfl, ⟨q, rfl, hequals⟩, vs, _, rfl, hs', c, rfl, hmark⟩, rfl⟩, hc,
      hc'⟩ := h
    have hvalue : Matches Reading initial (some (q, value)) (q :: vs) :=
      matches_cons hequals ⟨hs', hc', Nat.zero_le _⟩
    exact ⟨.inr (.inr (.inr (.inr (.inr (target, some (q, value), c))))), rfl,
      followedBy_append ⟨hs, hc, Nat.zero_le _⟩
        ⟨q :: vs, [c], rfl, hvalue, matches_singleton hmark⟩⟩
  | unknown => exact h.1.elim

theorem param_of_matches {v : (rule .param).Val} (h : Matches Reading (rule .param) v ts) :
    Param.Spelled (tree .param v) ts := by
  obtain ⟨i, type⟩ := v
  obtain ⟨us, rfl, hname, htype⟩ := of_matches_cons h
  exact followedBy_cons ⟨⟨hname, rfl⟩, rfl⟩ (typeName_of_matches htype)

theorem matches_of_param {p : Param} (h : p.Spelled ts) :
    ∃ v, tree .param v = p ∧ Matches Reading (rule .param) v ts := by
  obtain ⟨p, id, type⟩ := p
  obtain ⟨_, us, rfl, ⟨i, rfl, ⟨hname, rfl⟩, rfl⟩, htype⟩ := h
  obtain ⟨type, rfl, htype⟩ := matches_of_typeName htype
  exact ⟨(i, type), rfl, matches_cons hname htype⟩

theorem readsMethod_of_matches {v : (rule .method).Val}
    (h : Matches Reading (rule .method) v ts) : ReadsMethod (tree .method v) ts := by
  obtain ⟨d, i, params, type, o, body, n⟩ := v
  obtain ⟨_, rfl, hdef, h⟩ := of_matches_cons h
  obtain ⟨_, rfl, hname, us, _, rfl, hparams, vs, _, rfl, htype, h⟩ := of_matches_cons h
  obtain ⟨_, rfl, hdo, ws, _, rfl, hbody, h⟩ := of_matches_cons h
  obtain ⟨rfl, hend⟩ := of_matches_terminal h
  obtain ⟨hs, hc⟩ := Grammar.readsBody_iff.mpr hbody
  have hlist := parenthesised_of_matches (n := .param) hparams
  exact ⟨followedBy_cons ⟨hdef, rfl⟩ (followedBy_cons ⟨hname, rfl⟩ (followedBy_append hlist
    (followedBy_append (typeName_of_matches htype) (followedBy_cons hdo
      (followedBy_append hs (one_singleton hend)))))),
    trivial, fun _ _ => ⟨trivial, fun _ _ => trivial⟩, fun _ _ => trivial, hc⟩

theorem matches_of_readsMethod {m : Method} (h : ReadsMethod m ts) :
    ∃ v, tree .method v = m ∧ Matches Reading (rule .method) v ts := by
  obtain ⟨p, id, params, returnType, body⟩ := m
  obtain ⟨⟨_, _, rfl, ⟨d, rfl, hdef, rfl⟩, _, _, rfl, ⟨i, rfl, hname, rfl⟩, us, _, rfl, hparams, vs, _,
    rfl, htype, _, _, rfl, ⟨o, rfl, hdo⟩, ws, _, rfl, hs, n, rfl, hend⟩, -, -, -, hc⟩ := h
  obtain ⟨params, rfl, hlist⟩ := matches_of_parenthesised (S := Reading) (n := .param) hparams
  obtain ⟨type, rfl, htype⟩ := matches_of_typeName htype
  simp only [List.singleton_append]
  exact ⟨(d, i, params, type, o, body, n), rfl, matches_cons hdef (matches_cons hname
    (followedBy_append hlist (followedBy_append htype (matches_cons hdo
      (followedBy_append (Grammar.readsBody_iff.mp ⟨hs, hc⟩) (matches_singleton hend))))))⟩

/-- What matches a production is what the tree of the production says. -/
theorem reading_of_matches (n : Nonterminal) (v : (rule n).Val) (ts : List Token)
    (hts : ∀ t ∈ ts, t.Lexical) (h : Matches Reading (rule n) v ts) : Reading n (tree n v) ts := by
  have hfold {k : Nat} {terminals : List Terminal} (hk : Precedence k terminals) {e : Expr}
      {es : List (Token × Expr)} (h : (Reads (k + 1) e).followedBy
        (Phrase.all (es.map (Operand k terminals))) ts) : Reads k (es.foldl join e) ts := by
    obtain ⟨us, vs, rfl, he, hes⟩ := h
    exact foldl_of_all (fun e x us vs hvs he hx => reads_join hk x hvs he hx)
      (fun t ht => hts t (by simp [ht])) (he.mono (Nat.le_succ k)) hes
  cases n with
  | source => exact Grammar.reads_program_iff.mpr h
  | field | decl => exact readsBinding_of_matches h
  | method => exact readsMethod_of_matches h
  | param => exact param_of_matches h
  | stmt => exact readsStmt_of_matches h
  | conditional => exact ⟨reads_conditional h, rfl⟩
  | forLoop => exact ⟨reads_forLoop h, rfl⟩
  | whileLoop => exact ⟨reads_whileLoop h, rfl⟩
  | ret => exact ⟨reads_ret h, rfl⟩
  | expr => exact h.mono (Nat.zero_le 1)
  | logical => exact hfold precedence_logical h
  | equality => exact hfold precedence_equality h
  | additive => exact hfold precedence_additive h
  | multiplicative => exact hfold precedence_multiplicative h
  | secondary =>
    obtain ⟨us, vs, rfl, ⟨he, -⟩, hes⟩ := h
    exact foldl_of_all (fun e x us vs _ he hx => reads_select x he hx)
      (fun t ht => hts t (by simp [ht])) he hes
  | primary => exact reads_primary h

/-- Each tree of a nonterminal is one of its production. -/
theorem matches_of_reading (n : Nonterminal) (x : n.Tree) (ts : List Token)
    (hts : ∀ t ∈ ts, t.Lexical) (h : Reading n x ts) :
    ∃ v, tree n v = x ∧ Matches Reading (rule n) v ts := by
  have hfold {k : Nat} {terminals : List Terminal} (hk : Precedence k terminals) (hle : k ≤ 4)
      {e : Expr} (he : Reads k e ts) : ∃ v : Expr × List (Token × Expr), v.2.foldl join v.1 = e ∧
        (Reads (k + 1) v.1).followedBy (Phrase.all (v.2.map (Operand k terminals))) ts := by
    obtain ⟨first, es, us, vs, rfl, rfl, hfirst, hes⟩ := chained_of_reads hk hle hts he
    exact ⟨(first, es), rfl, followedBy_append hfirst hes⟩
  cases n with
  | source => exact ⟨(x.fields, x.methods), rfl, Grammar.reads_program_iff.mp h⟩
  | field | decl => exact matches_of_readsBinding h
  | method => exact matches_of_readsMethod h
  | param => exact matches_of_param h
  | stmt => exact matches_of_readsStmt h
  | conditional =>
    obtain ⟨h, hn⟩ := h
    cases x with
    | conditional p condition thenBody elseBody => exact matches_of_conditional h
    | _ => cases hn
  | forLoop =>
    obtain ⟨h, hn⟩ := h
    cases x with
    | forLoop => exact matches_of_forLoop h
    | _ => cases hn
  | whileLoop =>
    obtain ⟨h, hn⟩ := h
    cases x with
    | whileLoop => exact matches_of_whileLoop h
    | _ => cases hn
  | ret =>
    obtain ⟨h, hn⟩ := h
    cases x with
    | ret => exact matches_of_ret h
    | _ => cases hn
  | expr => exact ⟨x, rfl, h.1, h.2.1, Grammar.strength_pos_of_spelled h.1⟩
  | logical => exact hfold precedence_logical (by omega) h
  | equality => exact hfold precedence_equality (by omega) h
  | additive => exact hfold precedence_additive (by omega) h
  | multiplicative => exact hfold precedence_multiplicative (by omega) h
  | secondary =>
    obtain ⟨first, xs, us, vs, rfl, rfl, hfirst, hxs⟩ := chained_of_reads_secondary h
    exact ⟨(first, xs), rfl, followedBy_append hfirst hxs⟩
  | primary => exact matches_of_primary h

/-- What is derived from a nonterminal, said by the shape of the tree. -/
theorem derives_iff {n : Nonterminal} {x : n.Tree} (hts : ∀ t ∈ ts, t.Lexical) :
    Derives (.ref n) x ts ↔ Reading n x ts :=
  ⟨fun h => h.matches reading_of_matches hts, derives_of matches_of_reading n x ts hts⟩

end

end Ebnf

open Ebnf (Derives derives_iff)

/-! ## The parser -/

section

variable {ts : List Token} {eof : Token} (hts : ∀ t ∈ ts, t.Lexical ∧ t.kind ≠ .endOfInput)
  (heof : eof.kind = .endOfInput)
include hts heof

/-- The parser takes all tokens up to the end of the input, and they are derived from `source`. -/
theorem Grammar.program_eq_ok_iff {bound : Nat} (hbound : ts.length ≤ bound) {p : Program}
    {rest : List Token} : program bound (ts ++ [eof]) = .ok (p, rest) ↔
      rest = [eof] ∧ Derives (.ref .source) p ts := by
  have hlex : ∀ t ∈ ts, t.Lexical := fun t ht => (hts t ht).1
  constructor
  · intro h
    obtain ⟨used, happend, hs, hcan, hrest⟩ := program_ok h
    have hused : ∀ t ∈ used, t.Lexical := by
      intro t ht
      have hmem : t ∈ ts ++ [eof] := by simp [happend, ht]
      rcases List.mem_append.mp hmem with ht | ht
      · exact hlex t ht
      · simp [List.mem_singleton.mp ht, Token.Lexical, heof]
    have hderives : Derives (.ref .source) p used := (derives_iff hused).mpr ⟨hs, hcan⟩
    rcases List.append_eq_append_iff.mp happend with ⟨us, rfl, hus⟩ | ⟨us, rfl, rfl⟩
    · cases us with
      | nil => exact ⟨by simpa using hus.symm, by simpa using hderives⟩
      | cons u us =>
        obtain ⟨rfl, -⟩ := List.cons.inj hus
        exact absurd heof (hderives.kind_ne eof (by simp))
    · cases us with
      | nil => exact ⟨rfl, by simpa using hderives⟩
      | cons u us => exact absurd hrest (hts u (by simp)).2
  · rintro ⟨rfl, h⟩
    obtain ⟨hs, hcan⟩ := (derives_iff hlex).mp h
    exact program_of_spelled hcan hs hlex hbound heof

theorem Program.ofTokens_iff_derives {p : Program} :
    ofTokens (ts ++ [eof]) = .ok p ↔ Derives (.ref .source) p ts := by
  have hbound : ts.length ≤ (ts ++ [eof]).length := by simp
  rw [ofTokens_eq_ok_iff]
  simp only [Grammar.program_eq_ok_iff hts heof hbound, exists_eq_left]

/-- The parser accepts what is derived from `source`, and gives the one tree of it, in which the
operations of each level are joined from the left. No token is left over. -/
theorem Program.ofTokens_derived :
    ((∃ p, ofTokens (ts ++ [eof]) = .ok p) ↔ ∃ p, Derives (.ref .source) p ts) ∧
      ∀ p, ofTokens (ts ++ [eof]) = .ok p →
        Derives (.ref .source) p ts ∧ (∀ q, Derives (.ref .source) q ts → q = p) ∧
          Grammar.program (ts ++ [eof]).length (ts ++ [eof]) = .ok (p, [eof]) := by
  have htokens (p : Program) := ofTokens_iff_derives hts heof (p := p)
  refine ⟨exists_congr htokens, fun p hp => ?_⟩
  have hderives := (htokens p).mp hp
  refine ⟨hderives, fun q hq => ?_, ?_⟩
  · exact Except.ok.inj (((htokens q).mpr hq).symm.trans hp)
  · exact (Grammar.program_eq_ok_iff hts heof (by simp)).mpr ⟨rfl, hderives⟩

end

/-- The signs between the operands are operators; the quoted one is not. -/
theorem Program.ofTokens_derived_differences :
    ∃ ts eof p, Token.tokenize "LET x = 1 - 2 - '-';" = .ok (ts ++ [eof]) ∧
      (∀ t ∈ ts, t.Lexical ∧ t.kind ≠ .endOfInput) ∧ eof.kind = .endOfInput ∧
      ofTokens (ts ++ [eof]) = .ok p ∧ Derives (.ref .source) p ts ∧
      (∀ q, Derives (.ref .source) q ts → q = p) ∧
      Grammar.program (ts ++ [eof]).length (ts ++ [eof]) = .ok (p, [eof]) := by
  have hok : (parse "LET x = 1 - 2 - '-';").isOk := by decide +kernel
  obtain ⟨p, hp⟩ := exists_of_isOk hok
  obtain ⟨ts, hts, h⟩ := parse_eq_ok_iff.mp hp
  have hscans := Token.tokenize_eq_ok_iff.mp hts
  obtain ⟨us, eof, rfl, heof, hus⟩ := hscans.exists_end
  have hlex : ∀ t ∈ us, t.Lexical ∧ t.kind ≠ .endOfInput := fun t ht =>
    ⟨hscans.lexical t (by simp [ht]), hus t ht⟩
  exact ⟨us, eof, p, hts, hlex, heof, h, (ofTokens_derived hlex heof).2 p h⟩

/-- The texts that are read, and what they are read as. -/
theorem Program.parse_iff_derives {text : String} {p : Program} :
    parse text = .ok p ↔ ∃ ts eof, Token.tokenize text = .ok (ts ++ [eof]) ∧
      eof.kind = .endOfInput ∧ Derives (.ref .source) p ts := by
  rw [parse_eq_ok_iff]
  constructor
  · rintro ⟨ts, hts, h⟩
    have hscans := Token.tokenize_eq_ok_iff.mp hts
    obtain ⟨us, eof, rfl, heof, hus⟩ := hscans.exists_end
    have hlex : ∀ t ∈ us, t.Lexical ∧ t.kind ≠ .endOfInput := fun t ht =>
      ⟨hscans.lexical t (by simp [ht]), hus t ht⟩
    exact ⟨us, eof, hts, heof, (ofTokens_iff_derives hlex heof).mp h⟩
  · rintro ⟨ts, eof, hts, heof, h⟩
    have hscans := Token.tokenize_eq_ok_iff.mp hts
    have hlex : ∀ t ∈ ts, t.Lexical ∧ t.kind ≠ .endOfInput := fun t ht =>
      ⟨hscans.lexical t (by simp [ht]), h.kind_ne t ht⟩
    exact ⟨_, hts, (ofTokens_iff_derives hlex heof).mpr h⟩

end BlockScript
