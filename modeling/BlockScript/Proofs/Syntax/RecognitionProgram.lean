import BlockScript.Proofs.Syntax.ReadingProgram
import BlockScript.Proofs.Syntax.Recognition

/-!
# Reading programs is complete

Tokens that spell a program with canonical expressions are read as that program.
-/

namespace BlockScript.Grammar

open Phrase

variable {t : Token} {ts us rest : List Token} {b : Nat} {e : Expr}

theorem not_isKeyword_of_ne {word other : Keyword} (ht : t.isKeyword word) (hne : word ≠ other) :
    t.isKeyword other = false := by
  simp [Token.isKeyword, kind_of_isKeyword ht, hne]

/-- A reserved word that is not an operator ends an expression. -/
theorem follows_of_keyword {word : Keyword} (ht : t.isKeyword word) (hlex : t.Lexical)
    (hp : (Operator.ofSpelling word.spelling).precedence? = none) : Follows 0 (t :: rest) := by
  simp only [Token.Lexical, kind_of_isKeyword ht] at hlex
  exact follows_keyword ht hlex hp

/-! ## Bindings -/

theorem front_initial {value : Option Phrase} {c : Token} (h : initial value ts)
    (hc : c.isOperator ";") : (front (ts ++ c :: rest)).isOperator ":" = false := by
  cases value with
  | none =>
    obtain rfl : ts = [] := h
    exact not_isOperator_of_ne hc (by decide)
  | some P =>
    obtain ⟨_, us, rfl, ⟨o, rfl, ho⟩, -⟩ := h
    exact not_isOperator_of_ne ho (by decide)

theorem initial_of_spelled {value : Option Expr} {c : Token} (hcan : ∀ e ∈ value, e.Canonical)
    (h : initial (value.map Expr.Spelled) ts) (hb : ts.length ≤ b) (hc : c.isOperator ";") :
    after "=" (expression b) (ts ++ c :: rest) = .ok (value, c :: rest) := by
  cases value with
  | none =>
    obtain rfl : ts = [] := h
    exact after_none (not_isOperator_of_ne hc (by decide))
  | some e =>
    obtain ⟨_, us, rfl, ⟨o, rfl, ho⟩, hs⟩ := h
    simp only [List.length_append, List.length_singleton] at hb
    have hread : expression b (us ++ c :: rest) = .ok (e, c :: rest) :=
      expression_of_spelled (hcan e rfl) hs (by omega) (follows_mark hc (by simp))
    exact after_some ho hread

theorem binding_of_spelled {x : Binding} (hcan : x.Consists Expr.Canonical fun _ => True)
    (h : x.Spelled ts) (hb : ts.length ≤ b) :
    binding (expression b) (ts ++ rest) = .ok (x, rest) := by
  obtain ⟨p, name, type, value⟩ := x
  obtain ⟨_, _, rfl, ⟨l, rfl, hl, rfl⟩, _, _, rfl, ⟨i, rfl, hi, rfl⟩, us, _, rfl, htype, vs, _, rfl,
    hvalue, c, rfl, hc⟩ := h
  simp only [List.length_append, List.length_singleton] at hb
  have hread : after "=" (expression b) (vs ++ c :: rest) = .ok (value, c :: rest) :=
    initial_of_spelled hcan.2.2 hvalue (by omega) hc
  simp only [List.append_assoc, List.cons_append, List.nil_append]
  rw [binding, current_bind, keyword_bind hl, identifier_bind hi,
    bind_of_ok (typeName_of_phrase htype (front_initial hvalue hc)), bind_of_ok hread,
    operator_bind hc]
  rfl

/-! ## First tokens of statements -/

/-- The token can be the first of a statement. -/
def BeginsStmt (t : Token) : Prop :=
  Begins t ∨ ∃ word, t.isKeyword word ∧ word ∈ [Keyword.LET, .IF, .FOR, .WHILE, .RETURN]

theorem Begins.not_keyword (h : Begins t) (w : Keyword)
    (hw : w ≠ .NIL ∧ w ≠ .TRUE ∧ w ≠ .FALSE) : t.kind ≠ .keyword w := by
  intro hk
  rcases h with h | h | h
  · cases w <;> simp_all [literal?]
  · simp [hk] at h
  · simp [kind_of_isOperator h] at hk

theorem Begins.not_end (h : Begins t) : t.kind ≠ .endOfInput := by
  intro hk
  rcases h with h | h | h
  · simp [literal?, hk] at h
  · simp [hk] at h
  · simp [kind_of_isOperator h] at hk

theorem beginsStmt_of_spelled {s : Stmt} (h : s.Spelled ts) :
    ∃ t us, ts = t :: us ∧ BeginsStmt t := by
  cases s with
  | expression p value =>
    obtain ⟨⟨us, vs, rfl, hs, -⟩, -⟩ := h
    obtain ⟨t, ws, rfl, ht⟩ := begins_of_spelled hs
    exact ⟨t, ws ++ vs, rfl, .inl ht⟩
  | assign p target value =>
    obtain ⟨⟨us, vs, rfl, hs, -⟩, -⟩ := h
    obtain ⟨t, ws, rfl, ht⟩ := begins_of_spelled hs
    exact ⟨t, ws ++ vs, rfl, .inl ht⟩
  | declare x =>
    obtain ⟨_, vs, rfl, ⟨t, rfl, ht, -⟩, -⟩ := h
    exact ⟨t, vs, rfl, .inr ⟨.LET, ht, by decide⟩⟩
  | conditional =>
    obtain ⟨_, vs, rfl, ⟨t, rfl, ht, -⟩, -⟩ := h
    exact ⟨t, vs, rfl, .inr ⟨.IF, ht, by decide⟩⟩
  | forLoop =>
    obtain ⟨_, vs, rfl, ⟨t, rfl, ht, -⟩, -⟩ := h
    exact ⟨t, vs, rfl, .inr ⟨.FOR, ht, by decide⟩⟩
  | whileLoop =>
    obtain ⟨_, vs, rfl, ⟨t, rfl, ht, -⟩, -⟩ := h
    exact ⟨t, vs, rfl, .inr ⟨.WHILE, ht, by decide⟩⟩
  | ret =>
    obtain ⟨_, vs, rfl, ⟨t, rfl, ht, -⟩, -⟩ := h
    exact ⟨t, vs, rfl, .inr ⟨.RETURN, ht, by decide⟩⟩
  | unknown => exact h.elim

theorem BeginsStmt.not_closer (h : BeginsStmt t) :
    t.isKeyword .ELSE = false ∧ t.isKeyword .END = false ∧ t.kind ≠ .endOfInput := by
  rcases h with h | ⟨word, ht, hw⟩
  · have helse := h.not_keyword .ELSE (by decide)
    have hend := h.not_keyword .END (by decide)
    simp [Token.isKeyword, helse, hend, h.not_end]
  · have hk := kind_of_isKeyword ht
    refine ⟨?_, ?_, by simp [hk]⟩
    · refine not_isKeyword_of_ne ht ?_
      rintro rfl
      revert hw
      decide
    · refine not_isKeyword_of_ne ht ?_
      rintro rfl
      revert hw
      decide

/-! ## Blocks -/

theorem block_of_all {item : Production Stmt} {closers : List Keyword} {ss : List Stmt}
    {bound : Nat}
    (hclosers : closers ⊆ [.ELSE, .END]) (h : all (Stmt.spellings ss) ts) (hb : ts.length < bound)
    (hitem : ∀ s ∈ ss, ∀ us, s.Spelled us → us ⊆ ts → us.length ≤ ts.length → ∀ rest,
      item (us ++ rest) = .ok (s, rest))
    (hr : closers.any (front rest).isKeyword) :
    block item closers bound (ts ++ rest) = .ok (ss, rest) := by
  induction ss generalizing ts bound with
  | nil =>
    obtain rfl : ts = [] := h
    cases bound with
    | zero => cases hb
    | succ bound =>
      rw [block, current_bind, List.nil_append, if_pos hr]
      rfl
  | cons s ss ih =>
    obtain ⟨us, vs, rfl, hs, hss⟩ := h
    simp only [List.length_append] at hb hitem
    obtain ⟨t, ws, hus, ht⟩ := beginsStmt_of_spelled hs
    have hpos : 0 < us.length := by simp [hus]
    cases bound with
    | zero => omega
    | succ bound =>
      have hfirst := hitem s (by simp) us hs (by simp) (by omega) (vs ++ rest)
      have hothers : block item closers bound (vs ++ rest) = .ok (ss, rest) := by
        refine ih hss (by omega) fun s' hs' xs hxs hsub hlen => ?_
        exact hitem s' (by simp [hs']) xs hxs (List.Subset.trans hsub (by simp)) (by omega)
      have hfront : front (us ++ (vs ++ rest)) = t := by simp [hus]
      obtain ⟨helse, hend, hk⟩ := ht.not_closer
      have hany : closers.any t.isKeyword = false := by
        refine List.any_eq_false.mpr fun word hw => ?_
        have hword : word = .ELSE ∨ word = .END := by simpa using hclosers hw
        rcases hword with rfl | rfl
        · simp [helse]
        · simp [hend]
      rw [block, current_bind, List.append_assoc, hfront, if_neg (by simp [hany]),
        if_neg (by simpa using hk), bind_of_ok hfirst, bind_of_ok hothers]
      rfl

/-! ## Statements -/

theorem statement_simple (h : Begins t) :
    statement (b + 1) (t :: ts) = simple (expression (b + 1)) (t :: ts) := by
  rw [statement, current_bind, front_cons]
  cases hk : t.kind with
  | keyword word =>
    cases word <;> first | rfl | exact (h.not_keyword _ (by decide) hk).elim
  | _ => rfl

/-- What reading a stretch of tokens as a statement gives, whatever follows. -/
def ReadAs (b : Nat) (s : Stmt) (ts : List Token) : Prop :=
  ∀ rest, statement b (ts ++ rest) = .ok (s, rest)

theorem readAs_declare {x : Binding} (hcan : x.Consists Expr.Canonical fun _ => True)
    (h : x.Spelled ts) (hb : ts.length ≤ b + 1) : ReadAs (b + 1) (.declare x) ts := by
  intro rest
  have hread : binding (expression (b + 1)) (ts ++ rest) = .ok (x, rest) :=
    binding_of_spelled hcan h hb
  obtain ⟨_, us, rfl, ⟨t, rfl, ht, -⟩, -⟩ := h
  have hfront : front ([t] ++ us ++ rest) = t := rfl
  rw [statement, current_bind, hfront, kind_of_isKeyword ht]
  simp only
  rw [bind_of_ok hread]
  rfl

theorem readAs_expression {p : Position} {value : Expr} (hcan : value.Canonical)
    (h : (Stmt.expression p value).Spelled ts) (hb : ts.length ≤ b + 1) :
    ReadAs (b + 1) (.expression p value) ts := by
  intro rest
  obtain ⟨⟨us, _, rfl, hs, c, rfl, hc⟩, rfl⟩ := h
  simp only [List.length_append, List.length_singleton] at hb
  have hread : expression (b + 1) (us ++ c :: rest) = .ok (value, c :: rest) :=
    expression_of_spelled hcan hs (by omega) (follows_mark hc (by simp))
  have hafter : after "=" (expression (b + 1)) (c :: rest) = .ok (none, c :: rest) :=
    after_none (not_isOperator_of_ne hc (by decide))
  obtain ⟨t, ws, hus, ht⟩ := begins_of_spelled hs
  obtain ⟨_, _, hus', hp⟩ := Expr.cons_of_spelled hs
  obtain ⟨rfl, rfl⟩ := List.cons.inj (hus.symm.trans hus')
  subst hus
  simp only [List.append_assoc, List.cons_append, List.nil_append] at hread ⊢
  rw [statement_simple ht, simple, current_bind, front_cons, bind_of_ok hread, bind_of_ok hafter,
    operator_bind hc, hp]
  rfl

theorem readAs_assign {p : Position} {target value : Expr} (hcan : target.Canonical)
    (hcan' : value.Canonical) (h : (Stmt.assign p target value).Spelled ts)
    (hb : ts.length ≤ b + 1) : ReadAs (b + 1) (.assign p target value) ts := by
  intro rest
  obtain ⟨⟨us, _, rfl, hs, _, _, rfl, ⟨o, rfl, ho⟩, vs, _, rfl, hs', c, rfl, hc⟩, rfl⟩ := h
  simp only [List.length_append, List.length_singleton] at hb
  have hread : expression (b + 1) (us ++ o :: (vs ++ c :: rest)) =
      .ok (target, o :: (vs ++ c :: rest)) :=
    expression_of_spelled hcan hs (by omega) (follows_mark ho (by simp))
  have hread' : expression (b + 1) (vs ++ c :: rest) = .ok (value, c :: rest) :=
    expression_of_spelled hcan' hs' (by omega) (follows_mark hc (by simp))
  obtain ⟨t, ws, hus, ht⟩ := begins_of_spelled hs
  obtain ⟨_, _, hus', hp⟩ := Expr.cons_of_spelled hs
  obtain ⟨rfl, rfl⟩ := List.cons.inj (hus.symm.trans hus')
  subst hus
  simp only [List.append_assoc, List.cons_append, List.nil_append] at hread ⊢
  rw [statement_simple ht, simple, current_bind, front_cons, bind_of_ok hread,
    bind_of_ok (after_some ho hread'), operator_bind hc, hp]
  rfl

theorem readAs_ret {p : Position} {value : Expr} (hcan : value.Canonical)
    (h : (Stmt.ret p value).Spelled ts) (hb : ts.length ≤ b + 1) :
    ReadAs (b + 1) (.ret p value) ts := by
  intro rest
  obtain ⟨_, _, rfl, ⟨r, rfl, hr, rfl⟩, us, _, rfl, hs, c, rfl, hc⟩ := h
  simp only [List.length_append, List.length_singleton] at hb
  have hread : expression (b + 1) (us ++ c :: rest) = .ok (value, c :: rest) :=
    expression_of_spelled hcan hs (by omega) (follows_mark hc (by simp))
  simp only [List.append_assoc, List.cons_append, List.nil_append]
  rw [statement, current_bind, front_cons, kind_of_isKeyword hr]
  simp only
  rw [ret, current_bind, front_cons, keyword_bind hr, bind_of_ok hread, operator_bind hc]
  rfl

/-- What is known of the statements of a body when the statement around it is read. -/
def BodyReads (b : Nat) (ss : List Stmt) : Prop :=
  ∀ s ∈ ss, ∀ us, s.Spelled us → (∀ t ∈ us, t.Lexical) → us.length ≤ b → ReadAs b s us

theorem block_of_body {closers : List Keyword} {ss : List Stmt} (hss : BodyReads b ss)
    (hclosers : closers ⊆ [.ELSE, .END]) (h : all (Stmt.spellings ss) ts)
    (hlex : ∀ t ∈ ts, t.Lexical) (hb : ts.length < b)
    (hr : closers.any (front rest).isKeyword) :
    block (statement b) closers b (ts ++ rest) = .ok (ss, rest) := by
  refine block_of_all hclosers h hb (fun s hs us hus hsub hlen => ?_) hr
  exact hss s hs us hus (fun t ht => hlex t (hsub ht)) (by omega)

theorem any_end {t : Token} (ht : t.isKeyword .END) (closers : List Keyword)
    (h : Keyword.END ∈ closers) : closers.any t.isKeyword :=
  List.any_eq_true.mpr ⟨.END, h, ht⟩

theorem readAs_forLoop {p : Position} {name : String} {iterable : Expr} {body : List Stmt}
    (hcan : iterable.Canonical) (hbody : BodyReads b body)
    (h : (Stmt.forLoop p name iterable body).Spelled ts) (hlex : ∀ t ∈ ts, t.Lexical)
    (hb : ts.length ≤ b + 1) : ReadAs (b + 1) (.forLoop p name iterable body) ts := by
  intro rest
  obtain ⟨_, _, rfl, ⟨f, rfl, hf, rfl⟩, _, _, rfl, ⟨i, rfl, hi, rfl⟩, _, _, rfl, ⟨k, rfl, hk⟩, us, _,
    rfl, hs, _, _, rfl, ⟨d, rfl, hd⟩, vs, _, rfl, hss, n, rfl, hn⟩ := h
  simp only [List.length_append, List.length_singleton] at hb
  have hread : expression (b + 1) (us ++ d :: (vs ++ n :: rest)) =
      .ok (iterable, d :: (vs ++ n :: rest)) :=
    expression_of_spelled hcan hs (by omega) (follows_of_keyword hd (hlex d (by simp)) rfl)
  have hblock : block (statement b) [.END] b (vs ++ n :: rest) = .ok (body, n :: rest) :=
    block_of_body hbody (by simp) hss (fun t ht => hlex t (by simp [ht])) (by omega)
      (any_end hn _ (by simp))
  simp only [List.append_assoc, List.cons_append, List.nil_append]
  rw [statement, current_bind, front_cons, kind_of_isKeyword hf]
  simp only
  rw [forLoop, current_bind, front_cons, keyword_bind hf, identifier_bind hi, keyword_bind hk,
    bind_of_ok hread, keyword_bind hd, bind_of_ok hblock, keyword_bind hn]
  rfl

theorem readAs_whileLoop {p : Position} {condition : Expr} {body : List Stmt}
    (hcan : condition.Canonical) (hbody : BodyReads b body)
    (h : (Stmt.whileLoop p condition body).Spelled ts) (hlex : ∀ t ∈ ts, t.Lexical)
    (hb : ts.length ≤ b + 1) : ReadAs (b + 1) (.whileLoop p condition body) ts := by
  intro rest
  obtain ⟨_, _, rfl, ⟨w, rfl, hw, rfl⟩, us, _, rfl, hs, _, _, rfl, ⟨d, rfl, hd⟩, vs, _, rfl, hss, n,
    rfl, hn⟩ := h
  simp only [List.length_append, List.length_singleton] at hb
  have hread : expression (b + 1) (us ++ d :: (vs ++ n :: rest)) =
      .ok (condition, d :: (vs ++ n :: rest)) :=
    expression_of_spelled hcan hs (by omega) (follows_of_keyword hd (hlex d (by simp)) rfl)
  have hblock : block (statement b) [.END] b (vs ++ n :: rest) = .ok (body, n :: rest) :=
    block_of_body hbody (by simp) hss (fun t ht => hlex t (by simp [ht])) (by omega)
      (any_end hn _ (by simp))
  simp only [List.append_assoc, List.cons_append, List.nil_append]
  rw [statement, current_bind, front_cons, kind_of_isKeyword hw]
  simp only
  rw [whileLoop, current_bind, front_cons, keyword_bind hw, bind_of_ok hread, keyword_bind hd,
    bind_of_ok hblock, keyword_bind hn]
  rfl

theorem readAs_conditional {p : Position} {condition : Expr} {thenBody elseBody : List Stmt}
    (hcan : condition.Canonical) (hthen : BodyReads b thenBody) (helse : BodyReads b elseBody)
    (h : (Stmt.conditional p condition thenBody elseBody).Spelled ts)
    (hlex : ∀ t ∈ ts, t.Lexical) (hb : ts.length ≤ b + 1) :
    ReadAs (b + 1) (.conditional p condition thenBody elseBody) ts := by
  intro rest
  obtain ⟨_, _, rfl, ⟨i, rfl, hi, rfl⟩, us, _, rfl, hs, _, _, rfl, ⟨d, rfl, hd⟩, vs, ws, rfl, hss,
    halt⟩ := h
  simp only [List.length_append, List.length_singleton] at hb
  have hread : expression (b + 1) (us ++ d :: (vs ++ (ws ++ rest))) =
      .ok (condition, d :: (vs ++ (ws ++ rest))) :=
    expression_of_spelled hcan hs (by omega) (follows_of_keyword hd (hlex d (by simp)) rfl)
  have hblock : ∀ r, [Keyword.ELSE, .END].any (front r).isKeyword →
      block (statement b) [.ELSE, .END] b (vs ++ r) = .ok (thenBody, r) := fun r hr =>
    block_of_body hthen (by simp) hss (fun t ht => hlex t (by simp [ht])) (by omega) hr
  simp only [List.append_assoc, List.cons_append, List.nil_append]
  rw [statement, current_bind, front_cons, kind_of_isKeyword hi]
  simp only
  rw [conditional, current_bind, front_cons, keyword_bind hi, bind_of_ok hread, keyword_bind hd]
  rcases halt with ⟨rfl, n, rfl, hn⟩ | ⟨_, _, rfl, ⟨l, rfl, hl⟩, xs, _, rfl, hes, n, rfl, hn⟩
  · have hnot : n.isKeyword .ELSE = false := not_isKeyword_of_ne hn (by decide)
    rw [bind_of_ok (hblock _ (any_end (t := n) hn _ (by simp))), List.singleton_append,
      atKeyword_bind, front_cons, hnot, if_neg (by simp), keyword_bind hn]
    rfl
  · simp only [List.length_append, List.length_singleton] at hb
    have hblock' : block (statement b) [.END] b (xs ++ n :: rest) = .ok (elseBody, n :: rest) :=
      block_of_body helse (by simp) hes (fun t ht => hlex t (by simp [ht])) (by omega)
        (any_end hn _ (by simp))
    have hany : [Keyword.ELSE, .END].any (front (l :: (xs ++ n :: rest))).isKeyword := by
      simp [hl]
    simp only [List.append_assoc, List.cons_append, List.nil_append]
    rw [bind_of_ok (hblock _ hany), atKeyword_bind, front_cons, if_pos hl,
      advance_bind (by simp [kind_of_isKeyword hl]), bind_of_ok hblock', keyword_bind hn]
    rfl

/-- The tokens of a body are read as its statements, since those of each statement are. -/
theorem bodyReads {ss : List Stmt}
    (h : ∀ s ∈ ss, ∀ b us, s.Spelled us → (∀ t ∈ us, t.Lexical) → us.length ≤ b + 1 →
      ReadAs (b + 1) s us) : BodyReads b ss := by
  intro s hs us hus hlex hb
  obtain ⟨t, vs, rfl, -⟩ := beginsStmt_of_spelled hus
  cases b with
  | zero => cases hb
  | succ b => exact h s hs b _ hus hlex hb

theorem statement_of_spelled {s : Stmt} (hcan : s.Consists Expr.Canonical fun _ => True) :
    ∀ b ts, s.Spelled ts → (∀ t ∈ ts, t.Lexical) → ts.length ≤ b + 1 → ReadAs (b + 1) s ts := by
  induction s with
  | expression p value => exact fun b ts h _ hb => readAs_expression hcan h hb
  | declare x => exact fun b ts h _ hb => readAs_declare hcan h hb
  | assign p target value => exact fun b ts h _ hb => readAs_assign hcan.1 hcan.2 h hb
  | ret p value => exact fun b ts h _ hb => readAs_ret hcan h hb
  | conditional p condition thenBody elseBody iht ihe =>
    obtain ⟨hc, hthen, helse⟩ := hcan
    rw [Stmt.allConsist_iff] at hthen helse
    intro b ts h hlex hb
    exact readAs_conditional hc (bodyReads fun s hs => iht s hs (hthen s hs))
      (bodyReads fun s hs => ihe s hs (helse s hs)) h hlex hb
  | forLoop p name iterable body ih =>
    obtain ⟨-, hi, hbody⟩ := hcan
    rw [Stmt.allConsist_iff] at hbody
    intro b ts h hlex hb
    exact readAs_forLoop hi (bodyReads fun s hs => ih s hs (hbody s hs)) h hlex hb
  | whileLoop p condition body ih =>
    obtain ⟨hc, hbody⟩ := hcan
    rw [Stmt.allConsist_iff] at hbody
    intro b ts h hlex hb
    exact readAs_whileLoop hc (bodyReads fun s hs => ih s hs (hbody s hs)) h hlex hb
  | unknown => exact fun b ts h => h.elim

/-! ## Methods and programs -/

theorem param_of_spelled {p : Param} (h : p.Spelled ts)
    (hr : (front rest).isOperator ":" = false) : param (ts ++ rest) = .ok (p, rest) := by
  obtain ⟨p, name, type⟩ := p
  obtain ⟨_, us, rfl, ⟨i, rfl, ⟨hi, rfl⟩, rfl⟩, htype⟩ := h
  simp only [List.cons_append, List.nil_append]
  rw [param, current_bind, front_cons, identifier_bind hi,
    bind_of_ok (typeName_of_phrase htype hr)]
  rfl

theorem params_of_spelled {ps : List Param}
    (h : Phrase.parenthesised (ps.map Param.Spelled) ts) (hb : ts.length ≤ b) :
    parenthesised param b (ts ++ rest) = .ok (ps, rest) := by
  refine parenthesised_of_phrase h hb (fun p _ us hus _ rest hr => param_of_spelled hus ?_) ?_
  · rcases hr with hr | hr
    · exact not_isOperator_of_ne hr (by decide)
    · exact not_isOperator_of_ne hr (by decide)
  · rintro p - us ⟨_, vs, rfl, ⟨i, rfl, ⟨hi, -⟩, -⟩, -⟩ rest
    exact not_isOperator_of_kind (by simp [hi])

theorem method_of_spelled {m : Method} (hcan : m.Consists Expr.Canonical fun _ => True)
    (h : m.Spelled ts) (hlex : ∀ t ∈ ts, t.Lexical) (hb : ts.length ≤ b) :
    method b (ts ++ rest) = .ok (m, rest) := by
  obtain ⟨p, name, params, returnType, body⟩ := m
  obtain ⟨-, -, -, hbody⟩ := hcan
  rw [Stmt.allConsist_iff] at hbody
  obtain ⟨_, _, rfl, ⟨d, rfl, hd, rfl⟩, _, _, rfl, ⟨i, rfl, hi, rfl⟩, us, _, rfl, hparams, vs, _, rfl,
    htype, _, _, rfl, ⟨o, rfl, ho⟩, ws, _, rfl, hss, n, rfl, hn⟩ := h
  simp only [List.length_append, List.length_singleton] at hb
  have hread : parenthesised param b (us ++ (vs ++ o :: (ws ++ n :: rest))) =
      .ok (params, vs ++ o :: (ws ++ n :: rest)) := params_of_spelled hparams (by omega)
  have hblock : block (statement b) [.END] b (ws ++ n :: rest) = .ok (body, n :: rest) :=
    block_of_body (bodyReads fun s hs => statement_of_spelled (hbody s hs)) (by simp) hss
      (fun t ht => hlex t (by simp [ht])) (by omega) (any_end hn _ (by simp))
  have hcolon : (front (o :: (ws ++ n :: rest))).isOperator ":" = false :=
    not_isOperator_of_kind (by simp [kind_of_isKeyword ho])
  simp only [List.append_assoc, List.cons_append, List.nil_append]
  rw [method, current_bind, front_cons, keyword_bind hd, identifier_bind hi, bind_of_ok hread,
    bind_of_ok (typeName_of_phrase htype hcolon), keyword_bind ho, bind_of_ok hblock,
    keyword_bind hn]
  rfl

theorem whileKeyword_of_all {α : Type} {item : Production α} {S : α → Phrase} {xs : List α}
    {word : Keyword} {bound : Nat} (h : all (xs.map S) ts) (hb : ts.length ≤ bound)
    (hitem : ∀ x ∈ xs, ∀ us, S x us → us ⊆ ts → us.length ≤ ts.length → ∀ rest,
      item (us ++ rest) = .ok (x, rest))
    (hfront : ∀ x ∈ xs, ∀ us, S x us → ∃ t vs, us = t :: vs ∧ t.isKeyword word)
    (hr : (front rest).isKeyword word = false) :
    whileKeyword word item bound (ts ++ rest) = .ok (xs, rest) := by
  induction xs generalizing ts bound with
  | nil =>
    obtain rfl : ts = [] := h
    cases bound with
    | zero => rfl
    | succ bound =>
      rw [whileKeyword, atKeyword_bind, List.nil_append, hr]
      rfl
  | cons x xs ih =>
    obtain ⟨us, vs, rfl, hx, hxs⟩ := h
    simp only [List.length_append] at hb hitem
    obtain ⟨t, ws, hus, ht⟩ := hfront x (by simp) us hx
    have hpos : 0 < us.length := by simp [hus]
    cases bound with
    | zero => omega
    | succ bound =>
      have hfirst := hitem x (by simp) us hx (by simp) (by omega) (vs ++ rest)
      have hothers : whileKeyword word item bound (vs ++ rest) = .ok (xs, rest) := by
        refine ih hxs (by omega) (fun y hy zs hzs hsub hlen => ?_) fun y hy =>
          hfront y (by simp [hy])
        exact hitem y (by simp [hy]) zs hzs (List.Subset.trans hsub (by simp)) (by omega)
      have hword : (front (us ++ (vs ++ rest))).isKeyword word := by simpa [hus] using ht
      rw [whileKeyword, atKeyword_bind, List.append_assoc, if_pos hword, bind_of_ok hfirst,
        bind_of_ok hothers]
      rfl

theorem front_methods {ms : List Method} (h : all (ms.map Method.Spelled) ts)
    (hr : (front rest).kind = .endOfInput) : (front (ts ++ rest)).isKeyword .LET = false := by
  cases ms with
  | nil =>
    obtain rfl : ts = [] := h
    simp [Token.isKeyword, hr]
  | cons m ms =>
    obtain ⟨_, us, rfl, ⟨_, vs, rfl, ⟨d, rfl, hd, -⟩, -⟩, -⟩ := h
    exact not_isKeyword_of_ne hd (by decide)

theorem program_of_spelled {p : Program} (hcan : p.Canonical) (h : p.Spelled ts)
    (hlex : ∀ t ∈ ts, t.Lexical) (hb : ts.length ≤ b) (hr : (front rest).kind = .endOfInput) :
    program b (ts ++ rest) = .ok (p, rest) := by
  obtain ⟨fields, methods⟩ := p
  obtain ⟨us, vs, rfl, hfields, hmethods⟩ := h
  simp only [List.length_append] at hb
  have hreadFields : whileKeyword .LET (binding (expression b)) b (us ++ (vs ++ rest)) =
      .ok (fields, vs ++ rest) := by
    refine whileKeyword_of_all hfields (by omega) (fun x hx ws hws _ hlen rest => ?_) ?_
      (front_methods hmethods hr)
    · exact binding_of_spelled (hcan.1 x hx) hws (by omega)
    · rintro x - ws ⟨_, xs, rfl, ⟨l, rfl, hl, -⟩, -⟩
      exact ⟨l, xs, rfl, hl⟩
  have hreadMethods : whileKeyword .DEF (method b) b (vs ++ rest) = .ok (methods, rest) := by
    refine whileKeyword_of_all hmethods (by omega) (fun m hm ws hws hsub hlen rest => ?_) ?_
      (by simp [Token.isKeyword, hr])
    · exact method_of_spelled (hcan.2 m hm) hws (fun t ht => hlex t (by simp [hsub ht])) (by omega)
    · rintro m - ws ⟨_, xs, rfl, ⟨d, rfl, hd, -⟩, -⟩
      exact ⟨d, xs, rfl, hd⟩
  rw [program, List.append_assoc, bind_of_ok hreadFields, bind_of_ok hreadMethods, current_bind,
    if_pos (by simpa using hr)]
  rfl

end BlockScript.Grammar
