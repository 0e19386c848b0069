import BlockScript.Proofs.Syntax.Reading

/-!
# Reading programs is sound

What the productions of statements, methods and programs take spells what they give, and all
expressions in it are canonical.
-/

namespace BlockScript

namespace Grammar

open Phrase

variable {ts us : List Token}

/-- What a statement, a binding or a method says and its tokens. -/
def ReadsBinding (b : Binding) : Phrase := fun ts =>
  b.Spelled ts ∧ b.Consists Expr.Canonical fun _ => True

@[inherit_doc ReadsBinding]
def ReadsStmt (s : Stmt) : Phrase := fun ts =>
  s.Spelled ts ∧ s.Consists Expr.Canonical fun _ => True

@[inherit_doc ReadsBinding]
def ReadsBody (ss : List Stmt) : Phrase := fun ts =>
  all (Stmt.spellings ss) ts ∧ Stmt.AllConsist Expr.Canonical (fun _ => True) ss

@[inherit_doc ReadsBinding]
def ReadsMethod (m : Method) : Phrase := fun ts =>
  m.Spelled ts ∧ m.Consists Expr.Canonical fun _ => True

theorem readsInitial_iff {value : Option Expr} :
    initial (value.map (Reads 0)) ts ↔
      initial (value.map Expr.Spelled) ts ∧ ∀ e ∈ value, e.Canonical := by
  cases value with
  | none => simp [initial]
  | some e =>
    simp only [Option.map_some, Option.mem_def, Option.some.injEq, forall_eq']
    constructor
    · rintro ⟨us, vs, rfl, hequals, hs, hc, -⟩
      exact ⟨followedBy_append hequals hs, hc⟩
    · rintro ⟨⟨us, vs, rfl, hequals, hs⟩, hc⟩
      exact followedBy_append hequals ⟨hs, hc, Nat.zero_le _⟩

theorem readsBody_iff {ss : List Stmt} : ReadsBody ss ts ↔ all (ss.map ReadsStmt) ts := by
  unfold ReadsBody
  rw [Stmt.spellings_eq_map, Stmt.allConsist_iff]
  exact all_and.symm

/-- The fields and the methods of a program, all expressions in them canonical. -/
theorem reads_program_iff {p : Program} : p.Spelled ts ∧ p.Canonical ↔
    (all (p.fields.map ReadsBinding)).followedBy (all (p.methods.map ReadsMethod)) ts := by
  constructor
  · rintro ⟨⟨us, vs, rfl, hf, hm⟩, hcf, hcm⟩
    exact followedBy_append (all_and.mpr ⟨hf, hcf⟩) (all_and.mpr ⟨hm, hcm⟩)
  · rintro ⟨us, vs, rfl, hf, hm⟩
    obtain ⟨hf, hcf⟩ := all_and.mp hf
    obtain ⟨hm, hcm⟩ := all_and.mp hm
    exact ⟨followedBy_append hf hm, hcf, hcm⟩

theorem takes_binding {expr : Production Expr} (hexpr : Takes expr (Reads 0)) :
    Takes (binding expr) ReadsBinding := by
  intro ts b us h
  unfold binding at h
  rw [current_bind] at h
  obtain ⟨l, vs, rfl, hl, h⟩ := keyword_bind_ok h
  obtain ⟨i, vs, rfl, hi, h⟩ := identifier_bind_ok h
  obtain ⟨type, ws, htype, h⟩ := bind_ok h
  obtain ⟨value, xs, hvalue, h⟩ := bind_ok h
  obtain ⟨c, ys, rfl, hc, h⟩ := operator_bind_ok h
  cases h
  obtain ⟨used, rfl, ht⟩ := takes_typeName htype
  obtain ⟨used', rfl, hv⟩ := takes_initial hexpr hvalue
  have hinitial := readsInitial_iff.mp hv
  exact ⟨l :: i :: (used ++ (used' ++ [c])), by simp,
    followedBy_cons ⟨hl, rfl⟩ (followedBy_cons ⟨hi, rfl⟩ (followedBy_append ht
      (followedBy_append hinitial.1 (one_singleton hc)))),
    trivial, fun _ _ => trivial, hinitial.2⟩

theorem takes_block {statement : Production Stmt} (hstatement : Takes statement ReadsStmt)
    (closers : List Keyword) (bound : Nat) : Takes (block statement closers bound) ReadsBody := by
  induction bound with
  | zero =>
    intro ts ss us h
    exact (expected_ok h).elim
  | succ bound ih =>
    intro ts ss us h
    unfold block at h
    rw [current_bind] at h
    split_ifs at h
    · cases h
      exact ⟨[], rfl, rfl, trivial⟩
    · exact (expected_ok h).elim
    · obtain ⟨s, ws, hs, h⟩ := bind_ok h
      obtain ⟨ss, ws', hss, h⟩ := bind_ok h
      cases h
      obtain ⟨used, rfl, hspelled, hcan⟩ := hstatement hs
      obtain ⟨used', rfl, hspelled', hcan'⟩ := ih hss
      exact ⟨used ++ used', by simp, followedBy_append hspelled hspelled', hcan, hcan'⟩

section

variable {expr : Production Expr} {nested : Production Stmt} (hexpr : Takes expr (Reads 0))
  (hnested : Takes nested ReadsStmt) (bound : Nat)
include hexpr

section

include hnested

theorem takes_conditional : Takes (conditional expr nested bound) ReadsStmt := by
  intro ts s us h
  unfold conditional at h
  rw [current_bind] at h
  obtain ⟨i, vs, rfl, hi, h⟩ := keyword_bind_ok h
  obtain ⟨condition, ws, hcondition, h⟩ := bind_ok h
  obtain ⟨d, ws, rfl, hd, h⟩ := keyword_bind_ok h
  obtain ⟨thenBody, ws', hthen, h⟩ := bind_ok h
  obtain ⟨used, rfl, hcond, hcan, -⟩ := hexpr hcondition
  obtain ⟨used', rfl, hspelled, hconsist⟩ := takes_block hnested _ _ hthen
  rw [atKeyword_bind] at h
  split_ifs at h with helse
  · obtain ⟨t, vs, rfl, h⟩ := advance_bind_ok (by simp [kind_of_isKeyword helse]) h
    obtain ⟨elseBody, ws, helses, h⟩ := bind_ok h
    obtain ⟨n, ws, rfl, hn, h⟩ := keyword_bind_ok h
    cases h
    obtain ⟨used'', rfl, hspelled', hconsist'⟩ := takes_block hnested _ _ helses
    exact ⟨i :: (used ++ d :: (used' ++ t :: (used'' ++ [n]))), by simp,
      followedBy_cons ⟨hi, rfl⟩ (followedBy_append hcond (followedBy_cons hd
        (followedBy_append hspelled (.inr (followedBy_cons helse
          (followedBy_append hspelled' (one_singleton hn))))))),
      hcan, hconsist, hconsist'⟩
  · obtain ⟨n, ws, rfl, hn, h⟩ := keyword_bind_ok h
    cases h
    exact ⟨i :: (used ++ d :: (used' ++ [n])), by simp,
      followedBy_cons ⟨hi, rfl⟩ (followedBy_append hcond (followedBy_cons hd
        (followedBy_append hspelled (.inl ⟨rfl, one_singleton hn⟩)))),
      hcan, hconsist, trivial⟩

theorem takes_forLoop : Takes (forLoop expr nested bound) ReadsStmt := by
  intro ts s us h
  unfold forLoop at h
  rw [current_bind] at h
  obtain ⟨f, vs, rfl, hf, h⟩ := keyword_bind_ok h
  obtain ⟨i, vs, rfl, hi, h⟩ := identifier_bind_ok h
  obtain ⟨k, vs, rfl, hk, h⟩ := keyword_bind_ok h
  obtain ⟨iterable, ws, hiterable, h⟩ := bind_ok h
  obtain ⟨d, ws, rfl, hd, h⟩ := keyword_bind_ok h
  obtain ⟨body, ws', hbody, h⟩ := bind_ok h
  obtain ⟨n, ws', rfl, hn, h⟩ := keyword_bind_ok h
  cases h
  obtain ⟨used, rfl, hiter, hcan, -⟩ := hexpr hiterable
  obtain ⟨used', rfl, hspelled, hconsist⟩ := takes_block hnested _ _ hbody
  exact ⟨f :: i :: k :: (used ++ d :: (used' ++ [n])), by simp,
    followedBy_cons ⟨hf, rfl⟩ (followedBy_cons ⟨hi, rfl⟩ (followedBy_cons hk
      (followedBy_append hiter (followedBy_cons hd
        (followedBy_append hspelled (one_singleton hn)))))),
    trivial, hcan, hconsist⟩

theorem takes_whileLoop : Takes (whileLoop expr nested bound) ReadsStmt := by
  intro ts s us h
  unfold whileLoop at h
  rw [current_bind] at h
  obtain ⟨w, vs, rfl, hw, h⟩ := keyword_bind_ok h
  obtain ⟨condition, ws, hcondition, h⟩ := bind_ok h
  obtain ⟨d, ws, rfl, hd, h⟩ := keyword_bind_ok h
  obtain ⟨body, ws', hbody, h⟩ := bind_ok h
  obtain ⟨n, ws', rfl, hn, h⟩ := keyword_bind_ok h
  cases h
  obtain ⟨used, rfl, hcond, hcan, -⟩ := hexpr hcondition
  obtain ⟨used', rfl, hspelled, hconsist⟩ := takes_block hnested _ _ hbody
  exact ⟨w :: (used ++ d :: (used' ++ [n])), by simp,
    followedBy_cons ⟨hw, rfl⟩ (followedBy_append hcond (followedBy_cons hd
      (followedBy_append hspelled (one_singleton hn)))),
    hcan, hconsist⟩

end

theorem takes_ret : Takes (ret expr) ReadsStmt := by
  intro ts s us h
  unfold ret at h
  rw [current_bind] at h
  obtain ⟨r, vs, rfl, hr, h⟩ := keyword_bind_ok h
  obtain ⟨value, ws, hvalue, h⟩ := bind_ok h
  obtain ⟨c, ws, rfl, hc, h⟩ := operator_bind_ok h
  cases h
  obtain ⟨used, rfl, hspelled, hcan, -⟩ := hexpr hvalue
  exact ⟨r :: (used ++ [c]), by simp,
    followedBy_cons ⟨hr, rfl⟩ (followedBy_append hspelled (one_singleton hc)), hcan⟩

theorem takes_simple : Takes (simple expr) ReadsStmt := by
  intro ts s us h
  unfold simple at h
  rw [current_bind] at h
  obtain ⟨left, ws, hleft, h⟩ := bind_ok h
  obtain ⟨right, ws', hright, h⟩ := bind_ok h
  obtain ⟨c, ws', rfl, hc, h⟩ := operator_bind_ok h
  obtain ⟨used, rfl, hspelled, hcan, -⟩ := hexpr hleft
  obtain ⟨t, rest, rfl, ht⟩ := Expr.cons_of_spelled hspelled
  obtain ⟨used', rfl, hinitial⟩ := takes_initial hexpr hright
  cases right with
  | none =>
    obtain rfl : used' = [] := hinitial
    cases h
    exact ⟨t :: (rest ++ [c]), by simp, ⟨followedBy_append hspelled (one_singleton hc), ht⟩, hcan⟩
  | some value =>
    obtain ⟨_, vs, rfl, ⟨o, rfl, ho⟩, hspelled', hcan', -⟩ := hinitial
    cases h
    exact ⟨t :: (rest ++ o :: (vs ++ [c])), by simp,
      ⟨followedBy_append hspelled (followedBy_cons ho
        (followedBy_append hspelled' (one_singleton hc))), ht⟩, hcan, hcan'⟩

end

theorem takes_statement (bound : Nat) : Takes (statement bound) ReadsStmt := by
  induction bound with
  | zero =>
    intro ts s us h
    exact (expected_ok h).elim
  | succ bound ih =>
    intro ts s us h
    have hexpr := takes_expression (bound + 1)
    unfold statement at h
    simp only [current_bind] at h
    cases hk : (front ts).kind with
    | keyword word =>
      cases word <;> simp only [hk] at h
      case LET =>
        obtain ⟨b, ws, hb, h⟩ := bind_ok h
        cases h
        exact takes_binding hexpr hb
      case IF => exact takes_conditional hexpr ih bound h
      case FOR => exact takes_forLoop hexpr ih bound h
      case WHILE => exact takes_whileLoop hexpr ih bound h
      case RETURN => exact takes_ret hexpr h
      all_goals exact takes_simple hexpr h
    | _ => simp only [hk] at h; exact takes_simple hexpr h

/-! ## Programs -/

theorem takes_param : Takes param Param.Spelled := by
  intro ts p us h
  unfold param at h
  rw [current_bind] at h
  obtain ⟨i, vs, rfl, hi, h⟩ := identifier_bind_ok h
  obtain ⟨type, ws, htype, h⟩ := bind_ok h
  cases h
  obtain ⟨used, rfl, ht⟩ := takes_typeName htype
  exact ⟨i :: used, rfl, followedBy_cons ⟨⟨hi, rfl⟩, rfl⟩ ht⟩

theorem takes_method (bound : Nat) : Takes (method bound) ReadsMethod := by
  intro ts m us h
  unfold method at h
  rw [current_bind] at h
  obtain ⟨d, vs, rfl, hd, h⟩ := keyword_bind_ok h
  obtain ⟨i, vs, rfl, hi, h⟩ := identifier_bind_ok h
  obtain ⟨params, ws, hparams, h⟩ := bind_ok h
  obtain ⟨returnType, ws', htype, h⟩ := bind_ok h
  obtain ⟨o, ws', rfl, ho, h⟩ := keyword_bind_ok h
  obtain ⟨body, xs, hbody, h⟩ := bind_ok h
  obtain ⟨n, xs, rfl, hn, h⟩ := keyword_bind_ok h
  cases h
  obtain ⟨used, rfl, hp⟩ := takes_parenthesised takes_param bound hparams
  obtain ⟨used', rfl, ht⟩ := takes_typeName htype
  obtain ⟨used'', rfl, hspelled, hconsist⟩ := takes_block (takes_statement bound) _ _ hbody
  exact ⟨d :: i :: (used ++ (used' ++ o :: (used'' ++ [n]))), by simp,
    followedBy_cons ⟨hd, rfl⟩ (followedBy_cons ⟨hi, rfl⟩ (followedBy_append hp
      (followedBy_append ht (followedBy_cons ho
        (followedBy_append hspelled (one_singleton hn)))))),
    trivial, fun _ _ => ⟨trivial, fun _ _ => trivial⟩, fun _ _ => trivial, hconsist⟩

theorem program_ok {bound : Nat} {p : Program} (h : program bound ts = .ok (p, us)) :
    ∃ used, ts = used ++ us ∧ p.Spelled used ∧ p.Canonical ∧ (front us).kind = .endOfInput := by
  unfold program at h
  obtain ⟨fields, ws, hfields, h⟩ := bind_ok h
  obtain ⟨methods, ws', hmethods, h⟩ := bind_ok h
  rw [current_bind] at h
  split_ifs at h with hend
  · cases h
    have hbinding := takes_binding (takes_expression bound)
    obtain ⟨used, rfl, hf⟩ := takes_whileKeyword hbinding _ _ hfields
    obtain ⟨used', rfl, hm⟩ := takes_whileKeyword (takes_method bound) _ _ hmethods
    obtain ⟨hs, hc⟩ := reads_program_iff (p := ⟨fields, methods⟩).mpr (followedBy_append hf hm)
    exact ⟨used ++ used', by simp, hs, hc, by simpa using hend⟩
  · cases h
  · exact (expected_ok h).elim

end Grammar

theorem Program.ofTokens_eq_ok_iff {ts : List Token} {p : Program} :
    ofTokens ts = .ok p ↔ ∃ rest, Grammar.program ts.length ts = .ok (p, rest) := by
  change Except.map Prod.fst (Grammar.program ts.length ts) = .ok p ↔ _
  cases Grammar.program ts.length ts with
  | error d => simp [Except.map]
  | ok r => simp [Except.map, Prod.ext_iff]

theorem Program.parse_eq_ok_iff {text : String} {p : Program} :
    parse text = .ok p ↔ ∃ ts, Token.tokenize text = .ok ts ∧ ofTokens ts = .ok p := by
  unfold parse
  cases Token.tokenize text with
  | error d => simp [bind, Except.bind]
  | ok ts => simp [bind, Except.bind]

end BlockScript
