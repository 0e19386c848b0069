import BlockScript.Proofs.Syntax.Viable

/-!
# One token decides

Every production takes a word of its nonterminal or rejects the token behind a viable beginning, and
looks no further than that token. So a text is rejected at the first token that no program goes on
with.
-/

open scoped Computability

namespace BlockScript

/-! ## Languages of the right sides -/

namespace Ebnf

variable {e f : Ebnf} {n m : Nonterminal} {v : e.Val} {L M : Language Token} {ts : List Token}
  {terminals : List Terminal}

theorem completable_oneOf {r : Terminal} {t : Token} (hr : r ∈ terminals) (h : r.Matches t)
    (ht : t.Lexical) : Completable (oneOf terminals).language :=
  ⟨[t], List.forall_mem_singleton.mpr ht, mem_language_oneOf hr h⟩

instance (w : Keyword) : Completable (word w).language :=
  completable_oneOf (t := ⟨.keyword w, w.spelling, w.spelling, .start, 0⟩)
    (List.mem_singleton_self _) (by simp [Terminal.Matches, Token.isKeyword]) rfl

instance : Completable name.language :=
  completable_oneOf (t := ⟨.identifier, "x", "x", .start, 0⟩) (List.mem_singleton_self _) rfl
    ⟨⟨'x', [], rfl, rfl, nofun⟩, fun w => by cases w <;> decide⟩

/-- A text that can be an operator. -/
theorem completable_mark {text : String} {c : Char} (hc : text.toList.head? = some c)
    (hletter : Token.isLetter c = false) : Completable (mark text).language := by
  let t : Token := ⟨.operator, text, text, .start, 0⟩
  have ht : t.Lexical := by
    intro d hd
    obtain rfl : c = d := Option.some.inj (hc.symm.trans hd)
    exact hletter
  exact completable_oneOf (List.mem_singleton_self _)
    (by simp [Terminal.Matches, Token.isOperator, t]) ht

instance : Completable (mark "(").language := completable_mark rfl rfl
instance : Completable (mark ")").language := completable_mark rfl rfl
instance : Completable (mark ",").language := completable_mark rfl rfl
instance : Completable (mark ":").language := completable_mark rfl rfl
instance : Completable (mark "=").language := completable_mark rfl rfl
instance : Completable (mark ";").language := completable_mark rfl rfl
instance : Completable (mark ".").language := completable_mark rfl rfl

theorem language_typeName : typeName.language = 1 + (mark ":").language * name.language := by
  rw [typeName, language_opt, language_seq]

theorem language_initial :
    initial.language = 1 + (mark "=").language * (ref .expr).language := by
  rw [initial, language_opt, language_seq]

/-- A list in parentheses, by what follows the opening one. -/
theorem language_list : (list n).language = (mark "(").language * ((mark ")").language +
    (ref n).language * (((mark ",").language * (ref n).language)∗ * (mark ")").language)) := by
  simp only [list, language_seq, language_opt, language_star, add_mul, one_mul, mul_assoc]

theorem language_body : body.language = (ref .stmt).language∗ := language_star

theorem language_chain : (chain m terminals).language =
    (ref m).language * ((oneOf terminals).language * (ref m).language)∗ := by
  simp only [chain, language_seq, language_star]

theorem language_primary : (ref .primary).language = (oneOf literals).language +
    (name.language * (1 + (list .expr).language) +
      (mark "(").language * ((ref .expr).language * (mark ")").language)) := by
  rw [language_ref, rule]
  simp only [language_alt, language_seq, language_opt]
  rfl

theorem language_secondary :
    (ref .secondary).language = (ref .primary).language * selection.language∗ := by
  rw [language_ref, rule, language_seq, language_star]
  rfl

instance : Completable typeName.language := by
  rw [language_typeName]
  infer_instance

instance : Completable initial.language := by
  rw [language_initial]
  infer_instance

instance : Completable (list n).language := by
  rw [language_list]
  infer_instance

instance : Completable body.language := by
  rw [language_body]
  infer_instance

instance : Completable (ref .param).language := by
  rw [language_ref, rule, language_seq]
  infer_instance

instance : Completable (ref .primary).language := by
  have hnil : Completable (oneOf literals).language :=
    completable_oneOf (t := ⟨.keyword .NIL, "NIL", "NIL", .start, 0⟩) (List.mem_cons_self ..) rfl rfl
  rw [language_primary]
  infer_instance

instance : Completable (ref .secondary).language := by
  rw [language_secondary]
  infer_instance

theorem completable_chain (hrule : rule n = chain m terminals) [Completable (ref m).language] :
    Completable (ref n).language := by
  rw [language_ref, hrule, language_chain]
  infer_instance

instance : Completable (ref .multiplicative).language := completable_chain rfl
instance : Completable (ref .additive).language := completable_chain rfl
instance : Completable (ref .equality).language := completable_chain rfl
instance : Completable (ref .logical).language := completable_chain rfl

instance : Completable (ref .expr).language := by
  rw [language_ref]
  exact inferInstanceAs (Completable (ref .logical).language)

/-- Whether no tokens at all are derived. -/
def nullable : Ebnf → Bool
  | oneOf _ => false
  | ref .source => true
  | ref _ => false
  | seq e f => e.nullable && f.nullable
  | alt e f => e.nullable || f.nullable
  | opt _ | star _ => true

theorem nullable_rule (n : Nonterminal) : (rule n).nullable = (ref n).nullable := by
  cases n <;> rfl

theorem Derives.nullable (h : Derives e v ts) (hts : ts = []) : e.nullable := by
  induction h with
  | oneOf r hr h => cases hts
  | @ref n _ _ h ih => exact nullable_rule n ▸ ih hts
  | seq h h' ih ih' =>
    obtain ⟨hts, hus⟩ := List.append_eq_nil_iff.mp hts
    simp [Ebnf.nullable, ih hts, ih' hus]
  | inl h ih | inr h ih => simp [Ebnf.nullable, ih hts]
  | none | some h ih | nil | cons h h' => rfl

theorem nil_notMem_language (h : e.nullable = false) : [] ∉ e.language := by
  rintro ⟨v, hv⟩
  rw [hv.nullable rfl] at h
  cases h

end Ebnf

namespace Grammar

open Ebnf (word mark name language_ref language_seq language_alt language_opt language_star)

variable {α : Type} {x : Nat → Production α} {expr : Nat → Production Expr}
  {nested : Nat → Production Stmt} {L : Language Token} {t : Token} {n b : Nat} {text : String}
  {w : Keyword}

/-! ## The small productions -/

theorem mem_mark (h : t.isOperator text) : [t] ∈ (mark text).language :=
  Ebnf.mem_language_oneOf (List.mem_singleton_self _) h

theorem mem_word (h : t.isKeyword w) : [t] ∈ (word w).language :=
  Ebnf.mem_language_oneOf (List.mem_singleton_self _) h

theorem mem_name (h : t.kind = .identifier) : [t] ∈ name.language :=
  Ebnf.mem_language_oneOf (List.mem_singleton_self _) h

theorem decides_operator [Completable (mark text).language] :
    Decides (mark text).language n fun _ => operator text := by
  refine fun t => .atOperator (.ite (fun ht => ?_) fun _ => decidesAt_expected _)
  exact decidesAt_advance (kind_ne_of_isOperator ht) (mem_mark ht)

theorem decides_keyword : Decides (word w).language n fun _ => keyword w := by
  refine fun t => .atKeyword (.ite (fun ht => ?_) fun _ => decidesAt_expected _)
  exact decidesAt_advance (kind_ne_of_isKeyword ht) (mem_word ht)

theorem decides_identifier : Decides name.language n fun _ => identifier := by
  refine fun t => .current (.ite (fun ht => ?_) fun _ => decidesAt_expected _)
  have hkind : t.kind = .identifier := by simpa using ht
  exact (decidesAt_advance (by simp [hkind]) (mem_name hkind)).map

theorem decides_after [Completable L] (hitem : Decides L n x) :
    Decides (1 + (mark text).language * L) n fun i => after text (x i) := by
  refine fun t => .atOperator (.ite (fun ht => .right ?_) fun _ => (decidesAt_pure none).left)
  refine (decidesAt_advance (kind_ne_of_isOperator ht) (mem_mark ht)).bind fun _ => ?_
  exact hitem.map

/-! ## Lists of items -/

theorem DecidesAt.stop {a : α} : DecidesAt t (L∗) n fun _ => pure a :=
  (decidesAt_pure a).mono fun us hus => (Language.mem_one us).mp hus ▸ Language.nil_mem_kstar L

theorem decides_commaItems [Completable L] (hitem : Decides L n x) (hb : n ≤ b) :
    Decides (((mark ",").language * L)∗) n fun i => commaItems (x i) (i + b) := by
  induction n generalizing b with
  | zero => exact decides_zero
  | succ n ih =>
    obtain ⟨b, rfl⟩ := Nat.exists_eq_add_of_le' hb
    have hitem := hitem.le n.le_succ
    have hmore := ih hitem (Nat.le_add_left n b)
    refine fun t => .atOperator (.ite (fun ht => ?_) fun _ => .stop)
    have hthen := hitem.bind fun x => hmore.map (f := (x :: ·))
    refine (DecidesAt.advance (kind_ne_of_isOperator ht) (mem_mark ht) hthen).mono ?_
    rw [← mul_assoc]
    exact mem_kstar_of_mem_mul

theorem decides_parenthesised [Completable L] (hitem : Decides L n x) (hb : n ≤ b) :
    Decides ((mark "(").language * ((mark ")").language +
      L * (((mark ",").language * L)∗ * (mark ")").language))) n
      fun i => parenthesised (x i) (i + b) := by
  refine decides_operator.bind fun _ t => ?_
  refine .atOperator (.ite (fun ht => .left ?_) fun _ => .right ?_)
  · exact (decidesAt_advance (kind_ne_of_isOperator ht) (mem_mark ht)).map
  · refine (hitem t).bind fun _ => (decides_commaItems hitem hb).bind fun _ => ?_
    exact decides_operator.map

theorem decides_whileKeyword (hnil : [] ∉ L) (hitem : Decides L n x) (hb : n ≤ b) :
    Decides (L∗) n fun i => whileKeyword w (x i) (i + b) := by
  induction n generalizing b with
  | zero => exact decides_zero
  | succ n ih =>
    obtain ⟨b, rfl⟩ := Nat.exists_eq_add_of_le' hb
    have hmore := ih (hitem.le n.le_succ) (Nat.le_add_left n b)
    refine fun t => .atKeyword (.ite (fun ht => ?_) fun _ => .stop)
    exact ((hitem t).bind_succ hnil fun x => hmore.map (f := (x :: ·))).mono mem_kstar_of_mem_mul

/-! ## Expressions -/

section

variable {precedence : Nat} {terminals : List Terminal}

theorem decides_operands (hterminals : Ebnf.Precedence precedence terminals) [Completable L]
    (hitem : Decides L n expr) (hb : n ≤ b) (left : Expr) :
    Decides (((Ebnf.oneOf terminals).language * L)∗) n
      fun i => operands precedence (expr i) (i + b) left := by
  induction n generalizing b left with
  | zero => exact decides_zero
  | succ n ih =>
    obtain ⟨b, rfl⟩ := Nat.exists_eq_add_of_le' hb
    have hitem := hitem.le n.le_succ
    refine fun t => .current ?_
    cases hop : operatorAt precedence t with
    | none => exact .stop
    | some op =>
      have hkind : t.kind ≠ .endOfInput := fun h => by simp [operatorAt, h] at hop
      refine .of_lexical hkind fun ht => ?_
      obtain ⟨r, hr, hmatches⟩ :=
        (hterminals.operatorAt ht).mpr (ofSpelling_of_operatorAt hop ▸ hop)
      have hthen := hitem.bind fun right =>
        ih hitem (Nat.le_add_left n b) (.binary left.position op left right)
      refine (DecidesAt.advance hkind (Ebnf.mem_language_oneOf hr hmatches) hthen).mono ?_
      rw [← mul_assoc]
      exact mem_kstar_of_mem_mul

theorem decides_chain {m k : Nonterminal} (hterminals : Ebnf.Precedence precedence terminals)
    (hrule : Ebnf.rule k = Ebnf.chain m terminals) [Completable (Ebnf.ref m).language]
    (hnil : (Ebnf.ref m).nullable = false) (hitem : Decides (Ebnf.ref m).language (n + 1) expr)
    (hb : n ≤ b) :
    Decides (Ebnf.ref k).language (n + 1) fun i => chain precedence (expr i) (i + b) := by
  rw [language_ref, hrule, Ebnf.language_chain]
  refine fun t => (hitem t).bind_succ (Ebnf.nil_notMem_language hnil) fun left => ?_
  exact decides_operands hterminals (hitem.le n.le_succ) hb left

end

section

variable (hexpr : Decides (Ebnf.ref .expr).language n expr) (hb : n ≤ b)
include hexpr hb

theorem decides_arguments :
    Decides (Ebnf.list .expr).language n fun i => parenthesised (expr i) (i + b) := by
  rw [Ebnf.language_list]
  exact decides_parenthesised hexpr hb

theorem decides_members {m more : Nat} (hm : m ≤ n) (hmore : m ≤ more) (e : Expr) :
    Decides (Ebnf.selection.language∗) m fun i => members (expr i) (i + b) (i + more) e := by
  induction m generalizing more e with
  | zero => exact decides_zero
  | succ m ih =>
    obtain ⟨more, rfl⟩ := Nat.exists_eq_add_of_le' hmore
    have hm := Nat.le_of_succ_le hm
    have hthen := ih hm (Nat.le_add_left m more)
    have harguments := (decides_arguments hexpr hb).le hm
    have hselection : Ebnf.selection.language * Ebnf.selection.language∗ =
        (mark ".").language * (name.language * (Ebnf.selection.language∗ +
          (Ebnf.list .expr).language * Ebnf.selection.language∗)) := by
      simp only [Ebnf.selection, language_seq, language_opt, add_mul, one_mul, mul_assoc]
    refine fun t => .atOperator (.ite (fun ht => .mono ?_ mem_kstar_of_mem_mul) fun _ => .stop)
    rw [hselection]
    refine .advance (kind_ne_of_isOperator ht) (mem_mark ht) ?_
    refine decides_identifier.bind fun id t => ?_
    refine .atOperator (.ite (fun _ => .right ?_) fun _ => (hthen _ t).left)
    exact (harguments t).bind fun arguments => hthen _

theorem decides_primary :
    Decides (Ebnf.ref .primary).language (n + 1) fun i => primary (expr i) (i + b) := by
  rw [Ebnf.language_primary]
  refine fun t => .current ?_
  cases hliteral : literal? t with
  | some value =>
    obtain ⟨⟨r, hr, hmatches⟩, -⟩ := Ebnf.literal?_eq_some_iff.mp hliteral
    have hkind : t.kind ≠ .endOfInput := fun h => by simp [literal?, h] at hliteral
    exact (decidesAt_advance hkind (Ebnf.mem_language_oneOf hr hmatches)).map.left
  | none =>
    refine .right (.ite (fun ht => .left ?name) fun _ => .ite (fun ht => .right ?group) fun _ =>
      decidesAt_expected _)
    case name =>
      have hkind : t.kind = .identifier := by simpa using ht
      refine .advance (by simp [hkind]) (mem_name hkind) fun u => ?_
      refine .atOperator (.ite (fun _ => .right ?_) fun _ => (decidesAt_pure _).left)
      exact (decides_arguments hexpr hb u).map
    case group =>
      refine .advance (kind_ne_of_isOperator ht) (mem_mark ht) ?_
      exact hexpr.bind fun inner => decides_operator.map

theorem decides_secondary :
    Decides (Ebnf.ref .secondary).language (n + 1) fun i => secondary (expr i) (i + b) := by
  have hnil := Ebnf.nil_notMem_language (e := .ref .primary) rfl
  rw [Ebnf.language_secondary]
  refine fun t => (decides_primary hexpr hb t).bind_succ hnil fun e => ?_
  exact decides_members hexpr hb le_rfl hb e

end

theorem decides_expression (hb : n ≤ b) :
    Decides (Ebnf.ref .expr).language n fun i => expression (i + b) := by
  induction n generalizing b with
  | zero => exact decides_zero
  | succ n ih =>
    obtain ⟨b, rfl⟩ := Nat.exists_eq_add_of_le' hb
    have hb := Nat.le_add_left n b
    have hsecondary := decides_secondary (ih hb) hb
    have hmultiplicative :=
      decides_chain (k := .multiplicative) Ebnf.precedence_multiplicative rfl rfl hsecondary hb
    have hadditive :=
      decides_chain (k := .additive) Ebnf.precedence_additive rfl rfl hmultiplicative hb
    have hequality := decides_chain (k := .equality) Ebnf.precedence_equality rfl rfl hadditive hb
    have hlogical := decides_chain (k := .logical) Ebnf.precedence_logical rfl rfl hequality hb
    rw [language_ref]
    exact hlogical

/-! ## Statements -/

theorem decides_typeName : Decides Ebnf.typeName.language n fun _ => typeName := by
  rw [Ebnf.language_typeName]
  exact decides_after decides_identifier

section

variable (hexpr : Decides (Ebnf.ref .expr).language n expr)
include hexpr

theorem decides_initial : Decides Ebnf.initial.language n fun i => after "=" (expr i) := by
  rw [Ebnf.language_initial]
  exact decides_after hexpr

theorem decides_binding : Decides (Ebnf.rule .decl).language n fun i => binding (expr i) := by
  simp only [Ebnf.rule, language_seq]
  refine fun t => .current ((decides_keyword t).bind fun _ => ?_)
  refine decides_identifier.bind fun _ => decides_typeName.bind fun _ => ?_
  exact (decides_initial hexpr).bind fun _ => decides_operator.map

theorem decides_ret : Decides (Ebnf.rule .ret).language n fun i => ret (expr i) := by
  simp only [Ebnf.rule, language_seq]
  refine fun t => .current ((decides_keyword t).bind fun _ => ?_)
  exact hexpr.bind fun _ => decides_operator.map

theorem decides_simple :
    Decides ((Ebnf.ref .expr).language * (Ebnf.initial.language * (mark ";").language)) n
      fun i => simple (expr i) := by
  refine fun t => .current ((hexpr t).bind fun left => ?_)
  refine (decides_initial hexpr).bind fun right => ?_
  cases right with
  | none => exact decides_operator.map
  | some value => exact decides_operator.map

end

section

variable (hnested : Decides (Ebnf.ref .stmt).language n nested) (hb : n ≤ b)
include hnested hb

theorem decides_block (closers : List Keyword) :
    Decides Ebnf.body.language n fun i => block (nested i) closers (i + b) := by
  rw [Ebnf.language_body]
  induction n generalizing b with
  | zero => exact decides_zero
  | succ n ih =>
    obtain ⟨b, rfl⟩ := Nat.exists_eq_add_of_le' hb
    have hnil := Ebnf.nil_notMem_language (e := .ref .stmt) rfl
    have hmore := ih (hnested.le n.le_succ) (Nat.le_add_left n b)
    refine fun t => .current (.ite (fun _ => .stop) fun _ => .ite (fun _ => decidesAt_expected _)
      fun _ => ?_)
    exact ((hnested t).bind_succ hnil fun s => hmore.map (f := (s :: ·))).mono mem_kstar_of_mem_mul

variable (hexpr : Decides (Ebnf.ref .expr).language (n + 1) expr)
include hexpr

theorem decides_conditional : Decides (Ebnf.rule .conditional).language (n + 1)
    fun i => conditional (expr i) (nested i) (i + b) := by
  have hblock := decides_block hnested hb
  have hnil := Ebnf.nil_notMem_language (e := word .IF) rfl
  simp only [Ebnf.rule, language_seq, language_opt]
  refine fun t => .current ((decides_keyword t).bind_succ hnil fun _ => ?_)
  refine (hexpr.le n.le_succ).bind fun _ => decides_keyword.bind fun _ => ?_
  refine (hblock _).bind fun _ t => ?_
  rw [add_mul, one_mul, mul_assoc]
  refine .atKeyword (.ite (fun ht => .right ?_) fun _ => .left (decides_keyword t).map)
  refine (decidesAt_advance (kind_ne_of_isKeyword ht) (mem_word ht)).bind fun _ => ?_
  exact (hblock _).bind fun _ => decides_keyword.map

theorem decides_forLoop : Decides (Ebnf.rule .forLoop).language (n + 1)
    fun i => forLoop (expr i) (nested i) (i + b) := by
  have hnil := Ebnf.nil_notMem_language (e := word .FOR) rfl
  simp only [Ebnf.rule, language_seq]
  refine fun t => .current ((decides_keyword t).bind_succ hnil fun _ => ?_)
  refine decides_identifier.bind fun _ => decides_keyword.bind fun _ => ?_
  refine (hexpr.le n.le_succ).bind fun _ => decides_keyword.bind fun _ => ?_
  exact (decides_block hnested hb _).bind fun _ => decides_keyword.map

theorem decides_whileLoop : Decides (Ebnf.rule .whileLoop).language (n + 1)
    fun i => whileLoop (expr i) (nested i) (i + b) := by
  have hnil := Ebnf.nil_notMem_language (e := word .WHILE) rfl
  simp only [Ebnf.rule, language_seq]
  refine fun t => .current ((decides_keyword t).bind_succ hnil fun _ => ?_)
  refine (hexpr.le n.le_succ).bind fun _ => decides_keyword.bind fun _ => ?_
  exact (decides_block hnested hb _).bind fun _ => decides_keyword.map

end

/-- The first token of a statement decides which one it is. -/
theorem decides_statement (hb : n ≤ b) :
    Decides (Ebnf.ref .stmt).language n fun i => statement (i + b) := by
  induction n generalizing b with
  | zero => exact decides_zero
  | succ n ih =>
    obtain ⟨b, rfl⟩ := Nat.exists_eq_add_of_le' hb
    have hexpr := decides_expression hb
    have hb := Nat.le_add_left n b
    have hnested := ih hb
    rw [language_ref, Ebnf.rule]
    simp only [language_alt, @language_ref .decl, @language_ref .conditional,
      @language_ref .forLoop, @language_ref .whileLoop, @language_ref .ret]
    refine fun t => .current ?_
    split
    · exact (decides_binding hexpr t).map.left
    · exact (decides_conditional hnested hb hexpr t).left.right
    · exact (decides_forLoop hnested hb hexpr t).left.right.right
    · exact (decides_whileLoop hnested hb hexpr t).left.right.right.right
    · exact (decides_ret hexpr t).left.right.right.right.right
    · rw [language_seq, language_seq]
      exact (decides_simple hexpr t).right.right.right.right.right

/-! ## Programs -/

theorem decides_param : Decides (Ebnf.ref .param).language n fun _ => param := by
  rw [language_ref, Ebnf.rule, language_seq]
  exact fun t => .current ((decides_identifier t).bind fun _ => decides_typeName.map)

theorem decides_method (hb : n ≤ b) :
    Decides (Ebnf.ref .method).language n fun i => method (i + b) := by
  have hparams : Decides (Ebnf.list .param).language n fun i => parenthesised param (i + b) := by
    rw [Ebnf.language_list]
    exact decides_parenthesised decides_param hb
  rw [language_ref, Ebnf.rule]
  simp only [language_seq]
  refine fun t => .current ((decides_keyword t).bind fun _ => ?_)
  refine decides_identifier.bind fun _ => hparams.bind fun _ => ?_
  refine decides_typeName.bind fun _ => decides_keyword.bind fun _ => ?_
  exact (decides_block (decides_statement hb) hb _).bind fun _ => decides_keyword.map

theorem decides_program (hb : n ≤ b) :
    Decides (Ebnf.ref .source).language n fun i => program (i + b) := by
  have hfield : Decides (Ebnf.ref .field).language n fun i => binding (expression (i + b)) := by
    rw [language_ref]
    exact decides_binding (decides_expression hb)
  have hfields := decides_whileKeyword (w := .LET) (Ebnf.nil_notMem_language rfl) hfield hb
  have hmethods := decides_whileKeyword (w := .DEF) (Ebnf.nil_notMem_language rfl)
    (decides_method hb) hb
  rw [language_ref, Ebnf.rule, language_seq, language_star, language_star]
  refine hfields.bind fun _ => ?_
  rw [← mul_one (Ebnf.ref .method).language∗]
  refine hmethods.bind fun _ t => .current ?_
  exact .ite (fun _ => decidesAt_pure _) fun _ => .ite (fun _ => decidesAt_reject _) fun _ =>
    decidesAt_expected _

/-- The bound that a program is read with is never used up. -/
theorem decided_program {tokens : List Token} (h : Token.Stream tokens) :
    Decided (Ebnf.ref .source).language (fun i => program (i + tokens.length)) tokens := by
  cases tokens with
  | nil => cases h
  | cons t ts => exact decides_program le_rfl t ts h (Nat.lt_succ_self _)

end Grammar

namespace Program

open Grammar (decided_program)

variable {tokens : List Token} {d : Diagnostic}

theorem ofTokens_eq_error_iff :
    ofTokens tokens = .error d ↔ Grammar.program tokens.length tokens = .error d := by
  change (Grammar.program tokens.length tokens).map Prod.fst = _ ↔ _
  cases Grammar.program tokens.length tokens with
  | ok r => simp [Except.map]
  | error e => simp [Except.map]

/-- Tokens that are rejected are rejected at the first one that no program goes on with: some
program begins with those before it, and none begins with those up to it. -/
theorem ofTokens_rejects_first (hts : Token.Stream tokens) (h : ofTokens tokens = .error d) :
    ∃ before k behind, tokens = before ++ k :: behind ∧ d.position = some k.position ∧
      (∃ more p, Token.Stream (before ++ more) ∧ ofTokens (before ++ more) = .ok p) ∧
      ∀ more p, Token.Stream (before ++ k :: more) → ofTokens (before ++ k :: more) ≠ .ok p := by
  have hrun := ofTokens_eq_error_iff.mp h
  rw [← Nat.zero_add tokens.length] at hrun
  cases decided_program hts with
  | ok p read k behind hsplit hread hx =>
    have hok := hx 0 behind
    rw [← hsplit, hrun] at hok
    cases hok
  | error e before k behind hsplit hread hd hx =>
    have hsame := hx 0 behind
    rw [← hsplit, hrun] at hsame
    obtain rfl := Except.error.inj hsame
    refine ⟨before, k, behind, hsplit, hd, ?viable, ?rejected⟩
    case viable =>
      obtain ⟨more, hmore, p, hp⟩ := hread
      have hlex : ∀ t ∈ before ++ more, t.Lexical ∧ t.kind ≠ .endOfInput := by
        intro t ht
        refine ⟨?_, hp.kind_ne t ht⟩
        rcases List.mem_append.mp ht with hbefore | hmore'
        · exact hts.lexical t (by simp [hsplit, hbefore]) (hp.kind_ne t ht)
        · exact hmore t hmore'
      refine ⟨more ++ [.endAt .start 0], p, ?_, ?_⟩
      · rw [← List.append_assoc]
        exact .of_snoc hlex rfl
      · rw [← List.append_assoc]
        exact (ofTokens_iff_derives hlex rfl).mpr hp
    case rejected =>
      intro more p hstream hok
      obtain ⟨rest, hnew⟩ := ofTokens_eq_ok_iff.mp hok
      rw [← Nat.zero_add (before ++ k :: more).length] at hnew
      cases decided_program hstream with
      | error e' read k' behind' hsplit' hread' hd' hx' =>
        have herror := hx' 0 behind'
        rw [← hsplit', hnew] at herror
        cases herror
      | ok q read k' behind' hsplit' hread' hx' =>
        -- with room for both lists the longer of them is read and rejected at once
        have haccepted := hx' tokens.length behind'
        have hrejected := hx (before ++ k :: more).length more
        rw [← hsplit', Nat.add_comm, hrejected] at haccepted
        cases haccepted

/-- In the body of a loop the end of the loop stands where an argument has not been closed. -/
theorem ofTokens_rejects_first_argument : ∃ tokens d,
    Token.tokenize "DEF f(n) DO FOR i IN range(n, 2 * (i END END" = .ok tokens ∧
      Token.Stream tokens ∧ ofTokens tokens = .error d ∧ d.position = some ⟨1, 38⟩ ∧
      ∃ before k behind, tokens = before ++ k :: behind ∧ d.position = some k.position ∧
        (∃ more p, Token.Stream (before ++ more) ∧ ofTokens (before ++ more) = .ok p) ∧
        ∀ more p, Token.Stream (before ++ k :: more) → ofTokens (before ++ k :: more) ≠ .ok p := by
  generalize hsource : "DEF f(n) DO FOR i IN range(n, 2 * (i END END" = source
  have htokenized : (Token.tokenize source).isOk := by
    subst hsource
    decide +kernel
  have hposition : (match Token.tokenize source >>= ofTokens with
      | .ok _ => none
      | .error d => d.position) = some ⟨1, 38⟩ := by
    subst hsource
    decide +kernel
  cases htokens : Token.tokenize source with
  | error d =>
    rw [htokens] at htokenized
    cases htokenized
  | ok tokens =>
    rw [htokens] at hposition
    change (match ofTokens tokens with | .ok _ => none | .error d => d.position) = _ at hposition
    cases hrun : ofTokens tokens with
    | ok p =>
      rw [hrun] at hposition
      cases hposition
    | error d =>
      rw [hrun] at hposition
      have hstream := Token.Stream.of_tokenize htokens
      exact ⟨tokens, d, rfl, hstream, hrun, hposition, ofTokens_rejects_first hstream hrun⟩

end Program

end BlockScript
