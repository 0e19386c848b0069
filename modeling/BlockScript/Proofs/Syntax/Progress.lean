import BlockScript.Proofs.Syntax.Viable

/-!
# Progress

A production takes a token before it contains itself and before it begins another round of a loop.
So it comes to an end on every stream of tokens, in a tree or in a diagnostic, and the first of the
tokens that are left moves towards the end of the input, never back and never past it.
-/

namespace BlockScript.Grammar

open Token (Stream)

variable {α β : Type} {t : Token} {ts us : List Token} {m n b b' : Nat} {x y : Production α}

/-- What comes of the stream `ts`: `m` tokens at least are taken and a stream is left, or the first
token of a stream that is left is blamed. -/
inductive Moves (m : Nat) (ts : List Token) : Except Diagnostic (α × List Token) → Prop
  | ok {a : α} {us : List Token} (taken : List Token) (hts : ts = taken ++ us)
      (htaken : m ≤ taken.length) (hus : Stream us) : Moves m ts (.ok (a, us))
  | error {d : Diagnostic} {us : List Token} (hus : us <:+ ts) (hstream : Stream us)
      (hposition : d.position = some (front us).position) (hfamily : d.cause.family = .grammar) :
      Moves m ts (.error d)

theorem Moves.mono {m' : Nat} {r : Except Diagnostic (α × List Token)} (h : Moves m ts r)
    (hm : m' ≤ m) : Moves m' ts r := by
  cases h with
  | ok taken hts htaken hus => exact .ok taken hts (Nat.le_trans hm htaken) hus
  | error hus hstream hposition hfamily => exact .error hus hstream hposition hfamily

/-- Behind tokens that have been taken. -/
theorem Moves.append {k : Nat} {taken : List Token} {r : Except Diagnostic (α × List Token)}
    (h : Moves k us r) (htaken : m ≤ taken.length) : Moves (m + k) (taken ++ us) r := by
  cases h with
  | ok taken' hts htaken' hus =>
    refine .ok (taken ++ taken') (by rw [hts, List.append_assoc]) ?_ hus
    rw [List.length_append]
    exact Nat.add_le_add htaken htaken'
  | error hus hstream hposition hfamily =>
    exact .error (hus.trans (List.suffix_append ..)) hstream hposition hfamily

/-- On a stream of `n` tokens at most that begins with `t`, `x` and `y` do the same and move on. -/
def ProgressesAt (t : Token) (m n : Nat) (x y : Production α) : Prop :=
  ∀ ts, Stream (t :: ts) → ts.length < n → x (t :: ts) = y (t :: ts) ∧
    Moves m (t :: ts) (x (t :: ts))

def Progresses (m n : Nat) (x y : Production α) : Prop := ∀ t, ProgressesAt t m n x y

theorem Progresses.on (h : Progresses m n x y) (hts : Stream ts) (hlength : ts.length ≤ n) :
    x ts = y ts ∧ Moves m ts (x ts) := by
  cases ts with
  | nil => cases hts
  | cons t ts => exact h t ts hts hlength

theorem Progresses.le {k : Nat} (h : Progresses m n x y) (hk : k ≤ n) : Progresses m k x y :=
  fun t ts hts hlength => h t ts hts (Nat.lt_of_lt_of_le hlength hk)

theorem ProgressesAt.mono {m' : Nat} (h : ProgressesAt t m n x y) (hm : m' ≤ m) :
    ProgressesAt t m' n x y :=
  fun ts hts hlength => (h ts hts hlength).imp_right fun hmoves => hmoves.mono hm

/-- There is no stream without a token. -/
theorem progresses_zero : Progresses m 0 x y := fun _ _ _ h => absurd h (Nat.not_lt_zero _)

theorem progressesAt_pure (a : α) : ProgressesAt t 0 n (pure a) (pure a) :=
  fun _ hts _ => ⟨rfl, .ok [] rfl (Nat.zero_le _) hts⟩

theorem progressesAt_expected (what : Expectation) :
    ProgressesAt t m n (expected what : Production α) (expected what) :=
  fun _ hts _ => ⟨rfl, .error (List.suffix_refl _) hts rfl rfl⟩

theorem progressesAt_reject_field :
    ProgressesAt t m n (reject fun _ => .fieldAfterMethod : Production α)
      (reject fun _ => .fieldAfterMethod) :=
  fun _ hts _ => ⟨rfl, .error (List.suffix_refl _) hts rfl rfl⟩

theorem progressesAt_advance (hkind : t.kind ≠ .endOfInput) :
    ProgressesAt t 1 n advance advance := by
  intro ts hts _
  refine ⟨rfl, ?_⟩
  rw [advance_cons hkind]
  exact .ok [t] rfl le_rfl (hts.tail hkind).2

/-- First `x`, which leaves room for `k` tokens to what follows. -/
theorem ProgressesAt.bind_of_le {k l : Nat} {f g : α → Production β} (hx : ProgressesAt t m n x y)
    (hk : n ≤ m + k) (hf : ∀ a, Progresses l k (f a) (g a)) :
    ProgressesAt t (m + l) n (x >>= f) (y >>= g) := by
  intro ts hts hlength
  obtain ⟨hsame, hmoves⟩ := hx ts hts hlength
  change (x (t :: ts) >>= fun r => f r.1 r.2) = (y (t :: ts) >>= fun r => g r.1 r.2) ∧
    Moves (m + l) (t :: ts) (x (t :: ts) >>= fun r => f r.1 r.2)
  rw [← hsame]
  generalize x (t :: ts) = r at hmoves
  cases hmoves with
  | error hus hstream hposition hfamily => exact ⟨rfl, .error hus hstream hposition hfamily⟩
  | @ok a us taken hsplit htaken hus =>
    have hlengths := congrArg List.length hsplit
    simp only [List.length_cons, List.length_append] at hlengths
    obtain ⟨hsame, hmoves⟩ := (hf a).on hus (by omega)
    rw [hsplit]
    exact ⟨hsame, hmoves.append htaken⟩

theorem ProgressesAt.bind {f g : α → Production β} (hx : ProgressesAt t m n x y)
    (hf : ∀ a, Progresses 0 n (f a) (g a)) : ProgressesAt t m n (x >>= f) (y >>= g) :=
  hx.bind_of_le (Nat.le_add_left n m) hf

/-- What follows has a token less, since `x` takes one. -/
theorem ProgressesAt.bind_succ {f g : α → Production β} (hx : ProgressesAt t 1 (n + 1) x y)
    (hf : ∀ a, Progresses 0 n (f a) (g a)) : ProgressesAt t 1 (n + 1) (x >>= f) (y >>= g) :=
  hx.bind_of_le (Nat.add_comm n 1).le hf

theorem ProgressesAt.map {f : α → β} (hx : ProgressesAt t m n x y) :
    ProgressesAt t m n (x >>= fun a => pure (f a)) (y >>= fun a => pure (f a)) :=
  hx.bind fun _ _ => progressesAt_pure _

theorem Progresses.bind {f g : α → Production β} (hx : Progresses m n x y)
    (hf : ∀ a, Progresses 0 n (f a) (g a)) : Progresses m n (x >>= f) (y >>= g) :=
  fun t => (hx t).bind hf

theorem Progresses.map {f : α → β} (hx : Progresses m n x y) :
    Progresses m n (x >>= fun a => pure (f a)) (y >>= fun a => pure (f a)) :=
  fun t => (hx t).map

theorem Progresses.weaken (hx : Progresses m n x y) : Progresses 0 n x y :=
  fun t => (hx t).mono (Nat.zero_le m)

theorem ProgressesAt.ite {c : Prop} [Decidable c] {x' y' : Production α}
    (hx : c → ProgressesAt t m n x y) (hx' : ¬ c → ProgressesAt t m n x' y') :
    ProgressesAt t m n (if c then x else x') (if c then y else y') := by
  split
  · rename_i hc
    exact hx hc
  · rename_i hc
    exact hx' hc

theorem ProgressesAt.current {f g : Token → Production α} (h : ProgressesAt t m n (f t) (g t)) :
    ProgressesAt t m n (current >>= f) (current >>= g) :=
  h

theorem ProgressesAt.atOperator {text : String} {f g : Bool → Production α}
    (h : ProgressesAt t m n (f (t.isOperator text)) (g (t.isOperator text))) :
    ProgressesAt t m n (atOperator text >>= f) (atOperator text >>= g) :=
  h

theorem ProgressesAt.atKeyword {w : Keyword} {f g : Bool → Production α}
    (h : ProgressesAt t m n (f (t.isKeyword w)) (g (t.isKeyword w))) :
    ProgressesAt t m n (atKeyword w >>= f) (atKeyword w >>= g) :=
  h

/-! ## Small productions -/

variable {w : Keyword} {text : String}
  {nested nested' operand operand' expr expr' : Production Expr}
  {inner inner' : Production Stmt}

theorem progresses_operator : Progresses 1 n (operator text) (operator text) :=
  fun _ => .atOperator (.ite (fun ht => progressesAt_advance (kind_ne_of_isOperator ht)) fun _ =>
    progressesAt_expected _)

theorem progresses_keyword : Progresses 1 n (keyword w) (keyword w) :=
  fun _ => .atKeyword (.ite (fun ht => progressesAt_advance (kind_ne_of_isKeyword ht)) fun _ =>
    progressesAt_expected _)

theorem progresses_identifier : Progresses 1 n identifier identifier := by
  refine fun t => .current (.ite (fun ht => ?_) fun _ => progressesAt_expected _)
  have hkind : t.kind = .identifier := by simpa using ht
  exact (progressesAt_advance (by simp [hkind])).map

theorem progresses_after (hx : Progresses m n x y) :
    Progresses 0 n (after text x) (after text y) := by
  refine fun t => .atOperator (.ite (fun ht => ?_) fun _ => progressesAt_pure none)
  refine ((progressesAt_advance (kind_ne_of_isOperator ht)).bind fun _ => ?_).mono (Nat.zero_le 1)
  exact hx.weaken.map

theorem progresses_typeName : Progresses 0 n typeName typeName :=
  progresses_after progresses_identifier

/-! ## Lists of items -/

theorem progresses_commaItems (hx : Progresses m n x y) (hb : n ≤ b) (hb' : n ≤ b') :
    Progresses 0 n (commaItems x b) (commaItems y b') := by
  induction n generalizing b b' with
  | zero => exact progresses_zero
  | succ n ih =>
    obtain ⟨b, rfl⟩ := Nat.exists_eq_add_of_le' hb
    obtain ⟨b', rfl⟩ := Nat.exists_eq_add_of_le' hb'
    have hx := hx.le n.le_succ
    have hmore := ih hx (Nat.le_add_left n b) (Nat.le_add_left n b')
    refine fun t => .atOperator (.ite (fun ht => ?_) fun _ => progressesAt_pure [])
    have hadvance := progressesAt_advance (n := n + 1) (kind_ne_of_isOperator ht)
    refine (hadvance.bind_succ fun _ => ?_).mono (Nat.zero_le 1)
    exact hx.weaken.bind fun _ => hmore.map

theorem progresses_parenthesised (hx : Progresses m n x y) (hb : n ≤ b) (hb' : n ≤ b') :
    Progresses 1 n (parenthesised x b) (parenthesised y b') := by
  refine progresses_operator.bind fun _ t => .atOperator (.ite (fun ht => ?_) fun _ => ?_)
  · exact (progressesAt_advance (kind_ne_of_isOperator ht)).map.mono (Nat.zero_le 1)
  · refine (hx.weaken t).bind fun _ => (progresses_commaItems hx hb hb').bind fun _ => ?_
    exact progresses_operator.weaken.map

theorem progresses_whileKeyword (hx : Progresses 1 n x y) (hb : n ≤ b) (hb' : n ≤ b') :
    Progresses 0 n (whileKeyword w x b) (whileKeyword w y b') := by
  induction n generalizing b b' with
  | zero => exact progresses_zero
  | succ n ih =>
    obtain ⟨b, rfl⟩ := Nat.exists_eq_add_of_le' hb
    obtain ⟨b', rfl⟩ := Nat.exists_eq_add_of_le' hb'
    have hmore := ih (hx.le n.le_succ) (Nat.le_add_left n b) (Nat.le_add_left n b')
    refine fun t => .atKeyword (.ite (fun _ => ?_) fun _ => progressesAt_pure [])
    exact ((hx t).bind_succ fun _ => hmore.map).mono (Nat.zero_le 1)

/-! ## Expressions -/

theorem kind_ne_of_operatorAt {precedence : Nat} {op : Operator}
    (h : operatorAt precedence t = some op) : t.kind ≠ .endOfInput := by
  intro hkind
  simp [operatorAt, hkind] at h

theorem progresses_operands {precedence : Nat} (hx : Progresses m n operand operand') (hb : n ≤ b)
    (hb' : n ≤ b') (left : Expr) :
    Progresses 0 n (operands precedence operand b left) (operands precedence operand' b' left) := by
  induction n generalizing b b' left with
  | zero => exact progresses_zero
  | succ n ih =>
    obtain ⟨b, rfl⟩ := Nat.exists_eq_add_of_le' hb
    obtain ⟨b', rfl⟩ := Nat.exists_eq_add_of_le' hb'
    have hx := hx.le n.le_succ
    refine fun t => .current ?_
    cases hop : operatorAt precedence t with
    | none => exact progressesAt_pure left
    | some op =>
      have hadvance := progressesAt_advance (n := n + 1) (kind_ne_of_operatorAt hop)
      refine (hadvance.bind_succ fun _ => ?_).mono (Nat.zero_le 1)
      exact hx.weaken.bind fun _ => ih hx (Nat.le_add_left n b) (Nat.le_add_left n b') _

theorem progresses_chain {precedence : Nat} (hx : Progresses 1 (n + 1) operand operand')
    (hb : n ≤ b) (hb' : n ≤ b') :
    Progresses 1 (n + 1) (chain precedence operand b) (chain precedence operand' b') :=
  fun t => (hx t).bind_succ fun left => progresses_operands (hx.le n.le_succ) hb hb' left

section

variable (hnested : Progresses 1 n nested nested') (hb : n ≤ b) (hb' : n ≤ b')
include hnested hb hb'

theorem progresses_members {k more more' : Nat} (hk : k ≤ n) (hmore : k ≤ more) (hmore' : k ≤ more')
    (e : Expr) : Progresses 0 k (members nested b more e) (members nested' b' more' e) := by
  induction k generalizing more more' e with
  | zero => exact progresses_zero
  | succ k ih =>
    obtain ⟨more, rfl⟩ := Nat.exists_eq_add_of_le' hmore
    obtain ⟨more', rfl⟩ := Nat.exists_eq_add_of_le' hmore'
    have hk := Nat.le_of_succ_le hk
    have hthen := ih hk (Nat.le_add_left k more) (Nat.le_add_left k more')
    have harguments := ((progresses_parenthesised hnested hb hb').le hk).weaken
    refine fun t => .atOperator (.ite (fun ht => ?_) fun _ => progressesAt_pure e)
    have hadvance := progressesAt_advance (n := k + 1) (kind_ne_of_isOperator ht)
    refine (hadvance.bind_succ fun _ => ?_).mono (Nat.zero_le 1)
    refine progresses_identifier.weaken.bind fun name u =>
      .atOperator (.ite (fun _ => ?_) fun _ => ?_)
    · exact (harguments u).bind fun arguments => hthen _
    · exact hthen _ u

theorem progresses_primary :
    Progresses 1 (n + 1) (primary nested b) (primary nested' b') := by
  refine fun t => .current ?_
  cases hliteral : literal? t with
  | some value =>
    have hkind : t.kind ≠ .endOfInput := fun h => by simp [literal?, h] at hliteral
    exact (progressesAt_advance hkind).map
  | none =>
    refine .ite (fun ht => ?name) fun _ => .ite (fun ht => ?group) fun _ => progressesAt_expected _
    case name =>
      have hkind : t.kind = .identifier := by simpa using ht
      refine (progressesAt_advance (by simp [hkind])).bind_succ fun _ u => ?_
      refine .atOperator (.ite (fun _ => ?_) fun _ => progressesAt_pure _)
      exact ((progresses_parenthesised hnested hb hb').weaken u).map
    case group =>
      refine (progressesAt_advance (kind_ne_of_isOperator ht)).bind_succ fun _ => ?_
      exact hnested.weaken.bind fun inner => progresses_operator.weaken.map

theorem progresses_secondary :
    Progresses 1 (n + 1) (secondary nested b) (secondary nested' b') :=
  fun t => (progresses_primary hnested hb hb' t).bind_succ fun e =>
    progresses_members hnested hb hb' le_rfl hb hb' e

end

/-- The operands of the operators of each precedence but the lowest: those of the highest are
secondary expressions. -/
def operandAt (nested : Production Expr) (bound : Nat) : Nat → Production Expr
  | 0 => secondary nested bound
  | k + 1 => chain (4 - k) (operandAt nested bound k) bound

/-- An expression, given how the expressions inside it are read. -/
def expressionWith (nested : Production Expr) (bound : Nat) : Production Expr :=
  operandAt nested bound 4

theorem expression_succ (bound : Nat) :
    expression (bound + 1) = expressionWith (expression bound) bound := rfl

theorem progresses_operandAt (hnested : Progresses 1 n nested nested') (hb : n ≤ b) (hb' : n ≤ b')
    (k : Nat) : Progresses 1 (n + 1) (operandAt nested b k) (operandAt nested' b' k) := by
  induction k with
  | zero => exact progresses_secondary hnested hb hb'
  | succ k ih => exact progresses_chain ih hb hb'

theorem progresses_expression (hb : n ≤ b) (hb' : n ≤ b') :
    Progresses 1 n (expression b) (expression b') := by
  induction n generalizing b b' with
  | zero => exact progresses_zero
  | succ n ih =>
    obtain ⟨b, rfl⟩ := Nat.exists_eq_add_of_le' hb
    obtain ⟨b', rfl⟩ := Nat.exists_eq_add_of_le' hb'
    have hb := Nat.le_add_left n b
    have hb' := Nat.le_add_left n b'
    rw [← Nat.add_assoc, ← Nat.add_assoc, expression_succ, expression_succ]
    exact progresses_operandAt (ih hb hb') hb hb' 4

/-! ## Statements -/

section

variable (hexpr : Progresses 1 n expr expr')
include hexpr

theorem progresses_binding : Progresses 1 n (binding expr) (binding expr') := by
  refine fun t => .current ((progresses_keyword t).bind fun _ => ?_)
  refine progresses_identifier.weaken.bind fun _ => progresses_typeName.bind fun _ => ?_
  exact (progresses_after hexpr).bind fun _ => progresses_operator.weaken.map

theorem progresses_ret : Progresses 1 n (ret expr) (ret expr') := by
  refine fun t => .current ((progresses_keyword t).bind fun _ => ?_)
  exact hexpr.weaken.bind fun _ => progresses_operator.weaken.map

theorem progresses_simple : Progresses 1 n (simple expr) (simple expr') := by
  refine fun t => .current ((hexpr t).bind fun left => ?_)
  refine (progresses_after hexpr).bind fun right => ?_
  cases right with
  | none => exact progresses_operator.weaken.map
  | some value => exact progresses_operator.weaken.map

end

theorem progresses_block (hinner : Progresses 1 n inner inner') (hb : n ≤ b) (hb' : n ≤ b')
    (closers : List Keyword) :
    Progresses 0 n (block inner closers b) (block inner' closers b') := by
  induction n generalizing b b' with
  | zero => exact progresses_zero
  | succ n ih =>
    obtain ⟨b, rfl⟩ := Nat.exists_eq_add_of_le' hb
    obtain ⟨b', rfl⟩ := Nat.exists_eq_add_of_le' hb'
    have hmore := ih (hinner.le n.le_succ) (Nat.le_add_left n b) (Nat.le_add_left n b')
    refine fun t => .current (.ite (fun _ => progressesAt_pure []) fun _ => .ite
      (fun _ => progressesAt_expected _) fun _ => ?_)
    exact ((hinner t).bind_succ fun _ => hmore.map).mono (Nat.zero_le 1)

section

variable (hexpr : Progresses 1 (n + 1) expr expr') (hinner : Progresses 1 n inner inner')
  (hb : n ≤ b) (hb' : n ≤ b')
include hexpr hinner hb hb'

theorem progresses_conditional :
    Progresses 1 (n + 1) (conditional expr inner b) (conditional expr' inner' b') := by
  have hblock := progresses_block hinner hb hb'
  refine fun t => .current ((progresses_keyword t).bind_succ fun _ => ?_)
  refine (hexpr.le n.le_succ).weaken.bind fun _ => progresses_keyword.weaken.bind fun _ => ?_
  refine (hblock _).bind fun _ u => .atKeyword (.ite (fun hu => ?_) fun _ => ?_)
  · have hadvance := progressesAt_advance (n := n) (kind_ne_of_isKeyword hu)
    refine (hadvance.mono (Nat.zero_le 1)).bind fun _ => (hblock _).bind fun _ => ?_
    exact progresses_keyword.weaken.map
  · exact (progresses_keyword.weaken u).map

theorem progresses_forLoop :
    Progresses 1 (n + 1) (forLoop expr inner b) (forLoop expr' inner' b') := by
  refine fun t => .current ((progresses_keyword t).bind_succ fun _ => ?_)
  refine progresses_identifier.weaken.bind fun _ => progresses_keyword.weaken.bind fun _ => ?_
  refine (hexpr.le n.le_succ).weaken.bind fun _ => progresses_keyword.weaken.bind fun _ => ?_
  exact (progresses_block hinner hb hb' _).bind fun _ => progresses_keyword.weaken.map

theorem progresses_whileLoop :
    Progresses 1 (n + 1) (whileLoop expr inner b) (whileLoop expr' inner' b') := by
  refine fun t => .current ((progresses_keyword t).bind_succ fun _ => ?_)
  refine (hexpr.le n.le_succ).weaken.bind fun _ => progresses_keyword.weaken.bind fun _ => ?_
  exact (progresses_block hinner hb hb' _).bind fun _ => progresses_keyword.weaken.map

end

/-- A statement, given how the expressions and the statements inside it are read. -/
def statementWith (expr : Production Expr) (inner : Production Stmt) (bound : Nat) :
    Production Stmt := do
  match (← current).kind with
  | .keyword .LET => return .declare (← binding expr)
  | .keyword .IF => conditional expr inner bound
  | .keyword .FOR => forLoop expr inner bound
  | .keyword .WHILE => whileLoop expr inner bound
  | .keyword .RETURN => ret expr
  | _ => simple expr

theorem statement_succ (bound : Nat) :
    statement (bound + 1) = statementWith (expression (bound + 1)) (statement bound) bound := rfl

theorem progresses_statementWith (hexpr : Progresses 1 (n + 1) expr expr')
    (hinner : Progresses 1 n inner inner') (hb : n ≤ b) (hb' : n ≤ b') :
    Progresses 1 (n + 1) (statementWith expr inner b) (statementWith expr' inner' b') := by
  refine fun t => .current ?_
  split
  · exact (progresses_binding hexpr t).map
  · exact progresses_conditional hexpr hinner hb hb' t
  · exact progresses_forLoop hexpr hinner hb hb' t
  · exact progresses_whileLoop hexpr hinner hb hb' t
  · exact progresses_ret hexpr t
  · exact progresses_simple hexpr t

theorem progresses_statement (hb : n ≤ b) (hb' : n ≤ b') :
    Progresses 1 n (statement b) (statement b') := by
  induction n generalizing b b' with
  | zero => exact progresses_zero
  | succ n ih =>
    obtain ⟨b, rfl⟩ := Nat.exists_eq_add_of_le' hb
    obtain ⟨b', rfl⟩ := Nat.exists_eq_add_of_le' hb'
    have hexpr := progresses_expression hb hb'
    have hb := Nat.le_add_left n b
    have hb' := Nat.le_add_left n b'
    rw [← Nat.add_assoc, ← Nat.add_assoc, statement_succ, statement_succ]
    exact progresses_statementWith hexpr (ih hb hb') hb hb'

/-! ## Programs -/

theorem progresses_param : Progresses 1 n param param :=
  fun t => .current ((progresses_identifier t).bind fun _ => progresses_typeName.map)

theorem progresses_method (hb : n ≤ b) (hb' : n ≤ b') :
    Progresses 1 n (method b) (method b') := by
  refine fun t => .current ((progresses_keyword t).bind fun _ => ?_)
  refine progresses_identifier.weaken.bind fun _ => ?_
  refine (progresses_parenthesised progresses_param hb hb').weaken.bind fun _ => ?_
  refine progresses_typeName.bind fun _ => progresses_keyword.weaken.bind fun _ => ?_
  refine (progresses_block (progresses_statement hb hb') hb hb' _).bind fun _ => ?_
  exact progresses_keyword.weaken.map

theorem progresses_program (hb : n ≤ b) (hb' : n ≤ b') :
    Progresses 0 n (program b) (program b') := by
  have hfield := progresses_binding (progresses_expression hb hb')
  refine (progresses_whileKeyword hfield hb hb').bind fun _ => ?_
  refine (progresses_whileKeyword (progresses_method hb hb') hb hb').bind fun _ t => .current ?_
  exact .ite (fun _ => progressesAt_pure _) fun _ => .ite (fun _ => progressesAt_reject_field)
    fun _ => progressesAt_expected _

end BlockScript.Grammar
