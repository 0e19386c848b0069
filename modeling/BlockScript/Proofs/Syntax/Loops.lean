import BlockScript.Proofs.Syntax.Progress

/-!
# The loops of the grammar end

Each loop of a production goes another round as long as the first token says so. Every round takes a
token, so without any bound on their number there are fewer rounds than tokens, and a production
that contains itself is asked only about fewer tokens. Reading comes to an end on every stream.
-/

namespace BlockScript.Grammar

open Token (Stream)

variable {α β : Type} {ts us : List Token} {n b : Nat} {goes : Token → Bool}

/-! ## Loops without a bound -/

/-- A loop from a value and the tokens left, in a number of rounds: it goes on as long as the first
token says so and no round fails. -/
inductive Loops (goes : Token → Bool) (round : β → Production β) :
    (rounds : Nat) → β → List Token → Except Diagnostic (β × List Token) → Prop
  | stop {x : β} {ts : List Token} (hgoes : goes (front ts) = false) :
      Loops goes round 0 x ts (.ok (x, ts))
  | fail {x : β} {ts : List Token} {d : Diagnostic} (hgoes : goes (front ts) = true)
      (hround : round x ts = .error d) : Loops goes round 0 x ts (.error d)
  | next {x y : β} {ts us : List Token} {k : Nat} {r : Except Diagnostic (β × List Token)}
      (hgoes : goes (front ts) = true) (hround : round x ts = .ok (y, us))
      (hloop : Loops goes round k y us r) : Loops goes round (k + 1) x ts r

/-- Every round takes a token. -/
def Rounds (n : Nat) (goes : Token → Bool) (round : β → Production β) : Prop :=
  ∀ x t, goes t = true → ProgressesAt t 1 n (round x) (round x)

/-- What comes of the loop, bounded or not. -/
structure Ends (goes : Token → Bool) (round : β → Production β) (x : β) (ts : List Token)
    (r : Except Diagnostic (β × List Token)) : Prop where
  loop : ∃ k, k < ts.length ∧ Loops goes round k x ts r
  moves : Moves 0 ts r

/-- A function that goes a round while rounds are left does what the loop does, since the tokens run
out before the rounds do. -/
theorem loops_of_fold {F : Nat → β → Production β} {round : β → Production β}
    (hF : ∀ b x ts, F (b + 1) x ts =
      if goes (front ts) then (round x >>= F b) ts else .ok (x, ts))
    (hround : Rounds n goes round) (hts : Stream ts) (hn : ts.length ≤ n) (hb : ts.length ≤ b)
    (x : β) : ∃ k, k < ts.length ∧ Loops goes round k x ts (F b x ts) := by
  induction b generalizing ts x with
  | zero =>
    obtain rfl := List.length_eq_zero_iff.mp (Nat.le_zero.mp hb)
    cases hts
  | succ b ih =>
    cases ts with
    | nil => cases hts
    | cons t ts =>
      rw [hF]
      split
      · rename_i hgoes
        have hmoves := (hround x t hgoes ts hts hn).2
        cases hr : round x (t :: ts) with
        | error d =>
          refine ⟨0, Nat.succ_pos _, ?_⟩
          change Loops goes round 0 x (t :: ts) (round x (t :: ts) >>= fun r => F b r.1 r.2)
          rw [hr]
          exact .fail hgoes hr
        | ok r =>
          obtain ⟨y, us⟩ := r
          rw [bind_of_ok hr]
          rw [hr] at hmoves
          cases hmoves with
          | ok taken hsplit htaken hus =>
            have hlengths := congrArg List.length hsplit
            rw [List.length_append] at hlengths
            obtain ⟨k, hk, hloop⟩ := ih hus (by omega) (by omega) y
            exact ⟨k + 1, by omega, .next hgoes hr hloop⟩
      · rename_i hgoes
        exact ⟨0, Nat.succ_pos _, .stop (Bool.eq_false_iff.mpr hgoes)⟩

/-- One more item behind those before it. -/
def gathering (item : Production α) (items : List α) : Production (List α) :=
  return items ++ [← item]

theorem Rounds.gathering {item : Production α}
    (hitem : ∀ t, goes t = true → ProgressesAt t 1 n item item) : Rounds n goes (gathering item) :=
  fun _ t ht => (hitem t ht).map

/-- A list of items is what the loop has gathered. -/
theorem loops_of_list {L : Nat → Production (List α)} {item : Production α}
    (hL : ∀ b ts, L (b + 1) ts =
      if goes (front ts) then (do let x ← item; return x :: (← L b)) ts else .ok ([], ts))
    (hround : Rounds n goes (gathering item)) (hts : Stream ts) (hn : ts.length ≤ n)
    (hb : ts.length ≤ b) : ∃ k, k < ts.length ∧ Loops goes (gathering item) k [] ts (L b ts) := by
  let F (b : Nat) (items : List α) : Production (List α) := do return items ++ (← L b)
  have hF : ∀ b items ts, F (b + 1) items ts =
      if goes (front ts) then (gathering item items >>= F b) ts else .ok (items, ts) := by
    intro b items ts
    change (L (b + 1) ts >>= fun r => .ok (items ++ r.1, r.2)) = _
    rw [hL]
    split
    · change ((item ts >>= fun q => L b q.2 >>= fun r => .ok (q.1 :: r.1, r.2)) >>=
          fun r => .ok (items ++ r.1, r.2)) =
        (item ts >>= fun q => .ok (items ++ [q.1], q.2)) >>=
          fun q => L b q.2 >>= fun r => .ok (q.1 ++ r.1, r.2)
      cases item ts with
      | error d => rfl
      | ok q =>
        change (L b q.2 >>= fun r => .ok (q.1 :: r.1, r.2)) >>= (fun r => .ok (items ++ r.1, r.2)) =
          L b q.2 >>= fun r => .ok ((items ++ [q.1]) ++ r.1, r.2)
        cases L b q.2 with
        | error d => rfl
        | ok r =>
          change Except.ok (items ++ q.1 :: r.1, r.2) = .ok ((items ++ [q.1]) ++ r.1, r.2)
          rw [List.append_assoc, List.singleton_append]
    · change Except.ok (items ++ [], ts) = _
      rw [List.append_nil]
  have hgathered : F b [] ts = L b ts := by
    change (L b ts >>= fun r => .ok ([] ++ r.1, r.2)) = _
    cases L b ts <;> rfl
  rw [← hgathered]
  exact loops_of_fold hF hround hts hn hb []

/-! ## The loops of the grammar -/

section

variable {item : Production α} {w : Keyword} {text : String}

/-- An item behind a comma. -/
def commaItem (item : Production α) : Production α := do
  advance
  item

/-- A statement, unless the input ends before the block does. -/
def blockItem (statement : Production Stmt) (closers : List Keyword) : Production Stmt := do
  if (← current).kind == .endOfInput then expected (.blockEnd closers) else statement

/-- One more operand, joined to all before it. -/
def joined (precedence : Nat) (operand : Production Expr) (left : Expr) : Production Expr := do
  match operatorAt precedence (← current) with
  | some op =>
    advance
    return .binary left.position op left (← operand)
  | none => return left

/-- A member or a method call of the value before it. -/
def selected (nested : Production Expr) (bound : Nat) (e : Expr) : Production Expr := do
  advance
  let name ← identifier
  if ← atOperator "(" then return .methodCall e.position e name (← parenthesised nested bound)
  else return .member e.position e name

variable (hts : Stream ts) (hn : ts.length ≤ n)
include hts hn

theorem ends_whileKeyword (hitem : Progresses 1 n item item) :
    Ends (·.isKeyword w) (gathering item) [] ts (whileKeyword w item n ts) := by
  refine ⟨loops_of_list (fun b ts => ?_) (.gathering fun t _ => hitem t) hts hn hn, ?_⟩
  · rw [whileKeyword, atKeyword_bind]
    split <;> rfl
  · exact ((progresses_whileKeyword hitem le_rfl le_rfl).on hts hn).2

theorem ends_commaItems (hitem : Progresses 1 n item item) :
    Ends (·.isOperator ",") (gathering (commaItem item)) [] ts (commaItems item n ts) := by
  have hround : Rounds n (·.isOperator ",") (gathering (commaItem item)) := by
    refine .gathering fun t ht => ?_
    exact (progressesAt_advance (kind_ne_of_isOperator ht)).bind fun _ => hitem.weaken
  refine ⟨loops_of_list (fun b ts => ?_) hround hts hn hn, ?_⟩
  · rw [commaItems, atOperator_bind]
    split <;> rfl
  · exact ((progresses_commaItems hitem le_rfl le_rfl).on hts hn).2

theorem ends_block {statement : Production Stmt} (hstatement : Progresses 1 n statement statement)
    (closers : List Keyword) :
    Ends (fun t => !closers.any t.isKeyword) (gathering (blockItem statement closers)) [] ts
      (block statement closers n ts) := by
  have hround : Rounds n (fun t => !closers.any t.isKeyword)
      (gathering (blockItem statement closers)) :=
    .gathering fun t _ => .current (.ite (fun _ => progressesAt_expected _) fun _ => hstatement t)
  refine ⟨loops_of_list (fun b ts => ?_) hround hts hn hn, ?_⟩
  · rw [block, current_bind, blockItem, bind_assoc]
    cases closers.any (front ts).isKeyword with
    | true => rfl
    | false =>
      simp only [Bool.not_false, if_true, Bool.false_eq_true, if_false, current_bind]
      split <;> rfl
  · exact ((progresses_block hstatement le_rfl le_rfl closers).on hts hn).2

theorem ends_operands {precedence : Nat} {operand : Production Expr}
    (hoperand : Progresses 1 n operand operand) (left : Expr) :
    Ends (fun t => (operatorAt precedence t).isSome) (joined precedence operand) left ts
      (operands precedence operand n left ts) := by
  have hround : Rounds n (fun t => (operatorAt precedence t).isSome)
    (joined precedence operand) := by
    intro left t ht
    obtain ⟨op, hop⟩ := Option.isSome_iff_exists.mp ht
    refine .current ?_
    rw [hop]
    exact (progressesAt_advance (kind_ne_of_operatorAt hop)).bind fun _ => hoperand.weaken.map
  refine ⟨loops_of_fold (fun b left ts => ?_) hround hts hn hn left, ?_⟩
  · rw [operands, current_bind, joined, bind_assoc, current_bind]
    cases operatorAt precedence (front ts) with
    | none => rfl
    | some op => simp only [Option.isSome_some, if_true, bind_assoc, pure_bind]
  · exact ((progresses_operands hoperand le_rfl le_rfl left).on hts hn).2

theorem ends_members {nested : Production Expr} (hnested : Progresses 1 n nested nested)
    (e : Expr) :
    Ends (·.isOperator ".") (selected nested n) e ts (members nested n n e ts) := by
  have hround : Rounds n (·.isOperator ".") (selected nested n) := by
    intro e t ht
    refine (progressesAt_advance (kind_ne_of_isOperator ht)).bind fun _ => ?_
    refine progresses_identifier.weaken.bind fun name u =>
      .atOperator (.ite (fun _ => ?_) fun _ => ?_)
    · exact ((progresses_parenthesised hnested le_rfl le_rfl).weaken u).map
    · exact progressesAt_pure _
  refine ⟨loops_of_fold (fun b e ts => ?_) hround hts hn hn e, ?_⟩
  · rw [members, atOperator_bind, selected]
    split
    · simp only [bind_assoc]
      refine congrFun (bind_congr fun _ => bind_congr fun name => bind_congr fun c => ?_) ts
      cases c with
      | true => simp only [if_true, bind_assoc, pure_bind]
      | false => rfl
    · rfl
  · exact ((progresses_members hnested le_rfl le_rfl le_rfl le_rfl le_rfl e).on hts hn).2

end

/-! ## Everywhere on a stream -/

/-- What happens where the tokens `ts` are left, `n` of them at most. -/
structure Proceeding (n : Nat) (ts : List Token) : Prop where
  /-- The end of the input stays, every other token is passed by. -/
  advance : ∃ us, advance ts = .ok ((), us) ∧ Stream us ∧ (us = ts ∨ ∃ t, ts = t :: us)
  field : Moves 1 ts (binding (expression n) ts)
  method : Moves 1 ts (method n ts)
  param : Moves 1 ts (param ts)
  statement : Moves 1 ts (statement n ts)
  expression : Moves 1 ts (expression n ts)
  fields : Ends (·.isKeyword .LET) (gathering (binding (Grammar.expression n))) [] ts
    (whileKeyword .LET (binding (Grammar.expression n)) n ts)
  methods : Ends (·.isKeyword .DEF) (gathering (Grammar.method n)) [] ts
    (whileKeyword .DEF (Grammar.method n) n ts)
  params : Ends (·.isOperator ",") (gathering (commaItem Grammar.param)) [] ts
    (commaItems Grammar.param n ts)
  arguments : Ends (·.isOperator ",") (gathering (commaItem (Grammar.expression n))) [] ts
    (commaItems (Grammar.expression n) n ts)
  block : ∀ closers : List Keyword, Ends (fun t => !closers.any t.isKeyword)
    (gathering (blockItem (Grammar.statement n) closers)) [] ts
    (block (Grammar.statement n) closers n ts)
  operands : ∀ k < 4, ∀ left, Ends (fun t => (operatorAt (4 - k) t).isSome)
    (joined (4 - k) (operandAt (Grammar.expression n) n k)) left ts
    (operands (4 - k) (operandAt (Grammar.expression n) n k) n left ts)
  members : ∀ e, Ends (·.isOperator ".") (selected (Grammar.expression n) n) e ts
    (members (Grammar.expression n) n n e ts)
  /-- Inside an expression, expressions are read where fewer tokens are left: how they are read
  elsewhere makes no difference. -/
  inExpression : ∀ nested : Production Expr,
    (∀ us, Stream us → us.length < ts.length → nested us = Grammar.expression n us) →
      expressionWith nested n ts = Grammar.expression n ts
  inStatement : ∀ nested : Production Stmt,
    (∀ us, Stream us → us.length < ts.length → nested us = Grammar.statement n us) →
      statementWith (Grammar.expression n) nested n ts = Grammar.statement n ts

theorem advance_stays_or_passes (hts : Stream ts) :
    ∃ us, advance ts = .ok ((), us) ∧ Stream us ∧ (us = ts ∨ ∃ t, ts = t :: us) := by
  cases hts with
  | @last t hkind =>
    refine ⟨[t], ?_, .last hkind, .inl rfl⟩
    change Except.ok ((), if t.kind == .endOfInput then [t] else []) = _
    rw [hkind]
    rfl
  | @cons t us _ hkind hus => exact ⟨us, advance_cons hkind, hus, .inr ⟨t, rfl⟩⟩

/-- A production that does the same where fewer tokens are left. -/
theorem Progresses.of_shorter {x y z : Production α} {t : Token} (hy : Progresses 1 ts.length y z)
    (h : ∀ us, Stream us → us.length < (t :: ts).length → x us = y us) :
    Progresses 1 ts.length x z := by
  intro u us hus hlength
  rw [h (u :: us) hus (Nat.succ_lt_succ hlength)]
  exact hy u us hus hlength

theorem expressionWith_eq (hts : Stream ts) (hn : ts.length ≤ n) {nested : Production Expr}
    (h : ∀ us, Stream us → us.length < ts.length → nested us = expression n us) :
    expressionWith nested n ts = expression n ts := by
  cases ts with
  | nil => cases hts
  | cons t ts =>
    obtain ⟨n, rfl⟩ := Nat.exists_eq_add_of_le' (Nat.le_trans (Nat.succ_pos _) hn)
    have hlength := Nat.le_of_succ_le_succ hn
    have hn := Nat.le_of_succ_le hn
    have hnested := (progresses_expression hn hlength).of_shorter h
    exact ((progresses_operandAt hnested hn hlength 4).on hts le_rfl).1

theorem statementWith_eq (hts : Stream ts) (hn : ts.length ≤ n) {inner : Production Stmt}
    (h : ∀ us, Stream us → us.length < ts.length → inner us = statement n us) :
    statementWith (expression n) inner n ts = statement n ts := by
  cases ts with
  | nil => cases hts
  | cons t ts =>
    obtain ⟨n, rfl⟩ := Nat.exists_eq_add_of_le' (Nat.le_trans (Nat.succ_pos _) hn)
    have hexpr := progresses_expression hn hn
    have hlength := Nat.le_of_succ_le_succ hn
    have hn := Nat.le_of_succ_le hn
    have hinner := (progresses_statement hn hlength).of_shorter h
    exact ((progresses_statementWith hexpr hinner hn hlength).on hts le_rfl).1

theorem proceeding (hts : Stream ts) (hn : ts.length ≤ n) : Proceeding n ts := by
  have hexpr : Progresses 1 n (expression n) (expression n) := progresses_expression le_rfl le_rfl
  have hstmt : Progresses 1 n (statement n) (statement n) := progresses_statement le_rfl le_rfl
  have hmethod : Progresses 1 n (method n) (method n) := progresses_method le_rfl le_rfl
  have hfield := progresses_binding hexpr
  exact {
    advance := advance_stays_or_passes hts
    field := (hfield.on hts hn).2
    method := (hmethod.on hts hn).2
    param := (progresses_param.on hts hn).2
    statement := (hstmt.on hts hn).2
    expression := (hexpr.on hts hn).2
    fields := ends_whileKeyword hts hn hfield
    methods := ends_whileKeyword hts hn hmethod
    params := ends_commaItems hts hn progresses_param
    arguments := ends_commaItems hts hn hexpr
    block := ends_block hts hn hstmt
    operands := fun k _ => ends_operands hts hn
      ((progresses_operandAt hexpr le_rfl le_rfl k).le n.le_succ)
    members := ends_members hts hn hexpr
    inExpression := fun nested hnested => expressionWith_eq hts hn hnested
    inStatement := fun nested hnested => statementWith_eq hts hn hnested }

end BlockScript.Grammar

namespace BlockScript.Program

open Token (Stream)
open Grammar (Moves Proceeding)

variable {tokens : List Token}

/-- Reading the tokens comes to a program or to a diagnostic, the same with any room that is enough
for them, and a program is read up to the end of the input. -/
structure ReadingEnds (tokens : List Token) : Prop where
  outcome : ∃ r, ofTokens tokens = Except.map Prod.fst r ∧
    (∀ n, tokens.length ≤ n → Grammar.program n tokens = r) ∧ Moves 0 tokens r ∧
    ∀ p us, r = .ok (p, us) → ∃ eof, us = [eof] ∧ eof.kind = .endOfInput

theorem readingEnds (h : Stream tokens) : ReadingEnds tokens := by
  have hroom : ∀ n, tokens.length ≤ n →
      Grammar.program n tokens = Grammar.program tokens.length tokens ∧
        Moves 0 tokens (Grammar.program n tokens) :=
    fun n hn => (Grammar.progresses_program hn le_rfl).on h le_rfl
  refine ⟨Grammar.program tokens.length tokens, rfl, fun n hn => (hroom n hn).1,
    (hroom _ le_rfl).2, fun p us hp => ?_⟩
  have hmoves := (hroom _ le_rfl).2
  rw [hp] at hmoves
  obtain ⟨-, -, -, -, hend⟩ := Grammar.program_ok hp
  cases hmoves with
  | ok taken hsplit htaken hus =>
    cases hus with
    | @last eof hkind => exact ⟨eof, rfl, hkind⟩
    | cons _ hkind _ => exact absurd hend hkind

/-- The parser makes progress wherever it stands in the tokens of a text, and so it ends. -/
theorem ofTokens_progresses (h : Stream tokens) :
    ReadingEnds tokens ∧ ∀ ts, ts ≠ [] → ts <:+ tokens → ∀ n, ts.length ≤ n → Proceeding n ts := by
  refine ⟨readingEnds h, fun ts hne hsuffix n hn => ?_⟩
  obtain ⟨before, rfl⟩ := hsuffix
  obtain ⟨t, ts, rfl⟩ := List.exists_cons_of_ne_nil hne
  exact Grammar.proceeding h.suffix hn

/-- The body of a loop is not closed, nor are the arguments in it, and the input ends. -/
theorem ofTokens_progresses_unclosed : ∃ tokens d,
    Token.tokenize "DEF f(n) DO WHILE g(n, -1) DO n.x(1, (2 * n" = .ok tokens ∧ Stream tokens ∧
      ofTokens tokens = .error d ∧ ReadingEnds tokens ∧
      ∀ ts, ts ≠ [] → ts <:+ tokens → ∀ n, ts.length ≤ n → Proceeding n ts := by
  generalize hsource : "DEF f(n) DO WHILE g(n, -1) DO n.x(1, (2 * n" = source
  have htokenized : (Token.tokenize source).isOk := by
    subst hsource
    decide +kernel
  have hrejected : (Token.tokenize source >>= ofTokens).isOk = false := by
    subst hsource
    decide +kernel
  cases htokens : Token.tokenize source with
  | error d =>
    rw [htokens] at htokenized
    cases htokenized
  | ok tokens =>
    rw [htokens] at hrejected
    change (ofTokens tokens).isOk = false at hrejected
    have hstream := Stream.of_tokenize htokens
    cases hrun : ofTokens tokens with
    | ok p =>
      rw [hrun] at hrejected
      cases hrejected
    | error d => exact ⟨tokens, d, rfl, hstream, hrun, ofTokens_progresses hstream⟩

end BlockScript.Program
