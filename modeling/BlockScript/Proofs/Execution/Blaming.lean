import BlockScript.Proofs.Execution.Printing
import BlockScript.Proofs.Pass.Blame

/-!
# Where runs fail

A fault is placed at the innermost statement that is executed when it arises, in whichever call that
is, or at the field that is being made. What is done outside of both has no place.
-/

namespace BlockScript

open Attempt Pass Run

namespace Activity

/-- The place of a statement. While there are fields to make, the first of them is being made. -/
def place? (a : Activity) : Option Position :=
  match a.task with
  | .statement s => s.position
  | .fields (b :: _) => b.position
  | .program _ | .fields [] | .call .. | .statements _ | .rounds .. | .turns .. | .expressions _
  | .expression _ => none

/-- How the run fails in the activity, if it does. -/
def failure? (a : Activity) : Option Failure :=
  let call := invoke a.fuel
  match a.task with
  | .program p => Attempt.failure? (program a.fuel p a.machine)
  | .fields bs => Attempt.failure? (bs.forM (makeField a.fuel) a.machine)
  | .call f args => Attempt.failure? (call f args a.machine)
  | .statements ss => Attempt.failure? (stmts call a.fuel ss a.machine)
  | .statement s => Attempt.failure? (stmt call a.fuel s a.machine)
  | .rounds name body count i =>
    Attempt.failure? (forLoop (round a.fuel name body) count i a.machine)
  | .turns e body left =>
    Attempt.failure?
      (whileLoop (condition call e) (inScope (stmts call a.fuel body)) left a.machine)
  | .expressions es => Attempt.failure? (exprs call es a.machine)
  | .expression e => Attempt.failure? (expr call e a.machine)

/-- The activities of a run, one within the other. -/
def nesting : Nesting Activity := ⟨Begins, place?, failure?⟩

variable {a b : Activity} {e : Failure}

/-! ## Descent -/

/-- How much there is to do without further calls. -/
noncomputable def size (a : Activity) : Nat :=
  match a.task with
  | .program p => sizeOf p
  | .fields bs => sizeOf bs
  | .call .. => 0
  | .statements ss => sizeOf ss + 1
  | .statement s => sizeOf s + 1
  | .rounds _ body _ _ => sizeOf body + 2
  | .turns e body _ => sizeOf e + sizeOf body + 2
  | .expressions es => sizeOf es
  | .expression e => sizeOf e + 1

/-- How many rounds there are to go. -/
def rest (a : Activity) : Nat :=
  match a.task with
  | .rounds _ _ count _ => count
  | .turns _ _ left => left
  | _ => 0

theorem size_lt_of_operand {k : Nat} {s : Stmt} {value : Expr} {m n : Machine}
    (h : s.operand? = some value) : size ⟨k, .expression value, n⟩ < size ⟨k, .statement s, m⟩ := by
  cases s with
  | expression p | conditional p | forLoop p | ret p =>
    have := p.sizeOf_pos
    cases h
    simp only [size, Stmt.expression.sizeOf_spec, Stmt.conditional.sizeOf_spec,
      Stmt.forLoop.sizeOf_spec, Stmt.ret.sizeOf_spec]
    omega
  | declare d =>
    have := Binding.sizeOf_lt_of_value h
    simp only [size, Stmt.declare.sizeOf_spec]
    omega
  | assign p receiver =>
    cases receiver with
    | member q =>
      have := p.sizeOf_pos
      cases h
      simp only [size, Stmt.assign.sizeOf_spec, Expr.member.sizeOf_spec]
      omega
    | _ => cases h
  | whileLoop | unknown => cases h

theorem size_lt_of_operands {k : Nat} {value : Expr} {m n : Machine} :
    size ⟨k, .expressions value.operands, n⟩ < size ⟨k, .expression value, m⟩ := by
  cases value with
  | binary p op left right =>
    have := p.sizeOf_pos
    have := op.sizeOf_pos
    change sizeOf (if (decisive? op).isSome then [left] else [left, right]) < _
    split <;> simp only [size, Expr.binary.sizeOf_spec, List.cons.sizeOf_spec,
      List.nil.sizeOf_spec] <;> omega
  | _ p =>
    have := p.sizeOf_pos
    simp only [size, Expr.operands, Expr.literal.sizeOf_spec, Expr.group.sizeOf_spec,
      Expr.name.sizeOf_spec, Expr.member.sizeOf_spec, Expr.call.sizeOf_spec,
      Expr.methodCall.sizeOf_spec, Expr.unknown.sizeOf_spec, List.cons.sizeOf_spec,
      List.nil.sizeOf_spec]
    omega

/-- Calls take fuel. All else leads to a smaller part of the tree, or to the next round. -/
theorem descends_of_begins (h : a.Begins b) :
    b.fuel < a.fuel ∨ b.fuel = a.fuel ∧ (b.size < a.size ∨ b.size = a.size ∧ b.rest < a.rest) := by
  cases h with
  | @fields k p => exact .inr ⟨rfl, .inl p.sizeOf_fields_lt⟩
  | @main k p => exact .inr ⟨rfl, .inl (Nat.zero_lt_of_lt p.sizeOf_fields_lt)⟩
  | body => exact .inl (Nat.lt_succ_self _)
  | @field k d ds m value hvalue =>
    have := Binding.sizeOf_lt_of_value hvalue
    refine .inr ⟨rfl, .inl ?_⟩
    simp only [size, List.cons.sizeOf_spec]
    omega
  | operand hvalue => exact .inr ⟨rfl, .inl (size_lt_of_operand hvalue)⟩
  | nextRound | nextTurn => exact .inr ⟨rfl, .inr ⟨rfl, Nat.lt_succ_self _⟩⟩
  | operands hes =>
    subst hes
    exact .inr ⟨rfl, .inl size_lt_of_operands⟩
  | @value k p receiver value | @rounds k p | @turns k p =>
    have := p.sizeOf_pos
    refine .inr ⟨rfl, .inl ?_⟩
    simp only [size, Stmt.assign.sizeOf_spec, Stmt.forLoop.sizeOf_spec, Stmt.whileLoop.sizeOf_spec]
    omega
  | @branch k p test thenBody elseBody m n holds =>
    have := p.sizeOf_pos
    refine .inr ⟨rfl, .inl ?_⟩
    simp only [size, Stmt.conditional.sizeOf_spec]
    split <;> omega
  | @expression k value es =>
    have := Expr.sizeOf_list_pos es
    refine .inr ⟨rfl, .inl ?_⟩
    simp only [size, List.cons.sizeOf_spec]
    omega
  | _ =>
    refine .inr ⟨rfl, .inl ?_⟩
    simp [size] <;> omega

/-- Activities do not begin one another forever. -/
theorem wellFounded_begins : WellFounded fun b a : Activity => a.Begins b := by
  have hlt := Nat.lt_wfRel.wf
  refine Subrelation.wf (fun {b a} h => ?_) (InvImage.wf
    (fun a : Activity => (a.fuel, a.size, a.rest)) (hlt.prod_lex (hlt.prod_lex hlt)))
  dsimp only [InvImage]
  obtain hfuel | ⟨hfuel, hsize | ⟨hsize, hrest⟩⟩ := descends_of_begins h
  · exact .left _ _ hfuel
  · rw [hfuel]
    exact .right _ (.left _ _ hsize)
  · rw [hfuel, hsize]
    exact .right _ (.right _ hrest)

theorem begins_sound (hab : a.Begins b) (ha : a.machine.Sound) : b.machine.Sound :=
  (accounts_printed.begins hab ha).1

/-! ## From the inside out -/

theorem sound_of_ok {α : Type} {x : Run α} {declares : Bool} {r : α} {m n : Machine}
    (hx : Keeps (Steps declares) x) (hrun : x m = .ok r n) (hm : m.Sound) : n.Sound :=
  ((hx m).of_ok hrun hm).sound

theorem ends_settled_fields (k : Nat) (ds : List Binding) (m : Machine) :
    Ends (ds.forM (makeField k)) m (fun _ _ => True) fun e _ => e.IsSettled := by
  induction ds generalizing m with
  | nil => exact trivial
  | cons d ds ih =>
    have hfirst : Ends (makeField k d) m (fun _ _ => True) fun e _ => e.IsSettled :=
      (ends_settled_locate d.position _ m).bind fun _ _ _ => trivial
    exact hfirst.bind fun _ n _ => ih n

theorem fails_initial {k : Nat} {d : Binding} {value : Expr} {m : Machine}
    (hvalue : d.value = some value) (h : Fails e (expr (invoke k) value) m) :
    Fails e (initial (invoke k) d) m := by
  unfold initial
  rw [hvalue]
  exact h.bind

theorem fails_operand {k : Nat} {s : Stmt} {value : Expr} {m : Machine}
    (hvalue : s.operand? = some value) (h : Fails e (expr (invoke k) value) m) :
    Fails (e.locate s.position) (stmt (invoke k) k s) m := by
  cases s with
  | expression | forLoop | ret =>
    cases hvalue
    exact h.bind.locate
  | declare d =>
    have hdeclare : Fails e (declare (invoke k) d) m := (fails_initial hvalue h).bind
    exact hdeclare.bind.locate
  | assign p receiver assigned =>
    cases receiver with
    | member q object id =>
      cases hvalue
      have htarget : Fails e (target (invoke k) (.member q value id)) m := h.bind
      have hassign : Fails e (assign (invoke k) (.member q value id) assigned) m := htarget.bind
      exact hassign.bind.locate
    | _ => cases hvalue
  | conditional =>
    cases hvalue
    have hcondition : Fails e (condition (invoke k) value) m := h.bind
    exact hcondition.bind.locate
  | whileLoop | unknown => cases hvalue

/-- Expressions fail in the first one that fails. -/
theorem fails_exprs_cons {k : Nat} {value : Expr} {values : List Expr} {m : Machine}
    (h : Fails e (exprs (invoke k) (value :: values)) m) :
    Fails e (expr (invoke k) value) m ∨
      ∃ v n, expr (invoke k) value m = .ok v n ∧ Fails e (exprs (invoke k) values) n := by
  obtain hfirst | ⟨v, n, hv, hrest⟩ := Fails.of_bind h
  · exact .inl hfirst
  · refine .inr ⟨v, n, hv, ?_⟩
    obtain hlater | ⟨_, _, -, hpure⟩ := Fails.of_bind hrest
    · exact hlater
    · cases hpure

theorem fails_exprs_singleton {k : Nat} {value : Expr} {m : Machine}
    (h : Fails e (exprs (invoke k) [value]) m) : Fails e (expr (invoke k) value) m := by
  obtain hfirst | ⟨v, n, -, hrest⟩ := fails_exprs_cons h
  · exact hfirst
  · cases hrest

theorem fails_operands {k : Nat} {value : Expr} {m : Machine}
    (h : Fails e (exprs (invoke k) value.operands) m) : Fails e (expr (invoke k) value) m := by
  cases value with
  | group p inner => exact fails_exprs_singleton h
  | binary p op left right =>
    rw [Expr.operands] at h
    rw [expr]
    cases hop : decisive? op with
    | some decisive =>
      rw [hop] at h
      exact (fails_exprs_singleton h).bind
    | none =>
      rw [hop] at h
      obtain hleft | ⟨v, n, hv, hright⟩ := fails_exprs_cons h
      · exact hleft.bind
      · exact fails_bind hv (fails_exprs_singleton hright).bind
  | member p receiver id => exact (fails_exprs_singleton h).bind
  | call p id arguments => exact Fails.bind h
  | methodCall p receiver id arguments =>
    obtain hreceiver | ⟨v, n, hv, hrest⟩ := fails_exprs_cons h
    · exact hreceiver.bind
    · exact fails_bind hv hrest.bind
  | literal | name | unknown => cases h

theorem propagates (h : a.Begins b) (ha : a.machine.Sound) (hb : b.failure? = some e) :
    a.failure? = some (e.locate? a.place?) := by
  cases h with
  | @fields k p m =>
    have hb : Fails e (p.fields.forM (makeField k)) m := hb
    exact hb.bind
  | @main k p m n o f hfields hmethods hmain =>
    have hb : Fails e (invoke k f []) { o with log := .entryPointInvoked :: o.log } := hb
    refine fails_bind hfields (fails_bind hmethods (fails_bind (ask_of_ok hmain) ?_))
    exact fails_bind (r := ⟨⟩) rfl hb
  | @field k d ds m value hvalue =>
    have hinitial := fails_initial hvalue hb
    have hfield : Fails (e.locate d.position) (makeField k d) m := hinitial.locate.bind
    exact hfield.bind
  | @nextField k d ds m n hd =>
    have hb : Fails e (ds.forM (makeField k)) n := hb
    -- The place here is that of `d`, which has been made. The field that failed has its own.
    obtain ⟨o, ho⟩ := failure?_eq_some.mp hb
    rw [((ends_settled_fields k ds n).of_error ho).locate?]
    exact fails_bind (f := fun _ => ds.forM (makeField k)) hd hb
  | @body k f args m n d closure hf hdepth hparams =>
    have hb : Fails e (stmts (invoke k) k d.body) n := hb
    let q : Machine := { m with log := .calling d.name args.length :: m.log }
    have hq : q.Sound := ⟨ha.store, ha.scope⟩
    have hclosure : q.store.Has closure := ha.store.closures f d closure hf
    have hinside := keeps_callBody (keeps_body k) d (m.store.function f).params args
    have hbody := (fails_bind (f := fun _ => stmts (invoke k) k d.body) hparams hb).backTo
      (inCall_eq hq hclosure hinside)
    change Attempt.failure? (dispatch (stmts (invoke k) k) f args m) = some e
    rw [dispatch_method hf args, if_neg hdepth]
    exact hbody.bind
  | @statement k s ss m =>
    have hb : Fails e (stmt (invoke k) k s) m := hb
    exact hb.bind
  | @nextStatement k s ss m n hs =>
    have hb : Fails e (stmts (invoke k) k ss) n := hb
    exact fails_bind hs hb
  | operand hvalue => exact fails_operand hvalue hb
  | @value k p receiver value m n v hv =>
    have hb : Fails e (expr (invoke k) value) n := hb
    have hassign : Fails e (assign (invoke k) receiver value) m := fails_bind hv hb.bind
    exact hassign.bind.locate
  | @branch k p test thenBody elseBody m n holds hholds =>
    have hn := sound_of_ok (keeps_condition (keeps_invoke k) test) hholds ha
    refine Fails.locate (fails_bind hholds ?_)
    cases holds with
    | true =>
      have hb : Fails e (stmts (invoke k) k thenBody) (n.enterFrame n.scope) := hb
      exact hb.inScope hn (keeps_body k thenBody)
    | false =>
      have hb : Fails e (stmts (invoke k) k elseBody) (n.enterFrame n.scope) := hb
      exact hb.inScope hn (keeps_body k elseBody)
  | @rounds k p name iterable body m n start stop he =>
    have hb : Fails e (forLoop (Run.round k name body) (stop - start).toNat start) n := hb
    exact (fails_bind he hb).locate
  | @round k name body count i m n v hv =>
    have hb : Fails e (stmts (invoke k) k body) n := hb
    have hround : Fails e (Run.round k name body i) m :=
      (fails_bind hv hb).inScope ha (keeps_inRound k name body i)
    exact hround.bind
  | @nextRound k name body count i m n hi =>
    have hb : Fails e (forLoop (Run.round k name body) count (i + 1)) n := hb
    exact fails_bind hi hb
  | @turns k p test body m =>
    have hb : Fails e
      (whileLoop (condition (invoke k) test) (inScope (stmts (invoke k) k body)) k) m := hb
    exact hb.locate
  | @test k test body left m =>
    have hb : Fails e (expr (invoke k) test) m := hb
    have htest : Fails e (condition (invoke k) test) m := hb.bind
    exact htest.bind
  | @turn k test body left m n he =>
    have hn := sound_of_ok (keeps_condition (keeps_invoke k) test) he ha
    have hb : Fails e (stmts (invoke k) k body) (n.enterFrame n.scope) := hb
    exact fails_bind he (hb.inScope hn (keeps_body k body)).bind
  | @nextTurn k test body left m n o he hbody =>
    have hb : Fails e
      (whileLoop (condition (invoke k) test) (inScope (stmts (invoke k) k body)) left) o := hb
    exact fails_bind he (fails_bind hbody hb)
  | @expression k value es m =>
    have hb : Fails e (expr (invoke k) value) m := hb
    exact hb.bind
  | @nextExpression k value es m n v he =>
    have hb : Fails e (exprs (invoke k) es) n := hb
    exact fails_bind he hb.bind
  | operands hes =>
    subst hes
    exact fails_operands hb
  | @right k p op left right m n holds decisive hop hleft hne =>
    have hb : Fails e (expr (invoke k) right) n := hb
    change Fails e (expr (invoke k) (.binary p op left right)) m
    rw [expr, hop]
    refine fails_bind hleft (fails_bind (r := holds) rfl ?_)
    rw [if_neg hne]
    exact hb.bind
  | @call k p name es m n args f hargs hf =>
    have hb : Fails e (invoke k f args) n := hb
    exact fails_bind hargs (fails_bind (ask_of_ok hf) hb)
  | @methodCall k p receiver name es m n o v args f hv hargs hf =>
    have hb : Fails e (invoke k f (v :: args)) o := hb
    exact fails_bind hv (fails_bind hargs (fails_bind (lookupMethod_of_found hf) hb))

/-! ## From the outside in -/

/-- If the failure is a diagnostic, it has this place or, if that is none, has none. -/
def IsAt (p : Option Position) (e : Failure) : Prop := ∀ d, e = .diagnostic d → d.position = p

theorem isAt_of (c : Cause) : IsAt none (.of c) := by
  rintro _ ⟨⟩
  rfl

section

variable {α : Type} {x : Run α} {k : Nat} {m : Machine} {p : Option Position}

abbrev Stems (p : Option Position) (a : Activity) (x : Run α) (m : Machine) : Prop :=
  nesting.Stems (IsAt p) a x m

theorem Stems.locate {q : Position} (hx : Stems none a x m) : Stems (some q) a (locate q x) m := by
  refine Nesting.Stems.locate hx fun e he d hd => ?_
  cases e with
  | diagnostic c =>
    cases hd
    change (c.position <|> some q) = some q
    rw [he c rfl]
    rfl
  | misuse | crash | outOfFuel => cases hd

theorem stems_fail (c : Cause) : Stems none a (Attempt.fail c : Run α) m :=
  Nesting.stems_throw (isAt_of c)

theorem stems_ofExcept (y : Except Breakdown α) : Stems none a (ofExcept y) m := by
  refine Nesting.stems_ofExcept (fun e => ?_) y
  cases e with
  | cause c => exact isAt_of c
  | crash c => exact nofun

theorem stems_ask (question : Store → FrameId → Except Cause α) : Stems none a (ask question) m :=
  Nesting.stems_ask isAt_of

theorem stems_literal (value : Literal) : Stems none a (literal value) m := by
  cases value with
  | character text =>
    unfold literal
    dsimp only
    split
    · exact trivial
    · exact Nesting.stems_throw nofun
  | _ => exact trivial

theorem stems_slotOf (name : String) (value : Value) : Stems none a (Run.field name value) m := by
  cases value with
  | object =>
    unfold Run.field
    exact stems_ask _
  | _ => exact stems_fail _

theorem stems_lookupMethod (receiver : Value) (name : String) (arguments : Nat) :
    Stems none a (lookupMethod receiver name arguments) m :=
  stems_ask _

theorem stems_logical (op : Operator) (value : Value) : Stems none a (logical op value) m := by
  cases value with
  | boolean => exact trivial
  | _ => exact stems_fail _

theorem stems_declaredType (name : Option String) (value : Value) :
    Stems none a (declaredType name value) m :=
  (stems_ask _).bind fun _ _ _ => trivial

/-! ### Expressions -/

theorem stems_expression (e : Expr) (h : a.Begins ⟨k, .expression e, m⟩) :
    Stems p a (expr (invoke k) e) m :=
  Nesting.stems_part h rfl

theorem stems_call (f : FunctionId) (args : List Value) (h : a.Begins ⟨k, .call f args, m⟩) :
    Stems p a (invoke k f args) m :=
  Nesting.stems_part h rfl

theorem stems_statements (ss : List Stmt) (h : a.Begins ⟨k, .statements ss, m⟩) :
    Stems p a (stmts (invoke k) k ss) m :=
  Nesting.stems_part h rfl

theorem stems_exprs (es : List Expr) :
    Stems p ⟨k, .expressions es, m⟩ (exprs (invoke k) es) m := by
  cases es with
  | nil => trivial
  | cons e es =>
    refine (stems_expression e .expression).bind fun v n hv => ?_
    exact Nesting.Stems.bind (Nesting.stems_part (.nextExpression hv) rfl) fun _ _ _ => trivial

theorem stems_operand {e o : Expr} {os : List Expr} (hoperands : e.operands = o :: os) :
    Stems p ⟨k, .expression e, m⟩ (expr (invoke k) o) m :=
  Nesting.stems_of_fails fun _ ho =>
    have hall : Fails _ (exprs (invoke k) (o :: os)) m := ho.bind
    ⟨_, .operands hoperands, Option.isSome_of_eq_some hall⟩

theorem stems_otherOperands {e o : Expr} {os : List Expr} {v : Value} {n : Machine}
    (hoperands : e.operands = o :: os) (hv : expr (invoke k) o m = .ok v n) :
    Stems p ⟨k, .expression e, m⟩ (exprs (invoke k) os) n :=
  Nesting.stems_of_fails fun _ hos =>
    have hall : Fails _ (exprs (invoke k) (o :: os)) m := fails_bind hv hos.bind
    ⟨_, .operands hoperands, Option.isSome_of_eq_some hall⟩

theorem stems_binary (q : Position) (op : Operator) (left right : Expr) :
    Stems none ⟨k, .expression (.binary q op left right), m⟩
      (expr (invoke k) (.binary q op left right)) m := by
  rw [expr]
  cases hop : decisive? op with
  | some decisive =>
    have hoperands : (Expr.binary q op left right).operands = [left] := by
      rw [Expr.operands, hop]
      rfl
    refine (stems_operand hoperands).bind fun v n hv => ?_
    refine (stems_logical op v).bind fun holds o hholds => ?_
    obtain ⟨rfl, rfl⟩ := logical_eq_ok hholds
    split
    · exact trivial
    · rename_i hne
      refine (stems_expression right (.right hop hv hne)).bind fun w u _ => ?_
      exact (stems_logical op w).bind fun _ _ _ => trivial
  | none =>
    have hoperands : (Expr.binary q op left right).operands = [left, right] := by
      rw [Expr.operands, hop]
      rfl
    refine (stems_operand hoperands).bind fun v n hv => ?_
    have hright : Stems none ⟨k, .expression (.binary q op left right), m⟩
        (expr (invoke k) right) n :=
      Nesting.stems_of_fails fun _ hw =>
        have hall : Fails _ (exprs (invoke k) [left, right]) m := fails_bind hv hw.bind.bind
        ⟨_, .operands hoperands, Option.isSome_of_eq_some hall⟩
    exact hright.bind fun w o _ => stems_ofExcept _

theorem stems_expr (e : Expr) :
    Stems none ⟨k, .expression e, m⟩ (expr (invoke k) e) m := by
  cases e with
  | literal p value => exact stems_literal value
  | group p inner =>
    have hinner : Stems none ⟨k, .expression (.group p inner), m⟩ (expr (invoke k) inner) m :=
      stems_operand rfl
    exact hinner
  | binary p op left right => exact stems_binary p op left right
  | name p id => exact (stems_ask _).bind fun _ _ _ => trivial
  | member p receiver id =>
    refine (stems_operand rfl).bind fun v n _ => ?_
    exact (stems_slotOf id v).bind fun _ _ _ => trivial
  | call p id arguments =>
    refine Nesting.Stems.bind (Nesting.stems_part (.operands rfl) rfl) fun args n hargs => ?_
    refine (stems_ask _).bind fun f o hf => ?_
    obtain ⟨rfl, hf⟩ := ask_eq_ok hf
    exact stems_call f args (.call hargs hf)
  | methodCall p receiver id arguments =>
    refine (stems_operand rfl).bind fun v n hv => ?_
    refine (stems_otherOperands rfl hv).bind fun args o hargs => ?_
    refine (stems_lookupMethod v id args.length).bind fun f u hf => ?_
    obtain ⟨rfl, hf⟩ := lookupMethod_eq_ok hf
    exact stems_call f (v :: args) (.methodCall hv hargs hf)
  | unknown p label => exact stems_fail _

/-! ### Statements -/

theorem stems_condition {e : Expr} (h : a.Begins ⟨k, .expression e, m⟩) :
    Stems none a (condition (invoke k) e) m := by
  refine (stems_expression e h).bind fun v n _ => ?_
  cases v with
  | boolean => exact trivial
  | _ => exact stems_fail _

theorem stems_initial {d : Binding}
    (h : ∀ e, d.value = some e → a.Begins ⟨k, .expression e, m⟩) :
    Stems none a (initial (invoke k) d) m := by
  have htype (value : Value) (n : Machine) :
      Stems none a (do return (value, ← declaredType d.type value)) n :=
    (stems_declaredType d.type value).bind fun _ _ _ => trivial
  unfold initial
  cases hvalue : d.value with
  | none => exact htype .nil m
  | some e => exact (stems_expression e (h e hvalue)).bind fun value n _ => htype value n

theorem stems_assign (q : Position) (receiver e : Expr) :
    Stems none ⟨k, .statement (.assign q receiver e), m⟩ (assign (invoke k) receiver e) m := by
  have htarget : Stems none ⟨k, .statement (.assign q receiver e), m⟩
      (target (invoke k) receiver) m := by
    cases receiver with
    | name q id => exact stems_ask fun s f => s.lookupSlot f id
    | member o object id =>
      exact (stems_expression object (.operand rfl)).bind fun v n _ => stems_slotOf id v
    | _ => exact stems_fail _
  refine htarget.bind fun v n hv => ?_
  exact (stems_expression e (.value hv)).bind fun _ _ _ => trivial

theorem stems_block {ss : List Stmt} (hm : m.Sound)
    (h : a.Begins ⟨k, .statements ss, m.enterFrame m.scope⟩) :
    Stems p a (inScope (stmts (invoke k) k ss)) m :=
  Nesting.Stems.inScope hm (keeps_body k ss) (stems_statements ss h)

theorem stems_stmts (ss : List Stmt) :
    Stems p ⟨k, .statements ss, m⟩ (stmts (invoke k) k ss) m := by
  cases ss with
  | nil => trivial
  | cons s ss =>
    refine Nesting.Stems.bind (Nesting.stems_part .statement rfl) fun completion n hs => ?_
    cases completion with
    | next => exact stems_statements ss (.nextStatement hs)
    | returned => exact trivial

theorem stems_rounds (name : String) (body : List Stmt) (count : Nat) (i : Int) (hm : m.Sound) :
    Stems p ⟨k, .rounds name body count i, m⟩ (forLoop (Run.round k name body) count i) m := by
  cases count with
  | zero => trivial
  | succ count =>
    have hround : Stems p ⟨k, .rounds name body (count + 1) i, m⟩ (Run.round k name body i) m := by
      refine Nesting.Stems.inScope hm ?_ ?_
      · exact keeps_inRound k name body i
      · exact Nesting.Stems.bind trivial fun v n hv => stems_statements body (.round hv)
    refine hround.bind fun completion n hi => ?_
    cases completion with
    | next => exact Nesting.stems_part (.nextRound hi) rfl
    | returned => exact trivial

theorem stems_turns (e : Expr) (body : List Stmt) (left : Nat) (hm : m.Sound) :
    Stems none ⟨k, .turns e body left, m⟩
      (whileLoop (condition (invoke k) e) (inScope (stmts (invoke k) k body)) left) m := by
  cases left with
  | zero => exact Nesting.stems_throw nofun
  | succ left =>
    refine (stems_condition .test).bind fun holds n he => ?_
    have hn := sound_of_ok (keeps_condition (keeps_invoke k) e) he hm
    cases holds with
    | false => exact trivial
    | true =>
      refine (stems_block hn (.turn he)).bind fun completion o hbody => ?_
      cases completion with
      | next => exact Nesting.stems_part (.nextTurn he hbody) rfl
      | returned => exact trivial

theorem stems_stmt (s : Stmt) (hm : m.Sound) :
    Stems (some s.position) ⟨k, .statement s, m⟩ (stmt (invoke k) k s) m := by
  cases s with
  | expression p e =>
    exact Stems.locate ((stems_expression e (.operand rfl)).bind fun _ _ _ => trivial)
  | declare d =>
    have hdeclare : Stems none ⟨k, .statement (.declare d), m⟩ (declare (invoke k) d) m :=
      (stems_initial fun _ he => .operand he).bind fun _ _ _ => trivial
    exact Stems.locate (hdeclare.bind fun _ _ _ => trivial)
  | assign p receiver e =>
    exact Stems.locate ((stems_assign p receiver e).bind fun _ _ _ => trivial)
  | conditional p e thenBody elseBody =>
    refine Stems.locate ((stems_condition (.operand rfl)).bind fun holds n hholds => ?_)
    have hn := sound_of_ok (keeps_condition (keeps_invoke k) e) hholds hm
    cases holds with
    | true => exact stems_block hn (.branch hholds)
    | false => exact stems_block hn (.branch hholds)
  | forLoop p name e body =>
    refine Stems.locate ((stems_expression e (.operand rfl)).bind fun v n he => ?_)
    cases v with
    | range => exact Nesting.stems_part (.rounds he) rfl
    | _ => exact stems_fail _
  | whileLoop p e body => exact Stems.locate (Nesting.stems_part .turns rfl)
  | ret p e => exact Stems.locate ((stems_expression e (.operand rfl)).bind fun _ _ _ => trivial)
  | unknown p label => exact (stems_fail _).locate

/-! ### Calls -/

theorem stems_defineParams {E : Failure → Prop} (ps : List Param) (types : List Ty)
    (args : List Value) : nesting.Stems E a (defineParams ps types args) m := by
  induction ps generalizing types args m with
  | nil =>
    unfold defineParams
    exact trivial
  | cons q ps ih =>
    cases types with
    | nil => exact trivial
    | cons type types =>
      cases args with
      | nil => exact trivial
      | cons arg args => exact Nesting.Stems.bind trivial fun _ n _ => ih types args

/-- A call of a method that can be entered fails in the body, or before it for want of fuel. -/
theorem stems_method {E : Failure → Prop} {f : FunctionId} {args : List Value} {d : Method}
    {closure : FrameId} (hE : E .outOfFuel) (hm : m.Sound)
    (hf : (m.store.function f).body = .method d closure) (hdepth : ¬ maxCalls ≤ m.depth) :
    nesting.Stems E ⟨k, .call f args, m⟩ (invoke k f args) m := by
  let n : Machine := { m with log := .calling d.name args.length :: m.log }
  have hn : n.Sound := ⟨hm.store, hm.scope⟩
  have hclosure : n.store.Has closure := hm.store.closures f d closure hf
  have hinside := keeps_callBody (keeps_methodBody k) d (m.store.function f).params args
  rw [invoke_eq]
  refine Nesting.Stems.of_eq (t := n) ?_ (dispatch_method hf args)
  rw [if_neg hdepth]
  refine Nesting.Stems.bind (Nesting.Stems.backTo ?_ (inCall_eq hn hclosure hinside)) ?_
  · refine (stems_defineParams _ _ _).bind fun _ o hparams => ?_
    cases k with
    | zero => exact Nesting.stems_throw hE
    | succ k => exact Nesting.stems_part (.body hf hdepth hparams) rfl
  · intro completion o _
    cases completion <;> exact trivial

theorem stems_invoke (f : FunctionId) (args : List Value) (hm : m.Sound) :
    Stems none ⟨k, .call f args, m⟩ (invoke k f args) m := by
  cases hf : (m.store.function f).body with
  | absent =>
    rw [invoke_eq]
    exact Nesting.Stems.of_eq (stems_fail _) (dispatch_absent hf args)
  | native run =>
    rw [invoke_eq]
    exact Nesting.Stems.of_eq (stems_ofExcept _) (dispatch_native hf args)
  | print =>
    rw [invoke_eq]
    exact Nesting.Stems.of_eq (Nesting.stems_pure Value.nil) (dispatch_print hf args)
  | method d closure =>
    by_cases hdepth : maxCalls ≤ m.depth
    · rw [invoke_eq]
      refine Nesting.Stems.of_eq ?_ (dispatch_method hf args)
      rw [if_pos hdepth]
      exact stems_fail _
    · exact stems_method nofun hm hf hdepth

/-! ### Programs -/

theorem stems_fields (d : Binding) (ds : List Binding) :
    Stems (some d.position) ⟨k, .fields (d :: ds), m⟩ ((d :: ds).forM (makeField k)) m := by
  have hinitial : Stems none ⟨k, .fields (d :: ds), m⟩ (initial (invoke k) d) m :=
    stems_initial fun _ he => .field he
  have hfield : Stems (some d.position) ⟨k, .fields (d :: ds), m⟩ (makeField k d) m :=
    hinitial.locate.bind fun _ _ _ => trivial
  exact hfield.bind fun _ n hd => Nesting.stems_part (.nextField hd) rfl

theorem stems_defineMethod (d : Method) : Stems none a (defineMethod d) m :=
  (stems_ask _).bind fun _ _ _ => trivial

theorem stems_defineMethods (ds : List Method) : Stems none a (ds.forM defineMethod) m := by
  induction ds generalizing m with
  | nil => trivial
  | cons d ds ih => exact (stems_defineMethod d).bind fun _ _ _ => ih

theorem stems_program (q : Program) :
    Stems none ⟨k, .program q, m⟩ (program k q) m := by
  refine Nesting.Stems.bind (Nesting.stems_part .fields rfl) fun _ n hfields => ?_
  refine (stems_defineMethods q.methods).bind fun _ o hmethods => ?_
  refine (stems_ask _).bind fun f u hf => ?_
  obtain ⟨rfl, hf⟩ := ask_eq_ok hf
  refine Nesting.Stems.bind trivial fun _ v hnote => ?_
  cases hnote
  exact stems_call f [] (.main hfields hmethods hf)

end

theorem arises {d : Diagnostic} (ha : a.machine.Sound) (h : a.failure? = some (.diagnostic d)) :
    d.position = a.place? ∨ ∃ b, a.Begins b ∧ b.failure?.isSome := by
  obtain ⟨k, task, m⟩ := a
  cases task with
  | program q => exact ((stems_program q).of_fails h).imp_left fun he => he d rfl
  | fields ds =>
    cases ds with
    | nil => cases h
    | cons c ds => exact ((stems_fields c ds).of_fails h).imp_left fun he => he d rfl
  | call f args => exact ((stems_invoke f args ha).of_fails h).imp_left fun he => he d rfl
  | statements ss => exact ((stems_stmts ss).of_fails h).imp_left fun he => he d rfl
  | statement s => exact ((stems_stmt s ha).of_fails h).imp_left fun he => he d rfl
  | rounds name body count i =>
    exact ((stems_rounds name body count i ha).of_fails h).imp_left fun he => he d rfl
  | turns e body left => exact ((stems_turns e body left ha).of_fails h).imp_left fun he => he d rfl
  | expressions es => exact ((stems_exprs es).of_fails h).imp_left fun he => he d rfl
  | expression e => exact ((stems_expr e).of_fails h).imp_left fun he => he d rfl

theorem lawful_nesting : nesting.Lawful fun a => a.machine.Sound where
  wellFounded := wellFounded_begins
  valid := begins_sound
  propagates := propagates
  arises := arises

end Activity

end BlockScript
