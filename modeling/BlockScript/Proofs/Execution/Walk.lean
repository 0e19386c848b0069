import BlockScript.Proofs.Execution.Activity
import BlockScript.Proofs.Execution.Growth

/-!
# Walking through a run

All that happens in a run happens in one of its activities. So what leads from machine to machine in
each step of an activity, and is handed on from its parts to the activity, leads from the beginning
of a run to its end.
-/

namespace BlockScript

open Attempt Pass Run

/-- What may become of a machine in an activity: `R a m n` says that `a` may have led from `m` to
`n`. Where a machine stands does not matter. -/
structure Activity.Accounts (R : Activity → Machine → Machine → Prop) : Prop where
  still {a : Activity} {m n : Machine} (hstore : n.store = m.store) (hlog : n.log = m.log) : R a m n
  trans {a : Activity} {m n o : Machine} (hmn : R a m n) (hno : R a n o) : R a m o
  part {a b : Activity} {m n : Machine} (hab : a.Begins b) (hmn : R b m n) : R a m n
  frame {a : Activity} {m n : Machine} {parent : FrameId}
    (hstore : n.store = (m.store.createFrame (some parent)).2) (hlog : n.log = m.log) : R a m n
  slot (a : Activity) (m : Machine) (slot : Slot) :
    R a m { m with store := (m.store.defineSlot m.scope slot).2 }
  function (a : Activity) (m : Machine) {d : Method} {fn : Function}
    (hfn : Implements fn d m.scope) :
    R a m { m with store := (m.store.defineFunction m.scope fn).2 }
  assign {a : Activity} {v : SlotId} {w : Value} (ha : a.Assigns v w) (m : Machine) :
    R a m { m with store := m.store.assign v w }
  note (a : Activity) (m : Machine) {event : Event} (hevent : ∀ text, event ≠ .printed text) :
    R a m { m with log := event :: m.log }
  print {a : Activity} {text : String} (ha : a.Prints text) :
    R a a.machine { a.machine with log := .printed text :: a.machine.log }

namespace Run

/-! ## Runs -/

section

variable {α β : Type} {T : Machine → Machine → Prop} {x : Run α} {m n : Machine}

/-- However the run ends, `T` leads to where it ends. -/
def Walks (T : Machine → Machine → Prop) (x : Run α) (m : Machine) : Prop :=
  Ends x m (fun _ n => n.Sound ∧ T m n) fun _ n => n.Sound ∧ T m n

theorem Walks.mono {T' : Machine → Machine → Prop} (h : Walks T x m) (hT : ∀ n, T m n → T' m n) :
    Walks T' x m :=
  Ends.imp h (fun _ n hn => ⟨hn.1, hT n hn.2⟩) fun _ n hn => ⟨hn.1, hT n hn.2⟩

theorem Walks.locate {p : Position} (h : Walks T x m) : Walks T (locate p x) m :=
  Ends.locate h fun _ _ hn => hn

theorem logical_eq_ok {op : Operator} {value : Value} {b : Bool}
    (h : logical op value m = .ok b n) : value = .boolean b ∧ n = m := by
  cases value with
  | boolean c =>
    cases h
    exact ⟨rfl, rfl⟩
  | _ => cases h

theorem lookupMethod_eq_ok {receiver : Value} {name : String} {arguments : Nat} {f : FunctionId}
    (h : lookupMethod receiver name arguments m = .ok f n) :
    n = m ∧ m.store.findMethod? receiver.type name arguments = some f := by
  obtain ⟨hn, hfound⟩ := ask_eq_ok h
  refine ⟨hn, ?_⟩
  cases hf : m.store.findMethod? receiver.type name arguments with
  | none =>
    rw [hf] at hfound
    cases hfound
  | some g =>
    rw [hf] at hfound
    cases hfound
    rfl

theorem keeps_body (k : Nat) (ss : List Stmt) : Keeps (Steps true) (stmts (invoke k) k ss) :=
  keeps_stmts fun s _ => keeps_stmt (keeps_invoke k) s

/-- What a round does in its frame. -/
theorem keeps_inRound (k : Nat) (name : String) (body : List Stmt) (i : Int) :
    Keeps (Steps true) (do
      let _ ← define name .integer (some (.integer i))
      stmts (invoke k) k body : Run Completion) :=
  (keeps_define _ _ _).bind fun _ => keeps_body k body

theorem keeps_round (k : Nat) (name : String) (body : List Stmt) (i : Int) :
    Keeps (Steps false) (round k name body i) :=
  keeps_inScope (keeps_inRound k name body i)

end

open Activity

variable {α β : Type} {R : Activity → Machine → Machine → Prop} (hR : Accounts R) {a b : Activity}
  {x : Run α} {m n : Machine} {k : Nat}

include hR

theorem walks_inert (hx : Inert x) (hm : m.Sound) : Walks (R a) x m := by
  refine (hx m).imp ?_ ?_
  · rintro _ _ rfl
    exact ⟨hm, hR.still rfl rfl⟩
  · rintro _ _ ⟨rfl, -⟩
    exact ⟨hm, hR.still rfl rfl⟩

theorem walks_pure (r : α) (hm : m.Sound) : Walks (R a) (pure r) m := ⟨hm, hR.still rfl rfl⟩

theorem walks_throw (e : Failure) (hm : m.Sound) : Walks (R a) (throw e : Run α) m :=
  ⟨hm, hR.still rfl rfl⟩

/-- First `x`, then what follows, from where `x` has led to. -/
theorem Walks.bind {f : α → Run β} (hx : Walks (R a) x m)
    (hf : ∀ r n, x m = .ok r n → n.Sound → Walks (R a) (f r) n) : Walks (R a) (x >>= f) m := by
  refine ends_bind.mpr ((Ends.with_run hx).imp ?_ fun _ _ hn => hn.1)
  rintro r n ⟨⟨hsound, hmn⟩, hrun⟩
  exact (hf r n hrun hsound).imp (fun _ _ ho => ⟨ho.1, hR.trans hmn ho.2⟩) fun _ _ ho =>
    ⟨ho.1, hR.trans hmn ho.2⟩

/-- What a part of an activity does, the activity does. -/
theorem Walks.part (h : Walks (R b) x m) (hab : a.Begins b) : Walks (R a) x m :=
  h.mono fun _ => hR.part hab

/-- The same run, from a machine that `R` leads to. -/
theorem Walks.after {y : Run α} (h : Walks (R a) y n) (hmn : R a m n) (hrun : x m = y n) :
    Walks (R a) x m := by
  unfold Walks Ends at *
  rw [hrun]
  cases hy : y n with
  | ok r o =>
    rw [hy] at h
    exact ⟨h.1, hR.trans hmn h.2⟩
  | error e o =>
    rw [hy] at h
    exact ⟨h.1, hR.trans hmn h.2⟩

/-- What is done in a new frame that is left again. -/
theorem walks_backTo {y : Run α} {parent : FrameId} (hm : m.Sound) (hn : n.Sound)
    (hstore : n.store = (m.store.createFrame (some parent)).2) (hlog : n.log = m.log)
    (hscope : n.scope = ⟨m.store.frames.size⟩) (hkeeps : Keeps (Steps true) y)
    (hy : Walks (R a) y n) (hrun : x m = m.backTo (y n)) : Walks (R a) x m := by
  have hleave (o : Machine) (ho : (o.Sound ∧ R a n o) ∧ Steps true n o) :
      (m.leave o).Sound ∧ R a m (m.leave o) := by
    obtain ⟨⟨-, hno⟩, hsteps⟩ := ho
    exact ⟨(Evolves.leave hm hstore hscope (hsteps hn)).sound,
      hR.trans (hR.frame hstore hlog) (hR.trans hno (hR.still rfl rfl))⟩
  refine (ends_backTo hrun).mpr ((Ends.and_keeps hy hkeeps).imp ?_ ?_)
  · exact fun _ o ho => hleave o ho
  · exact fun _ o ho => hleave o ho

theorem walks_inScope (hm : m.Sound) (hkeeps : Keeps (Steps true) x)
    (hx : Walks (R a) x (m.enterFrame m.scope)) : Walks (R a) (inScope x) m :=
  walks_backTo hR hm (hm.enterFrame hm.scope) rfl rfl rfl hkeeps hx (inScope_eq hm hkeeps)

/-! ## Steps -/

theorem walks_define (name : String) (type : Ty) (value : Option Value) (hm : m.Sound) :
    Walks (R a) (define name type value) m :=
  ⟨(Evolves.define hm ⟨name, type, value⟩).sound, hR.slot a m ⟨name, type, value⟩⟩

theorem walks_defineMethod (d : Method) (hm : m.Sound) : Walks (R a) (defineMethod d) m := by
  refine (walks_inert hR (inert_ask _) hm).bind hR fun (types, returns) n hrun hn => ?_
  refine Walks.bind hR ?_ fun _ o _ ho => walks_pure hR _ ho
  let fn : Function := ⟨d.name, types, some returns, .method d n.scope⟩
  have hfn : Implements fn d n.scope := ⟨rfl, Store.signature_length (ask_eq_ok hrun).2, rfl⟩
  have hextends : n.Extends { n with store := (n.store.defineFunction n.scope fn).2 } := by
    refine .defineFunction hn ?_
    rintro _ _ ⟨⟩
    exact hn.scope
  exact ⟨hextends.sound, hR.function a n hfn⟩

/-! ## Expressions -/

omit hR in
/-- So it is with what an activity does for all expressions. -/
def WalksExpr (R : Activity → Machine → Machine → Prop) (k : Nat) (e : Expr) : Prop :=
  ∀ m : Machine, m.Sound → Walks (R ⟨k, .expression e, m⟩) (expr (invoke k) e) m

theorem walks_exprs {es : List Expr} (h : ∀ e ∈ es, WalksExpr R k e) (hm : m.Sound) :
    Walks (R ⟨k, .expressions es, m⟩) (exprs (invoke k) es) m := by
  induction es generalizing m with
  | nil => exact walks_pure hR _ hm
  | cons e es ih =>
    rw [List.forall_mem_cons] at h
    refine ((h.1 m hm).part hR .expression).bind hR fun v n hv hn => ?_
    exact ((ih h.2 hn).part hR (.nextExpression hv)).bind hR fun _ _ _ ho => walks_pure hR _ ho

omit hR in
/-- Calls with this fuel do only what their activities do. -/
def WalksCalls (R : Activity → Machine → Machine → Prop) (k : Nat) : Prop :=
  ∀ f args (m : Machine), m.Sound → Walks (R ⟨k, .call f args, m⟩) (invoke k f args) m

section

variable (hcall : WalksCalls R k)
include hcall

/-- The operands of an expression, one by one. -/
theorem walks_expr (e : Expr) : WalksExpr R k e := by
  induction e with
  | literal p value => exact fun m hm => walks_inert hR (inert_literal value) hm
  | group p inner ih => exact fun m hm => ((ih m hm).part hR .expression).part hR (.operands rfl)
  | binary p op left right hl hr =>
    intro m hm
    rw [expr]
    cases hop : decisive? op with
    | some decisive =>
      have hoperands : (Expr.binary p op left right).operands = [left] := by
        rw [Expr.operands, hop]
        rfl
      have hleft := ((hl m hm).part hR .expression).part hR (.operands hoperands)
      refine hleft.bind hR fun v n hv hn => ?_
      refine (walks_inert hR (inert_logical op v) hn).bind hR fun a o ha ho => ?_
      obtain ⟨rfl, rfl⟩ := logical_eq_ok ha
      split
      · exact walks_pure hR _ ho
      · rename_i hab
        refine ((hr o ho).part hR (.right hop hv hab)).bind hR fun w u _ hu => ?_
        exact (walks_inert hR (inert_logical op w) hu).bind hR fun _ _ _ hq => walks_pure hR _ hq
    | none =>
      have hoperands : (Expr.binary p op left right).operands = [left, right] := by
        rw [Expr.operands, hop]
        rfl
      have hleft := ((hl m hm).part hR .expression).part hR (.operands hoperands)
      refine hleft.bind hR fun v n hv hn => ?_
      have hlast : Walks (R ⟨k, .expressions [right], n⟩) (expr (invoke k) right) n :=
        (hr n hn).part hR .expression
      have hright := (hlast.part hR (.nextExpression hv)).part hR (.operands hoperands)
      refine hright.bind hR fun w o _ ho => ?_
      exact walks_inert hR (inert_ofExcept _) ho
  | name p id =>
    intro m hm
    refine (walks_inert hR (inert_ask _) hm).bind hR fun v n _ hn => ?_
    exact walks_inert hR (inert_read v) hn
  | member p receiver id ih =>
    intro m hm
    refine (((ih m hm).part hR .expression).part hR (.operands rfl)).bind hR fun v n _ hn => ?_
    refine (walks_inert hR (inert_field id v) hn).bind hR fun v o _ ho => ?_
    exact walks_inert hR (inert_read v) ho
  | call p id arguments ih =>
    intro m hm
    refine ((walks_exprs hR ih hm).part hR (.operands rfl)).bind hR fun args n hargs hn => ?_
    refine Walks.bind hR (walks_inert hR (inert_ask _) hn) fun f o hf ho => ?_
    obtain ⟨rfl, hfound⟩ := ask_eq_ok hf
    exact (hcall f args o ho).part hR (.call hargs hfound)
  | methodCall p receiver id arguments hr ih =>
    intro m hm
    refine (((hr m hm).part hR .expression).part hR (.operands rfl)).bind hR fun v n hv hn => ?_
    have hrest := (walks_exprs hR ih hn).part hR (.nextExpression hv)
    refine (hrest.part hR (.operands rfl)).bind hR fun args o hargs ho => ?_
    refine Walks.bind hR (walks_inert hR (inert_ask _) ho) fun f u hf hu => ?_
    obtain ⟨rfl, hfound⟩ := lookupMethod_eq_ok hf
    exact (hcall f (v :: args) u hu).part hR (.methodCall hv hargs hfound)
  | unknown p label => exact fun m hm => walks_inert hR (inert_fail _) hm

/-! ## Statements -/

theorem walks_condition (e : Expr) (hm : m.Sound) :
    Walks (R ⟨k, .expression e, m⟩) (condition (invoke k) e) m := by
  refine (walks_expr hR hcall e m hm).bind hR fun v n _ hn => ?_
  cases v with
  | boolean b => exact walks_pure hR b hn
  | _ => exact walks_inert hR (inert_fail _) hn

/-- The activity in which a declaration begins has its initial value begin. -/
theorem walks_initial {b : Binding} (hm : m.Sound)
    (ha : ∀ e, b.value = some e → a.Begins ⟨k, .expression e, m⟩) :
    Walks (R a) (initial (invoke k) b) m := by
  have htype (value : Value) (n : Machine) (hn : n.Sound) :
      Walks (R a) (do return (value, ← declaredType b.type value)) n :=
    (walks_inert hR (inert_declaredType b.type value) hn).bind hR fun _ _ _ ho => walks_pure hR _ ho
  unfold initial
  cases hb : b.value with
  | none => exact htype .nil m hm
  | some e =>
    exact ((walks_expr hR hcall e m hm).part hR (ha e hb)).bind hR fun value n _ => htype value n

theorem walks_declare (b : Binding) (hm : m.Sound) :
    Walks (R ⟨k, .statement (.declare b), m⟩) (declare (invoke k) b) m := by
  refine (walks_initial hR hcall hm fun e he => .operand he).bind hR fun _ n _ hn => ?_
  exact (walks_define hR _ _ _ hn).bind hR fun _ _ _ ho => walks_pure hR _ ho

theorem walks_target (p : Position) (receiver e : Expr) (hm : m.Sound) :
    Walks (R ⟨k, .statement (.assign p receiver e), m⟩) (target (invoke k) receiver) m := by
  cases receiver with
  | name q id => exact walks_inert hR (inert_ask fun s f => s.lookupSlot f id) hm
  | member q object id =>
    refine ((walks_expr hR hcall object m hm).part hR (.operand rfl)).bind hR fun v n _ hn => ?_
    exact walks_inert hR (inert_field id v) hn
  | _ => exact walks_inert hR (inert_fail _) hm

/-- Here a variable changes, and it is the one that the target resolves to. -/
theorem walks_assign (p : Position) (receiver e : Expr) (hm : m.Sound) :
    Walks (R ⟨k, .statement (.assign p receiver e), m⟩) (assign (invoke k) receiver e) m := by
  refine (walks_target hR hcall p receiver e hm).bind hR fun v n hv hn => ?_
  refine ((walks_expr hR hcall e n hn).part hR (.value hv)).bind hR fun w o hw ho => ?_
  exact ⟨ho.assign v w, hR.assign (.intro hv hw) o⟩

end

omit hR in
def WalksStmt (R : Activity → Machine → Machine → Prop) (k : Nat) (s : Stmt) : Prop :=
  ∀ m : Machine, m.Sound → Walks (R ⟨k, .statement s, m⟩) (stmt (invoke k) k s) m

theorem walks_stmts {ss : List Stmt} (h : ∀ s ∈ ss, WalksStmt R k s) (hm : m.Sound) :
    Walks (R ⟨k, .statements ss, m⟩) (stmts (invoke k) k ss) m := by
  induction ss generalizing m with
  | nil => exact walks_pure hR _ hm
  | cons s ss ih =>
    rw [List.forall_mem_cons] at h
    refine ((h.1 m hm).part hR .statement).bind hR fun completion n hs hn => ?_
    cases completion with
    | next => exact (ih h.2 hn).part hR (.nextStatement hs)
    | returned value => exact walks_pure hR _ hn

theorem walks_block {ss : List Stmt} (h : ∀ s ∈ ss, WalksStmt R k s) (hm : m.Sound)
    (ha : a.Begins ⟨k, .statements ss, m.enterFrame m.scope⟩) :
    Walks (R a) (inScope (stmts (invoke k) k ss)) m :=
  walks_inScope hR hm (keeps_body k ss) ((walks_stmts hR h (hm.enterFrame hm.scope)).part hR ha)

section

variable {body : List Stmt} (hbody : ∀ s ∈ body, WalksStmt R k s)
include hbody

theorem walks_round (name : String) (i : Int) (hm : m.Sound)
    (ha : ∀ v n, define name .integer (some (.integer i)) (m.enterFrame m.scope) = .ok v n →
      a.Begins ⟨k, .statements body, n⟩) : Walks (R a) (round k name body i) m := by
  refine walks_inScope hR hm (keeps_inRound k name body i) ?_
  refine (walks_define hR _ _ _ (hm.enterFrame hm.scope)).bind hR fun v n hv hn => ?_
  exact (walks_stmts hR hbody hn).part hR (ha v n hv)

theorem walks_rounds (name : String) (count : Nat) (i : Int) (hm : m.Sound) :
    Walks (R ⟨k, .rounds name body count i, m⟩) (forLoop (round k name body) count i) m := by
  induction count generalizing i m with
  | zero => exact walks_pure hR _ hm
  | succ count ih =>
    have hround : Walks (R ⟨k, .rounds name body (count + 1) i, m⟩) (round k name body i) m :=
      walks_round hR hbody name i hm fun v n hv => .round hv
    refine hround.bind hR fun completion n hi hn => ?_
    cases completion with
    | next => exact (ih (i + 1) hn).part hR (.nextRound hi)
    | returned value => exact walks_pure hR _ hn

variable (hcall : WalksCalls R k)
include hcall

theorem walks_turns (e : Expr) (left : Nat) (hm : m.Sound) :
    Walks (R ⟨k, .turns e body left, m⟩)
      (whileLoop (condition (invoke k) e) (inScope (stmts (invoke k) k body)) left) m := by
  induction left generalizing m with
  | zero => exact walks_throw hR _ hm
  | succ left ih =>
    refine ((walks_condition hR hcall e hm).part hR .test).bind hR fun holds n he hn => ?_
    cases holds with
    | false => exact walks_pure hR _ hn
    | true =>
      refine (walks_block hR hbody hn (.turn he)).bind hR ?_
      intro completion o ho hsound
      cases completion with
      | next => exact (ih hsound).part hR (.nextTurn he ho)
      | returned value => exact walks_pure hR _ hsound

end

theorem walks_stmt (hcall : WalksCalls R k) (s : Stmt) : WalksStmt R k s := by
  induction s with
  | expression p e =>
    intro m hm
    refine Walks.locate (((walks_expr hR hcall e m hm).part hR (.operand rfl)).bind hR ?_)
    exact fun _ _ _ hn => walks_pure hR _ hn
  | declare b =>
    intro m hm
    exact ((walks_declare hR hcall b hm).bind hR fun _ _ _ hn => walks_pure hR _ hn).locate
  | assign p receiver e =>
    intro m hm
    exact ((walks_assign hR hcall p receiver e hm).bind hR fun _ _ _ hn =>
      walks_pure hR _ hn).locate
  | conditional p e thenBody elseBody hthen helse =>
    intro m hm
    refine Walks.locate (((walks_condition hR hcall e hm).part hR (.operand rfl)).bind hR ?_)
    intro b n hb hn
    cases b with
    | true => exact walks_block hR hthen hn (.branch hb)
    | false => exact walks_block hR helse hn (.branch hb)
  | forLoop p name e body ih =>
    intro m hm
    refine Walks.locate (((walks_expr hR hcall e m hm).part hR (.operand rfl)).bind hR ?_)
    intro v n he hn
    cases v with
    | range start stop => exact (walks_rounds hR ih name _ start hn).part hR (.rounds he)
    | _ => exact walks_inert hR (inert_fail _) hn
  | whileLoop p e body ih =>
    exact fun m hm => ((walks_turns hR ih hcall e k hm).part hR .turns).locate
  | ret p e =>
    intro m hm
    refine Walks.locate (((walks_expr hR hcall e m hm).part hR (.operand rfl)).bind hR ?_)
    exact fun _ _ _ hn => walks_pure hR _ hn
  | unknown p label => exact fun m hm => (walks_inert hR (inert_fail _) hm).locate

/-! ## Calls -/

theorem walks_defineParams (ps : List Param) (types : List Ty) (args : List Value) (hm : m.Sound) :
    Walks (R a) (defineParams ps types args) m := by
  induction ps generalizing types args m with
  | nil =>
    unfold defineParams
    exact walks_pure hR _ hm
  | cons p ps ih =>
    cases types with
    | nil => exact walks_pure hR _ hm
    | cons type types =>
      cases args with
      | nil => exact walks_pure hR _ hm
      | cons arg args =>
        exact (walks_define hR _ _ _ hm).bind hR fun _ _ _ hn => ih types args hn

/-- A call does what the body of its method does, or it prints. -/
theorem walks_dispatch {body : List Stmt → Run Completion} {f : FunctionId} {args : List Value}
    (hkeeps : ∀ ss, Keeps (Steps true) (body ss)) (hm : m.Sound)
    (hbody : ∀ d closure n, (m.store.function f).body = .method d closure → ¬ maxCalls ≤ m.depth →
      defineParams d.params (m.store.function f).params args
        (enterCall closure { m with log := .calling d.name args.length :: m.log }) = .ok ⟨⟩ n →
      n.Sound → Walks (R ⟨k, .call f args, m⟩) (body d.body) n) :
    Walks (R ⟨k, .call f args, m⟩) (dispatch body f args) m := by
  cases hf : (m.store.function f).body with
  | absent =>
    exact (walks_inert hR (inert_fail _) hm).after hR (hR.still rfl rfl) (dispatch_absent hf args)
  | native run =>
    exact (walks_inert hR (inert_ofExcept _) hm).after hR (hR.still rfl rfl)
      (dispatch_native hf args)
  | print =>
    have hn : Sound { m with log := .printed (Native.argument args 0).text :: m.log } :=
      ⟨hm.store, hm.scope⟩
    exact (walks_pure hR Value.nil hn).after hR (hR.print (.intro args hf)) (dispatch_print hf args)
  | method d closure =>
    let n : Machine := { m with log := .calling d.name args.length :: m.log }
    have hn : n.Sound := ⟨hm.store, hm.scope⟩
    refine Walks.after hR (n := n) ?_ (hR.note _ m nofun) (dispatch_method hf args)
    split
    · exact walks_inert hR (inert_fail _) hn
    · rename_i hdepth
      have hclosure : n.store.Has closure := hm.store.closures f d closure hf
      have henter := sound_enterCall hn hclosure
      have hinside := keeps_callBody hkeeps d (m.store.function f).params args
      refine Walks.bind hR ?_ fun completion o _ ho => ?_
      · refine walks_backTo hR hn henter rfl rfl rfl hinside ?_ (inCall_eq hn hclosure hinside)
        refine (walks_defineParams hR _ _ _ henter).bind hR fun _ o hparams ho => ?_
        exact hbody d closure o hf hdepth hparams ho
      · cases completion <;> exact walks_pure hR _ ho

theorem walks_calls (k : Nat) : WalksCalls R k := by
  induction k with
  | zero =>
    intro f args m hm
    refine walks_dispatch hR (fun _ => keeps_throw _) hm ?_
    exact fun d closure n _ _ _ hn => walks_throw hR _ hn
  | succ k ih =>
    intro f args m hm
    refine walks_dispatch hR (keeps_body k) hm ?_
    intro d closure n hf hdepth hparams hn
    exact (walks_stmts hR (fun s _ => walks_stmt hR ih s) hn).part hR (.body hf hdepth hparams)

/-! ## Programs -/

theorem walks_makeField (b : Binding) (hm : m.Sound)
    (ha : ∀ e, b.value = some e → a.Begins ⟨k, .expression e, m⟩) :
    Walks (R a) (makeField k b) m := by
  refine (walks_initial hR (walks_calls hR k) hm ha).locate.bind hR fun _ n _ hn => ?_
  exact (walks_define hR _ _ _ hn).bind hR fun _ _ _ ho => walks_pure hR _ ho

theorem walks_fields (bs : List Binding) (hm : m.Sound) :
    Walks (R ⟨k, .fields bs, m⟩) (bs.forM (makeField k)) m := by
  induction bs generalizing m with
  | nil => exact walks_pure hR _ hm
  | cons b bs ih =>
    refine (walks_makeField hR b hm fun e he => .field he).bind hR fun _ n hb hn => ?_
    exact (ih hn).part hR (.nextField hb)

theorem walks_defineMethods (ds : List Method) (hm : m.Sound) :
    Walks (R a) (ds.forM defineMethod) m := by
  induction ds generalizing m with
  | nil => exact walks_pure hR _ hm
  | cons d ds ih => exact (walks_defineMethod hR d hm).bind hR fun _ _ _ hn => ih hn

theorem walks_program (p : Program) (hm : m.Sound) :
    Walks (R ⟨k, .program p, m⟩) (program k p) m := by
  refine ((walks_fields hR p.fields hm).part hR .fields).bind hR fun _ n hfields hn => ?_
  refine (walks_defineMethods hR p.methods hn).bind hR fun _ o hmethods ho => ?_
  refine Walks.bind hR (walks_inert hR (inert_ask _) ho) fun f u hf hu => ?_
  obtain ⟨rfl, hmain⟩ := ask_eq_ok hf
  let q : Machine := { u with log := .entryPointInvoked :: u.log }
  have hq : q.Sound := ⟨hu.store, hu.scope⟩
  have hcall := (walks_calls hR k f [] q hq).part hR (.main hfields hmethods hmain)
  exact hcall.after hR (hR.note _ u nofun) rfl

end Run

/-! ## Parts -/

namespace Activity

open Run

variable {R : Activity → Machine → Machine → Prop} {a b : Activity}

/-- What has led to a part, from the beginning of the activity that the part begins in. -/
theorem Accounts.begins (hR : Accounts R) (hab : a.Begins b) (ha : a.machine.Sound) :
    b.machine.Sound ∧ R a a.machine b.machine := by
  have hcalls (k : Nat) := walks_calls hR k
  have hbody {k : Nat} {ss : List Stmt} : ∀ s ∈ ss, WalksStmt R k s :=
    fun s _ => walks_stmt hR (hcalls k) s
  -- A new frame comes after what has been walked through before.
  have henter {n : Machine} (h : n.Sound ∧ R a a.machine n) :
      (n.enterFrame n.scope).Sound ∧ R a a.machine (n.enterFrame n.scope) :=
    ⟨h.1.enterFrame h.1.scope, hR.trans h.2 (hR.frame rfl rfl)⟩
  cases hab with
  | fields | field | statement | operand | turns | test | expression | operands =>
    exact ⟨ha, hR.still rfl rfl⟩
  | @main k p m n o f hfields hmethods hmain =>
    have hn := ((walks_fields hR p.fields ha).part hR .fields).of_ok hfields
    have ho : o.Sound ∧ R ⟨k, .program p, m⟩ n o :=
      (walks_defineMethods hR p.methods hn.1).of_ok hmethods
    exact ⟨⟨ho.1.store, ho.1.scope⟩, hR.trans hn.2 (hR.trans ho.2 (hR.note _ o nofun))⟩
  | @nextField k b bs m n hb => exact (walks_makeField hR b ha fun _ he => .field he).of_ok hb
  | @body k f args m n d closure hf hdepth hparams =>
    let q : Machine := { m with log := .calling d.name args.length :: m.log }
    have hq : q.Sound := ⟨ha.store, ha.scope⟩
    have hinside := sound_enterCall hq (ha.store.closures f d closure hf)
    have hn : n.Sound ∧ R ⟨k + 1, .call f args, m⟩ (enterCall closure q) n :=
      (walks_defineParams hR d.params _ args hinside).of_ok hparams
    have hnoted : R ⟨k + 1, .call f args, m⟩ m q := hR.note _ m nofun
    have hentered : R ⟨k + 1, .call f args, m⟩ q (enterCall closure q) := hR.frame rfl rfl
    exact ⟨hn.1, hR.trans hnoted (hR.trans hentered hn.2)⟩
  | @nextStatement k s ss m n hs =>
    exact (((walks_stmt hR (hcalls k) s) m ha).part hR .statement).of_ok hs
  | @value k p receiver e m n v hv => exact (walks_target hR (hcalls k) p receiver e ha).of_ok hv
  | branch hb =>
    exact henter (((walks_condition hR (hcalls _) _ ha).part hR (.operand rfl)).of_ok hb)
  | rounds he => exact ((walks_expr hR (hcalls _) _ _ ha).part hR (.operand rfl)).of_ok he
  | @round k name body count i m n v hv =>
    have hm := henter ⟨ha, hR.still rfl rfl⟩
    have hn : n.Sound ∧ R ⟨k, .rounds name body (count + 1) i, m⟩ (m.enterFrame m.scope) n :=
      (walks_define hR _ _ _ hm.1).of_ok hv
    exact ⟨hn.1, hR.trans hm.2 hn.2⟩
  | @nextRound k name body count i m n hi =>
    exact (walks_round hR hbody name i ha fun _ _ hv => .round hv).of_ok hi
  | turn he => exact henter (((walks_condition hR (hcalls _) _ ha).part hR .test).of_ok he)
  | @nextTurn k e body left m n o he hrun =>
    have hn : n.Sound ∧ R ⟨k, .turns e body (left + 1), m⟩ m n :=
      ((walks_condition hR (hcalls k) e ha).part hR .test).of_ok he
    have ho : o.Sound ∧ R ⟨k, .turns e body (left + 1), m⟩ n o :=
      (walks_block hR hbody hn.1 (.turn he)).of_ok hrun
    exact ⟨ho.1, hR.trans hn.2 ho.2⟩
  | nextExpression he => exact ((walks_expr hR (hcalls _) _ _ ha).part hR .expression).of_ok he
  | @right k p op left right m n a b hop hleft hab =>
    have hoperands : (Expr.binary p op left right).operands = [left] := by
      rw [Expr.operands, hop]
      rfl
    have hfirst : Walks (R ⟨k, .expressions [left], m⟩) (expr (invoke k) left) m :=
      (walks_expr hR (hcalls k) left m ha).part hR .expression
    exact (hfirst.part hR (.operands hoperands)).of_ok hleft
  | @call k p name es m n args f hargs hf =>
    have hes : ∀ e ∈ es, WalksExpr R k e := fun e _ => walks_expr hR (hcalls k) e
    exact ((walks_exprs hR hes ha).part hR (.operands rfl)).of_ok hargs
  | @methodCall k p receiver name es m n o v args f hv hargs hf =>
    have hes : ∀ e ∈ es, WalksExpr R k e := fun e _ => walks_expr hR (hcalls k) e
    have hoperands : (Expr.methodCall p receiver name es).operands = receiver :: es := rfl
    have hreceiver : Walks (R ⟨k, .expressions (receiver :: es), m⟩) (expr (invoke k) receiver) m :=
      (walks_expr hR (hcalls k) receiver m ha).part hR .expression
    have hn := (hreceiver.part hR (.operands hoperands)).of_ok hv
    have hrest := (walks_exprs hR hes hn.1).part hR (.nextExpression hv)
    have ho := (hrest.part hR (.operands hoperands)).of_ok hargs
    exact ⟨ho.1, hR.trans hn.2 ho.2⟩

/-- As `Accounts.begins`, over any number of parts within each other. -/
theorem Accounts.includes (hR : Accounts R) (hab : a.Includes b) (ha : a.machine.Sound) :
    b.machine.Sound ∧ R a a.machine b.machine := by
  induction hab using Relation.ReflTransGen.head_induction_on with
  | refl => exact ⟨ha, hR.still rfl rfl⟩
  | head hac _ ih =>
    have hc := hR.begins hac ha
    have hb := ih hc.1
    exact ⟨hb.1, hR.trans hc.2 (hR.part hac hb.2)⟩

end Activity

end BlockScript
