import BlockScript.Proofs.Execution.Growth
import BlockScript.Proofs.Pass.Lockstep
import BlockScript.Proofs.Store.Upkeep

/-!
# Runs on machines that correspond

Two machines correspond if whatever a run asks them has the same answer on both, and whatever a run
does to them leaves them so. Then the same part of a program does the same on both: it gives the
same value or fails in the same way, and the machines correspond again.
-/

namespace BlockScript

/-- What a run of a program does once its fields and methods are there. -/
def Run.callMain (fuel : Nat) : Run Value := do
  let f ← Pass.ask fun s scope => s.lookupFunction scope "main" 0
  Pass.note .entryPointInvoked
  invoke fuel f []

/-- Which machines correspond, which of their frames, variables and functions do, and the frames of
the objects that values may lead to. -/
structure Correspondence where
  machines : Machine → Machine → Prop
  scopes : FrameId → FrameId → Prop
  slots : SlotId → SlotId → Prop
  functions : FunctionId → FunctionId → Prop
  objects : FrameId → Prop

namespace Correspondence

open Attempt Pass Run

variable (κ : Correspondence)

/-- The same value. -/
def Values (v w : Value) : Prop := v = w ∧ v.Within κ.objects

/-- Bodies that do the same, in scopes that correspond. -/
inductive SameBodies : Body → Body → Prop
  | absent : SameBodies .absent .absent
  | print : SameBodies .print .print
  | native {run : List Value → Except Breakdown Value} (h : Native.Within κ.objects run) :
      SameBodies (.native run) (.native run)
  | method {d : Method} {c c' : FrameId} (h : κ.scopes c c') :
      SameBodies (.method d c) (.method d c')

structure SameFunctions (F G : Function) : Prop where
  name : G.name = F.name
  params : G.params = F.params
  body : κ.SameBodies F.body G.body

/-- Machines that correspond answer alike. -/
structure Answers (a b : Machine) : Prop where
  left : a.Sound
  right : b.Sound
  depth : b.own = a.own
  catalog : b.store.catalog = a.store.catalog
  slot : ∀ v w, κ.slots v w → (b.store.slot w).value = (a.store.slot v).value ∧
    ∀ value ∈ (a.store.slot v).value, value.Within κ.objects
  function : ∀ x y, κ.functions x y → κ.SameFunctions (a.store.function x) (b.store.function y)
  findSlot? : ∀ id, Option.Rel κ.slots (a.store.findSlot? a.scope id) (b.store.findSlot? b.scope id)
  findFunction? : ∀ name arity, Option.Rel κ.functions (a.store.findFunction? a.scope name arity)
    (b.store.findFunction? b.scope name arity)
  findMethod? : ∀ t name arguments, Option.Rel κ.functions (a.store.findMethod? t name arguments)
    (b.store.findMethod? t name arguments)
  fields : ∀ f, κ.objects f → ∀ id,
    Option.Rel κ.slots ((a.store.frame f).slots.find? id) ((b.store.frame f).slots.find? id)

/-- Machines that correspond answer alike, and what is done to both leaves them so. -/
structure Lawful : Prop where
  answers : ∀ {a b}, κ.machines a b → κ.Answers a b
  note : ∀ {a b}, κ.machines a b → ∀ event,
    κ.machines { a with log := event :: a.log } { b with log := event :: b.log }
  enterScope : ∀ {a b}, κ.machines a b →
    κ.machines (a.enterFrame a.scope) (b.enterFrame b.scope)
  enterCall : ∀ {a b c c'}, κ.machines a b → κ.scopes c c' → a.store.Has c → b.store.Has c' →
    κ.machines (enterCall c a) (enterCall c' b)
  leave : ∀ {a b c d}, κ.machines a b → κ.machines c d → c.store.Has a.scope →
    d.store.Has b.scope → κ.machines (a.leave c) (b.leave d)
  define : ∀ {a b}, κ.machines a b → ∀ slot, (∀ value ∈ slot.value, value.Within κ.objects) →
    κ.machines { a with store := (a.store.defineSlot a.scope slot).2 }
      { b with store := (b.store.defineSlot b.scope slot).2 }
  assign : ∀ {a b v w value}, κ.machines a b → κ.slots v w → value.Within κ.objects →
    κ.machines { a with store := a.store.assign v value } { b with store := b.store.assign w value }

variable {κ} {call : Call} {fuel : Nat}

/-- The run goes alike on machines that correspond. -/
def Parallel {α : Type} (κ : Correspondence) (Q : α → α → Prop) (x : Run α) : Prop :=
  Lockstep κ.machines Q x x

/-- The same values. -/
def ValueLists (κ : Correspondence) (vs ws : List Value) : Prop :=
  vs = ws ∧ ∀ v ∈ vs, v.Within κ.objects

/-- Both go on after a statement, or both return the same value. -/
inductive Completions (κ : Correspondence) : Completion → Completion → Prop
  | next : Completions κ .next .next
  | returned {v : Value} (h : v.Within κ.objects) : Completions κ (.returned v) (.returned v)

/-! ## Steps -/

theorem parallel_note (hκ : κ.Lawful) (event : Event) : κ.Parallel Eq (note event) :=
  lockstep_modify fun _ _ h => hκ.note h event

/-- A question to which machines that answer alike have related answers. -/
theorem parallel_ask (hκ : κ.Lawful) {α : Type} {Q : α → α → Prop}
    {question : Store → FrameId → Except Cause α}
    (h : ∀ a b, κ.Answers a b →
      SameAnswers Q (question a.store a.scope) (question b.store b.scope)) :
    κ.Parallel Q (ask question) := by
  intro a b hab
  exact lockstep_ofExcept (h a b (hκ.answers hab)) a b hab

theorem parallel_define (hκ : κ.Lawful) (name : String) (type : Ty) (value : Value)
    (hvalue : value.Within κ.objects) :
    κ.Parallel (fun _ _ => True) (define name type (some value)) := by
  refine lockstep_modifyGet fun a b h => ⟨trivial, hκ.define h _ ?_⟩
  rintro _ ⟨⟩
  exact hvalue

/-- Scopes that are entered and left on both. -/
theorem parallel_inScope (hκ : κ.Lawful) {α : Type} {Q : α → α → Prop} {x : Run α}
    (hx : Keeps (Steps true) x) (h : κ.Parallel Q x) : κ.Parallel Q (inScope x) := by
  intro a b hab
  have ha := (hκ.answers hab).left
  have hb := (hκ.answers hab).right
  rw [inScope_eq ha hx, inScope_eq hb hx]
  have henter := hκ.enterScope hab
  have hinside := hκ.answers henter
  refine paired_backTo (h.paired_keeps hx hx henter) ?_
  rintro c d ⟨hcd, hc, hd⟩
  exact hκ.leave hab hcd ((hc hinside.left).inScope ha).sound.scope
    ((hd hinside.right).inScope hb).sound.scope

/-! ## Expressions -/

theorem parallel_literal (value : Literal) : κ.Parallel κ.Values (literal value) := by
  cases value with
  | character text =>
    unfold literal
    dsimp only
    split
    · rename_i v hv
      exact lockstep_pure ⟨rfl, Value.within_ofCharacterText hv⟩
    · exact lockstep_throw _
  | _ => exact lockstep_pure ⟨rfl, nofun⟩

theorem parallel_lookupSlot (hκ : κ.Lawful) (id : String) :
    κ.Parallel κ.slots (ask fun s f => s.lookupSlot f id) := by
  refine parallel_ask hκ fun a b h => ?_
  have hfound := h.findSlot? id
  unfold Store.lookupSlot
  generalize a.store.findSlot? a.scope id = v, b.store.findSlot? b.scope id = w at hfound
  cases hfound with
  | some hvw => exact .ok hvw
  | none => exact .error _

theorem parallel_lookupFunction (hκ : κ.Lawful) (name : String) (arity : Nat) :
    κ.Parallel κ.functions (ask fun s f => s.lookupFunction f name arity) := by
  refine parallel_ask hκ fun a b h => ?_
  have hfound := h.findFunction? name arity
  unfold Store.lookupFunction
  generalize a.store.findFunction? a.scope name arity = x,
    b.store.findFunction? b.scope name arity = y at hfound
  cases hfound with
  | some hxy => exact .ok hxy
  | none => exact .error _

theorem parallel_field (hκ : κ.Lawful) (name : String) {value : Value}
    (hvalue : value.Within κ.objects) : κ.Parallel κ.slots (field name value) := by
  cases value with
  | object type fields =>
    rw [field]
    refine parallel_ask hκ fun a b h => ?_
    have hfound := h.fields fields (hvalue type fields rfl) name
    generalize (a.store.frame fields).slots.find? name = v,
      (b.store.frame fields).slots.find? name = w at hfound
    cases hfound with
    | some hvw => exact .ok hvw
    | none => exact .error _
  | _ => exact lockstep_fail _

theorem lockstep_read (hκ : κ.Lawful) {v w : SlotId} (hvw : κ.slots v w) :
    Lockstep κ.machines κ.Values (read v) (read w) := by
  refine lockstep_get.bind fun a b h => lockstep_pure ?_
  obtain ⟨hsame, hwithin⟩ := (hκ.answers h).slot v w hvw
  refine ⟨congrArg (·.getD .nil) hsame.symm, ?_⟩
  cases hvalue : (a.store.slot v).value with
  | none => exact nofun
  | some value => exact hwithin value hvalue

theorem parallel_lookupMethod (hκ : κ.Lawful) (receiver : Value) (name : String) (arguments : Nat) :
    κ.Parallel κ.functions (lookupMethod receiver name arguments) := by
  refine parallel_ask hκ fun a b h => ?_
  have hfound := h.findMethod? receiver.type name arguments
  generalize a.store.findMethod? receiver.type name arguments = x,
    b.store.findMethod? receiver.type name arguments = y at hfound
  cases hfound with
  | some hxy => exact .ok hxy
  | none => exact .error _

theorem parallel_logical (op : Operator) (value : Value) : κ.Parallel Eq (logical op value) := by
  cases value with
  | boolean b => exact lockstep_pure rfl
  | _ => exact lockstep_fail _

theorem within_onNumbers {objects : FrameId → Prop} {op : Operator} {a b v : Value}
    {integers : Int → Int → Except Breakdown Value}
    {decimals : Decimal → Decimal → Except Breakdown Value}
    (hintegers : ∀ x y, integers x y = .ok v → v.Within objects)
    (hdecimals : ∀ x y, decimals x y = .ok v → v.Within objects)
    (h : op.onNumbers integers decimals a b = .ok v) : v.Within objects := by
  unfold Operator.onNumbers at h
  split at h
  · exact hintegers _ _ h
  · exact hdecimals _ _ h
  · cases h

theorem within_arithmetic {objects : FrameId → Prop} {op : Operator} {a b v : Value}
    {integers : Int → Int → Int} {decimals : Decimal → Decimal → Decimal}
    (h : op.arithmetic integers decimals a b = .ok v) : v.Within objects := by
  refine within_onNumbers (fun x y hv => ?_) (fun x y hv => ?_) h
  · cases hv
    nofun
  · obtain ⟨d, rfl⟩ := Value.eq_decimal_of_ofArithmetic hv
    nofun

/-- No operation makes an object. -/
theorem within_apply {objects : FrameId → Prop} {op : Operator} {a b v : Value}
    (h : op.apply a b = .ok v) : v.Within objects := by
  unfold Operator.apply at h
  split at h
  iterate 6
    · obtain rfl := Operator.eq_boolean_of_compare h
      nofun
  · split at h
    · rename_i value hvalue
      cases h
      unfold Operator.concatenate? at hvalue
      split at hvalue <;> cases hvalue <;> nofun
    · exact within_arithmetic h
  · exact within_arithmetic h
  · exact within_arithmetic h
  · refine within_onNumbers ?_ ?_ h <;> intro x y hv <;> split at hv <;> cases hv <;> nofun
  · cases h
  · cases h
  · cases h

theorem parallel_exprs {es : List Expr} (h : ∀ e ∈ es, κ.Parallel κ.Values (expr call e)) :
    κ.Parallel κ.ValueLists (exprs call es) := by
  induction es with
  | nil => exact lockstep_pure ⟨rfl, nofun⟩
  | cons e es ih =>
    rw [List.forall_mem_cons] at h
    refine h.1.bind ?_
    rintro v _ ⟨rfl, hv⟩
    refine (ih h.2).bind ?_
    rintro vs _ ⟨rfl, hvs⟩
    exact lockstep_pure ⟨rfl, List.forall_mem_cons.mpr ⟨hv, hvs⟩⟩

/-- Calls of functions that correspond go alike. -/
def Calls (κ : Correspondence) (call : Call) : Prop :=
  ∀ x y args, κ.functions x y → (∀ v ∈ args, v.Within κ.objects) →
    Lockstep κ.machines κ.Values (call x args) (call y args)

section

variable (hκ : κ.Lawful) (hcall : κ.Calls call)
include hκ hcall

theorem parallel_expr (e : Expr) : κ.Parallel κ.Values (expr call e) := by
  induction e with
  | literal p value => exact parallel_literal value
  | group p inner ih => exact ih
  | binary p op left right hl hr =>
    unfold Parallel
    cases hop : decisive? op with
    | some decisive =>
      rw [expr, hop]
      refine hl.bind ?_
      rintro a _ ⟨rfl, -⟩
      refine (parallel_logical op a).bind ?_
      rintro a _ rfl
      refine .ite (lockstep_pure ⟨rfl, Value.within_boolean _⟩) (hr.bind ?_)
      rintro b _ ⟨rfl, -⟩
      refine (parallel_logical op b).bind ?_
      rintro b _ rfl
      exact lockstep_pure ⟨rfl, Value.within_boolean _⟩
    | none =>
      rw [expr, hop]
      refine hl.bind ?_
      rintro a _ ⟨rfl, -⟩
      refine hr.bind ?_
      rintro b _ ⟨rfl, -⟩
      exact lockstep_ofExcept (.same fun v hv => ⟨rfl, within_apply hv⟩)
  | name p id => exact (parallel_lookupSlot hκ id).bind fun v w hvw => lockstep_read hκ hvw
  | member p receiver id ih =>
    refine ih.bind ?_
    rintro v _ ⟨rfl, hv⟩
    exact (parallel_field hκ id hv).bind fun v w hvw => lockstep_read hκ hvw
  | call p id arguments ih =>
    refine (parallel_exprs ih).bind ?_
    rintro args _ ⟨rfl, hargs⟩
    exact (parallel_lookupFunction hκ id args.length).bind fun x y hxy => hcall x y args hxy hargs
  | methodCall p receiver id arguments hr ih =>
    refine hr.bind ?_
    rintro receiver _ ⟨rfl, hreceiver⟩
    refine (parallel_exprs ih).bind ?_
    rintro args _ ⟨rfl, hargs⟩
    exact (parallel_lookupMethod hκ receiver id args.length).bind fun x y hxy =>
      hcall x y (receiver :: args) hxy (List.forall_mem_cons.mpr ⟨hreceiver, hargs⟩)
  | unknown p label => exact lockstep_fail _

/-! ## Statements -/

theorem parallel_condition (e : Expr) : κ.Parallel Eq (condition call e) := by
  refine (parallel_expr hκ hcall e).bind ?_
  rintro v _ ⟨rfl, -⟩
  cases v with
  | boolean b => exact lockstep_pure rfl
  | _ => exact lockstep_fail _

omit hcall in
theorem parallel_declaredType (name : Option String) (value : Value) :
    κ.Parallel Eq (declaredType name value) := by
  have hname : κ.Parallel Eq (ask fun s _ => s.namedType name) := by
    refine parallel_ask hκ fun a b h => ?_
    rw [Store.namedType_congr h.catalog]
    exact .same fun _ _ => rfl
  refine hname.bind ?_
  rintro type _ rfl
  exact lockstep_pure rfl

theorem parallel_initial (b : Binding) :
    κ.Parallel (fun r r' => r = r' ∧ r.1.Within κ.objects) (initial call b) := by
  have hrest (v : Value) (hv : v.Within κ.objects) :
      κ.Parallel (fun r r' => r = r' ∧ r.1.Within κ.objects)
        (do return (v, ← declaredType b.type v)) := by
    refine (parallel_declaredType hκ b.type v).bind ?_
    rintro type _ rfl
    exact lockstep_pure ⟨rfl, hv⟩
  unfold initial Parallel
  split
  · rename_i e _
    refine (parallel_expr hκ hcall e).bind ?_
    rintro v _ ⟨rfl, hv⟩
    exact hrest v hv
  · exact hrest .nil nofun

theorem parallel_declare (b : Binding) : κ.Parallel Eq (declare call b) := by
  refine (parallel_initial hκ hcall b).bind ?_
  rintro ⟨v, type⟩ _ ⟨rfl, hv⟩
  exact (parallel_define hκ b.name type v hv).bind fun _ _ _ => lockstep_pure rfl

theorem parallel_target (e : Expr) : κ.Parallel κ.slots (target call e) := by
  cases e with
  | name p id => exact parallel_lookupSlot hκ id
  | member p receiver id =>
    refine (parallel_expr hκ hcall receiver).bind ?_
    rintro v _ ⟨rfl, hv⟩
    exact parallel_field hκ id hv
  | _ => exact lockstep_fail _

theorem parallel_assign (receiver value : Expr) : κ.Parallel Eq (assign call receiver value) := by
  refine (parallel_target hκ hcall receiver).bind fun v w hvw => ?_
  refine (parallel_expr hκ hcall value).bind ?_
  rintro value _ ⟨rfl, hvalue⟩
  exact lockstep_modify fun _ _ h => hκ.assign h hvw hvalue

end

theorem parallel_forLoop {body : Int → Run Completion} (h : ∀ i, κ.Parallel κ.Completions (body i))
    (count : Nat) (i : Int) : κ.Parallel κ.Completions (forLoop body count i) := by
  induction count generalizing i with
  | zero => exact lockstep_pure .next
  | succ count ih =>
    refine (h i).bind fun c c' hc => ?_
    cases hc with
    | next => exact ih (i + 1)
    | returned hv => exact lockstep_pure (.returned hv)

theorem parallel_whileLoop {test : Run Bool} {body : Run Completion} (htest : κ.Parallel Eq test)
    (hbody : κ.Parallel κ.Completions body) (fuel : Nat) :
    κ.Parallel κ.Completions (whileLoop test body fuel) := by
  induction fuel with
  | zero => exact lockstep_throw _
  | succ fuel ih =>
    refine htest.bind ?_
    rintro holds _ rfl
    refine .ite (hbody.bind fun c c' hc => ?_) (lockstep_pure .next)
    cases hc with
    | next => exact ih
    | returned hv => exact lockstep_pure (.returned hv)

theorem parallel_stmts {ss : List Stmt}
    (h : ∀ s ∈ ss, κ.Parallel κ.Completions (stmt call fuel s)) :
    κ.Parallel κ.Completions (stmts call fuel ss) := by
  induction ss with
  | nil => exact lockstep_pure .next
  | cons s ss ih =>
    rw [List.forall_mem_cons] at h
    refine h.1.bind fun c c' hc => ?_
    cases hc with
    | next => exact ih h.2
    | returned hv => exact lockstep_pure (.returned hv)

section

variable (hκ : κ.Lawful) (hcall : κ.Calls call)
  (hkeeps : ∀ f args, Keeps (Steps false) (call f args))
include hκ hcall hkeeps

theorem parallel_stmt (s : Stmt) : κ.Parallel κ.Completions (stmt call fuel s) := by
  have hblock (ss : List Stmt) (h : ∀ s ∈ ss, κ.Parallel κ.Completions (stmt call fuel s)) :
      κ.Parallel κ.Completions (inScope (stmts call fuel ss)) :=
    parallel_inScope hκ (keeps_stmts fun s _ => keeps_stmt hkeeps s) (parallel_stmts h)
  induction s with
  | expression p value =>
    exact ((parallel_expr hκ hcall value).bind fun _ _ _ => lockstep_pure .next).locate
  | declare b =>
    exact ((parallel_declare hκ hcall b).bind fun _ _ _ => lockstep_pure .next).locate
  | assign p receiver value =>
    exact ((parallel_assign hκ hcall receiver value).bind fun _ _ _ => lockstep_pure .next).locate
  | conditional p e thenBody elseBody hthen helse =>
    refine ((parallel_condition hκ hcall e).bind ?_).locate
    rintro holds _ rfl
    exact .ite (hblock thenBody hthen) (hblock elseBody helse)
  | forLoop p name iterable body ih =>
    refine ((parallel_expr hκ hcall iterable).bind ?_).locate
    rintro v _ ⟨rfl, -⟩
    cases v with
    | range start stop =>
      refine parallel_forLoop (fun i => parallel_inScope hκ ?_ ?_) _ _
      · exact (keeps_define _ _ _).bind fun _ => keeps_stmts fun s _ => keeps_stmt hkeeps s
      · exact (parallel_define hκ name .integer (.integer i) nofun).bind fun _ _ _ =>
          parallel_stmts ih
    | _ => exact lockstep_fail _
  | whileLoop p e body ih =>
    exact (parallel_whileLoop (parallel_condition hκ hcall e) (hblock body ih) fuel).locate
  | ret p value =>
    refine ((parallel_expr hκ hcall value).bind ?_).locate
    rintro v _ ⟨rfl, hv⟩
    exact lockstep_pure (.returned hv)
  | unknown p label => exact (lockstep_fail _).locate

end

/-! ## Calls -/

theorem parallel_defineParams (hκ : κ.Lawful) (ps : List Param) (types : List Ty)
    {args : List Value} (hargs : ∀ v ∈ args, v.Within κ.objects) :
    κ.Parallel Eq (defineParams ps types args) := by
  induction ps generalizing types args with
  | nil =>
    unfold defineParams
    exact lockstep_pure rfl
  | cons p ps ih =>
    cases types with
    | nil => exact lockstep_pure rfl
    | cons type types =>
      cases args with
      | nil => exact lockstep_pure rfl
      | cons arg args =>
        rw [List.forall_mem_cons] at hargs
        exact (parallel_define hκ p.name type arg hargs.1).bind fun _ _ _ => ih types hargs.2

section

variable {body : List Stmt → Run Completion} (hκ : κ.Lawful)
  (hbody : ∀ ss, κ.Parallel κ.Completions (body ss))
  (hkeeps : ∀ ss, Keeps (Steps true) (body ss))
include hκ hbody

theorem parallel_callBody (d : Method) (types : List Ty) {args : List Value}
    (hargs : ∀ v ∈ args, v.Within κ.objects) :
    κ.Parallel κ.Completions (do defineParams d.params types args; body d.body) :=
  (parallel_defineParams hκ d.params types hargs).bind fun _ _ _ => hbody d.body

include hkeeps

/-- A call of the same method, in scopes that correspond: what both machines have when they have
come back to their callers. -/
theorem paired_method {a b : Machine} (ha : a.Sound) (hb : b.Sound) {c c' : FrameId}
    (hc : a.store.Has c) (hc' : b.store.Has c')
    (henter : κ.machines (enterCall c a) (enterCall c' b)) {R : Machine → Machine → Prop}
    (hleave : ∀ p q, κ.machines p q → (a.leave p).Sound → (b.leave q).Sound →
      R (a.leave p) (b.leave q)) (d : Method) (types : List Ty) {args : List Value}
    (hargs : ∀ v ∈ args, v.Within κ.objects) :
    Paired R κ.Values (method body d c types args a) (method body d c' types args b) := by
  have hinside := keeps_callBody hkeeps d types args
  have hback : Paired R κ.Completions
      (inCall c (do defineParams d.params types args; body d.body) a)
      (inCall c' (do defineParams d.params types args; body d.body) b) := by
    rw [inCall_eq ha hc hinside, inCall_eq hb hc' hinside]
    have hanswers := hκ.answers henter
    have hrun := parallel_callBody hκ hbody d types hargs
    refine paired_backTo (hrun.paired_keeps hinside hinside henter) ?_
    rintro p q ⟨hpq, hp, hq⟩
    exact hleave p q hpq (Evolves.leave ha rfl rfl (hp hanswers.left)).sound
      (Evolves.leave hb rfl rfl (hq hanswers.right)).sound
  refine hback.bind (fun v w u t hvw hut => ?_) fun _ _ h => h
  cases hvw with
  | next => exact .ok ⟨rfl, nofun⟩ hut
  | returned hv => exact .ok ⟨rfl, hv⟩ hut

/-- As `paired_method`, for machines of which the one refuses the call just if the other does. -/
theorem paired_dispatch {a b : Machine} (ha : a.Sound) (hb : b.Sound) (hdepth : b.depth = a.depth)
    {x y : FunctionId} {d : Method} {c c' : FrameId} (hx : (a.store.function x).body = .method d c)
    (hy : (b.store.function y).body = .method d c')
    (hparams : (b.store.function y).params = (a.store.function x).params) {args : List Value}
    (hargs : ∀ v ∈ args, v.Within κ.objects) {R : Machine → Machine → Prop}
    (hrefuse : R { a with log := .calling d.name args.length :: a.log }
      { b with log := .calling d.name args.length :: b.log })
    (henter : κ.machines (enterCall c { a with log := .calling d.name args.length :: a.log })
      (enterCall c' { b with log := .calling d.name args.length :: b.log }))
    (hleave : ∀ p q, κ.machines p q → (a.leave p).Sound → (b.leave q).Sound →
      R (a.leave p) (b.leave q)) :
    Paired R κ.Values (dispatch body x args a) (dispatch body y args b) := by
  rw [dispatch_method hx, dispatch_method hy, hparams, hdepth]
  by_cases hfull : maxCalls ≤ a.depth
  · rw [if_pos hfull, if_pos hfull]
    exact .error hrefuse
  · rw [if_neg hfull, if_neg hfull]
    have hleft : Sound { a with log := .calling d.name args.length :: a.log } :=
      ⟨ha.store, ha.scope⟩
    have hright : Sound { b with log := .calling d.name args.length :: b.log } :=
      ⟨hb.store, hb.scope⟩
    exact paired_method hκ hbody hkeeps hleft hright (ha.store.closures x d c hx)
      (hb.store.closures y d c' hy) henter hleave d _ hargs

theorem calls_dispatch : κ.Calls (dispatch body) := by
  intro x y args hxy hargs a b h
  have hanswers := hκ.answers h
  have hsame := hanswers.function x y hxy
  have hbodies := hsame.body
  generalize hx : (a.store.function x).body = X, hy : (b.store.function y).body = Y at hbodies
  cases hbodies with
  | absent =>
    have harity : (b.store.function y).arity = (a.store.function x).arity :=
      congrArg List.length hsame.params
    rw [dispatch_absent hx, dispatch_absent hy, hsame.name, harity]
    exact .error h
  | print =>
    rw [dispatch_print hx, dispatch_print hy]
    exact .ok ⟨rfl, nofun⟩ (hκ.note h _)
  | native hwithin =>
    rw [dispatch_native hx, dispatch_native hy]
    exact lockstep_ofExcept (.same fun v hv => ⟨rfl, hwithin args hargs v hv⟩) a b h
  | @method d c c' hc =>
    have hlogged := hκ.note h (.calling d.name args.length)
    refine paired_dispatch hκ hbody hkeeps hanswers.left hanswers.right hanswers.depth hx hy
      hsame.params hargs hlogged ?_ fun p q hpq hp hq => hκ.leave h hpq hp.scope hq.scope
    exact hκ.enterCall hlogged hc (hanswers.left.store.closures x d c hx)
      (hanswers.right.store.closures y d c' hy)

end

theorem calls_invoke (hκ : κ.Lawful) (fuel : Nat) : κ.Calls (invoke fuel) := by
  induction fuel with
  | zero => exact calls_dispatch hκ (fun _ => lockstep_throw _) fun _ => keeps_throw _
  | succ fuel ih =>
    have hkeeps := keeps_invoke fuel
    exact calls_dispatch hκ (fun ss => parallel_stmts fun s _ => parallel_stmt hκ ih hkeeps s)
      fun ss => keeps_stmts fun s _ => keeps_stmt hkeeps s

theorem parallel_methodBody (hκ : κ.Lawful) (fuel : Nat) (ss : List Stmt) :
    κ.Parallel κ.Completions (methodBody fuel ss) := by
  cases fuel with
  | zero => exact lockstep_throw _
  | succ fuel =>
    exact parallel_stmts fun s _ => parallel_stmt hκ (calls_invoke hκ fuel) (keeps_invoke fuel) s

theorem parallel_callMain (hκ : κ.Lawful) (fuel : Nat) : κ.Parallel κ.Values (callMain fuel) := by
  refine (parallel_lookupFunction hκ "main" 0).bind fun x y hxy => ?_
  refine (parallel_note hκ .entryPointInvoked).bind fun _ _ _ => ?_
  exact calls_invoke hκ fuel x y [] hxy nofun

end Correspondence

end BlockScript
