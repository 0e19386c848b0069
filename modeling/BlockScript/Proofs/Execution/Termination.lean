import BlockScript.Proofs.Execution.Growth
import BlockScript.Proofs.Soundness.Programs
import BlockScript.Proofs.Store.Hosting
import BlockScript.Proofs.Typing.Sparing

/-!
# Programs without WHILE end

A FOR runs through a range that is fixed before its first round, and calls nest no deeper than
`maxCalls`. So a run without WHILE needs only as much fuel as calls can still nest, and what it
comes to with that much it comes to with any more.
-/

namespace BlockScript

/-! ## Programs without WHILE -/

namespace Stmt

mutual

def isWhileFree : Stmt → Bool
  | .conditional _ _ thenBody elseBody => areWhileFree thenBody && areWhileFree elseBody
  | .forLoop _ _ _ body => areWhileFree body
  | .whileLoop .. => false
  | .expression .. | .declare _ | .assign .. | .ret .. | .unknown .. => true

def areWhileFree : List Stmt → Bool
  | [] => true
  | s :: rest => s.isWhileFree && areWhileFree rest

end

theorem areWhileFree_iff {ss : List Stmt} :
    areWhileFree ss = true ↔ ∀ s ∈ ss, s.isWhileFree = true := by
  induction ss with
  | nil => simp [areWhileFree]
  | cons s ss ih => simp [areWhileFree, ih]

end Stmt

def Method.isWhileFree (m : Method) : Bool := Stmt.areWhileFree m.body

def Program.isWhileFree (p : Program) : Bool := p.methods.all Method.isWhileFree

/-- No method that could be called has a WHILE. -/
def Store.WhileFree (s : Store) : Prop :=
  ∀ x d c, (s.function x).body = .method d c → d.isWhileFree = true

namespace Run

open Attempt Pass

/-! ## Runs that do not depend on fuel -/

/-- No more than `d` calls can be nested here, and no method has a WHILE. -/
structure Roomy (d : Nat) (m : Machine) : Prop where
  sound : m.Sound
  depth : maxCalls ≤ m.depth + d
  whileFree : m.store.WhileFree

/-- From this machine the runs are the same, and neither runs out of fuel. -/
structure SettledAt {α : Type} (d : Nat) (x y : Run α) (m : Machine) : Prop where
  eq : x m = y m
  ends : Ends x m (fun _ n => Roomy d n) fun e _ => e ≠ .outOfFuel

/-- So it is from all machines with room for `d` calls. -/
def Settled {α : Type} (d : Nat) (x y : Run α) : Prop := ∀ m, Roomy d m → SettledAt d x y m

variable {α β : Type} {d fuel fuel' : Nat} {x y x' y' : Run α} {call call' : Call} {m n : Machine}

theorem SettledAt.of_eq (h : SettledAt d x' y' n) (hx : x m = x' n) (hy : y m = y' n) :
    SettledAt d x y m := by
  refine ⟨by rw [hx, hy, h.eq], ?_⟩
  have hends := h.ends
  unfold Ends at hends ⊢
  rwa [hx]

theorem Settled.bind {f g : α → Run β} (h : Settled d x y) (hf : ∀ a, Settled d (f a) (g a)) :
    Settled d (x >>= f) (y >>= g) := by
  intro m hm
  obtain ⟨heq, hends⟩ := h m hm
  constructor
  · change EStateM.bind x f m = EStateM.bind y g m
    unfold EStateM.bind
    rw [← heq]
    cases hx : x m with
    | ok a n => exact (hf a n (hends.of_ok hx)).1
    | error e n => rfl
  · exact hends.bind fun a n hn => (hf a n hn).2

theorem Settled.locate {p : Position} (h : Settled d x y) :
    Settled d (locate p x) (locate p y) := by
  intro m hm
  obtain ⟨heq, hends⟩ := h m hm
  refine ⟨by rw [Attempt.locate, heq, Attempt.locate], hends.locate fun e t he => ?_⟩
  cases e with
  | outOfFuel => exact absurd rfl he
  | _ => nofun

theorem Settled.ite {c : Prop} [Decidable c] (h : Settled d x y)
    (h' : Settled d x' y') : Settled d (if c then x else x') (if c then y else y') := by
  split
  · exact h
  · exact h'

theorem settled_inert (hx : Inert x) : Settled d x x := by
  refine fun m hm => ⟨rfl, (hx m).imp ?_ fun _ _ he => he.2⟩
  rintro _ _ rfl
  exact hm

theorem settled_pure (a : α) : Settled d (pure a) (pure a) := settled_inert (inert_pure a)

theorem settled_fail (cause : Cause) : Settled d (fail cause : Run α) (fail cause) :=
  settled_inert (inert_fail cause)

/-- A step that makes no functions. -/
theorem settled_modifyGet {f : Machine → α × Machine}
    (hf : ∀ m, m.Sound → (f m).2.Sound ∧ (f m).2.own = m.own ∧
      (f m).2.store.functions = m.store.functions) :
    Settled d (modifyGet f) (modifyGet f) := by
  intro m hm
  obtain ⟨hsound, hown, hfunctions⟩ := hf m hm.sound
  refine ⟨rfl, hsound, ?_, fun x d c hx => ?_⟩
  · rw [depth, hown]
    exact hm.depth
  · rw [Store.function, hfunctions] at hx
    exact hm.whileFree x d c hx

theorem settled_note (event : Event) : Settled d (note event) (note event) :=
  settled_modifyGet fun _ hm => ⟨⟨hm.store, hm.scope⟩, rfl, rfl⟩

theorem settled_define (name : String) (type : Ty) (value : Option Value) :
    Settled d (define name type value) (define name type value) :=
  settled_modifyGet fun _ hm => ⟨(Evolves.define hm ⟨name, type, value⟩).sound, rfl, rfl⟩

/-- What is entered is left again. -/
theorem settled_inScope (hx : Keeps (Steps true) x) (hy : Keeps (Steps true) y)
    (h : Settled d x y) : Settled d (inScope x) (inScope y) := by
  intro m hm
  have henter : Roomy d (m.enterFrame m.scope) :=
    ⟨hm.sound.enterFrame hm.sound.scope, hm.depth, hm.whileFree⟩
  obtain ⟨heq, hends⟩ := h _ henter
  refine ⟨by rw [inScope_eq hm.sound hx, inScope_eq hm.sound hy, heq], ?_⟩
  rw [ends_backTo (inScope_eq hm.sound hx)]
  have hboth := hends.and_keeps hx
  refine hboth.imp (fun a n hn => ?_) fun e n hn => hn.1
  exact ⟨((hn.2 henter.sound).inScope hm.sound).sound, hm.depth, hn.1.whileFree⟩

/-! ## Expressions -/

theorem settled_exprs {es : List Expr} (h : ∀ e ∈ es, Settled d (expr call e) (expr call' e)) :
    Settled d (exprs call es) (exprs call' es) := by
  induction es with
  | nil => exact settled_pure []
  | cons e es ih =>
    rw [List.forall_mem_cons] at h
    exact h.1.bind fun _ => (ih h.2).bind fun _ => settled_pure _

section

variable (hcall : ∀ f args, Settled d (call f args) (call' f args))
include hcall

theorem settled_expr (e : Expr) : Settled d (expr call e) (expr call' e) := by
  induction e with
  | literal p value => exact settled_inert (inert_literal value)
  | group p inner ih => exact ih
  | binary p op left right hl hr =>
    cases hop : decisive? op with
    | some decisive =>
      rw [expr, hop, expr, hop]
      refine hl.bind fun a => (settled_inert (inert_logical op a)).bind fun a => ?_
      refine .ite (settled_pure _) ?_
      exact hr.bind fun b => (settled_inert (inert_logical op b)).bind fun _ => settled_pure _
    | none =>
      rw [expr, hop, expr, hop]
      exact hl.bind fun a => hr.bind fun b => settled_inert (inert_ofExcept _)
  | name p id => exact (settled_inert (inert_ask _)).bind fun v => settled_inert (inert_read v)
  | member p receiver id ih =>
    refine ih.bind fun v => (settled_inert (inert_field id v)).bind fun v => ?_
    exact settled_inert (inert_read v)
  | call p id arguments ih =>
    refine (settled_exprs ih).bind fun args => ?_
    exact (settled_inert (inert_ask _)).bind fun f => hcall f args
  | methodCall p receiver id arguments hr ih =>
    refine hr.bind fun receiver => (settled_exprs ih).bind fun args => ?_
    exact (settled_inert (inert_ask _)).bind fun f => hcall f (receiver :: args)
  | unknown p label => exact settled_fail _

/-! ## Statements -/

theorem settled_condition (e : Expr) : Settled d (condition call e) (condition call' e) := by
  refine (settled_expr hcall e).bind fun v => ?_
  cases v with
  | boolean b => exact settled_pure b
  | _ => exact settled_fail _

theorem settled_initial (b : Binding) : Settled d (initial call b) (initial call' b) := by
  have hrest (v : Value) : Settled d (do return (v, ← declaredType b.type v))
      (do return (v, ← declaredType b.type v)) :=
    ((settled_inert (inert_ask _)).bind fun _ => settled_pure _).bind fun _ => settled_pure _
  unfold initial
  split
  · exact (settled_expr hcall _).bind hrest
  · exact (settled_pure _).bind hrest

theorem settled_declare (b : Binding) : Settled d (declare call b) (declare call' b) :=
  (settled_initial hcall b).bind fun _ => (settled_define _ _ _).bind fun _ => settled_pure _

theorem settled_target (e : Expr) : Settled d (target call e) (target call' e) := by
  cases e with
  | name p id =>
    unfold target
    exact settled_inert (inert_ask _)
  | member p receiver id =>
    exact (settled_expr hcall receiver).bind fun v => settled_inert (inert_field id v)
  | _ => exact settled_fail _

theorem settled_assign (receiver value : Expr) :
    Settled d (assign call receiver value) (assign call' receiver value) := by
  refine (settled_target hcall receiver).bind fun v => ?_
  refine (settled_expr hcall value).bind fun value => ?_
  exact settled_modifyGet fun m hm => ⟨hm.assign v value, rfl, rfl⟩

end

/-- The number of rounds is known before the first. -/
theorem settled_forLoop {body body' : Int → Run Completion}
    (h : ∀ i, Settled d (body i) (body' i)) (count : Nat) (i : Int) :
    Settled d (forLoop body count i) (forLoop body' count i) := by
  induction count generalizing i with
  | zero => exact settled_pure _
  | succ count ih =>
    refine (h i).bind fun completion => ?_
    cases completion with
    | next => exact ih (i + 1)
    | returned value => exact settled_pure _

theorem settled_stmts {ss : List Stmt}
    (h : ∀ s ∈ ss, Settled d (stmt call fuel s) (stmt call' fuel' s)) :
    Settled d (stmts call fuel ss) (stmts call' fuel' ss) := by
  induction ss with
  | nil => exact settled_pure _
  | cons s ss ih =>
    rw [List.forall_mem_cons] at h
    refine h.1.bind fun completion => ?_
    cases completion with
    | next => exact ih h.2
    | returned value => exact settled_pure _

section

variable (hcall : ∀ f args, Settled d (call f args) (call' f args))
  (hkeeps : ∀ f args, Keeps (Steps false) (call f args))
  (hkeeps' : ∀ f args, Keeps (Steps false) (call' f args))
include hcall hkeeps hkeeps'

theorem settled_stmt {s : Stmt} (hs : s.isWhileFree = true) :
    Settled d (stmt call fuel s) (stmt call' fuel' s) := by
  have hblock {ss : List Stmt} (hss : Stmt.areWhileFree ss = true)
      (ih : ∀ s ∈ ss, s.isWhileFree = true → Settled d (stmt call fuel s) (stmt call' fuel' s)) :
      Settled d (inScope (stmts call fuel ss)) (inScope (stmts call' fuel' ss)) :=
    settled_inScope (keeps_stmts fun s _ => keeps_stmt hkeeps s)
      (keeps_stmts fun s _ => keeps_stmt hkeeps' s)
      (settled_stmts fun s hmem => ih s hmem (Stmt.areWhileFree_iff.mp hss s hmem))
  induction s with
  | expression p value =>
    exact ((settled_expr hcall value).bind fun _ => settled_pure _).locate
  | declare b => exact ((settled_declare hcall b).bind fun _ => settled_pure _).locate
  | assign p receiver value =>
    exact ((settled_assign hcall receiver value).bind fun _ => settled_pure _).locate
  | conditional p e thenBody elseBody hthen helse =>
    rw [Stmt.isWhileFree, Bool.and_eq_true] at hs
    refine ((settled_condition hcall e).bind fun _ => ?_).locate
    exact .ite (hblock hs.1 hthen) (hblock hs.2 helse)
  | forLoop p name iterable body ih =>
    refine ((settled_expr hcall iterable).bind fun v => ?_).locate
    cases v with
    | range start stop =>
      refine settled_forLoop (fun i => settled_inScope ?_ ?_ ?_) _ _
      · exact (keeps_define _ _ _).bind fun _ => keeps_stmts fun s _ => keeps_stmt hkeeps s
      · exact (keeps_define _ _ _).bind fun _ => keeps_stmts fun s _ => keeps_stmt hkeeps' s
      · exact (settled_define _ _ _).bind fun _ => settled_stmts fun s hmem =>
          ih s hmem (Stmt.areWhileFree_iff.mp hs s hmem)
    | _ => exact settled_fail _
  | whileLoop p e body ih => cases hs
  | ret p value => exact ((settled_expr hcall value).bind fun _ => settled_pure _).locate
  | unknown p label => exact (settled_fail _).locate

end

/-! ## Calls -/

theorem settled_defineParams (ps : List Param) (types : List Ty) (args : List Value) :
    Settled d (defineParams ps types args) (defineParams ps types args) := by
  induction ps generalizing types args with
  | nil =>
    unfold defineParams
    exact settled_pure _
  | cons p ps ih =>
    cases types with
    | nil => exact settled_pure _
    | cons type types =>
      cases args with
      | nil => exact settled_pure _
      | cons arg args => exact (settled_define _ _ _).bind fun _ => ih types args

section

variable {body body' : List Stmt → Run Completion}
  (hkeeps : ∀ ss, Keeps (Steps true) (body ss)) (hkeeps' : ∀ ss, Keeps (Steps true) (body' ss))
include hkeeps hkeeps'

/-- In a call there is room for one call less. -/
theorem settled_method {m : Machine} (hm : Roomy (d + 1) m) (e : Method) {closure : FrameId}
    (hclosure : m.store.Has closure) (types : List Ty) (args : List Value)
    (hbody : Settled d (body e.body) (body' e.body)) :
    SettledAt (d + 1) (method body e closure types args) (method body' e closure types args) m := by
  have hinside := keeps_callBody hkeeps e types args
  have hinside' := keeps_callBody hkeeps' e types args
  have henter : Roomy d (enterCall closure m) := by
    refine ⟨sound_enterCall hm.sound hclosure, ?_, hm.whileFree⟩
    have hdepth := hm.depth
    have hcount : (enterCall closure m).depth = m.depth + 1 := rfl
    rw [hcount]
    omega
  obtain ⟨heq, hends⟩ := (settled_defineParams e.params types args).bind (fun _ => hbody) _ henter
  have hcall : inCall closure (do defineParams e.params types args; body e.body) m =
      inCall closure (do defineParams e.params types args; body' e.body) m := by
    rw [inCall_eq hm.sound hclosure hinside, inCall_eq hm.sound hclosure hinside', heq]
  constructor
  · change EStateM.bind _ _ m = EStateM.bind _ _ m
    unfold EStateM.bind
    rw [hcall]
  · refine ends_bind.mpr ((ends_backTo (inCall_eq hm.sound hclosure hinside)).mpr ?_)
    refine (hends.and_keeps hinside).imp (fun completion n hn => ?_) fun e n hn => hn.1
    have hback : Roomy (d + 1) (m.leave n) :=
      ⟨(Evolves.leave hm.sound rfl rfl (hn.2 henter.sound)).sound, hm.depth, hn.1.whileFree⟩
    cases completion <;> exact hback

theorem settled_dispatch
    (hbody : ∀ d', d = d' + 1 → ∀ e : Method, e.isWhileFree = true →
      Settled d' (body e.body) (body' e.body)) (f : FunctionId) (args : List Value) :
    Settled d (dispatch body f args) (dispatch body' f args) := by
  intro m hm
  cases hf : (m.store.function f).body with
  | absent => exact (settled_fail _ m hm).of_eq (dispatch_absent hf args) (dispatch_absent hf args)
  | native run =>
    have hnative := settled_inert (inert_ofExcept (run args)) m hm
    exact hnative.of_eq (dispatch_native hf args) (dispatch_native hf args)
  | print =>
    have hprint := (settled_note (.printed (Native.argument args 0).text)).bind
      (fun _ => settled_pure Value.nil) m hm
    exact hprint.of_eq (dispatch_print hf args) (dispatch_print hf args)
  | method e closure =>
    have hlogged : Roomy d { m with log := .calling e.name args.length :: m.log } :=
      ⟨⟨hm.sound.store, hm.sound.scope⟩, hm.depth, hm.whileFree⟩
    refine SettledAt.of_eq ?_ (dispatch_method hf args) (dispatch_method hf args)
    by_cases hfull : maxCalls ≤ m.depth
    · rw [if_pos hfull, if_pos hfull]
      exact settled_fail _ _ hlogged
    · rw [if_neg hfull, if_neg hfull]
      have hdepth := hm.depth
      obtain ⟨d', rfl⟩ : ∃ d', d = d' + 1 := ⟨d - 1, by omega⟩
      have hclosure := hm.sound.store.closures f e closure hf
      exact settled_method hkeeps hkeeps' hlogged e hclosure _ args
        (hbody d' rfl e (hm.whileFree f e closure hf))

end

/-- With as much fuel as calls can be nested, more does not change anything. -/
theorem settled_invoke (hfuel : d ≤ fuel) (hfuel' : d ≤ fuel') (f : FunctionId)
    (args : List Value) : Settled d (invoke fuel f args) (invoke fuel' f args) := by
  induction d generalizing fuel fuel' f args with
  | zero =>
    rw [invoke_eq, invoke_eq]
    refine settled_dispatch (keeps_methodBody fuel) (keeps_methodBody fuel') ?_ f args
    intro d' hd
    cases hd
  | succ d ih =>
    obtain ⟨fuel, rfl⟩ := Nat.exists_eq_add_of_lt hfuel
    obtain ⟨fuel', rfl⟩ := Nat.exists_eq_add_of_lt hfuel'
    rw [invoke_eq, invoke_eq]
    refine settled_dispatch (keeps_methodBody _) (keeps_methodBody _) ?_ f args
    intro d' hd e he
    obtain rfl := Nat.succ.inj hd
    have hcall := ih (Nat.le_add_right d fuel) (Nat.le_add_right d fuel')
    exact settled_stmts fun s hs => settled_stmt hcall (keeps_invoke _) (keeps_invoke _)
      (Stmt.areWhileFree_iff.mp he s hs)

/-! ## Programs -/

theorem settled_forM {γ : Type} {f g : γ → Run PUnit} {xs : List γ}
    (h : ∀ a ∈ xs, Settled d (f a) (g a)) : Settled d (xs.forM f) (xs.forM g) := by
  induction xs with
  | nil => exact settled_pure _
  | cons a xs ih =>
    rw [List.forall_mem_cons] at h
    exact h.1.bind fun _ => ih h.2

theorem settled_defineMethod {e : Method} (he : e.isWhileFree = true) :
    Settled d (defineMethod e) (defineMethod e) := by
  refine (settled_inert (inert_ask _)).bind fun (types, returns) => ?_
  refine Settled.bind (fun m hm => ⟨rfl, ?_⟩) fun _ => settled_pure _
  let fn : Function := ⟨e.name, types, some returns, .method e m.scope⟩
  have hextends : m.Extends { m with store := (m.store.defineFunction m.scope fn).2 } := by
    refine .defineFunction hm.sound ?_
    rintro _ _ ⟨⟩
    exact hm.sound.scope
  refine ⟨hextends.sound, hm.depth, fun x e' c hx => ?_⟩
  change ((m.store.defineFunction m.scope fn).2.function x).body = _ at hx
  rw [Store.function_defineFunction] at hx
  split at hx
  · cases hx
    exact he
  · exact hm.whileFree x e' c hx

theorem settled_program {p : Program} (hp : p.isWhileFree = true) (hfuel : d ≤ fuel)
    (hfuel' : d ≤ fuel') : Settled d (program fuel p) (program fuel' p) := by
  have hcall := settled_invoke hfuel hfuel'
  have hmethods := List.all_eq_true.mp hp
  refine (settled_forM fun b _ => ?_).bind fun _ => ?_
  · refine (settled_initial hcall b).locate.bind fun _ => ?_
    exact (settled_define _ _ _).bind fun _ => settled_pure _
  · refine (settled_forM fun e he => settled_defineMethod (hmethods e he)).bind fun _ => ?_
    exact (settled_inert (inert_ask _)).bind fun f => (settled_note _).bind fun _ => hcall f []

end Run

/-! ## Termination -/

open Attempt

variable {s : Store} {parent : Option FrameId}

theorem Store.WhileFree.of_bodies {t : Store} (h : s.WhileFree)
    (hbodies : ∀ x d c, (t.function x).body = .method d c → (s.function x).body = .method d c) :
    t.WhileFree :=
  fun x d c hx => h x d c (hbodies x d c hx)

theorem Machine.roomy_start (hs : s.WellFormed) (hparent : ∀ f ∈ parent, s.Has f)
    (hfree : s.WhileFree) : Run.Roomy Run.maxCalls (.start s parent) := by
  refine ⟨sound_start hs hparent, ?_, ?_⟩
  · exact Int.le_of_eq (Int.zero_add _).symm
  · have hprint : ∀ d c, Body.print ≠ .method d c := nofun
    exact hfree.of_bodies (Store.spares_createRoot s parent hprint).bodies

namespace Program

/-- The program comes to a value or an error in finitely many steps: with enough fuel it does not
run out of it, and comes to the same with any more. -/
def Terminates (p : Program) (s : Store) (parent : Option FrameId) : Prop :=
  ∃ r, (∀ m, r ≠ .error .outOfFuel m) ∧ ∃ enough, ∀ fuel, enough ≤ fuel → p.run fuel s parent = r

theorem terminates_of_roomy {p : Program} (hp : p.isWhileFree = true)
    (hroomy : Run.Roomy Run.maxCalls (.start s parent)) : p.Terminates s parent := by
  have hsettled (fuel : Nat) (hfuel : Run.maxCalls ≤ fuel) :=
    Run.settled_program hp (Nat.le_refl Run.maxCalls) hfuel _ hroomy
  refine ⟨p.run Run.maxCalls s parent, ?_, Run.maxCalls, fun fuel hfuel => ?_⟩
  · intro m hm
    exact (hsettled Run.maxCalls (Nat.le_refl _)).ends.of_error hm rfl
  · exact (hsettled fuel hfuel).eq.symm

/-- Without WHILE, every run of a program ends, also when the program has been analysed before. -/
theorem run_terminates (hs : s.WellFormed) (hparent : ∀ f ∈ parent, s.Has f) (hfree : s.WhileFree)
    {p : Program} (hp : p.isWhileFree = true) :
    p.Terminates s parent ∧ ∀ typed a, p.check s parent = .ok typed a →
      typed.erase.Terminates a.store parent := by
  refine ⟨terminates_of_roomy hp (Machine.roomy_start hs hparent hfree), ?_⟩
  intro typed a hcheck
  have hguards := guards_check hs hparent p
  rw [hcheck] at hguards
  have hsound : (Analysis.start s parent).Sound :=
    ⟨hs.createRoot hparent nofun, Store.has_createRoot s parent .absent⟩
  have hsettled := (Check.gives_program hsound p).of_ok hcheck
  rw [hsettled.erase]
  have habsent : ∀ d c, Body.absent ≠ .method d c := nofun
  refine terminates_of_roomy hp (Machine.roomy_start hguards.sound.store ?_ ?_)
  · exact fun f hf => (hguards.grows.has ((Store.grows_createRoot ..).has (hparent f hf)))
  · refine (hfree.of_bodies (Store.spares_createRoot s parent habsent).bodies).of_bodies ?_
    exact hguards.spares.bodies

/-- A method that calls itself in every round of a loop, however deep the calls are. -/
def spreading : String :=
  "DEF f(n: Integer) DO FOR i IN range(0, n) DO f(n + i); END END " ++
    "DEF main() DO f(3); RETURN 0; END"

theorem run_terminates_spreading : ∃ p typed a, Program.parse spreading = .ok p ∧
    p.check .initial none = .ok typed a ∧ p.isWhileFree = true ∧ Store.initial.WellFormed ∧
    Store.initial.WhileFree ∧ p.Terminates .initial none ∧
    typed.erase.Terminates a.store none := by
  have haccepted : isAccepted spreading (fun typed _ => typed.erase.isWhileFree) = true := by
    decide +kernel
  obtain ⟨p, typed, a, hparse, hcheck, hfree⟩ := exists_of_isAccepted haccepted
  have hinitial := Store.wellFormed_initial
  have hmethods : Store.initial.WhileFree := fun x d c hx =>
    absurd hx (Store.furnished_initial.hosted.noMethods x d c)
  have hparent : ∀ f ∈ (none : Option FrameId), Store.initial.Has f := by simp
  have hp : p.isWhileFree = true := by
    rwa [(settled_of_check hinitial hparent hcheck).erase] at hfree
  obtain ⟨hends, hanalysed⟩ := run_terminates hinitial hparent hmethods hp
  exact ⟨p, typed, a, hparse, hcheck, hp, hinitial, hmethods, hends, hanalysed typed a hcheck⟩

end Program

end BlockScript
