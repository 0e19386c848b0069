import BlockScript.Proofs.Execution.Growth
import BlockScript.Proofs.Execution.Watch
import BlockScript.Proofs.Typing.Judgement

/-!
# Watching changes nothing

A watched run of a typed program ends as the run of the program without findings does, with the same
result or failure and the same machine.
-/

namespace BlockScript

open Attempt Pass

/-- The methods that `code` knows are those that the functions of the store run. -/
structure Store.Runs (s : Store) (code : Watch.Code) : Prop where
  slots : ∀ f m, code f = some m → m.slots.length = m.params.length
  function : ∀ f m, code f = some m → f.index < s.functions.size
  body : ∀ f m, code f = some m → ∃ closure, (s.function f).body = .method m.erase closure

theorem Store.Runs.refines {s t : Store} {code : Watch.Code} (h : s.Runs code) (hst : s.Refines t) :
    t.Runs code where
  slots := h.slots
  function f m hm := Nat.lt_of_lt_of_le (h.function f m hm) hst.functions
  body f m hm := by
    obtain ⟨closure, hbody⟩ := h.body f m hm
    exact ⟨closure, (hst.function f (h.function f m hm)).body.trans hbody⟩

namespace Watch

variable {α β : Type} {code : Code} {x : Watch α} {y : Run α}

/-- What `x` ends with in the state `w` is what `y` ends with there. -/
def FollowsAt (w : Watched) (x : Watch α) (y : Run α) : Prop :=
  Ends x w (fun a v => y w.machine = .ok a v.machine) fun e v => y w.machine = .error e v.machine

/-- `y` does what the watched `x` does. -/
structure Follows (code : Code) (x : Watch α) (y : Run α) : Prop where
  keeps : Keeps (Steps true) y
  ends : ∀ w, w.machine.Sound → w.machine.store.Runs code → FollowsAt w x y

/-! ## Combinations -/

theorem follows_lift (hy : Keeps (Steps true) y) : Follows code (lift y) y := by
  refine ⟨hy, fun w _ _ => ?_⟩
  unfold FollowsAt Ends lift
  cases y w.machine <;> rfl

theorem follows_pure (a : α) : Follows code (pure a) (pure a) := ⟨keeps_pure a, fun _ _ _ => rfl⟩

theorem follows_throw (e : Failure) : Follows code (throw e : Watch α) (throw e) :=
  ⟨keeps_throw e, fun _ _ _ => rfl⟩

theorem FollowsAt.bind {w : Watched} {f : α → Watch β} {g : α → Run β} (h : FollowsAt w x y)
    (hf : ∀ a v, y w.machine = .ok a v.machine → FollowsAt v (f a) (g a)) :
    FollowsAt w (x >>= f) (y >>= g) := by
  have hg : (y >>= g) w.machine = EStateM.bind y g w.machine := rfl
  rw [FollowsAt, hg]
  unfold EStateM.bind
  refine ends_bind.mpr (Ends.imp h (fun a v hv => ?_) fun e v hv => ?_)
  · rw [hv]
    exact hf a v hv
  · rw [hv]

/-- A watched run may look at the machine. -/
theorem followsAt_get {w : Watched} {f : Machine → Watch α} (h : FollowsAt w (f w.machine) y) :
    FollowsAt w (lift get >>= f) y := h

theorem followsAt_of_get {w : Watched} {g : Machine → Run α} (h : FollowsAt w x (g w.machine)) :
    FollowsAt w x (get >>= g) := h

theorem FollowsAt.ite {w : Watched} {c : Prop} [Decidable c] {x' : Watch α} {y' : Run α}
    (h : FollowsAt w x y) (h' : FollowsAt w x' y') :
    FollowsAt w (if c then x else x') (if c then y else y') := by
  split
  · exact h
  · exact h'

theorem Follows.bind {f : α → Watch β} {g : α → Run β} (h : Follows code x y)
    (hf : ∀ a, Follows code (f a) (g a)) : Follows code (x >>= f) (y >>= g) := by
  refine ⟨h.keeps.bind fun a => (hf a).keeps, fun w hw hruns => (h.ends w hw hruns).bind ?_⟩
  intro a v hv
  have hstep : w.machine.Evolves true v.machine := (h.keeps w.machine).of_ok hv hw
  exact (hf a).ends v hstep.sound (hruns.refines hstep.grows.toRefines)

/-- What is only seen does not count. -/
theorem follows_tell (h : Follows code x y) (o : Observation) :
    Follows code (do tell o; x) y :=
  ⟨h.keeps, fun w hw hruns => h.ends ⟨w.machine, o :: w.trace⟩ hw hruns⟩

theorem follows_seen {x : Watch Value} {y : Run Value} (h : Follows code x y) (e : TypedExpr) :
    Follows code (seen e x) y := by
  have hbind : Follows code (seen e x) (y >>= pure) :=
    h.bind fun value => follows_tell (follows_pure value) _
  rwa [bind_pure] at hbind

theorem Follows.locate (h : Follows code x y) {p : Position} :
    Follows code (locate p x) (locate p y) := by
  refine ⟨h.keeps.locate, fun w hw hruns => ?_⟩
  have hends := h.ends w hw hruns
  unfold FollowsAt Ends Attempt.locate at *
  cases hx : x w with
  | ok a v =>
    rw [hx] at hends
    simp only [hends]
  | error e v =>
    rw [hx] at hends
    simp only [hends]

theorem Follows.ite {c : Prop} [Decidable c] {x' : Watch α} {y' : Run α} (h : Follows code x y)
    (h' : Follows code x' y') :
    Follows code (if c then x else x') (if c then y else y') :=
  ⟨h.keeps.ite h'.keeps, fun w hw hruns => (h.ends w hw hruns).ite (h'.ends w hw hruns)⟩

/-- A run that comes back to where it began does what a watched run does. -/
theorem followsAt_within {enter : Machine → Machine} {w : Watched} {z : Run α}
    (h : FollowsAt ⟨enter w.machine, w.trace⟩ x y)
    (hz : z w.machine = w.machine.backTo (y (enter w.machine))) :
    FollowsAt w (within enter x) z := by
  unfold FollowsAt Ends within at *
  cases hx : x ⟨enter w.machine, w.trace⟩ with
  | ok a v =>
    rw [hx] at h
    rw [hz, h]
    rfl
  | error e v =>
    rw [hx] at h
    rw [hz, h]
    rfl

theorem Follows.inScope (h : Follows code x y) : Follows code (inScope x) (Pass.inScope y) := by
  refine ⟨keeps_of_false (keeps_inScope h.keeps) true, fun w hw hruns => ?_⟩
  have hgrows := Store.grows_createFrame w.machine.store (some w.machine.scope)
  have hinside := h.ends ⟨w.machine.enterFrame w.machine.scope, w.trace⟩ (hw.enterFrame hw.scope)
    (hruns.refines hgrows.toRefines)
  exact followsAt_within hinside (inScope_eq hw h.keeps)

/-! ## Names and variables -/

theorem follows_resolve (id : String) (slot : SlotId) :
    Follows code (resolve id slot) (ask fun s f => s.lookupSlot f id) :=
  ⟨keeps_ask _, fun w hw hruns =>
    (follows_tell (follows_lift (keeps_ask _)) _).ends w hw hruns⟩

theorem follows_resolveFunction (name : String) (arity : Nat) (f : FunctionId) :
    Follows code (resolveFunction name arity f)
      (ask fun s scope => s.lookupFunction scope name arity) :=
  ⟨keeps_ask _, fun w hw hruns =>
    (follows_tell (follows_lift (keeps_ask _)) _).ends w hw hruns⟩

theorem follows_make (name : String) (slot : SlotId) (type : Ty) (value : Value)
    (h : Follows code x y) :
    Follows code (do make name slot type value; x)
      (do let _ ← define name type (some value); y) := by
  rw [make, bind_assoc]
  exact (follows_lift (keeps_define _ _ _)).bind fun _ => follows_tell h _

theorem follows_make_last (name : String) (slot : SlotId) (type : Ty) (value : Value) :
    Follows code (make name slot type value) (do let _ ← define name type (some value)) := by
  have hpure : Follows code (pure PUnit.unit) (pure PUnit.unit) := follows_pure _
  have hmake := follows_make name slot type value hpure
  rwa [bind_pure_unit] at hmake

/-! ## Expressions -/

section

variable {call : Call} {call' : Run.Call} {fuel : Nat}

theorem follows_exprs {es : List TypedExpr}
    (h : ∀ e ∈ es, Follows code (expr call e) (Run.expr call' e.erase)) :
    Follows code (exprs call es) (Run.exprs call' (TypedExpr.eraseAll es)) := by
  induction es with
  | nil => exact follows_pure _
  | cons e es ih =>
    rw [List.forall_mem_cons] at h
    exact h.1.bind fun _ => (ih h.2).bind fun _ => follows_pure _

theorem follows_unseen (hy : Keeps (Steps false) y) : Follows code (lift y) y :=
  follows_lift (keeps_of_false hy true)

variable (hcall : ∀ f args, Follows code (call f args) (call' f args))

include hcall

theorem follows_expr (e : TypedExpr) : Follows code (expr call e) (Run.expr call' e.erase) := by
  induction e with
  | literal p value t => exact follows_seen (follows_unseen (Run.keeps_literal value)) _
  | group p inner t ih => exact follows_seen ih _
  | binary p op left right t hl hr =>
    refine follows_seen ?_ _
    rw [TypedExpr.erase, Run.expr]
    have hlogical (v : Value) : Follows code (lift (Run.logical op v)) (Run.logical op v) :=
      follows_unseen (Run.keeps_logical op v)
    cases Run.decisive? op with
    | some decisive =>
      refine hl.bind fun a => (hlogical a).bind fun a => ?_
      refine .ite (follows_pure _) ?_
      exact hr.bind fun b => (hlogical b).bind fun _ => follows_pure _
    | none => exact hl.bind fun _ => hr.bind fun _ => follows_lift (keeps_ofExcept _)
  | name p id slot t =>
    refine follows_seen ?_ _
    exact (follows_resolve id slot).bind fun v => follows_unseen (Run.keeps_read v)
  | member p receiver id slot t ih =>
    refine follows_seen ?_ _
    refine ih.bind fun v => (follows_unseen (Run.keeps_field id v)).bind fun v => ?_
    exact follows_unseen (Run.keeps_read v)
  | call p id arguments f t ih =>
    refine follows_seen ?_ _
    refine (follows_exprs ih).bind fun args => ?_
    exact (follows_resolveFunction id args.length f).bind fun g => hcall g args
  | methodCall p receiver id arguments f t hr ih =>
    refine follows_seen ?_ _
    refine hr.bind fun receiver => (follows_exprs ih).bind fun args => ?_
    have hmethod : Follows code (lift (Run.lookupMethod receiver id args.length))
        (Run.lookupMethod receiver id args.length) := follows_lift (keeps_ask _)
    exact hmethod.bind fun g => hcall g (receiver :: args)

/-! ## Statements -/

theorem follows_condition (e : TypedExpr) :
    Follows code (condition call e) (Run.condition call' e.erase) := by
  refine (follows_expr hcall e).bind fun v => ?_
  cases v with
  | boolean b => exact follows_pure _
  | _ => exact follows_lift (keeps_fail _)

theorem follows_initial (b : TypedBinding) :
    Follows code (initial call b) (Run.initial call' b.erase) := by
  have htype (value : Value) : Follows code (lift (Run.declaredType b.declared value))
      (Run.declaredType b.declared value) :=
    follows_unseen (Run.keeps_declaredType b.declared value)
  unfold initial Run.initial
  rw [TypedBinding.erase]
  cases b.value with
  | some e =>
    exact (follows_expr hcall e).bind fun value => (htype value).bind fun _ => follows_pure _
  | none => exact (htype .nil).bind fun _ => follows_pure _

theorem follows_declare (b : TypedBinding) :
    Follows code (declare call b) (Run.declare call' b.erase) := by
  exact (follows_initial hcall b).bind fun r => follows_make_last b.name b.slot r.2 r.1

theorem follows_target (e : TypedExpr) :
    Follows code (target call e) (Run.target call' e.erase) := by
  cases e with
  | name p id slot t => exact follows_resolve id slot
  | member p receiver id slot t =>
    exact (follows_expr hcall receiver).bind fun v => follows_unseen (Run.keeps_field id v)
  | _ => exact follows_lift (keeps_fail _)

theorem follows_assign (receiver value : TypedExpr) :
    Follows code (assign call receiver value) (Run.assign call' receiver.erase value.erase) := by
  refine (follows_target hcall receiver).bind fun slot => ?_
  refine (follows_expr hcall value).bind fun v => ?_
  refine follows_tell (follows_lift ?_) _
  exact keeps_modify fun _ h => .assign h slot v

omit hcall in
theorem follows_forLoop {body : Int → Watch Completion} {body' : Int → Run Completion}
    (h : ∀ i, Follows code (body i) (body' i)) (count : Nat) (i : Int) :
    Follows code (Run.forLoop body count i) (Run.forLoop body' count i) := by
  induction count generalizing i with
  | zero => exact follows_pure _
  | succ count ih =>
    refine (h i).bind fun completion => ?_
    cases completion with
    | next => exact ih (i + 1)
    | returned value => exact follows_pure _

omit hcall in
theorem follows_whileLoop {test : Watch Bool} {test' : Run Bool} {body : Watch Completion}
    {body' : Run Completion} (htest : Follows code test test') (hbody : Follows code body body')
    (fuel : Nat) :
    Follows code (Run.whileLoop test body fuel) (Run.whileLoop test' body' fuel) := by
  induction fuel with
  | zero => exact follows_throw _
  | succ fuel ih =>
    refine htest.bind fun _ => .ite (hbody.bind fun completion => ?_) (follows_pure _)
    cases completion with
    | next => exact ih
    | returned value => exact follows_pure _

omit hcall in
theorem follows_stmts {ss : List TypedStmt}
    (h : ∀ s ∈ ss, Follows code (stmt call fuel s) (Run.stmt call' fuel s.erase)) :
    Follows code (stmts call fuel ss) (Run.stmts call' fuel (TypedStmt.eraseAll ss)) := by
  induction ss with
  | nil => exact follows_pure _
  | cons s ss ih =>
    rw [List.forall_mem_cons] at h
    refine h.1.bind fun completion => ?_
    cases completion with
    | next => exact ih h.2
    | returned value => exact follows_pure _

theorem follows_stmt (s : TypedStmt) :
    Follows code (stmt call fuel s) (Run.stmt call' fuel s.erase) := by
  induction s with
  | expression p value =>
    exact ((follows_expr hcall value).bind fun _ => follows_pure _).locate
  | declare b => exact ((follows_declare hcall b).bind fun _ => follows_pure _).locate
  | assign p receiver value =>
    exact ((follows_assign hcall receiver value).bind fun _ => follows_pure _).locate
  | conditional p condition thenBody elseBody hthen helse =>
    refine ((follows_condition hcall condition).bind fun _ => ?_).locate
    exact .ite (follows_stmts hthen).inScope (follows_stmts helse).inScope
  | forLoop p name iterable slot body ih =>
    refine ((follows_expr hcall iterable).bind fun v => ?_).locate
    cases v with
    | range start stop =>
      refine follows_forLoop (fun i => Follows.inScope ?_) _ _
      exact follows_make name slot .integer (.integer i) (follows_stmts ih)
    | _ => exact follows_lift (keeps_fail _)
  | whileLoop p condition body ih =>
    exact (follows_whileLoop (follows_condition hcall condition) (follows_stmts ih).inScope
      fuel).locate
  | ret p value => exact ((follows_expr hcall value).bind fun _ => follows_pure _).locate

end

/-! ## Calls -/

theorem follows_defineParams {ps : List Param} {slots : List SlotId}
    (hlength : slots.length = ps.length) (types : List Ty) (args : List Value) :
    Follows code (defineParams ps slots types args) (Run.defineParams ps types args) := by
  induction ps generalizing slots types args with
  | nil =>
    unfold Run.defineParams
    exact follows_pure _
  | cons p ps ih =>
    cases slots with
    | nil => cases hlength
    | cons slot slots =>
      cases types with
      | nil => exact follows_pure _
      | cons type types =>
        cases args with
        | nil => exact follows_pure _
        | cons arg args =>
          exact follows_make p.name slot type arg (ih (Nat.succ.inj hlength) types args)

section

variable {body : List TypedStmt → Watch Completion} {body' : List Stmt → Run Completion}
  (hbody : ∀ ss, Follows code (body ss) (body' (TypedStmt.eraseAll ss)))

include hbody

theorem followsAt_method {w : Watched} (hw : w.machine.Sound) (hruns : w.machine.store.Runs code)
    {m : TypedMethod} (hlength : m.slots.length = m.params.length) {closure : FrameId}
    (hclosure : w.machine.store.Has closure) (types : List Ty) (args : List Value) :
    FollowsAt w (method body m closure types args)
      (Run.method body' m.erase closure types args) := by
  have hinside : Follows code (do defineParams m.params m.slots types args; body m.body)
      (do Run.defineParams m.params types args; body' (TypedStmt.eraseAll m.body)) :=
    (follows_defineParams hlength types args).bind fun _ => hbody m.body
  have hgrows := Store.grows_createFrame w.machine.store (some closure)
  have hcall := hinside.ends ⟨Run.enterCall closure w.machine, w.trace⟩
    (Run.sound_enterCall hw hclosure) (hruns.refines hgrows.toRefines)
  have hinner := followsAt_within hcall (Run.inCall_eq hw hclosure hinside.keeps)
  refine hinner.bind fun completion v _ => ?_
  cases completion <;> exact rfl

theorem follows_dispatch (hkeeps : ∀ ss, Keeps (Steps true) (body' ss)) (f : FunctionId)
    (args : List Value) :
    Follows code (dispatch code body (Run.dispatch body') f args) (Run.dispatch body' f args) := by
  have hdispatch := keeps_of_false (Run.keeps_dispatch hkeeps f args) true
  refine ⟨hdispatch, fun w hw hruns => ?_⟩
  unfold dispatch
  refine followsAt_get ?_
  dsimp only
  cases hm : code f with
  | none => exact (follows_lift hdispatch).ends w hw hruns
  | some m =>
    obtain ⟨closure, hbody'⟩ := hruns.body f m hm
    rw [hbody']
    unfold Run.dispatch
    refine followsAt_of_get ?_
    dsimp only
    rw [hbody']
    refine ((follows_lift (keeps_note _)).ends w hw hruns).bind fun _ v hv => ?_
    have hevolves : w.machine.Evolves true v.machine := (keeps_note _ w.machine).of_ok hv hw
    have hruns' := hruns.refines hevolves.grows.toRefines
    refine (follows_lift (keeps_fail _)).ends v hevolves.sound hruns' |>.ite ?_
    exact followsAt_method hbody hevolves.sound hruns' (hruns.slots f m hm)
      (hevolves.grows.has (hw.store.closures f m.erase closure hbody')) _ args

end

theorem follows_invoke (fuel : Nat) (f : FunctionId) (args : List Value) :
    Follows code (invoke code fuel f args) (Run.invoke fuel f args) := by
  induction fuel generalizing f args with
  | zero => exact follows_dispatch (fun _ => follows_throw _) (fun _ => keeps_throw _) f args
  | succ fuel ih =>
    refine follows_dispatch (fun ss => follows_stmts fun s _ => follows_stmt ih s)
      (fun ss => ?_) f args
    exact Run.keeps_stmts fun s _ => Run.keeps_stmt (Run.keeps_invoke fuel) s

/-! ## Programs -/

theorem Code.ofMethods_eq_some {ms : List TypedMethod} {first : Nat} {f : FunctionId}
    {m : TypedMethod} :
    Code.ofMethods ms first f = some m ↔ ∃ i, f = ⟨first + i⟩ ∧ ms[i]? = some m := by
  unfold Code.ofMethods
  constructor
  · intro h
    split at h
    · rename_i hle
      refine ⟨f.index - first, ?_, h⟩
      rw [Nat.add_sub_cancel' hle]
    · cases h
  · rintro ⟨i, rfl, hm⟩
    rwa [if_pos (Nat.le_add_right first i), Nat.add_sub_cancel_left]

/-- The functions that the methods of a program have become. -/
theorem implements_of_defines {a b : Machine} {ms : List TypedMethod}
    (h : Run.Defines a (ms.map TypedMethod.erase) b) {f : FunctionId} {m : TypedMethod}
    (hm : Code.ofMethods ms a.store.functions.size f = some m) :
    f.index < b.store.functions.size ∧ Run.Implements (b.store.function f) m.erase a.scope := by
  obtain ⟨i, rfl, hi⟩ := Code.ofMethods_eq_some.mp hm
  obtain ⟨hlt, -⟩ := List.getElem?_eq_some_iff.mp hi
  refine ⟨?_, h.function i m.erase ?_⟩
  · rw [h.size, List.length_map]
    exact Nat.add_lt_add_left hlt _
  · rw [List.getElem?_map, hi, Option.map_some]

/-- Once its methods are defined, a machine runs the program. -/
theorem runs_of_defines {a b : Machine} {ms : List TypedMethod}
    (h : Run.Defines a (ms.map TypedMethod.erase) b)
    (hlength : ∀ m ∈ ms, m.slots.length = m.params.length) :
    b.store.Runs (Code.ofMethods ms a.store.functions.size) where
  slots f m hm := by
    obtain ⟨i, -, hi⟩ := Code.ofMethods_eq_some.mp hm
    exact hlength m (List.mem_of_getElem? hi)
  function f m hm := (implements_of_defines h hm).1
  body f m hm := ⟨a.scope, (implements_of_defines h hm).2.body⟩

theorem lift_bind (x : Run α) (f : α → Run β) :
    lift (x >>= f) = lift x >>= fun a => lift (f a) := by
  funext w
  change lift (EStateM.bind x f) w = EStateM.bind (lift x) (fun a => lift (f a)) w
  unfold lift EStateM.bind
  dsimp only
  cases x w.machine <;> rfl

/-- Methods are defined unseen. -/
theorem lift_defineMethods (ms : List TypedMethod) :
    (ms.forM fun m => lift (Run.defineMethod m.erase)) =
      lift ((ms.map TypedMethod.erase).forM Run.defineMethod) := by
  induction ms with
  | nil => rfl
  | cons m ms ih =>
    have hrest := lift_bind (Run.defineMethod m.erase) fun _ =>
      (ms.map TypedMethod.erase).forM Run.defineMethod
    refine Eq.trans ?_ hrest.symm
    exact congrArg (fun x => lift (Run.defineMethod m.erase) >>= fun _ => x) ih

theorem ends_look {w : Watched} {Q : α → Watched → Prop} {E : Failure → Watched → Prop}
    {f : Machine → Watch α} (h : Ends (f w.machine) w Q E) : Ends (lift get >>= f) w Q E := h

theorem ends_lift {w : Watched} {Q : α → Watched → Prop} {E : Failure → Watched → Prop} :
    Ends (lift y) w Q E ↔
      Ends y w.machine (fun a m => Q a ⟨m, w.trace⟩) fun e m => E e ⟨m, w.trace⟩ := by
  unfold Ends lift
  cases y w.machine <;> rfl

theorem followsAt_lift (w : Watched) (y : Run α) : FollowsAt w (lift y) y := by
  unfold FollowsAt Ends lift
  cases y w.machine <;> rfl

theorem follows_fields (fuel : Nat) (fields : List TypedBinding) :
    Follows (fun _ => none) (fields.forM (field (invoke (fun _ => none) fuel)))
      ((fields.map TypedBinding.erase).forM fun b => do
        let (value, type) ← locate b.position (Run.initial (Run.invoke fuel) b)
        let _ ← define b.name type (some value)) := by
  induction fields with
  | nil => exact follows_pure _
  | cons b fields ih =>
    refine Follows.bind ?_ fun _ => ih
    refine ((follows_initial (follows_invoke fuel) b).locate).bind fun r => ?_
    exact follows_make_last b.name b.slot r.2 r.1

/-- A watched run of a whole program is a run of the program. -/
theorem followsAt_program {w : Watched} (hw : w.machine.Sound) (fuel : Nat) (p : TypedProgram)
    (hlength : ∀ m ∈ p.methods, m.slots.length = m.params.length) :
    FollowsAt w (program fuel p) (Run.program fuel p.erase) := by
  have hnone : w.machine.store.Runs fun _ => none := ⟨nofun, nofun, nofun⟩
  have hfields := follows_fields fuel p.fields
  refine (hfields.ends w hw hnone).bind fun _ v hv => ?_
  have hsound : v.machine.Sound := ((hfields.keeps w.machine).of_ok hv hw).sound
  refine followsAt_get ?_
  rw [lift_defineMethods]
  refine (followsAt_lift v _).bind fun _ u hu => ?_
  have hdefines := (Run.gives_defineMethods hsound _).of_ok hu
  have hfind : Keeps (Steps true) (ask fun s scope => s.lookupFunction scope "main" 0 : Run _) :=
    keeps_ask _
  have hrest : Follows (Code.ofMethods p.methods v.machine.store.functions.size) _ _ :=
    (follows_lift hfind).bind fun f =>
      (follows_lift (keeps_note .entryPointInvoked)).bind fun _ => follows_invoke fuel f []
  exact hrest.ends u hdefines.extension.sound (runs_of_defines hdefines hlength)

/-- What is known of the end of a watched run holds of the run. -/
theorem FollowsAt.ends {w : Watched} {P : α → Prop} {E : Failure → Prop} (h : FollowsAt w x y)
    (hx : Ends x w (fun a _ => P a) fun e _ => E e) :
    Ends y w.machine (fun a _ => P a) fun e _ => E e := by
  unfold FollowsAt Ends at *
  cases hrun : x w with
  | ok a v =>
    rw [hrun] at h hx
    rw [h]
    exact hx
  | error e v =>
    rw [hrun] at h hx
    rw [h]
    exact hx

theorem FollowsAt.unwatched {w : Watched} (h : FollowsAt w x y) :
    unwatched (x.run w) = y.run w.machine := by
  unfold FollowsAt Ends at h
  change Watch.unwatched (x w) = y w.machine
  cases hx : x w with
  | ok a v =>
    rw [hx] at h
    exact h.symm
  | error e v =>
    rw [hx] at h
    exact h.symm

end Watch

end BlockScript
