import BlockScript.Proofs.Execution.Reachable
import BlockScript.Proofs.Execution.Walk
import BlockScript.Proofs.Typing.Arity

/-!
# Arguments in a run

Whatever hosts have defined around a program, each call in its analysis and in its run resolves to a
function with as many parameters as there are arguments. So wherever the analysis looks at the type
of a parameter, and wherever the body of a function reads an argument, there is one.
-/

namespace BlockScript

open Attempt Pass Run

/-! ## Functions -/

theorem Activity.accounts_fitted : Activity.Accounts fun _ => StaysFitted where
  still hstore _ := .of_eq (congrArg Store.functions hstore)
  trans hmn hno h := hno (hmn h)
  part _ h := h
  frame hstore _ := .of_eq (by rw [hstore]; rfl)
  slot _ _ _ := .of_eq rfl
  function _ m _ fn hfn h := h.defineFunction m.scope fn (by
    rw [hfn.body]
    exact hfn.arity.symm)
  assign _ _ := .of_eq rfl
  note _ _ _ _ := .of_eq rfl
  print _ := .of_eq rfl

namespace Part

variable {T : Machine → Machine → Prop} (hT : Activity.Accounts fun _ => T) {m : Machine}
include hT

theorem walks_beginRound (name : String) (i : Int) (hm : m.Sound) :
    Walks T (beginRound name i) m := by
  let a : Activity := ⟨0, .statements [], m⟩
  refine Walks.bind hT (a := a) (walks_define hT (a := a) _ _ _ hm) ?_
  exact fun _ _ _ hn => walks_pure hT (a := a) _ hn

/-- Where the activity does not matter, what leads through each step leads through every part. -/
theorem walks_run (fuel : Nat) (part : Part) (hm : m.Sound) : Walks T (part.run fuel) m := by
  let a : Activity := ⟨fuel, .statements [], m⟩
  have hcalls := walks_calls hT fuel
  have hstmts (ss : List Stmt) (n : Machine) (hn : n.Sound) :
      Walks T (stmts (invoke fuel) fuel ss) n :=
    walks_stmts hT (fun s _ => walks_stmt hT hcalls s) hn
  -- What a part gives is dropped.
  have hdrop {α : Type} {x : Run α} (hx : Walks T x m) : Walks T (do let _ ← x) m :=
    Walks.bind hT (a := a) hx fun _ _ _ hn => walks_pure hT (a := a) _ hn
  cases part with
  | expression e => exact hdrop (walks_expr hT hcalls e m hm)
  | statement s => exact hdrop (walks_stmt hT hcalls s m hm)
  | statements ss => exact hdrop (hstmts ss m hm)
  | block ss =>
    have hinside := hstmts ss _ (hm.enterFrame hm.scope)
    exact hdrop (walks_inScope hT (a := a) hm (keeps_body fuel ss) hinside)
  | round name i ss =>
    have hbegin := walks_beginRound hT name i (hm.enterFrame hm.scope)
    have hinside := Walks.bind hT (a := a) hbegin fun _ n _ hn => hstmts ss n hn
    exact hdrop (walks_inScope hT (a := a) hm (keeps_inRound fuel name ss i) hinside)
  | method d => exact walks_defineMethod hT (a := a) d hm
  | program p => exact hdrop (walks_program hT p hm)

end Part

namespace Machine

variable {s : Store} {parent : Option FrameId} {m : Machine} {k : Nat}

theorem Reachable.fitted (h : Reachable s parent m k) (hs : s.WellFormed)
    (hparent : ∀ p ∈ parent, s.Has p) (hfitted : s.Fitted) : m.store.Fitted := by
  have hT := Activity.accounts_fitted
  induction h with
  | start => exact hfitted.createRoot parent .print rfl
  | note _ _ ih => exact ih
  | after h fuel part ih =>
    have hm := (h.sound hs hparent).1
    exact (Ends.state (part.walks_run hT fuel hm)).2 ih
  | block _ ih => exact ih.congr rfl
  | @round m k h name i ih =>
    have hm := (h.sound hs hparent).1
    have hbegin := Part.walks_beginRound hT name i (hm.enterFrame hm.scope)
    exact (Ends.state hbegin).2 (ih.congr rfl)
  | @call m n k args d closure h fuel es hargs f hf hdepth i ih =>
    have hm := (h.sound hs hparent).1
    have hes : ∀ e ∈ es, WalksExpr (fun _ => StaysFitted) fuel e :=
      fun e _ => walks_expr hT (walks_calls hT fuel) e
    have hn := (walks_exprs hT hes hm).of_ok hargs
    let q : Machine := { n with log := .calling d.name args.length :: n.log }
    have hq : q.Sound := ⟨hn.1.store, hn.1.scope⟩
    have hinside := sound_enterCall hq (hn.1.store.closures f d closure hf)
    have hparams : Walks StaysFitted (defineParams (d.params.take i) (n.store.function f).params args)
        (enterCall closure q) :=
      walks_defineParams hT (a := ⟨0, .statements [], m⟩) _ _ _ hinside
    exact (Ends.state hparams).2 ((hn.2 ih).congr rfl)

end Machine

/-! ## Calls -/

namespace Run

/-- Variables of parameters, each with its type and its argument. -/
def defineAll : List (Param × Ty × Value) → Run Unit
  | [] => return ()
  | (p, type, arg) :: rest => do
    let _ ← define p.name type (some arg)
    defineAll rest

/-- With as many types and arguments as parameters no parameter is left without a variable. -/
theorem defineParams_eq_defineAll {ps : List Param} {types : List Ty} {args : List Value}
    (htypes : ps.length = types.length) (hargs : types.length = args.length) :
    defineParams ps types args = defineAll (ps.zip (types.zip args)) := by
  induction ps generalizing types args with
  | nil =>
    rw [List.zip_nil_left]
    unfold defineParams
    rfl
  | cons p ps ih =>
    cases types with
    | nil => cases htypes
    | cons type types =>
      cases args with
      | nil => cases hargs
      | cons arg args =>
        rw [defineParams, List.zip_cons_cons, List.zip_cons_cons, defineAll,
          ih (Nat.succ.inj htypes) (Nat.succ.inj hargs)]

end Run

namespace Activity

variable {a b : Activity}

/-- The tables are in order. Each call that the activity begins has an argument for all that the
function reads, and a method is run with a variable for each of its parameters. -/
structure Served (a : Activity) : Prop where
  indexed : a.machine.store.Indexed
  calls : ∀ k f args m, a.Begins ⟨k, .call f args, m⟩ → m.store.Serves f args
  defined : ∀ k f args m d c, a.Begins ⟨k, .call f args, m⟩ →
    (m.store.function f).body = .method d c →
      defineParams d.params (m.store.function f).params args =
        defineAll (d.params.zip ((m.store.function f).params.zip args))

theorem Begins.arity {k : Nat} {f : FunctionId} {args : List Value} {m : Machine}
    (h : a.Begins ⟨k, .call f args, m⟩) (hm : m.Sound) :
    (m.store.function f).arity = args.length := by
  cases h with
  | main _ _ hmain => exact hm.store.arity_of_lookupFunction hmain
  | call _ hf => exact hm.store.arity_of_lookupFunction hf
  | methodCall _ _ hf => exact hm.store.arity_of_findMethod hf

theorem served_of_includes (h : a.Includes b) (ha : a.machine.Sound)
    (hfitted : a.machine.store.Fitted) : b.Served := by
  obtain ⟨hb, hstays⟩ := accounts_fitted.includes h ha
  have hserves (k : Nat) (f : FunctionId) (args : List Value) (m : Machine)
      (hcall : b.Begins ⟨k, .call f args, m⟩) : m.store.Serves f args := by
    obtain ⟨hm, hlater⟩ := accounts_fitted.begins hcall hb
    exact (hlater (hstays hfitted)).serves (hcall.arity hm)
  refine ⟨hb.store.indexed, hserves, fun k f args m d c hcall hbody => ?_⟩
  have hargs := hserves k f args m hcall
  exact defineParams_eq_defineAll ((hargs.method d c hbody).trans hargs.arity.symm) hargs.arity

end Activity

/-! ## Hosts -/

namespace Store

/-- The stores that there can be: what hosts make of the initial one, and what analyses and runs of
programs add. -/
inductive Arises : Store → Prop
  | initial : Arises initial
  | hosted {s t : Store} (h : Arises s) (hst : s.HostSteps t) : Arises t
  | analysed {s : Store} (h : Arises s) (parent : Option FrameId) (hparent : ∀ p ∈ parent, s.Has p)
      {a : Analysis} (ha : Analysis.Reachable s parent a) : Arises a.store
  | ran {s : Store} (h : Arises s) (parent : Option FrameId) (hparent : ∀ p ∈ parent, s.Has p)
      {m : Machine} {k : Nat} (hm : Machine.Reachable s parent m k) : Arises m.store

/-- In every state of an analysis and of a run inside `parent` the tables are in order, and whatever
is checked or done there has as many arguments as parameters in all its calls. -/
structure ServesCalls (s : Store) (parent : Option FrameId) : Prop where
  analysed : ∀ a, Analysis.Reachable s parent a → a.store.Indexed ∧
    ∀ v w : Visit, v.state = a → (∀ params es, v.item ≠ .arguments params es) →
      Visit.nesting.Includes v w → w.Served
  ran : ∀ m k, Machine.Reachable s parent m k → m.store.Indexed ∧
    ∀ a b : Activity, a.machine = m → a.Includes b → b.Served

variable {s : Store}

/-- Whatever is done to a store leaves it in order. -/
theorem Arises.sound (h : s.Arises) : s.WellFormed ∧ s.Fitted := by
  induction h with
  | initial => exact ⟨wellFormed_initial, fitted_initial⟩
  | hosted _ hst ih => exact ⟨HostSteps.wellFormed hst ih.1, HostSteps.fitted hst ih.2⟩
  | analysed _ parent hparent ha ih => exact ⟨(ha.sound ih.1 hparent).store, ha.fitted ih.2⟩
  | ran _ parent hparent hm ih =>
    exact ⟨(hm.sound ih.1 hparent).1.store, hm.fitted ih.1 hparent ih.2⟩

/-- The scope that a host describes is a frame of such a store. -/
theorem Arises.gives_build (h : s.Arises) (host : Host) :
    Gives host.build s fun scope t => t.Arises ∧ ∀ p ∈ some scope, t.Has p :=
  (host.gives_build s).imp fun _ _ ⟨hst, hscope⟩ =>
    ⟨h.hosted hst, fun _ hp => Option.mem_some_iff.mp hp ▸ hscope⟩

/-- Inside any frame of any store, calls have as many arguments as the functions that they resolve
to have parameters. -/
theorem Arises.servesCalls (h : s.Arises) (parent : Option FrameId)
    (hparent : ∀ p ∈ parent, s.Has p) : s.ServesCalls parent := by
  obtain ⟨hs, hfitted⟩ := h.sound
  refine ⟨fun a ha => ?_, fun m k hm => ?_⟩
  · have hsound := ha.sound hs hparent
    refine ⟨hsound.store.indexed, ?_⟩
    rintro v w rfl hv hw
    exact Visit.served_of_includes hw hsound fun params es hitem => (hv params es hitem).elim
  · have hsound := (hm.sound hs hparent).1
    refine ⟨hsound.store.indexed, ?_⟩
    rintro a b rfl hab
    exact Activity.served_of_includes hab hsound (hm.fitted hs hparent hfitted)

/-- A function that a host has defined again, a method of a type of its own, and a method that an
earlier run has left to be called. -/
theorem servesCalls_hosted : ∃ s, Arises s ∧ (∀ p ∈ some (⟨0⟩ : FrameId), s.Has p) ∧
    s.findFunction? ⟨0⟩ "half" 1 = some ⟨8⟩ ∧
    s.findMethod? (.custom 0 "Box") "get" 1 = some ⟨9⟩ ∧
    s.findFunction? ⟨0⟩ "again" 1 = some ⟨11⟩ ∧ s.ServesCalls (some ⟨0⟩) := by
  let half : Function := ⟨"half", [.integer], some .integer, .native Native.integerAbs⟩
  let again : Method := ⟨.start, "again", [⟨.start, "n", none⟩], none,
    [.ret .start (.call .start "again" [.name .start "n"])]⟩
  have hscope : HostSteps initial _ := .single (.createFrame none (by simp))
  have hold := hscope.trans (HostSteps.defineFunction _ ⟨0⟩ half trivial)
  have hnew := hold.trans (HostSteps.defineFunction _ ⟨0⟩ half trivial)
  have htype := hnew.tail (.createType "Box" "Object")
  have hmethod := htype.tail (.defineMethod (.custom 0 "Box") "get" [.integer] .integer .absent trivial)
  have hran := (Arises.initial.hosted hmethod).ran (some ⟨0⟩) (by decide +kernel)
    (.after .start 0 (.method again))
  have hbound := hran.hosted (.single (.bindFunction ⟨0⟩ ⟨11⟩ (by decide +kernel)))
  refine ⟨_, hbound, by decide +kernel, by decide +kernel, by decide +kernel, by decide +kernel, ?_⟩
  exact hbound.servesCalls (some ⟨0⟩) (by decide +kernel)

end Store

end BlockScript
