import BlockScript.Proofs.Soundness.Statements

/-!
# Calls keep the invariant

A method of the program runs in a new frame inside the scope of the program, and its parameters are
what the analysis says. A call of any other function goes unseen; if types count it is a built-in
one, and gives what its signature says.
-/

namespace BlockScript.Setting

open Attempt Pass

variable {σ : Setting} {w : Watched} {Γ : Context} {f g : FunctionId} {args : List Value}

/-! ## Methods of the program -/

/-- A way to run the bodies of methods that keeps the invariant. -/
def BodySafe (σ : Setting) (body : List TypedStmt → Watch Completion) : Prop :=
  ∀ f Γ w ss, σ.Inside Γ w → TypedStmt.AllChecked σ.final f Γ ss →
    (σ.total → TypedStmt.AllEverywhere σ.Compares TypedBinding.HasValue ss) →
    σ.Safe true (body ss) w fun c _ => σ.Completes f (TypedStmt.returnsAll ss) c

theorem safe_defineParams {ps : List Param} {slots : List SlotId} {types : List Ty}
    (hw : σ.Inside Γ w) (hslots : slots.length = ps.length) (htypes : types.length = ps.length)
    (hargs : args.length = ps.length)
    (hsuits : σ.Suits args (slots.map fun v => (σ.final.slot v).type)) :
    σ.Safe true (Watch.defineParams ps slots types args) w fun _ v =>
      σ.Agrees (Γ.declareAll ps slots) v := by
  induction ps generalizing Γ w slots types args with
  | nil =>
    unfold Watch.defineParams
    exact safe_pure hw.ready hw.agrees
  | cons p ps ih =>
    obtain ⟨slot, slots, rfl⟩ := List.exists_cons_of_length_eq_add_one hslots
    obtain ⟨type, types, rfl⟩ := List.exists_cons_of_length_eq_add_one htypes
    obtain ⟨arg, args, rfl⟩ := List.exists_cons_of_length_eq_add_one hargs
    have hfirst : σ.Fits arg (σ.final.slot slot).type := fun hs => by
      cases hsuits hs with
      | cons harg _ => exact harg
    have hrest : σ.Suits args (slots.map fun v => (σ.final.slot v).type) := fun hs => by
      cases hsuits hs with
      | cons _ hargs => exact hargs
    refine (safe_make_inside hw.ready hw.root hw.agrees p.name type hfirst).bind
      fun _ v hv hwv hΓ => ?_
    have hv' : σ.Inside (Γ.declare p.name slot) v := ⟨hv, hwv.machine.scope ▸ hw.root, hΓ⟩
    exact ih hv' (Nat.succ.inj hslots) (Nat.succ.inj htypes) (Nat.succ.inj hargs) hrest

/-- The machine inside a new call of a method of the program. -/
theorem Ready.enterCall (h : σ.Ready w) (hΓ : ∀ V Δ, σ.globals.Agrees V σ.leads Δ →
      Γ.Agrees V σ.leads Δ) :
    σ.Inside Γ ⟨Run.enterCall σ.root w.machine, w.trace⟩ := by
  refine ⟨h.enter h.valid.root rfl rfl, h.valid.root, hΓ _ _ ?_⟩
  have hcontext := context_enterFrame h.sound h.valid.root
  change σ.globals.Agrees _ _ (w.machine.enterFrame σ.root).context
  rw [hcontext]
  exact h.valid.globals

theorem safe_method (hσ : σ.Lawful) {body : List TypedStmt → Watch Completion}
    (hbody : σ.BodySafe body) (hw : σ.Ready w) {m : TypedMethod} (hm : σ.code g = some m)
    {types : List Ty} (htypes : types.length = m.params.length)
    (hargs : args.length = m.params.length)
    (hsuits : σ.Suits args (σ.final.function m.function).params) :
    σ.Safe false (Watch.method body m σ.root types args) w fun v _ => σ.Gives m.function v := by
  obtain ⟨Γ, hchecked, hΓ⟩ := hσ.methods g m hm
  have htotal (ht : σ.total) := hσ.total ht g m hm
  have hparams : σ.Suits args (m.slots.map fun v => (σ.final.slot v).type) :=
    hchecked.params ▸ hsuits
  have hinside := hw.enterCall hΓ
  have hrun : σ.Safe true (do Watch.defineParams m.params m.slots types args; body m.body)
      ⟨Run.enterCall σ.root w.machine, w.trace⟩
      fun c _ => σ.Completes m.function (TypedStmt.returnsAll m.body) c := by
    refine (safe_defineParams hinside hchecked.length htypes hargs hparams).bind
      fun _ v hv hwv hΓ => ?_
    have hv' : σ.Inside (Γ.declareAll m.params m.slots) v :=
      ⟨hv, hwv.machine.scope ▸ hinside.root, hΓ⟩
    exact hbody m.function _ v m.body hv' hchecked.body fun ht => (htotal ht).body
  refine (safe_within hw (Run.enterCall σ.root) rfl rfl hrun).bind fun c v hv _ hc => ?_
  cases c with
  | next =>
    refine safe_pure hv fun hs => ?_
    obtain ⟨t, ht⟩ := hchecked.returns
    refine ⟨t, ht, ?_⟩
    by_cases htotal' : σ.total
    · rcases (htotal htotal').returns t ht with rfl | rfl | hreturns
      · exact fits_of (Value.fits_self (v := .nil) trivial).any
      · exact fits_of (Value.fits_self trivial)
      · rw [show TypedStmt.returnsAll m.body = false from hc] at hreturns
        cases hreturns
    · exact fits_nil htotal'
  | returned value => exact safe_pure hv hc

/-! ## Other functions -/

/-- If types count, a method that runs has the types of the function that the analysis has
found. -/
theorem Lawful.types_eq (hσ : σ.Lawful) (hs : σ.strict) (hmeans : σ.Means f g) {m : TypedMethod}
    (hm : σ.code g = some m) :
    (σ.final.function m.function).types = (σ.final.function f).types := by
  obtain ⟨hsize, hprint⟩ := hσ.fresh g m hm
  rcases hmeans hs with ⟨rfl, hlt⟩ | hprinting | ⟨m', hm', htypes⟩
  · exact absurd hlt (Nat.not_lt.mpr hsize)
  · exact absurd (congrArg Prod.snd hprinting) hprint
  · rw [hm] at hm'
    cases hm'
    exact htypes

/-- If types count, a function that is no method of the program is a native one of the language or
`print`. -/
theorem Lawful.unseen (hσ : σ.Lawful) (hs : σ.strict) (hw : σ.Ready w) (hmeans : σ.Means f g)
    (hnone : σ.code g = none) :
    (∃ run t, (w.machine.store.function g).body = .native run ∧
      (σ.final.function f).returns = some t ∧ (∀ args v, run args = .ok v → v.Fits t) ∧
      ∀ args, Suit args (σ.final.function f).params → Yields t (run args)) ∨
    (w.machine.store.function g).body = .print ∧ (σ.final.function f).returns = some .nil := by
  rcases hmeans hs with ⟨rfl, hlt⟩ | hprinting | ⟨m, hm, -⟩
  · have hrun := hw.valid.known.function f hlt
    have hfinal := hσ.refines.function f hlt
    rw [hσ.initial hs] at hlt hrun hfinal
    obtain ⟨run, t, hbody, hreturns, hfits, hyields⟩ := Store.isSoundNative_initial hlt
    refine .inl ⟨run, t, hrun.body.trans hbody, ?_, hfits, ?_⟩
    · refine (hfinal.returns.resolve_left ?_).trans hreturns
      rw [hreturns]
      nofun
    · rw [hfinal.params]
      exact hyields
  · obtain ⟨-, hbody⟩ := hw.valid.print hs
    have hfinal := hσ.print hs
    rw [← hprinting] at hbody hfinal
    exact .inr ⟨hbody, congrArg Function.returns hfinal⟩
  · rw [hnone] at hm
    cases hm

/-- If failures count, arguments fit their parameters. -/
theorem Suits.suit {params : List Ty} (h : σ.Suits args params) (hb : σ.benign) :
    Suit args params := by
  have htotal := σ.total_of_benign hb
  exact (h (σ.strict_of_total htotal)).imp fun _ _ hfits => hfits.fits htotal

theorem safe_unseen (hσ : σ.Lawful) (hw : σ.Ready w) (hmeans : σ.Means f g)
    (hnone : σ.code g = none) (hsuits : σ.Suits args (σ.final.function f).params)
    {body : List Stmt → Run Completion} (hbody : ∀ ss, Keeps (Steps true) (body ss)) :
    σ.Safe false (Watch.lift (Run.dispatch body g args)) w fun v _ => σ.Gives f v := by
  refine safe_lift hw (Run.keeps_dispatch hbody g args) fun hs => ?_
  unfold Run.dispatch
  refine ends_bind.mpr (ends_get.mpr ?_)
  dsimp only
  rcases hσ.unseen hs hw hmeans hnone with
    ⟨run, t, hrun, hreturns, hfits, hyields⟩ | ⟨hprint, hreturns⟩
  · rw [hrun]
    refine ends_ofExcept.mpr ?_
    cases hargs : run args with
    | ok v => exact ⟨rfl, t, hreturns, fits_of (hfits args v hargs)⟩
    | error cause =>
      intro hb
      have hresult := hyields args (hsuits.suit hb)
      rw [hargs] at hresult
      exact hresult
  · rw [hprint]
    exact ⟨rfl, .nil, hreturns, fits_of (Value.fits_self trivial)⟩

/-! ## All calls -/

theorem safe_dispatch (hσ : σ.Lawful) {body : List TypedStmt → Watch Completion}
    (hbody : σ.BodySafe body) {unseen : List Stmt → Run Completion}
    (hunseen : ∀ ss, Keeps (Steps true) (unseen ss)) :
    σ.CallsSafe (Watch.dispatch σ.code body (Run.dispatch unseen)) := by
  intro f g args w hw hg hargs hmeans hsuits
  refine safe_get ?_
  dsimp only
  cases hm : σ.code g with
  | none => exact safe_unseen hσ hw hmeans hm hsuits hunseen
  | some m =>
    have himplements := hw.valid.methods g m hm
    rw [himplements.body]
    have hnote := safe_lift (P := fun _ => True) hw
      (keeps_note (.calling m.name args.length)) fun _ => ends_modify.mpr ⟨rfl, trivial⟩
    refine hnote.bind fun _ v hv _ _ => ?_
    split
    · exact safe_fail hv fun _ => ⟨nofun, rfl⟩
    · have hlength : args.length = m.params.length := hargs.trans himplements.arity
      have htypes (hs : σ.strict) := Function.types_inj.mp (hσ.types_eq hs hmeans hm)
      have hsuits' : σ.Suits args (σ.final.function m.function).params := fun hs => by
        rw [(htypes hs).1]
        exact hsuits hs
      refine (safe_method hσ hbody hv hm himplements.arity hlength hsuits').imp
        fun value _ hvalue hs => ?_
      rw [← (htypes hs).2]
      exact hvalue hs

theorem safe_invoke (hσ : σ.Lawful) (fuel : Nat) : σ.CallsSafe (Watch.invoke σ.code fuel) := by
  induction fuel with
  | zero =>
    refine safe_dispatch hσ (fun f Γ w ss hw _ _ => ?_) fun _ => keeps_throw _
    exact safe_throw hw.ready fun _ => trivial
  | succ fuel ih =>
    refine safe_dispatch hσ (fun f Γ w ss hw hss htame => ?_) fun ss => ?_
    · exact safe_stmts (fun s _ Γ w => safe_stmt hσ ih s) hw hss htame
    · exact Run.keeps_stmts fun s _ => Run.keeps_stmt (Run.keeps_invoke fuel) s

end BlockScript.Setting
