import BlockScript.Proofs.Soundness.Expressions

/-!
# Statements keep the invariant

A statement leaves the context that the analysis says, and if types count, a value that it returns
is one that its method may return. Blocks and the rounds of loops are run in frames of their own.
-/

namespace BlockScript.Setting

open Attempt Pass

variable {σ : Setting} {w : Watched} {Γ : Context} {call : Watch.Call} {f : FunctionId} {fuel : Nat}

/-- How a statement may end that returns on every path or not. -/
def Completes (σ : Setting) (f : FunctionId) (returns : Bool) : Completion → Prop
  | .next => returns = false
  | .returned v => σ.Gives f v

/-- The machine stands in a scope inside that of the program, where names stand for what the context
says. -/
structure Inside (σ : Setting) (Γ : Context) (w : Watched) : Prop where
  ready : σ.Ready w
  root : σ.root.index < w.machine.scope.index
  agrees : σ.Agrees Γ w

theorem Inside.evolves {v : Watched} (h : σ.Inside Γ w) (hv : σ.Ready v) (hwv : w.Evolves false v) :
    σ.Inside Γ v :=
  ⟨hv, hwv.machine.scope ▸ h.root, h.agrees.evolves h.ready hwv⟩

theorem Inside.enterFrame (h : σ.Inside Γ w) :
    σ.Inside Γ ⟨w.machine.enterFrame w.machine.scope, w.trace⟩ := by
  refine ⟨h.ready.enter h.ready.scope rfl rfl, h.ready.valid.root, ?_⟩
  have hcontext := context_enterFrame h.ready.sound h.ready.scope
  rw [Agrees, hcontext]
  exact h.agrees

/-! ## Parts of statements -/

theorem safe_declaredType (h : σ.Ready w) (name : Option String) (value : Value) :
    σ.Safe false (Watch.lift (Run.declaredType name value)) w fun _ _ => True := by
  refine (safe_lift (P := fun _ => True) h (Run.keeps_declaredType name value) fun _ => ?_).imp
    fun _ _ _ => trivial
  refine ends_bind.mpr (ends_bind.mpr (ends_get.mpr (ends_ofExcept.mpr ?_)))
  dsimp only
  cases hname : w.machine.store.namedType name with
  | ok type => exact ⟨rfl, trivial⟩
  | error cause => exact fun _ => Store.namedType_error hname

section

variable (hσ : σ.Lawful) (hcall : σ.CallsSafe call)

include hσ hcall

theorem safe_condition {e : TypedExpr} (h : σ.Ready w) (hΓ : σ.Agrees Γ w)
    (he : e.Checked σ.final Γ) (htype : e.type = .boolean)
    (htotal : σ.total → e.Everywhere σ.Compares) :
    σ.Safe false (Watch.condition call e) w fun _ _ => True := by
  refine (safe_expr hσ hcall e h hΓ he htotal).bind fun v u hu _ hv => ?_
  rw [htype] at hv
  split
  · exact safe_pure hu trivial
  · rename_i hno
    refine safe_fail hu fun hb => ?_
    obtain ⟨b, rfl⟩ := (hv.fits_of_benign hb).boolean
    exact absurd rfl (hno b)

theorem safe_initial {b : TypedBinding} (h : σ.Ready w) (hΓ : σ.Agrees Γ w)
    (hb : b.Checked σ.final Γ)
    (htotal : σ.total → b.Everywhere σ.Compares TypedBinding.HasValue) :
    σ.Safe false (Watch.initial call b) w fun r _ =>
      σ.Fits r.1 (σ.final.slot b.slot).type := by
  unfold Watch.initial
  split
  · rename_i e he
    obtain ⟨hchecked, haccepts⟩ := hb e he
    refine (safe_expr hσ hcall e h hΓ hchecked fun ht => (htotal ht).2 e he).bind
      fun v u hu _ hv => ?_
    refine (safe_declaredType hu b.declared v).bind fun _ u' hu' _ _ => ?_
    exact safe_pure hu' (hv.accept haccepts)
  · rename_i hnone
    have hnil : ¬ σ.total := fun ht => by
      have hvalue := (htotal ht).1
      rw [TypedBinding.HasValue, hnone] at hvalue
      cases hvalue
    refine (safe_declaredType h b.declared .nil).bind fun _ u hu _ _ => ?_
    exact safe_pure hu (fits_nil hnil)

theorem safe_target {target : TypedExpr} (h : σ.Ready w) (hΓ : σ.Agrees Γ w)
    (htarget : target.Checked σ.final Γ)
    (htotal : σ.total → target.Everywhere σ.Compares) :
    σ.Safe false (Watch.target call target) w fun v u => σ.strict →
      ∃ slot, σ.Stands u.trace slot v ∧ (σ.final.slot slot).type = target.type := by
  unfold Watch.target
  split
  · rename_i p id slot t
    obtain ⟨hid, ht⟩ := htarget
    exact (safe_resolve h hΓ hid).imp fun v u hv _ => ⟨slot, hv, ht.symm⟩
  · rename_i p receiver id slot t
    obtain ⟨hreceiver, hfield, -⟩ := htarget
    have hstrict : ¬ σ.strict := fun hs => hσ.no_member hs hfield
    refine (safe_expr hσ hcall receiver h hΓ hreceiver fun ht =>
      absurd (σ.strict_of_total ht) hstrict).bind fun v u hu _ _ => ?_
    refine (safe_lift (P := fun _ => True) hu (Run.keeps_field id v) fun hs =>
      absurd hs hstrict).imp ?_
    exact fun _ _ _ hs => absurd hs hstrict
  · exact safe_fail h fun _ => ⟨nofun, rfl⟩

theorem safe_assignment {target value : TypedExpr} (h : σ.Ready w) (hΓ : σ.Agrees Γ w)
    (htarget : target.Checked σ.final Γ) (hvalue : value.Checked σ.final Γ)
    (haccepts : target.type.accepts value.type = true)
    (htotal : σ.total → target.Everywhere σ.Compares ∧
      value.Everywhere σ.Compares) :
    σ.Safe false (Watch.assign call target value) w fun _ _ => True := by
  refine (safe_target hσ hcall h hΓ htarget fun ht => (htotal ht).1).bind
    fun slot u hu hwu hslot => ?_
  refine (safe_expr hσ hcall value hu (hΓ.evolves h hwu) hvalue fun ht => (htotal ht).2).bind
    fun v u' hu' huu' hv => ?_
  have hfits : σ.Fits v target.type := hv.accept haccepts
  refine (safe_tell hu' (o := .assigned target v) nofun trivial (fun ht => hfits.fits ht)
    trivial).bind fun _ _ hu'' huu'' _ => ?_
  refine safe_assign hu'' fun hs => ?_
  obtain ⟨slot', hstands, htype⟩ := hslot hs
  exact ⟨slot', (hstands.mono huu'.trace).mono huu''.trace, htype ▸ hfits⟩

end

/-! ## Blocks and loops -/

/-- What is needed of statements that are part of another. -/
def StmtsSafe (σ : Setting) (call : Watch.Call) (fuel : Nat) (f : FunctionId)
    (ss : List TypedStmt) : Prop :=
  ∀ s ∈ ss, ∀ Γ w, σ.Inside Γ w → s.Checked σ.final f Γ →
    (σ.total → s.Everywhere σ.Compares TypedBinding.HasValue) →
    σ.Safe true (Watch.stmt call fuel s) w fun c v =>
      σ.Completes f s.returns c ∧ σ.Agrees (Γ.after s) v

theorem safe_stmts {ss : List TypedStmt} (h : σ.StmtsSafe call fuel f ss) (hw : σ.Inside Γ w)
    (hss : TypedStmt.AllChecked σ.final f Γ ss)
    (htotal : σ.total → TypedStmt.AllEverywhere σ.Compares TypedBinding.HasValue ss) :
    σ.Safe true (Watch.stmts call fuel ss) w fun c _ =>
      σ.Completes f (TypedStmt.returnsAll ss) c := by
  induction ss generalizing Γ w with
  | nil => exact safe_pure hw.ready rfl
  | cons s ss ih =>
    rw [StmtsSafe, List.forall_mem_cons] at h
    obtain ⟨hs, hss⟩ := hss
    refine (h.1 Γ w hw hs fun ht => (htotal ht).1).bind ?_
    rintro c v hv hwv ⟨hc, hΓ⟩
    cases c with
    | next =>
      have hinside : σ.Inside (Γ.after s) v := ⟨hv, hwv.machine.scope ▸ hw.root, hΓ⟩
      refine (ih h.2 hinside hss fun ht => (htotal ht).2).imp fun c _ hrest => ?_
      rw [TypedStmt.returnsAll, show s.returns = false from hc, Bool.false_or]
      exact hrest
    | returned value => exact safe_pure hv hc

/-- What is run in a scope of its own. -/
theorem safe_inScope {α : Type} {x : Watch α} {P : α → Prop} (hw : σ.Inside Γ w)
    (hx : σ.Inside Γ ⟨w.machine.enterFrame w.machine.scope, w.trace⟩ →
      σ.Safe true x ⟨w.machine.enterFrame w.machine.scope, w.trace⟩ fun a _ => P a) :
    σ.Safe false (Watch.inScope x) w fun a _ => P a :=
  safe_within hw.ready (fun a => a.enterFrame a.scope) rfl rfl (hx hw.enterFrame)

theorem safe_block {ss : List TypedStmt} (h : σ.StmtsSafe call fuel f ss) (hw : σ.Inside Γ w)
    (hss : TypedStmt.AllChecked σ.final f Γ ss)
    (htotal : σ.total → TypedStmt.AllEverywhere σ.Compares TypedBinding.HasValue ss) :
    σ.Safe false (Watch.inScope (Watch.stmts call fuel ss)) w fun c _ =>
      σ.Completes f (TypedStmt.returnsAll ss) c :=
  safe_inScope hw fun hinner => safe_stmts h hinner hss htotal

/-- A part of a statement may return on every path where the statement does not. -/
theorem Completes.weaken {returns returns' : Bool} {c : Completion} (h : σ.Completes f returns c)
    (hreturns : returns = false → returns' = false) : σ.Completes f returns' c := by
  cases c with
  | next => exact hreturns h
  | returned v => exact h

theorem safe_forLoop {body : Int → Watch Completion} {returns : Bool}
    (h : ∀ i v, σ.Inside Γ v → σ.Safe false (body i) v fun c _ => σ.Completes f returns c)
    (hw : σ.Inside Γ w) (count : Nat) (i : Int) :
    σ.Safe false (Run.forLoop body count i) w fun c _ => σ.Completes f false c := by
  induction count generalizing w i with
  | zero => exact safe_pure hw.ready rfl
  | succ count ih =>
    refine (h i w hw).bind fun c v hv hwv hc => ?_
    cases c with
    | next => exact ih (hw.evolves hv hwv) (i + 1)
    | returned value => exact safe_pure hv (hc.weaken fun _ => rfl)

theorem safe_whileLoop {test : Watch Bool} {body : Watch Completion} {returns : Bool}
    (htest : ∀ v, σ.Inside Γ v → σ.Safe false test v fun _ _ => True)
    (hbody : ∀ v, σ.Inside Γ v → σ.Safe false body v fun c _ => σ.Completes f returns c)
    (hw : σ.Inside Γ w) (fuel : Nat) :
    σ.Safe false (Run.whileLoop test body fuel) w fun c _ => σ.Completes f false c := by
  induction fuel generalizing w with
  | zero => exact safe_throw hw.ready fun _ => trivial
  | succ fuel ih =>
    refine (htest w hw).bind fun b v hv hwv _ => ?_
    have hv' := hw.evolves hv hwv
    split
    · refine (hbody v hv').bind fun c u hu hvu hc => ?_
      cases c with
      | next => exact ih (hv'.evolves hu hvu)
      | returned value => exact safe_pure hu (hc.weaken fun _ => rfl)
    · exact safe_pure hv rfl

/-! ## Statements -/

/-- A statement that declares nothing in its own scope leaves the context as it is. -/
theorem Safe.unchanged {s : TypedStmt} {x : Watch Completion} (hw : σ.Inside Γ w)
    (hafter : Γ.after s = Γ) (hx : σ.Safe false x w fun c _ => σ.Completes f s.returns c) :
    σ.Safe true x w fun c v => σ.Completes f s.returns c ∧ σ.Agrees (Γ.after s) v := by
  refine Ends.imp hx ?_ fun _ _ he => he
  rintro c v ⟨hv, hwv, hc⟩
  rw [hafter]
  exact ⟨hv, hwv.of_false true, hc, hw.agrees.evolves hw.ready hwv⟩

theorem safe_stmt (hσ : σ.Lawful) (hcall : σ.CallsSafe call) (s : TypedStmt) (hw : σ.Inside Γ w)
    (hs : s.Checked σ.final f Γ)
    (htotal : σ.total → s.Everywhere σ.Compares TypedBinding.HasValue) :
    σ.Safe true (Watch.stmt call fuel s) w fun c v =>
      σ.Completes f s.returns c ∧ σ.Agrees (Γ.after s) v := by
  induction s generalizing Γ w with
  | expression p value =>
    refine Safe.unchanged hw rfl (Safe.locate ?_ p)
    refine (safe_expr hσ hcall value hw.ready hw.agrees hs htotal).bind fun _ v hv _ _ => ?_
    exact safe_pure hv rfl
  | declare b =>
    refine Safe.locate ?_ b.position
    refine Safe.bind (Q := fun _ v => σ.Agrees (Γ.declare b.name b.slot) v) ?_ fun _ v hv _ hΓ =>
      safe_pure hv ⟨rfl, hΓ⟩
    have hinitial := safe_initial hσ hcall hw.ready hw.agrees hs htotal
    refine hinitial.bind_declares fun r v hv hwv hr => ?_
    have hv' := hw.evolves hv hwv
    exact safe_make_inside hv'.ready hv'.root hv'.agrees b.name r.2 hr
  | assign p target value =>
    obtain ⟨htarget, hvalue, haccepts⟩ := hs
    refine Safe.unchanged hw rfl (Safe.locate ?_ p)
    refine (safe_assignment hσ hcall hw.ready hw.agrees htarget hvalue haccepts htotal).bind
      fun _ v hv _ _ => ?_
    exact safe_pure hv rfl
  | conditional p condition thenBody elseBody hthen helse =>
    obtain ⟨hcondition, htype, hthen', helse'⟩ := hs
    refine Safe.unchanged hw rfl (Safe.locate ?_ p)
    refine (safe_condition hσ hcall hw.ready hw.agrees hcondition htype fun ht =>
      (htotal ht).1).bind fun b v hv hwv _ => ?_
    have hv' := hw.evolves hv hwv
    split
    · refine (safe_block (fun s hs Γ w => hthen s hs) hv' hthen' fun ht =>
        (htotal ht).2.1).imp fun c _ hc => ?_
      exact hc.weaken (Bool.and_eq_false_iff.mpr ∘ .inl)
    · refine (safe_block (fun s hs Γ w => helse s hs) hv' helse' fun ht =>
        (htotal ht).2.2).imp fun c _ hc => ?_
      exact hc.weaken (Bool.and_eq_false_iff.mpr ∘ .inr)
  | forLoop p name iterable slot body ih =>
    obtain ⟨hiterable, haccepts, htype, hbody⟩ := hs
    refine Safe.unchanged hw rfl (Safe.locate ?_ p)
    refine (safe_expr hσ hcall iterable hw.ready hw.agrees hiterable fun ht =>
      (htotal ht).1).bind fun value v hv hwv hvalue => ?_
    have hround (i : Int) (u : Watched) (hu : σ.Inside Γ u) :
        σ.Safe false (Watch.inScope do
          Watch.make name slot .integer (.integer i)
          Watch.stmts call fuel body) u
          fun c _ => σ.Completes f (TypedStmt.returnsAll body) c := by
      refine safe_inScope hu fun hinner => ?_
      have hfits : σ.Fits (.integer i) (σ.final.slot slot).type :=
        fits_of (htype ▸ Value.fits_self trivial)
      refine (safe_make_inside hinner.ready hinner.root hinner.agrees name .integer hfits).bind
        fun _ u' hu' hstep hΓ => ?_
      have hinside : σ.Inside (Γ.declare name slot) u' :=
        ⟨hu', hstep.machine.scope ▸ hinner.root, hΓ⟩
      exact safe_stmts (fun s hs Γ w => ih s hs) hinside hbody fun ht => (htotal ht).2
    split
    · exact safe_forLoop hround (hw.evolves hv hwv) _ _
    · rename_i hno
      refine safe_fail hv fun hb => ?_
      obtain ⟨start, stop, rfl⟩ := ((hvalue.accept haccepts).fits_of_benign hb).iterable
      exact absurd rfl (hno start stop)
  | whileLoop p condition body ih =>
    obtain ⟨hcondition, htype, hbody⟩ := hs
    refine Safe.unchanged hw rfl (Safe.locate ?_ p)
    have htest (v : Watched) (hv : σ.Inside Γ v) :=
      safe_condition hσ hcall hv.ready hv.agrees hcondition htype fun ht => (htotal ht).1
    have hround (v : Watched) (hv : σ.Inside Γ v) :=
      safe_block (fun s hs Γ w => ih s hs) hv hbody fun ht => (htotal ht).2
    exact safe_whileLoop htest hround hw fuel
  | ret p value =>
    obtain ⟨hvalue, t, ht, haccepts⟩ := hs
    refine Safe.unchanged hw rfl (Safe.locate ?_ p)
    refine (safe_expr hσ hcall value hw.ready hw.agrees hvalue htotal).bind fun a v hv _ ha => ?_
    exact safe_pure hv fun _ => ⟨t, ht, ha.accept haccepts⟩

end BlockScript.Setting
