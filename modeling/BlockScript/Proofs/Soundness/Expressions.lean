import BlockScript.Proofs.Soundness.Conditions
import BlockScript.Proofs.Soundness.Invariant

/-!
# Expressions keep the invariant

Evaluating an expression whose findings are right finds all its names, and if types count it gives a
value of its type. Calls are those that a `CallsSafe` says of.
-/

namespace BlockScript.Setting

open Attempt Pass

variable {σ : Setting} {w : Watched} {Γ : Context} {call : Watch.Call}

/-- An expression is what values without types of their own need, if failures count. -/
def Compares (σ : Setting) (e : TypedExpr) : Prop := σ.benign → e.ComparesKnown

/-- What the setting has to do with the analysis and with the run. -/
structure Lawful (σ : Setting) : Prop where
  refines : σ.known.Refines σ.final
  initial : σ.strict → σ.known = .initial
  print : σ.strict → σ.final.function σ.printing.1 = Store.printFunction .absent
  means : ∀ name arity f g, σ.leads name arity f g → σ.Means f g
  fresh : ∀ g m, σ.code g = some m → σ.known.functions.size ≤ g.index ∧ g ≠ σ.printing.2
  methods : ∀ g m, σ.code g = some m → ∃ Γ, m.Checked σ.final Γ ∧
    ∀ V Δ, σ.globals.Agrees V σ.leads Δ → Γ.Agrees V σ.leads Δ
  total : σ.total → ∀ g m, σ.code g = some m → m.IsTotal σ.Compares σ.final

/-- The value is one that the function `f` returns. -/
def Gives (σ : Setting) (f : FunctionId) (v : Value) : Prop :=
  σ.strict → ∃ t, (σ.final.function f).returns = some t ∧ σ.Fits v t

/-- A call of `g`, which goes to `f` by the analysis, keeps the invariant. -/
def CallsSafe (σ : Setting) (call : Watch.Call) : Prop :=
  ∀ f g args w, σ.Ready w → g.index < w.machine.store.functions.size →
    args.length = (w.machine.store.function g).arity → σ.Means f g →
    σ.Suits args (σ.final.function f).params →
    σ.Safe false (call g args) w fun v _ => σ.Gives f v

theorem Gives.fits {f : FunctionId} {v : Value} {t : Ty} (h : σ.Gives f v)
    (ht : σ.final.Returns f t) : σ.Fits v t := by
  intro hs
  obtain ⟨u, hu, hv⟩ := h hs
  rcases ht with rfl | ht
  · exact (hv hs).any
  · rw [hu] at ht
    cases ht
    exact hv hs

theorem safe_logical (h : σ.Ready w) (op : Operator) {v : Value} (hv : σ.Fits v .boolean) :
    σ.Safe false (Watch.lift (Run.logical op v)) w fun _ _ => True := by
  refine (safe_lift (P := fun _ => True) h (Run.keeps_logical op v) fun hs => ?_).imp
    fun _ _ _ => trivial
  rcases (hv hs).fits_or_nil with hfits | rfl
  · obtain ⟨b, rfl⟩ := hfits.boolean
    exact ⟨rfl, trivial⟩
  · intro hb
    obtain ⟨b, hnil⟩ := (hv.fits_of_benign hb).boolean
    cases hnil

theorem safe_read (h : σ.Ready w) {slot v : SlotId} {t : Ty}
    (hv : σ.strict → σ.Stands w.trace slot v)
    (ht : t = (σ.final.slot slot).type) :
    σ.Safe false (Watch.lift (Run.read v)) w fun a _ => σ.Fits a t := by
  refine safe_lift h (Run.keeps_read v) fun hs => ?_
  rw [ht]
  exact ⟨rfl, h.valid.values slot v (hv hs) hs⟩

/-- If types count there are no objects, and so nothing has members. -/
theorem Lawful.no_member (hσ : σ.Lawful) (hs : σ.strict) {t : Ty} {id : String} {slot : SlotId}
    (h : (σ.final.membersOf t).fields.find? id = some slot) : False := by
  rw [Store.membersOf, hσ.refines.members, hσ.initial hs] at h
  have hnone := Store.field_initial t id
  rw [Store.membersOf] at hnone
  rw [hnone] at h
  cases h

/-- If types count, a method call goes to the built-in method that the analysis has found, unless
the receiver is nil and there is no method. -/
theorem Lawful.method (hσ : σ.Lawful) (hs : σ.strict) {t : Ty} {name : String} {n : Nat}
    {f : FunctionId} (h : σ.final.findMethod? t name n = some f) {v : Value} (hv : σ.Fits v t)
    {s : Store} (hknown : σ.known.Refines s) :
    (s.findMethod? v.type name n = some f ∨ ¬ σ.total ∧ s.findMethod? v.type name n = none) ∧
      f.index < σ.known.functions.size ∧ (σ.final.function f).params.head? = some t := by
  rw [Store.findMethod?, Store.membersOf, hσ.refines.members] at h
  have hinitial : Store.initial.findMethod? t name n = some f := by
    rw [← hσ.initial hs]
    exact h
  obtain ⟨hhead, hany, hcomparable⟩ := Store.method_initial hinitial
  obtain ⟨hindex, -⟩ := Store.wellFormed_initial.methods t _ f hinitial
  rw [← hσ.initial hs] at hhead hindex
  refine ⟨?_, hindex, ?_⟩
  · rcases hv hs with hfits | ⟨htotal, rfl⟩
    · refine .inl ?_
      rw [hfits.type_eq hany hcomparable, Store.findMethod?, Store.membersOf, hknown.members]
      exact h
    · have hnone := Store.method_nil name n
      rw [← hσ.initial hs, Store.findMethod?, Store.membersOf, ← hknown.members] at hnone
      exact .inr ⟨htotal, hnone⟩
  · rw [(hσ.refines.function f hindex).params]
    exact hhead

theorem safe_exprs {es : List TypedExpr}
    (h : ∀ e ∈ es, ∀ w, σ.Ready w → σ.Agrees Γ w → e.Checked σ.final Γ →
      (σ.total → e.Everywhere σ.Compares) →
      σ.Safe false (Watch.expr call e) w fun v _ => σ.Fits v e.type)
    (hw : σ.Ready w) (hΓ : σ.Agrees Γ w) {params : List Ty}
    (hes : TypedExpr.AllChecked σ.final Γ params es)
    (htotal : σ.total → TypedExpr.AllEverywhere σ.Compares es) :
    σ.Safe false (Watch.exprs call es) w fun vs _ => vs.length = es.length ∧
      (params.length = es.length → σ.Suits vs params) := by
  induction es generalizing w params with
  | nil =>
    refine safe_pure hw ⟨rfl, fun hparams _ => ?_⟩
    rw [List.length_eq_zero_iff.mp hparams]
    exact .nil
  | cons e es ih =>
    rw [List.forall_mem_cons] at h
    obtain ⟨he, haccepts, hes⟩ := hes
    refine (h.1 w hw hΓ he fun ht => (htotal ht).1).bind fun v u hu hwu hv => ?_
    refine (ih h.2 hu (hΓ.evolves hw hwu) hes fun ht => (htotal ht).2).bind ?_
    rintro vs u' hu' - ⟨hlength, hsuits⟩
    refine safe_pure hu' ⟨by rw [List.length_cons, hlength, List.length_cons], ?_⟩
    intro hparams hs
    cases params with
    | nil => cases hparams
    | cons t params =>
      exact .cons (hv.accept haccepts hs) (hsuits (Nat.succ.inj hparams) hs)

theorem safe_lookupMethod (h : σ.Ready w) {receiver : Value} {name : String} {n : Nat}
    (hfound : σ.benign → ∃ g, w.machine.store.findMethod? receiver.type name n = some g) :
    σ.Safe false (Watch.lift (Run.lookupMethod receiver name n)) w fun g v =>
      v = w ∧ w.machine.store.findMethod? receiver.type name n = some g := by
  refine (safe_ask h fun cause hcause hb => ?_).imp ?_
  · obtain ⟨g, hg⟩ := hfound hb
    rw [hg] at hcause
    cases hcause
  · rintro g v ⟨hv, hg⟩
    refine ⟨hv, ?_⟩
    split at hg
    · rename_i f hf
      cases hg
      exact hf
    · cases hg

/-- An operation on operands that fit. -/
theorem safe_apply (h : σ.Ready w) {op : Operator} {a b : Value} {left right t : Ty}
    (ha : σ.Fits a left) (hb : σ.Fits b right) (ht : op.resultType? left right = some t)
    (hop : Run.decisive? op = none)
    (hcompares : σ.benign → op.isComparison = true → left ≠ .comparable) :
    σ.Safe false (Watch.lift (Attempt.ofExcept (op.apply a b))) w fun v _ => σ.Fits v t := by
  refine safe_lift h (keeps_ofExcept _) fun hs => ends_ofExcept.mpr ?_
  cases hresult : op.apply a b with
  | ok value =>
    have hfits := Operator.fits_of_apply (ha hs).fits_or_nil (hb hs).fits_or_nil ht hresult
    exact ⟨rfl, .inl hfits⟩
  | error cause =>
    intro hbenign
    have hyields := Operator.yields_apply (ha.fits_of_benign hbenign) (hb.fits_of_benign hbenign) ht
      hop (hcompares hbenign)
    rw [hresult] at hyields
    exact hyields

/-- A logical operator, whose right operand is only evaluated if the left one does not decide. -/
theorem safe_logicalOperator {op : Operator} {left right : Watch Value} (decisive : Bool)
    (hleft : σ.Safe false left w fun v _ => σ.Fits v .boolean)
    (hright : ∀ u, σ.Ready u → w.Evolves false u →
      σ.Safe false right u fun v _ => σ.Fits v .boolean) :
    σ.Safe false (do
      let a ← Watch.lift (Run.logical op (← left))
      if a = decisive then return .boolean a
      else return .boolean (← Watch.lift (Run.logical op (← right)))) w
      fun v _ => σ.Fits v .boolean := by
  have hboolean (b : Bool) : σ.Fits (.boolean b) .boolean := fits_of (Value.fits_self trivial)
  refine hleft.bind fun a u hu hwu ha => ?_
  refine (safe_logical hu op ha).bind fun a v hv huv _ => ?_
  split
  · exact safe_pure hv (hboolean a)
  · refine (hright v hv (hwu.trans huv)).bind fun b u' hu' _ hb => ?_
    exact (safe_logical hu' op hb).bind fun b v' hv' _ _ => safe_pure hv' (hboolean b)

/-- A function that the analysis has found by its name is called with arguments that suit it. -/
theorem safe_callFunction (hσ : σ.Lawful) (hcall : σ.CallsSafe call) (hw : σ.Ready w)
    (hΓ : σ.Agrees Γ w) {name : String} {f : FunctionId} {args : List Value} {t : Ty}
    (hf : Γ.functions name args.length = some f) (hsuits : σ.Suits args (σ.final.function f).params)
    (ht : σ.final.Returns f t) :
    σ.Safe false (do
      let g ← Watch.resolveFunction name args.length f
      call g args) w fun v _ => σ.Fits v t := by
  refine (safe_resolveFunction hw hΓ hf).bind ?_
  rintro g v hv - ⟨hleads, hkeyed⟩
  have hcount : args.length = (v.machine.store.function g).arity := congrArg Prod.snd hkeyed.2
  have hmeans := hσ.means name args.length f g hleads
  exact (hcall f g args v hv hkeyed.1 hcount hmeans hsuits).imp fun _ _ hvalue => hvalue.fits ht

/-- A method that the analysis has found for the type of its receiver is called with arguments that
suit it. -/
theorem safe_callMethod (hσ : σ.Lawful) (hcall : σ.CallsSafe call) (hw : σ.Ready w)
    {receiver t : Ty} {name : String} {f : FunctionId} {value : Value} {args : List Value}
    (hf : σ.final.findMethod? receiver name args.length = some f) (hvalue : σ.Fits value receiver)
    (hsuits : σ.Suits args (σ.final.function f).params.tail) (ht : σ.final.Returns f t) :
    σ.Safe false (do
      let g ← Watch.lift (Run.lookupMethod value name args.length)
      call g (value :: args)) w fun v _ => σ.Fits v t := by
  have hmethod (hs : σ.strict) := hσ.method hs hf hvalue hw.valid.known
  have hfound (hb : σ.benign) :
      ∃ g, w.machine.store.findMethod? value.type name args.length = some g := by
    have htotal := σ.total_of_benign hb
    exact ⟨f, (hmethod (σ.strict_of_total htotal)).1.resolve_right fun hnone => hnone.1 htotal⟩
  refine (safe_lookupMethod hw hfound).bind ?_
  rintro g v - - ⟨hv, hg⟩
  subst v
  have hkeyed := hw.valid.wellFormed.methods _ _ g hg
  have hcount : (value :: args).length = (w.machine.store.function g).arity :=
    congrArg Prod.snd hkeyed.2
  have hmeans : σ.Means f g := fun hs => by
    obtain ⟨hfound | ⟨-, hnone⟩, hindex, -⟩ := hmethod hs
    · rw [hg] at hfound
      cases hfound
      exact .inl ⟨rfl, hindex⟩
    · rw [hg] at hnone
      cases hnone
  have hall : σ.Suits (value :: args) (σ.final.function f).params := fun hs => by
    obtain ⟨-, -, hhead⟩ := hmethod hs
    obtain ⟨params, hparams⟩ := List.head?_eq_some_iff.mp hhead
    rw [hparams] at hsuits ⊢
    exact .cons (hvalue hs) (hsuits hs)
  exact (hcall f g (value :: args) w hw hkeyed.1 hcount hmeans hall).imp fun _ _ hreturned =>
    hreturned.fits ht

theorem safe_expr (hσ : σ.Lawful) (hcall : σ.CallsSafe call) (e : TypedExpr) (hw : σ.Ready w)
    (hΓ : σ.Agrees Γ w) (he : e.Checked σ.final Γ)
    (htotal : σ.total → e.Everywhere σ.Compares) :
    σ.Safe false (Watch.expr call e) w fun v _ => σ.Fits v e.type := by
  induction e generalizing w with
  | literal p value t =>
    refine safe_seen (safe_lift hw (Run.keeps_literal value) fun hs => ?_)
    refine (Run.ends_literal he w.machine).imp ?_ fun _ _ herror _ => herror
    rintro v m ⟨rfl, hv⟩
    exact ⟨rfl, .inl hv⟩
  | group p inner t ih =>
    obtain ⟨hinner, rfl⟩ := he
    exact safe_seen (ih hw hΓ hinner fun ht => (htotal ht).2)
  | binary p op left right t hl hr =>
    obtain ⟨hleft, hright, ht⟩ := he
    refine safe_seen ?_
    cases hop : Run.decisive? op with
    | some decisive =>
      obtain ⟨hlt, hrt, rfl⟩ := Operator.types_of_decisive hop ht
      rw [hlt] at hl
      rw [hrt] at hr
      refine safe_logicalOperator decisive (hl hw hΓ hleft fun ht => (htotal ht).2.1) ?_
      exact fun u hu hwu => hr hu (hΓ.evolves hw hwu) hright fun ht => (htotal ht).2.2
    | none =>
      refine (hl hw hΓ hleft fun ht => (htotal ht).2.1).bind fun a u hu hwu ha => ?_
      refine (hr hu (hΓ.evolves hw hwu) hright fun ht => (htotal ht).2.2).bind fun b v hv _ hb => ?_
      refine safe_apply hv ha hb ht hop fun hbenign hcompare => ?_
      exact ((htotal (σ.total_of_benign hbenign)).1 hbenign hcompare).1
  | name p id slot t =>
    obtain ⟨hid, ht⟩ := he
    refine safe_seen ((safe_resolve hw hΓ hid).bind fun v u hu _ hstands => ?_)
    exact safe_read hu (fun _ => hstands) ht
  | member p receiver id slot t ih =>
    obtain ⟨hreceiver, hfield, -⟩ := he
    have hstrict : ¬ σ.strict := fun hs => hσ.no_member hs hfield
    refine safe_seen ((ih hw hΓ hreceiver fun ht => (htotal ht).2).bind fun v u hu _ _ => ?_)
    refine (safe_lift (P := fun _ => True) hu (Run.keeps_field id v) fun hs =>
      absurd hs hstrict).bind
      fun v u' hu' _ _ => ?_
    exact safe_lift hu' (Run.keeps_read v) fun hs => absurd hs hstrict
  | call p id arguments f t ih =>
    obtain ⟨hf, harity, harguments, ht⟩ := he
    refine safe_seen ?_
    refine (safe_exprs (fun e he w hw hΓ => ih e he hw hΓ) hw hΓ harguments
      fun ht => (htotal ht).2).bind ?_
    rintro args u hu hwu ⟨hlength, hsuits⟩
    rw [← hlength] at hf
    exact safe_callFunction hσ hcall hu (hΓ.evolves hw hwu) hf (hsuits harity) ht
  | methodCall p receiver id arguments f t hr ih =>
    obtain ⟨hreceiver, hf, harity, harguments, ht⟩ := he
    refine safe_seen ?_
    refine (hr hw hΓ hreceiver fun ht => (htotal ht).2.1).bind fun value u hu hwu hvalue => ?_
    refine (safe_exprs (fun e he w hw hΓ => ih e he hw hΓ) hu (hΓ.evolves hw hwu) harguments
      fun ht => (htotal ht).2.2).bind ?_
    rintro args v hv - ⟨hlength, hsuits⟩
    have hcount : (σ.final.function f).params.tail.length = arguments.length := by
      rw [List.length_tail]
      exact Nat.sub_eq_of_eq_add harity
    rw [← hlength] at hf
    exact safe_callMethod hσ hcall hv hf hvalue (hsuits hcount) ht

end BlockScript.Setting
