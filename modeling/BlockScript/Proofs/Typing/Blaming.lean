import BlockScript.Proofs.Typing.Visits

/-!
# Where the analysis finds faults

A fault is placed at the innermost node that the analysis is at when it finds the fault, and an
argument that does not fit at the argument. Only the faults of the entry point have no place.
-/

namespace BlockScript

open Attempt Pass

namespace Check

variable {a b : Analysis} {e : Failure}

/-! ## From the inside out -/

theorem requireBody_eq_ok {opener : Keyword} {body : List Stmt} {r : Unit}
    (h : requireBody opener body a = .ok r b) : b = a ∧ body ≠ [] := by
  cases body with
  | nil => cases h
  | cons s ss =>
    cases h
    exact ⟨rfl, nofun⟩

theorem requireBody_of_ne_nil (opener : Keyword) {body : List Stmt} (h : body ≠ []) :
    requireBody opener body = pure () := by
  cases body with
  | nil => exact absurd rfl h
  | cons s ss => rfl

theorem ends_defineParams (ps : List Param) (types : List Ty) (a : Analysis) :
    Ends (defineParams ps types) a (fun _ _ => True) fun _ _ => False := by
  induction ps generalizing types a with
  | nil =>
    unfold defineParams
    exact trivial
  | cons p ps ih =>
    cases types with
    | nil => exact trivial
    | cons type types =>
      have hdefine : Ends (define p.name type none) a (fun _ _ => True) fun _ _ => False := trivial
      exact hdefine.bind fun _ b _ => (ih types b).bind fun _ _ _ => trivial

theorem exists_defineParams (ps : List Param) (types : List Ty) (a : Analysis) :
    ∃ slots, defineParams ps types a = .ok slots (state (defineParams ps types a)) := by
  cases h : defineParams ps types a with
  | ok slots b => exact ⟨slots, rfl⟩
  | error e b => exact ((ends_defineParams ps types a).of_error h).elim

theorem fails_binding {d : Binding} {value : Expr} {type : Option Ty}
    (hvalue : d.value = some value) (htype : a.store.namedType d.type = .ok type)
    (h : Fails e (expr value) a) : Fails e (binding d) a := by
  refine fails_bind (ask_of_ok htype) ?_
  rw [hvalue]
  exact h.bind

/-- The analysis when it is about to enter the scope of a method. -/
def methodStart (a : Analysis) (m : Method) (types : List Ty) (returns : Option Ty) : Analysis :=
  { begun a m types returns with own := some ⟨a.store.functions.size⟩ }

theorem sound_methodStart (ha : a.Sound) (m : Method) (types : List Ty) (returns : Option Ty) :
    (methodStart a m types returns).Sound :=
  have hbegun := (extends_begun ha m types returns).sound
  ⟨hbegun.store, hbegun.scope⟩

theorem method_eq {m : Method} {types : List Ty} {returns : Option Ty}
    (htypes : a.store.paramTypes m.params = .ok types)
    (hreturns : a.store.namedType m.returnType = .ok returns) :
    method m a = checkBody m types ⟨a.store.functions.size⟩ a.own
      (methodStart a m types returns) := by
  have hsignature : (ask fun s _ => do
      return (← s.paramTypes m.params, ← s.namedType m.returnType) :
      Check (List Ty × Option Ty)) a = .ok (types, returns) a := by
    refine ask_of_ok ?_
    rw [htypes, hreturns]
    rfl
  exact bind_of_ok (locate_eq_ok.mpr hsignature)

/-- What fails in the body of a method makes the method fail, and the method does not place it. -/
theorem fails_method {m : Method} {types : List Ty} {returns : Option Ty} (ha : a.Sound)
    (htypes : a.store.paramTypes m.params = .ok types)
    (hreturns : a.store.namedType m.returnType = .ok returns)
    (h : Fails e (stmts m.body) (a.inBody m types returns)) : Fails e (method m) a := by
  let b := methodStart a m types returns
  obtain ⟨slots, hslots⟩ := exists_defineParams m.params types (b.enterFrame b.scope)
  have hbody : Fails e (do
      let slots ← defineParams m.params types
      return (slots, ← stmts m.body)) (b.enterFrame b.scope) := fails_bind hslots h.bind
  have hscope := hbody.inScope (sound_methodStart ha m types returns)
    (keeps_steps (upholds_careful.keeps_body m types))
  unfold Fails
  rw [method_eq htypes hreturns]
  exact hscope.ensuring.bind

/-- The body of a statement, in a scope of its own. -/
theorem fails_block {ss : List Stmt} (ha : a.Sound)
    (h : Fails e (stmts ss) (a.enterFrame a.scope)) : Fails e (inScope (stmts ss)) a :=
  h.inScope ha (keeps_steps (upholds_careful.keeps_block ss))

theorem fails_leading {s : Stmt} {value : Expr} (hvalue : s.leading? = some value)
    (h : Fails e (expr value) a) : Fails (e.locate s.position) (stmt s) a := by
  cases s with
  | expression | forLoop =>
    cases hvalue
    exact h.bind.locate
  | conditional | whileLoop =>
    cases hvalue
    have hcondition : Fails e (condition value) a := h.bind
    exact hcondition.bind.locate
  | _ => cases hvalue

theorem assignment_of_isTarget {target : Expr} (htarget : isTarget target = true) (p : Position)
    (value : Expr) : assignment p target value = do
      let target ← expr target
      let value ← expr value
      ofExcept (target.type.requireAssignable value.type)
      return .assign p target value :=
  if_pos htarget

theorem fails_part {value part : Expr} (hpart : value.leading? = some part)
    (h : Fails e (expr part) a) : Fails (e.locate value.position) (expr value) a := by
  cases value with
  | group | binary | member | methodCall =>
    cases hpart
    exact h.bind.locate
  | _ => cases hpart

theorem ends_settled_stmts (ss : List Stmt) (a : Analysis) :
    Ends (stmts ss) a (fun _ _ => True) fun e _ => e.IsSettled := by
  induction ss generalizing a with
  | nil => exact trivial
  | cons s ss ih =>
    have hfirst : Ends (stmt s) a (fun _ _ => True) fun e _ => e.IsSettled := by
      cases s with
      | unknown => exact fun _ => rfl
      | _ => exact ends_settled_locate _ _ a
    exact hfirst.bind fun _ b _ => (ih b).bind fun _ _ _ => trivial

end Check

namespace Visit

open Check

variable {v w : Visit} {e : Failure}

theorem propagates (h : v.Begins w) (hv : v.state.Sound) (hw : w.failure? = some e) :
    v.failure? = some (e.locate? v.place?) := by
  cases h with
  | @fields p a =>
    have hw : Fails e (p.fields.mapM field) a := hw
    exact hw.bind
  | @methods p a b bs hfields =>
    have hw : Fails e (p.methods.mapM method) b := hw
    exact fails_bind hfields hw.bind
  | @field d ds a =>
    have hw : Fails e (Check.field d) a := hw
    exact hw.mapM_head
  | @nextField d ds a b typed hd =>
    have hw : Fails e (ds.mapM Check.field) b := hw
    exact fails_mapM_tail hd hw
  | @method m ms a =>
    have hw : Fails e (Check.method m) a := hw
    exact hw.mapM_head
  | @nextMethod m ms a b typed hm =>
    have hw : Fails e (ms.mapM Check.method) b := hw
    exact fails_mapM_tail hm hw
  | initial he htype => exact (fails_binding he htype hw).locate
  | @body m a types returns htypes hreturns =>
    have hw : Fails e (stmts m.body) (a.inBody m types returns) := hw
    -- A method has a place, but what fails in its statements has one already.
    obtain ⟨b, hb⟩ := failure?_eq_some.mp hw
    rw [((ends_settled_stmts m.body _).of_error hb).locate?]
    exact fails_method hv htypes hreturns hw
  | @statement s ss a =>
    have hw : Fails e (stmt s) a := hw
    exact hw.bind
  | @nextStatement s ss a b typed hs =>
    have hw : Fails e (stmts ss) b := hw
    exact fails_bind hs hw.bind
  | leading he => exact fails_leading he hw
  | declared he htype =>
    have hw := fails_binding he htype hw
    exact hw.bind.locate
  | @target p target value a htarget =>
    have hw : Fails e (expr target) a := hw
    refine Fails.locate ?_
    rw [assignment_of_isTarget htarget]
    exact hw.bind
  | @value p target value a b typed htarget hb =>
    have hw : Fails e (expr value) b := hw
    refine Fails.locate ?_
    rw [assignment_of_isTarget htarget]
    exact fails_bind hb hw.bind
  | @returned p value a f hown =>
    have hw : Fails e (expr value) a := hw
    have hreturned : Fails e (returned p value) a := by
      unfold returned
      refine fails_bind rfl ?_
      rw [hown]
      exact hw.bind
    exact hreturned.locate
  | @thenBody p condition thenBody elseBody a b typed he hbody =>
    have hb := sound_of_inert (inert_condition _) he hv
    have hblock := fails_block hb hw
    refine Fails.locate (fails_bind he ?_)
    rw [requireBody_of_ne_nil .IF hbody]
    exact hblock.bind
  | @elseBody p condition thenBody elseBody a b c typed ts he hbody hthen =>
    have hb := sound_of_inert (inert_condition _) he hv
    have hkeeps := careful_inScope (upholds_careful.keeps_block thenBody)
    have hc := sound_of_keeps (keeps_leaving hkeeps) hthen hb
    have hblock := fails_block hc hw
    refine Fails.locate (fails_bind he ?_)
    rw [requireBody_of_ne_nil .IF hbody]
    exact fails_bind (r := ⟨⟩) (t := b) rfl (fails_bind hthen hblock.bind)
  | @round p name iterable body a b c typed u he htype hbody hdefine =>
    have hb := sound_of_inert (inert_expr _) he hv
    have hw : Fails e (stmts body) c := hw
    refine Fails.locate (fails_bind he ?_)
    rw [htype, requireBody_of_ne_nil .FOR hbody]
    have hround := keeps_steps (upholds_careful.keeps_round name body)
    exact (Fails.inScope hb hround (fails_bind hdefine hw.bind)).bind
  | @turn p condition body a b typed he =>
    have hb := sound_of_inert (inert_condition _) he hv
    exact (fails_bind he (fails_block hb hw).bind).locate
  | part he => exact fails_part he hw
  | @right p op left right a b typed hleft =>
    have hw : Fails e (expr right) b := hw
    exact (fails_bind hleft hw.bind).locate
  | @call p name es a f hf =>
    have hw : Fails e (exprs (a.store.function f).params es) a := hw
    refine Fails.locate (fails_bind (ask_of_ok hf) ?_)
    exact fails_bind (r := a) (t := a) rfl hw.bind
  | @methodCall p receiver name es a b typed f he hf =>
    have hw : Fails e (exprs (b.store.function f).params.tail es) b := hw
    refine Fails.locate (fails_bind he (fails_bind (ask_of_ok hf) ?_))
    exact fails_bind (r := b) (t := b) rfl hw.bind
  | @checked params value es a =>
    have hw : Fails e (expr value) a := hw
    exact hw.bind
  | @argument params value es a b typed he =>
    have hw : Fails e (locate value.position
      (ofExcept ((params.headD .any).requireAssignable typed.type))) b := hw
    exact fails_bind he hw.bind
  | @nextArgument params value es a b typed he hfits =>
    have hw : Fails e (exprs params.tail es) b := hw
    refine fails_bind he (fails_bind (r := ⟨⟩) (locate_eq_ok.mpr ?_) hw.bind)
    rw [hfits]
    rfl

/-! ## From the outside in -/

/-- A failure of the visit's own, at its place. Nothing but the entry point fails without one. -/
def IsOwn (v : Visit) (e : Failure) : Prop :=
  ∃ c, e = (Failure.of c).locate? v.place? ∧ (v.place? = none → c.family = .missingEntryPoint)

/-- The failure has no place yet. -/
def IsNew (e : Failure) : Prop := ∃ c, e = .of c

theorem isNew_of (c : Cause) : IsNew (.of c) := ⟨c, rfl⟩

section

variable {α : Type} {x : Check α} {a : Analysis} {E : Failure → Prop}

abbrev Stems (E : Failure → Prop) (v : Visit) (x : Check α) (a : Analysis) : Prop :=
  nesting.Stems E v x a

theorem stems_ensuring {f : Analysis → Analysis} (h : Stems E v x a) :
    Stems E v (ensuring x (modify f)) a :=
  ends_ensuring.mpr h

theorem Stems.placed {p : Position} (hx : Stems IsNew v x a) (hp : v.place? = some p) :
    Stems v.IsOwn v (locate p x) a := by
  refine Nesting.Stems.locate hx ?_
  rintro _ ⟨c, rfl⟩
  refine ⟨c, ?_, fun hnone => ?_⟩
  · rw [hp]
    rfl
  · rw [hp] at hnone
    cases hnone

/-! ### Expressions -/

theorem stems_expression (part : Expr) (h : v.Begins ⟨.expression part, a⟩) :
    Stems E v (expr part) a :=
  Nesting.stems_part h rfl

theorem stems_exprs {params : List Ty} {es : List Expr} (h : v.Begins ⟨.arguments params es, a⟩) :
    Stems E v (exprs params es) a :=
  Nesting.stems_part h rfl

theorem stems_expr {e : Expr} (hv : ∀ p label, e ≠ .unknown p label) :
    Stems (IsOwn ⟨.expression e, a⟩) ⟨.expression e, a⟩ (expr e) a := by
  cases e with
  | literal p value =>
    exact Stems.placed ((Nesting.stems_ofExcept isNew_of _).bind fun _ _ _ => trivial) rfl
  | group p inner =>
    exact Stems.placed ((stems_expression _ (.part rfl)).bind fun _ _ _ => trivial) rfl
  | binary p op left right =>
    refine Stems.placed ((stems_expression _ (.part rfl)).bind fun typed b hb => ?_) rfl
    refine (stems_expression _ (.right hb)).bind fun _ _ _ => ?_
    exact (Nesting.stems_ofExcept isNew_of _).bind fun _ _ _ => trivial
  | name p id => exact Stems.placed ((Nesting.stems_ask isNew_of).bind fun _ _ _ => trivial) rfl
  | member p receiver id =>
    refine Stems.placed ((stems_expression _ (.part rfl)).bind fun typed b hb => ?_) rfl
    exact (Nesting.stems_ask isNew_of).bind fun _ _ _ => trivial
  | call p id arguments =>
    refine Stems.placed ((Nesting.stems_ask isNew_of).bind fun f b hf => ?_) rfl
    obtain ⟨rfl, hf⟩ := ask_eq_ok hf
    change Stems IsNew _ (exprs (b.store.function f).params arguments >>= _) b
    exact (stems_exprs (.call hf)).bind fun _ _ _ => trivial
  | methodCall p receiver id arguments =>
    refine Stems.placed ((stems_expression _ (.part rfl)).bind fun typed b hb => ?_) rfl
    refine (Nesting.stems_ask isNew_of).bind fun f c hf => ?_
    obtain ⟨rfl, hf⟩ := ask_eq_ok hf
    change Stems IsNew _ (exprs (c.store.function f).params.tail arguments >>= _) c
    exact (stems_exprs (.methodCall hb hf)).bind fun _ _ _ => trivial
  | unknown p label => exact absurd rfl (hv p label)

theorem stems_arguments (params : List Ty) (es : List Expr) :
    Stems E ⟨.arguments params es, a⟩ (exprs params es) a := by
  cases es with
  | nil => trivial
  | cons e es =>
    refine (stems_expression _ .checked).bind fun typed b he => ?_
    refine Nesting.Stems.bind (Nesting.stems_part (.argument he) rfl) fun _ c hfit => ?_
    obtain ⟨rfl, hfits⟩ := ofExcept_eq_ok (locate_eq_ok.mp hfit)
    exact (stems_exprs (.nextArgument he hfits)).bind fun _ _ _ => trivial

/-! ### Statements -/

theorem stems_condition {e : Expr} (h : v.Begins ⟨.expression e, a⟩) :
    Stems IsNew v (condition e) a := by
  refine (stems_expression e h).bind fun typed b _ => ?_
  split
  · exact trivial
  · exact Nesting.stems_throw (isNew_of _)

theorem stems_requireBody (opener : Keyword) (body : List Stmt) :
    Stems IsNew v (requireBody opener body) a := by
  unfold requireBody
  split
  · exact Nesting.stems_throw (isNew_of _)
  · exact trivial

theorem stems_binding {d : Binding} (h : ∀ e type, d.value = some e →
      a.store.namedType d.type = .ok type → v.Begins ⟨.expression e, a⟩) :
    Stems IsNew v (binding d) a := by
  refine (Nesting.stems_ask isNew_of).bind fun annotated b htype => ?_
  obtain ⟨rfl, htype⟩ := ask_eq_ok htype
  split
  · rename_i e he _
    refine (stems_expression e (h e _ he htype)).bind fun typed c _ => ?_
    exact (Nesting.stems_ofExcept isNew_of _).bind fun _ _ _ => trivial
  · exact trivial
  · exact Nesting.stems_throw (isNew_of _)

/-- The body of a statement, in a scope of its own. -/
theorem stems_block {ss : List Stmt} (ha : a.Sound)
    (h : v.Begins ⟨.statements ss, a.enterFrame a.scope⟩) : Stems E v (inScope (stmts ss)) a :=
  Nesting.Stems.inScope ha (keeps_steps (upholds_careful.keeps_block ss)) (Nesting.stems_part h rfl)

theorem stems_returned (p : Position) (e : Expr) :
    Stems IsNew ⟨.statement (.ret p e), a⟩ (returned p e) a := by
  refine Nesting.Stems.bind trivial fun b c hget => ?_
  cases hget
  cases hown : a.own with
  | none => exact Nesting.stems_throw (isNew_of _)
  | some f =>
    refine (stems_expression e (.returned hown)).bind fun typed b _ => ?_
    refine Nesting.Stems.bind trivial fun c d hget => ?_
    cases hget
    split
    · exact trivial
    · exact (Nesting.stems_ofExcept isNew_of _).bind fun _ _ _ => trivial

theorem stems_stmt {s : Stmt} (ha : a.Sound) (hs : ∀ p label, s ≠ .unknown p label) :
    Stems (IsOwn ⟨.statement s, a⟩) ⟨.statement s, a⟩ (stmt s) a := by
  cases s with
  | expression p e =>
    exact Stems.placed ((stems_expression _ (.leading rfl)).bind fun _ _ _ => trivial) rfl
  | declare d =>
    have hbinding : Stems IsNew ⟨.statement (.declare d), a⟩ (binding d) a :=
      stems_binding fun _ _ he htype => .declared he htype
    exact Stems.placed (hbinding.bind fun _ _ _ => trivial) rfl
  | assign p target e =>
    refine Stems.placed ?_ rfl
    unfold assignment
    split
    · rename_i htarget
      refine (stems_expression _ (.target htarget)).bind fun typed b hb => ?_
      refine (stems_expression _ (.value htarget hb)).bind fun _ _ _ => ?_
      exact (Nesting.stems_ofExcept isNew_of _).bind fun _ _ _ => trivial
    · exact Nesting.stems_throw (isNew_of _)
  | conditional p e thenBody elseBody =>
    refine Stems.placed ((stems_condition (.leading rfl)).bind fun typed b he => ?_) rfl
    have hb := sound_of_inert (inert_condition _) he ha
    refine (stems_requireBody .IF thenBody).bind fun _ c hrequire => ?_
    obtain ⟨rfl, hbody⟩ := requireBody_eq_ok hrequire
    refine (stems_block hb (.thenBody he hbody)).bind fun _ d hthen => ?_
    have hkeeps := careful_inScope (upholds_careful.keeps_block thenBody)
    have hd := sound_of_keeps (keeps_leaving hkeeps) hthen hb
    exact (stems_block hd (.elseBody he hbody hthen)).bind fun _ _ _ => trivial
  | forLoop p name e body =>
    refine Stems.placed ((stems_expression _ (.leading rfl)).bind fun typed b he => ?_) rfl
    have hb := sound_of_inert (inert_expr _) he ha
    refine (Nesting.stems_ofExcept isNew_of _).bind fun _ c hfits => ?_
    obtain ⟨rfl, htype⟩ := ofExcept_eq_ok hfits
    refine (stems_requireBody .FOR body).bind fun _ d hrequire => ?_
    obtain ⟨rfl, hbody⟩ := requireBody_eq_ok hrequire
    have hkeeps := keeps_steps (upholds_careful.keeps_round name body)
    refine Nesting.Stems.bind (Nesting.Stems.inScope hb hkeeps ?_) fun _ _ _ => trivial
    refine Nesting.Stems.bind trivial fun _ u hdefine => ?_
    have hround := Begins.round (p := p) he htype hbody hdefine
    exact (Nesting.stems_part hround rfl).bind fun _ _ _ => trivial
  | whileLoop p e body =>
    refine Stems.placed ((stems_condition (.leading rfl)).bind fun typed b he => ?_) rfl
    have hb := sound_of_inert (inert_condition _) he ha
    exact (stems_block hb (.turn he)).bind fun _ _ _ => trivial
  | ret p e => exact Stems.placed (stems_returned p e) rfl
  | unknown p label => exact absurd rfl (hs p label)

theorem stems_stmts (ss : List Stmt) : Stems E ⟨.statements ss, a⟩ (stmts ss) a := by
  cases ss with
  | nil => trivial
  | cons s ss =>
    refine Nesting.Stems.bind (Nesting.stems_part .statement rfl) fun typed b hs => ?_
    exact Nesting.Stems.bind (Nesting.stems_part (.nextStatement hs) rfl) fun _ _ _ => trivial

/-! ### Programs -/

theorem stems_field (d : Binding) : Stems (IsOwn ⟨.field d, a⟩) ⟨.field d, a⟩ (Check.field d) a :=
  Stems.placed (stems_binding fun _ _ he htype => .initial he htype) rfl

theorem stems_fields (ds : List Binding) :
    Stems E ⟨.fields ds, a⟩ (ds.mapM Check.field) a := by
  cases ds with
  | nil => trivial
  | cons d ds =>
    exact Nesting.Stems.mapM_cons (Nesting.stems_part .field rfl) fun typed b hd =>
      Nesting.stems_part (.nextField hd) rfl

/-- Of a method only the signature fails by itself. -/
theorem stems_method {m : Method} (ha : a.Sound) :
    Stems (IsOwn ⟨.method m, a⟩) ⟨.method m, a⟩ (Check.method m) a := by
  refine Nesting.Stems.bind (Stems.placed (Nesting.stems_ask isNew_of) rfl) ?_
  rintro ⟨types, returns⟩ b hsignature
  obtain ⟨rfl, hsignature⟩ := ask_eq_ok (locate_eq_ok.mp hsignature)
  obtain ⟨_, htypes, hrest⟩ := Store.bind_eq_ok.mp hsignature
  obtain ⟨_, hreturns, hpure⟩ := Store.bind_eq_ok.mp hrest
  cases hpure
  let c := methodStart b m types returns
  change Stems _ _ (checkBody m types ⟨b.store.functions.size⟩ b.own) c
  have hbody : Stems (IsOwn ⟨.method m, b⟩) ⟨.method m, b⟩ (do
      let slots ← defineParams m.params types
      return (slots, ← stmts m.body)) (c.enterFrame c.scope) := by
    refine Nesting.Stems.bind (ends_defineParams _ _ _ |>.imp (fun _ _ _ => trivial) nofun) ?_
    intro slots d hslots
    obtain ⟨slots', hslots'⟩ := exists_defineParams m.params types (c.enterFrame c.scope)
    cases hslots.symm.trans hslots'
    exact Nesting.Stems.bind (Nesting.stems_part (.body htypes hreturns) rfl) fun _ _ _ => trivial
  have hscope := Nesting.Stems.inScope (sound_methodStart ha m types returns)
    (keeps_steps (upholds_careful.keeps_body m types)) hbody
  refine Nesting.Stems.bind (stems_ensuring hscope) fun _ d _ => ?_
  refine Nesting.Stems.bind trivial fun _ o _ => ?_
  split <;> exact trivial

theorem stems_methods (ms : List Method) :
    Stems E ⟨.methods ms, a⟩ (ms.mapM Check.method) a := by
  cases ms with
  | nil => trivial
  | cons m ms =>
    exact Nesting.Stems.mapM_cons (Nesting.stems_part .method rfl) fun typed b hm =>
      Nesting.stems_part (.nextMethod hm) rfl

theorem stems_entryPoint (p : Program) (b : Analysis) :
    Stems (IsOwn ⟨.program p, a⟩) ⟨.program p, a⟩ entryPoint b := by
  refine Nesting.Stems.bind trivial fun c d _ => ?_
  dsimp only
  split
  · exact Nesting.stems_throw ⟨_, rfl, fun _ => rfl⟩
  · split
    · exact trivial
    · exact Nesting.stems_throw ⟨_, rfl, fun _ => rfl⟩

theorem stems_program (p : Program) :
    Stems (IsOwn ⟨.program p, a⟩) ⟨.program p, a⟩ (program p) a := by
  refine Nesting.Stems.bind (Nesting.stems_part .fields rfl) fun fields b hfields => ?_
  refine Nesting.Stems.bind (Nesting.stems_part (.methods hfields) rfl) fun methods c _ => ?_
  exact (stems_entryPoint p c).bind fun _ _ _ => trivial

end

/-- A visit fails by itself, or because a visit that it has begun has failed, or at a node that no
text has. -/
theorem arises (hv : v.state.Sound) (h : v.failure? = some e) :
    v.IsOwn e ∨ (∃ w, v.Begins w ∧ w.failure?.isSome) ∨ ∃ m, e = .misuse m ∧ ¬ v.IsWellFormed := by
  obtain ⟨item, a⟩ := v
  cases item with
  | program p => exact ((stems_program p).of_fails h).imp_right .inl
  | fields ds => exact ((stems_fields ds).of_fails h).imp_right .inl
  | field d => exact ((stems_field d).of_fails h).imp_right .inl
  | methods ms => exact ((stems_methods ms).of_fails h).imp_right .inl
  | method m => exact ((stems_method hv).of_fails h).imp_right .inl
  | statements ss => exact ((stems_stmts ss).of_fails h).imp_right .inl
  | statement s =>
    cases s with
    | unknown p label =>
      cases h
      exact .inr (.inr ⟨_, rfl, id⟩)
    | _ => exact ((stems_stmt hv (by simp)).of_fails h).imp_right .inl
  | arguments params es => exact ((stems_arguments params es).of_fails h).imp_right .inl
  | argument e type param =>
    have hfits : Stems (IsOwn ⟨.argument e type param, a⟩) ⟨.argument e type param, a⟩
        (locate e.position (ofExcept (param.requireAssignable type))) a :=
      Stems.placed (Nesting.stems_ofExcept isNew_of _) rfl
    exact (hfits.of_fails h).imp_right .inl
  | expression e =>
    cases e with
    | unknown p label =>
      cases h
      exact .inr (.inr ⟨_, rfl, id⟩)
    | _ => exact ((stems_expr (by simp)).of_fails h).imp_right .inl

theorem lawful_nesting : nesting.Lawful fun v => v.state.Sound where
  wellFounded := Subrelation.wf (fun h => size_lt_of_begins h) (measure size).wf
  valid := sound_of_begins
  propagates := propagates
  arises {v d} hv h := by
    obtain ⟨c, hd, -⟩ | hinner | ⟨m, hm, -⟩ := arises hv h
    · refine .inl ?_
      cases hplace : v.place? with
      | none =>
        rw [hplace] at hd
        cases hd
        exact hplace.symm
      | some p =>
        rw [hplace] at hd
        cases hd
        exact hplace.symm
    · exact .inr hinner
    · cases hm

/-- Unless the program has no proper entry point, a node has failed. -/
theorem exists_placed {d : Diagnostic} (hv : v.state.Sound)
    (h : v.failure? = some (.diagnostic d)) (hd : d.cause.family ≠ .missingEntryPoint) :
    ∃ w, nesting.Includes v w ∧ w.place?.isSome ∧ w.failure?.isSome := by
  induction v using lawful_nesting.wellFounded.induction generalizing d with
  | _ v ih =>
    cases hplace : v.place? with
    | some p => exact ⟨v, .refl, Option.isSome_of_eq_some hplace, Option.isSome_of_eq_some h⟩
    | none =>
      obtain ⟨c, hown, hfamily⟩ | ⟨w, hvw, hw⟩ | ⟨m, hm, -⟩ := arises hv h
      · rw [hplace] at hown
        cases hown
        exact absurd (hfamily hplace) hd
      · -- Without a place of its own, the visit hands on what has failed inside as it is.
        obtain ⟨e, he⟩ := Option.isSome_iff_exists.mp hw
        have hsame := propagates hvw hv he
        rw [h, hplace, Option.some_inj] at hsame
        subst hsame
        obtain ⟨u, hwu, hu⟩ := ih w hvw (sound_of_begins hvw hv) he hd
        exact ⟨u, .head hvw hwu, hu⟩
      · cases hm

/-- On what is written in the language, the analysis fails with diagnostics only. -/
theorem diagnostic_or_misuse (hv : v.state.Sound) (h : v.failure? = some e) :
    (∃ d, e = .diagnostic d) ∨ ∃ m, e = .misuse m ∧ ¬ v.IsWellFormed := by
  induction v using lawful_nesting.wellFounded.induction generalizing e with
  | _ v ih =>
    obtain ⟨c, rfl, -⟩ | ⟨w, hvw, hw⟩ | hm := arises hv h
    · cases v.place? <;> exact .inl ⟨_, rfl⟩
    · obtain ⟨e', he⟩ := Option.isSome_iff_exists.mp hw
      have hsame := propagates hvw hv he
      rw [h, Option.some_inj] at hsame
      subst hsame
      obtain ⟨d, rfl⟩ | ⟨m, rfl, hm⟩ := ih w hvw (sound_of_begins hvw hv) he
      · cases v.place? <;> exact .inl ⟨_, rfl⟩
      · refine .inr ⟨m, ?_, fun hwell => hm (isWellFormed_of_begins hvw hwell)⟩
        cases v.place? <;> rfl
    · exact .inr hm

end Visit

end BlockScript
