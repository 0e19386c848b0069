import BlockScript.Proofs.Execution.Walk

/-!
# What a run prints

A run prints the texts of the calls of `print` that are part of it, in the order in which they
begin, and nothing else. Whatever happens later, failures included, what has been printed stays
printed.
-/

namespace BlockScript

open Attempt Pass Run

namespace Event

variable {log : List Event}

theorem output_printed (text : String) : output (.printed text :: log) = output log ++ [text] := by
  simp [output]

theorem output_note {event : Event} (h : ∀ text, event ≠ .printed text) :
    output (event :: log) = output log := by
  cases event with
  | printed text => exact absurd rfl (h text)
  | _ => simp [output]

end Event

namespace Pass

/-- What has been printed so far. -/
def printed (m : Machine) : List String := Event.output m.log

theorem prefix_of_printed_eq {m n : Machine} (h : n.printed = m.printed) :
    m.printed <+: n.printed :=
  h ▸ List.prefix_rfl

end Pass

namespace Activity

variable {a b : Activity} {lines lines' : List String} {m n : Machine}

/-- The lines are those that were printed before the activity and those that are printed in it, in
order: each call that prints adds its text to what has been printed when it begins, and nothing else
adds to that. -/
structure Transcript (a : Activity) (lines : List String) : Prop where
  start : a.machine.printed <+: lines
  complete : ∀ b text, a.Includes b → b.Prints text → b.machine.printed ++ [text] <+: lines
  sound : ∀ before text, a.machine.printed <+: before → before ++ [text] <+: lines →
    ∃ b, a.Includes b ∧ b.Prints text ∧ b.machine.printed = before

theorem Transcript.isPrefix (h : a.Transcript lines) (h' : a.Transcript lines') :
    lines <+: lines' := by
  rcases List.eq_nil_or_concat lines with rfl | ⟨before, text, hlines⟩
  · exact List.nil_prefix
  · rw [List.concat_eq_append] at hlines
    subst hlines
    rcases List.prefix_concat_iff.mp h.start with hstart | hstart
    · exact hstart ▸ h'.start
    · obtain ⟨b, hab, hb, rfl⟩ := h.sound before text hstart (List.prefix_refl _)
      exact h'.complete b text hab hb

/-- What an activity prints is determined by the calls in it. -/
theorem Transcript.unique (h : a.Transcript lines) (h' : a.Transcript lines') : lines = lines' :=
  (h.isPrefix h').eq_of_length_le (h'.isPrefix h).length_le

/-! ## Nothing but what calls print -/

/-- What has been printed on the way from `m` to `n` has been printed by calls in the activity. -/
structure Adds (a : Activity) (m n : Machine) : Prop where
  start : m.printed <+: n.printed
  sound : ∀ before text, m.printed <+: before → before ++ [text] <+: n.printed →
    ∃ b, a.Includes b ∧ b.Prints text ∧ b.machine.printed = before

theorem Adds.of_eq (h : n.printed = m.printed) : a.Adds m n := by
  refine ⟨prefix_of_printed_eq h, fun before text hbefore htext => ?_⟩
  have hlength := (htext.trans (h ▸ hbefore)).length_le
  rw [List.length_append, List.length_singleton] at hlength
  exact absurd hlength (Nat.not_succ_le_self _)

theorem Adds.trans {o : Machine} (hmn : a.Adds m n) (hno : a.Adds n o) : a.Adds m o := by
  refine ⟨hmn.start.trans hno.start, fun before text hbefore htext => ?_⟩
  rcases List.prefix_or_prefix_of_prefix htext hno.start with hn | hn
  · exact hmn.sound before text hbefore hn
  · rcases List.prefix_concat_iff.mp hn with heq | hn
    · exact hmn.sound before text hbefore (heq ▸ List.prefix_refl _)
    · exact hno.sound before text hn htext

theorem Adds.part (h : b.Adds m n) (hab : a.Begins b) : a.Adds m n := by
  refine ⟨h.start, fun before text hbefore htext => ?_⟩
  obtain ⟨c, hbc, hc, rfl⟩ := h.sound before text hbefore htext
  exact ⟨c, hbc.head hab, hc, rfl⟩

theorem Adds.print {text : String} (ha : a.Prints text) :
    a.Adds a.machine { a.machine with log := .printed text :: a.machine.log } := by
  have hprinted : printed { a.machine with log := .printed text :: a.machine.log } =
      a.machine.printed ++ [text] := Event.output_printed text
  refine ⟨hprinted ▸ List.prefix_append _ _, fun before other hbefore hother => ?_⟩
  rw [hprinted] at hother
  have hlength := hother.length_le
  simp only [List.length_append, List.length_singleton, Nat.add_le_add_iff_right] at hlength
  obtain rfl := hbefore.eq_of_length_le hlength
  obtain rfl := List.singleton_inj.mp (List.append_cancel_left (hother.eq_of_length (by simp)))
  exact ⟨a, .refl, ha, rfl⟩

theorem accounts_adds : Accounts Adds where
  still _ hlog := .of_eq (congrArg Event.output hlog)
  trans hmn hno := hmn.trans hno
  part hab h := h.part hab
  frame _ hlog := .of_eq (congrArg Event.output hlog)
  slot _ _ _ := .of_eq rfl
  function _ _ _ _ _ := .of_eq rfl
  assign _ _ := .of_eq rfl
  note _ _ _ hevent := .of_eq (Event.output_note hevent)
  print ha := .print ha

end Activity

/-! ## All that calls print -/

namespace Run

variable {α β : Type} {x : Run α} {m n : Machine} {lines : List String} {k : Nat}

theorem accounts_printed : Activity.Accounts fun _ m n => m.printed <+: n.printed where
  still _ hlog := prefix_of_printed_eq (congrArg Event.output hlog)
  trans hmn hno := hmn.trans hno
  part _ h := h
  frame _ hlog := prefix_of_printed_eq (congrArg Event.output hlog)
  slot _ _ _ := List.prefix_refl _
  function _ _ _ _ _ := List.prefix_refl _
  assign _ _ := List.prefix_refl _
  note _ _ _ hevent := prefix_of_printed_eq (Event.output_note hevent)
  print ha := (Activity.Adds.print ha).start

/-- However the run ends, it adds to what was printed before it. -/
abbrev Adds (x : Run α) (m : Machine) : Prop := Walks (fun m n => m.printed <+: n.printed) x m

/-- However the run ends, the lines have been printed by then. -/
def Shows (lines : List String) (x : Run α) (m : Machine) : Prop :=
  Walks (fun _ n => lines <+: n.printed) x m

theorem Shows.bind {f : α → Run β} (h : Shows lines x m)
    (hf : ∀ r n, x m = .ok r n → n.Sound → Adds (f r) n) : Shows lines (x >>= f) m := by
  refine ends_bind.mpr ((Ends.with_run h).imp ?_ fun _ _ hn => hn.1)
  rintro r n ⟨⟨hsound, hlines⟩, hrun⟩
  have hshows : Shows lines (f r) n := (hf r n hrun hsound).mono fun _ hno => hlines.trans hno
  exact hshows

theorem Shows.locate {p : Position} (h : Shows lines x m) : Shows lines (locate p x) m :=
  Walks.locate h

theorem shows_bind {f : α → Run β} {r : α} (hx : x m = .ok r n) (h : Shows lines (f r) n) :
    Shows lines (x >>= f) m :=
  ends_bind.mpr ((ends_eq_ok hx).mpr h)

theorem Shows.backTo {y : Run α} {parent : FrameId} (h : Shows lines y n) (hm : m.Sound)
    (hn : n.Sound) (hstore : n.store = (m.store.createFrame (some parent)).2)
    (hscope : n.scope = ⟨m.store.frames.size⟩) (hkeeps : Keeps (Steps true) y)
    (hrun : x m = m.backTo (y n)) : Shows lines x m := by
  have hleave (o : Machine) (ho : (o.Sound ∧ lines <+: o.printed) ∧ Steps true n o) :
      (m.leave o).Sound ∧ lines <+: (m.leave o).printed :=
    ⟨(Evolves.leave hm hstore hscope (ho.2 hn)).sound, ho.1.2⟩
  refine (ends_backTo hrun).mpr ((Ends.and_keeps h hkeeps).imp ?_ ?_)
  · exact fun _ o ho => hleave o ho
  · exact fun _ o ho => hleave o ho

theorem Shows.inScope (h : Shows lines x (m.enterFrame m.scope)) (hm : m.Sound)
    (hkeeps : Keeps (Steps true) x) : Shows lines (inScope x) m :=
  h.backTo hm (hm.enterFrame hm.scope) rfl rfl hkeeps (inScope_eq hm hkeeps)

theorem lookupMethod_of_found {receiver : Value} {name : String} {arguments : Nat} {f : FunctionId}
    (h : m.store.findMethod? receiver.type name arguments = some f) :
    lookupMethod receiver name arguments m = .ok f m :=
  ask_of_ok (by rw [h])

/-! ### What follows a part adds to what it has printed -/

section

/-- Nothing depends on the activity here. -/
private def anywhere (m : Machine) : Activity := ⟨0, .statements [], m⟩

theorem adds_inert (hx : Inert x) (hm : m.Sound) : Adds x m :=
  walks_inert accounts_printed (a := anywhere m) hx hm

theorem adds_pure (r : α) (hm : m.Sound) : Adds (pure r) m := adds_inert (inert_pure r) hm

theorem Adds.bind {f : α → Run β} (hx : Adds x m)
    (hf : ∀ r n, x m = .ok r n → n.Sound → Adds (f r) n) : Adds (x >>= f) m :=
  Walks.bind accounts_printed (a := anywhere m) hx hf

theorem adds_define (name : String) (type : Ty) (value : Option Value) (hm : m.Sound) :
    Adds (define name type value) m :=
  walks_define accounts_printed (a := anywhere m) name type value hm

theorem adds_calls (k : Nat) : WalksCalls (fun _ m n => m.printed <+: n.printed) k :=
  walks_calls accounts_printed k

theorem adds_expr (e : Expr) (hm : m.Sound) : Adds (expr (invoke k) e) m :=
  walks_expr accounts_printed (adds_calls k) e m hm

theorem adds_exprs (es : List Expr) (hm : m.Sound) : Adds (exprs (invoke k) es) m :=
  walks_exprs accounts_printed (fun e _ => walks_expr accounts_printed (adds_calls k) e) hm

theorem adds_stmt (s : Stmt) : WalksStmt (fun _ m n => m.printed <+: n.printed) k s :=
  walks_stmt accounts_printed (adds_calls k) s

theorem adds_stmts (ss : List Stmt) (hm : m.Sound) : Adds (stmts (invoke k) k ss) m :=
  walks_stmts accounts_printed (fun s _ => adds_stmt s) hm

theorem adds_block (ss : List Stmt) (hm : m.Sound) : Adds (inScope (stmts (invoke k) k ss)) m :=
  walks_inScope accounts_printed (a := anywhere m) hm (keeps_body k ss)
    (adds_stmts ss (hm.enterFrame hm.scope))

theorem adds_rounds (name : String) (body : List Stmt) (count : Nat) (i : Int) (hm : m.Sound) :
    Adds (forLoop (round k name body) count i) m :=
  walks_rounds accounts_printed (fun s _ => adds_stmt s) name count i hm

theorem adds_turns (e : Expr) (body : List Stmt) (left : Nat) (hm : m.Sound) :
    Adds (whileLoop (condition (invoke k) e) (inScope (stmts (invoke k) k body)) left) m :=
  walks_turns accounts_printed (fun s _ => adds_stmt s) (adds_calls k) e left hm

theorem adds_condition (e : Expr) (hm : m.Sound) : Adds (condition (invoke k) e) m :=
  walks_condition accounts_printed (adds_calls k) e hm

theorem adds_methods (ds : List Method) (hm : m.Sound) : Adds (ds.forM defineMethod) m :=
  walks_defineMethods accounts_printed (a := anywhere m) ds hm

theorem adds_note (event : Event) (hm : m.Sound) : Adds (note event) m := by
  refine ⟨⟨hm.store, hm.scope⟩, ?_⟩
  change Event.output m.log <+: Event.output (event :: m.log)
  cases event with
  | printed text =>
    rw [Event.output_printed]
    exact List.prefix_append _ _
  | _ => exact prefix_of_printed_eq (m := m) (n := { m with log := _ }) (Event.output_note nofun)

theorem adds_fields (bs : List Binding) (hm : m.Sound) : Adds (bs.forM (makeField k)) m :=
  walks_fields accounts_printed bs hm

/-- How a statement goes on after its body has ended in one way or the other. -/
theorem adds_completion {next : Run α} {returned : Value → Run α} {completion : Completion}
    (hnext : Adds next m) (hreturned : ∀ value, Adds (returned value) m) :
    Adds (match completion with
      | .next => next
      | .returned value => returned value) m := by
  cases completion with
  | next => exact hnext
  | returned value => exact hreturned value

end

end Run

/-! ## The parts of an activity -/

open Run

/-- The lines have been printed when the activity ends, however it ends. -/
def Activity.Shows (lines : List String) : Activity → Prop
  | ⟨k, .program p, m⟩ => Run.Shows lines (program k p) m
  | ⟨k, .fields bs, m⟩ => Run.Shows lines (bs.forM (makeField k)) m
  | ⟨k, .call f args, m⟩ => Run.Shows lines (invoke k f args) m
  | ⟨k, .statements ss, m⟩ => Run.Shows lines (stmts (invoke k) k ss) m
  | ⟨k, .statement s, m⟩ => Run.Shows lines (stmt (invoke k) k s) m
  | ⟨k, .rounds name body count i, m⟩ => Run.Shows lines (forLoop (round k name body) count i) m
  | ⟨k, .turns e body left, m⟩ =>
    Run.Shows lines (whileLoop (condition (invoke k) e) (inScope (stmts (invoke k) k body)) left) m
  | ⟨k, .expressions es, m⟩ => Run.Shows lines (exprs (invoke k) es) m
  | ⟨k, .expression e, m⟩ => Run.Shows lines (expr (invoke k) e) m

namespace Activity

variable {lines : List String} {k : Nat} {m n : Machine}

theorem shows_condition {e : Expr} (h : Run.Shows lines (expr (invoke k) e) m) :
    Run.Shows lines (condition (invoke k) e) m := by
  refine h.bind fun v n _ hn => ?_
  cases v with
  | boolean b => exact adds_pure b hn
  | _ => exact adds_inert (inert_fail _) hn

theorem shows_initial {b : Binding} {e : Expr} (he : b.value = some e)
    (h : Run.Shows lines (expr (invoke k) e) m) : Run.Shows lines (initial (invoke k) b) m := by
  unfold initial
  rw [he]
  exact h.bind fun value n _ hn =>
    adds_inert ((inert_declaredType b.type value).bind fun _ => inert_pure _) hn

theorem shows_operand {s : Stmt} {e : Expr} (he : s.operand? = some e)
    (h : Run.Shows lines (expr (invoke k) e) m) : Run.Shows lines (stmt (invoke k) k s) m := by
  cases s with
  | expression p e =>
    cases he
    exact (h.bind fun _ n _ hn => adds_pure _ hn).locate
  | declare b =>
    have hdeclare : Run.Shows lines (declare (invoke k) b) m :=
      (shows_initial he h).bind fun _ n _ hn =>
        (adds_define _ _ _ hn).bind fun _ o _ ho => adds_pure _ ho
    exact (hdeclare.bind fun _ n _ hn => adds_pure _ hn).locate
  | assign p target value =>
    cases target with
    | member q receiver id =>
      cases he
      have htarget : Run.Shows lines (target (invoke k) (.member q e id)) m :=
        h.bind fun v n _ hn => adds_inert (inert_field id v) hn
      have hassign : Run.Shows lines (assign (invoke k) (.member q e id) value) m :=
        htarget.bind fun v n _ hn => (adds_expr value hn).bind fun w o _ ho =>
          ⟨ho.assign v w, List.prefix_refl _⟩
      exact (hassign.bind fun _ o _ ho => adds_pure _ ho).locate
    | _ => cases he
  | conditional p e thenBody elseBody =>
    cases he
    refine ((shows_condition h).bind fun b n _ hn => ?_).locate
    cases b with
    | true => exact adds_block thenBody hn
    | false => exact adds_block elseBody hn
  | forLoop p name e body =>
    cases he
    refine (h.bind fun v n _ hn => ?_).locate
    cases v with
    | range start stop => exact adds_rounds name body _ _ hn
    | _ => exact adds_inert (inert_fail _) hn
  | ret p e =>
    cases he
    exact (h.bind fun _ n _ hn => adds_pure _ hn).locate
  | _ => cases he

/-- The first of some expressions, and then the others. -/
theorem shows_exprs_cons {e : Expr} {es : List Expr} :
    Run.Shows lines (exprs (invoke k) (e :: es)) m ↔
      Ends (expr (invoke k) e) m (fun _ n => Run.Shows lines (exprs (invoke k) es) n) fun _ n =>
        n.Sound ∧ lines <+: n.printed := by
  unfold Run.Shows Walks
  rw [exprs, ends_bind]
  simp only [ends_bind, ends_pure]

theorem shows_exprs_singleton {e : Expr} :
    Run.Shows lines (exprs (invoke k) [e]) m ↔ Run.Shows lines (expr (invoke k) e) m :=
  shows_exprs_cons

theorem shows_operands {e : Expr} (h : Run.Shows lines (exprs (invoke k) e.operands) m)
    (hm : m.Sound) : Run.Shows lines (expr (invoke k) e) m := by
  cases e with
  | group p inner => exact shows_exprs_singleton.mp h
  | binary p op left right =>
    rw [Expr.operands] at h
    rw [expr]
    cases hop : decisive? op with
    | some decisive =>
      rw [hop] at h
      refine (shows_exprs_singleton.mp h).bind fun v n _ hn => ?_
      refine (adds_inert (inert_logical op v) hn).bind fun a o _ ho => ?_
      split
      · exact adds_pure _ ho
      · exact (adds_expr right ho).bind fun w u _ hu =>
          (adds_inert (inert_logical op w) hu).bind fun _ _ _ hq => adds_pure _ hq
    | none =>
      rw [hop] at h
      refine ends_bind.mpr ((shows_exprs_cons.mp h).imp ?_ fun _ _ hn => hn)
      intro v n hright
      exact (shows_exprs_singleton.mp hright).bind fun w o _ ho => adds_inert (inert_ofExcept _) ho
  | member p receiver id =>
    exact (shows_exprs_singleton.mp h).bind fun v n _ hn =>
      (adds_inert (inert_field id v) hn).bind fun v o _ ho => adds_inert (inert_read v) ho
  | call p id arguments =>
    exact Run.Shows.bind h fun args n _ hn => (adds_inert (inert_ask _) hn).bind fun f o _ ho =>
      adds_calls k f args o ho
  | methodCall p receiver id arguments =>
    refine ends_bind.mpr ((shows_exprs_cons.mp h).imp ?_ fun _ _ hn => hn)
    intro v n harguments
    exact Run.Shows.bind harguments fun args o _ ho =>
      (adds_inert (inert_ask _) ho).bind fun f u _ hu => adds_calls k f (v :: args) u hu
  | literal | name | unknown => exact (adds_expr _ hm).mono fun _ hmn => h.2.trans hmn

variable {a b : Activity}

/-- What a part of an activity prints, the activity prints. -/
theorem Begins.shows (hab : a.Begins b) (ha : a.machine.Sound) (h : b.Shows lines) :
    a.Shows lines := by
  cases hab with
  | @fields k p m =>
    refine Run.Shows.bind h fun _ n _ hn => ?_
    refine Run.Adds.bind (adds_methods _ hn) fun _ o _ ho => ?_
    refine (adds_inert (inert_ask _) ho).bind fun f u _ hu => ?_
    exact (adds_note _ hu).bind fun _ q _ hq => adds_calls k f [] q hq
  | main hfields hmethods hmain =>
    exact shows_bind hfields (shows_bind hmethods (shows_bind (ask_of_ok hmain) h))
  | @field k b bs m e he =>
    have hfield : Run.Shows lines (makeField k b) m :=
      (shows_initial he h).locate.bind fun _ n _ hn =>
        (adds_define _ _ _ hn).bind fun _ o _ ho => adds_pure _ ho
    exact hfield.bind fun _ n _ hn => adds_fields bs hn
  | @nextField k b bs m n hb => exact shows_bind (f := fun _ => bs.forM (makeField k)) hb h
  | @body k f args m n d closure hf hdepth hparams =>
    let q : Machine := { m with log := .calling d.name args.length :: m.log }
    have hq : q.Sound := ⟨ha.store, ha.scope⟩
    have hclosure : q.store.Has closure := ha.store.closures f d closure hf
    have henter := sound_enterCall hq hclosure
    have hinside := keeps_callBody (keeps_body k) d (m.store.function f).params args
    have hbody := (shows_bind (f := fun _ => stmts (invoke k) k d.body) hparams h).backTo hq henter
      rfl rfl hinside (inCall_eq hq hclosure hinside)
    have hcall : Run.Shows lines
        (method (stmts (invoke k) k) d closure (m.store.function f).params args) q :=
      hbody.bind fun completion o _ ho =>
        adds_completion (adds_pure Value.nil ho) fun value => adds_pure value ho
    change Run.Shows lines (dispatch (stmts (invoke k) k) f args) m
    unfold Run.Shows Walks Ends
    rw [dispatch_method hf args, if_neg hdepth]
    exact hcall
  | @statement k s ss m =>
    refine Run.Shows.bind h fun completion n _ hn => ?_
    exact adds_completion (adds_stmts ss hn) fun value => adds_pure _ hn
  | @nextStatement k s ss m n hs =>
    change Run.Shows lines (stmts (invoke k) k (s :: ss)) m
    rw [stmts]
    exact shows_bind hs h
  | operand he => exact shows_operand he h
  | @value k p receiver e m n v hv =>
    have hassign : Run.Shows lines (assign (invoke k) receiver e) m :=
      shows_bind hv (Run.Shows.bind h fun w o _ ho => ⟨ho.assign v w, List.prefix_refl _⟩)
    exact (hassign.bind fun _ o _ ho => adds_pure _ ho).locate
  | @branch k p e thenBody elseBody m n b hb =>
    have hn := ((adds_condition e ha).of_ok hb).1
    refine (shows_bind hb ?_).locate
    cases b with
    | true => exact Run.Shows.inScope h hn (keeps_body k thenBody)
    | false => exact Run.Shows.inScope h hn (keeps_body k elseBody)
  | rounds he =>
    refine Run.Shows.locate (shows_bind he ?_)
    exact h
  | @round k name body count i m n v hv =>
    have hbody := shows_bind (f := fun _ => stmts (invoke k) k body) hv h
    have hround : Run.Shows lines (Run.round k name body i) m :=
      hbody.inScope ha (keeps_inRound k name body i)
    exact hround.bind fun completion n _ hn =>
      adds_completion (adds_rounds name body count (i + 1) hn) fun value => adds_pure _ hn
  | @nextRound k name body count i m n hi =>
    change Run.Shows lines (forLoop (Run.round k name body) (count + 1) i) m
    rw [forLoop]
    exact shows_bind hi h
  | turns => exact Run.Shows.locate h
  | @test k e body left m =>
    refine (shows_condition h).bind fun b n _ hn => ?_
    cases b with
    | false => exact adds_pure _ hn
    | true =>
      exact (adds_block body hn).bind fun completion o _ ho =>
        adds_completion (adds_turns e body left ho) fun value => adds_pure _ ho
  | @turn k e body left m n he =>
    have hn := ((adds_condition e ha).of_ok he).1
    refine shows_bind he ?_
    exact (Run.Shows.inScope h hn (keeps_body k body)).bind fun completion o _ ho =>
      adds_completion (adds_turns e body left ho) fun value => adds_pure _ ho
  | nextTurn he hbody => exact shows_bind he (shows_bind hbody h)
  | @expression k e es m =>
    refine Run.Shows.bind h fun v n _ hn => ?_
    exact (adds_exprs es hn).bind fun _ o _ ho => adds_pure _ ho
  | nextExpression he =>
    refine shows_bind he ?_
    exact Run.Shows.bind h fun _ o _ ho => adds_pure _ ho
  | operands hes =>
    subst hes
    exact shows_operands h ha
  | @right k p op left right m n a b hop hleft hab =>
    change Run.Shows lines (expr (invoke k) (.binary p op left right)) m
    rw [expr, hop]
    refine shows_bind hleft (shows_bind (r := a) rfl ?_)
    rw [if_neg hab]
    exact Run.Shows.bind h fun w u _ hu =>
      (adds_inert (inert_logical op w) hu).bind fun _ _ _ hq => adds_pure _ hq
  | call hargs hf => exact shows_bind hargs (shows_bind (ask_of_ok hf) h)
  | methodCall hv hargs hf =>
    exact shows_bind hv (shows_bind hargs (shows_bind (lookupMethod_of_found hf) h))

theorem Includes.shows (hab : a.Includes b) (ha : a.machine.Sound)
    (hb : b.machine.Sound → b.Shows lines) : a.Shows lines := by
  induction hab using Relation.ReflTransGen.head_induction_on with
  | refl => exact hb ha
  | head hac _ ih => exact hac.shows ha (ih (accounts_printed.begins hac ha).1)

theorem Prints.shows {text : String} (h : b.Prints text) (hb : b.machine.Sound) :
    b.Shows (b.machine.printed ++ [text]) := by
  obtain ⟨args, hf⟩ := h
  rename_i k f m
  change Run.Shows _ (invoke k f args) m
  unfold Run.Shows Walks Ends
  rw [invoke_eq, dispatch_print hf args]
  exact ⟨⟨hb.store, hb.scope⟩, Event.output_printed _ ▸ List.prefix_rfl⟩

end Activity

/-- What a program has printed when its run ends, in success or failure, is what the calls of
`print` in it print, in order. -/
theorem Run.transcript_program {k : Nat} {m : Machine} (p : Program) (hm : m.Sound) :
    Ends (program k p) m (fun _ n => Activity.Transcript ⟨k, .program p, m⟩ n.printed) fun _ n =>
      Activity.Transcript ⟨k, .program p, m⟩ n.printed := by
  have hshows {b : Activity} {text : String} (hab : Activity.Includes ⟨k, .program p, m⟩ b)
      (hb : b.Prints text) : Shows (b.machine.printed ++ [text]) (program k p) m :=
    hab.shows hm hb.shows
  refine (Ends.with_run (walks_program Activity.accounts_adds p hm)).imp ?_ ?_
  · rintro _ n ⟨⟨-, hadds⟩, hrun⟩
    exact ⟨hadds.start, fun _ _ hab hb => ((hshows hab hb).of_ok hrun).2, hadds.sound⟩
  · rintro _ n ⟨⟨-, hadds⟩, hrun⟩
    exact ⟨hadds.start, fun _ _ hab hb => ((hshows hab hb).of_error hrun).2, hadds.sound⟩

end BlockScript
