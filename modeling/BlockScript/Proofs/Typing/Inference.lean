import BlockScript.Proofs.Soundness.Conditions
import BlockScript.Proofs.Soundness.Programs
import BlockScript.Proofs.Typing.Sparing

/-!
# Return types and the types of calls

The return type of a method that declares none is the type of the first value that the text of its
body returns. A call has the return type of the function that it goes to, and only while that of the
method around it is open it may be anything.
-/

namespace BlockScript

namespace TypedStmt

mutual

/-- The type of the first value that a statement returns, in the order of the text. -/
def firstReturn? : TypedStmt → Option Ty
  | .ret _ value => some value.type
  | .conditional _ _ thenBody elseBody => (firstReturnOf? thenBody).or (firstReturnOf? elseBody)
  | .forLoop _ _ _ _ body | .whileLoop _ _ body => firstReturnOf? body
  | .expression .. | .declare _ | .assign .. => none

def firstReturnOf? : List TypedStmt → Option Ty
  | [] => none
  | s :: rest => s.firstReturn?.or (firstReturnOf? rest)

end

end TypedStmt

/-- The return type that is known of the function `g` at a place in the method `f` where `r` is what
is known of `f` itself. -/
def Store.known (S : Store) (f : FunctionId) (r : Option Ty) (g : FunctionId) : Option Ty :=
  if g = f then r else (S.function g).returns

section

variable (S : Store)

/-- If the expression is a call, it goes to a function of its name and has the type that is known of
it, or else any. -/
def TypedExpr.Calls (known : FunctionId → Option Ty) : TypedExpr → Prop
  | .call _ id _ g t | .methodCall _ _ id _ g t =>
    (S.function g).name = id ∧ t = (known g).getD .any
  | .literal .. | .group .. | .binary .. | .name .. | .member .. => True

namespace TypedStmt

variable (f : FunctionId)

mutual

/-- The calls in a statement of the method `f`, before which `r` is known of `f`. -/
def Infers (r : Option Ty) : TypedStmt → Prop
  | .expression _ value | .ret _ value => value.Everywhere (TypedExpr.Calls S (S.known f r))
  | .declare b => ∀ e ∈ b.value, e.Everywhere (TypedExpr.Calls S (S.known f r))
  | .assign _ target value => target.Everywhere (TypedExpr.Calls S (S.known f r)) ∧
      value.Everywhere (TypedExpr.Calls S (S.known f r))
  | .conditional _ condition thenBody elseBody =>
    condition.Everywhere (TypedExpr.Calls S (S.known f r)) ∧ AllInfer r thenBody ∧
      AllInfer (r.or (firstReturnOf? thenBody)) elseBody
  | .forLoop _ _ iterable _ body =>
    iterable.Everywhere (TypedExpr.Calls S (S.known f r)) ∧ AllInfer r body
  | .whileLoop _ condition body =>
    condition.Everywhere (TypedExpr.Calls S (S.known f r)) ∧ AllInfer r body

def AllInfer (r : Option Ty) : List TypedStmt → Prop
  | [] => True
  | s :: rest => s.Infers r ∧ AllInfer (r.or s.firstReturn?) rest

end

end TypedStmt

/-- The return type of a method is that which it declares, or that of the first value returned, or
nil, and calls in its body have the types that are known there. -/
structure TypedMethod.Inferred (m : TypedMethod) : Prop where
  name : (S.function m.function).name = m.name
  body : ∃ declared, S.namedType m.declared = .ok declared ∧
    (S.function m.function).returns =
      some ((declared.or (TypedStmt.firstReturnOf? m.body)).getD .nil) ∧
    TypedStmt.AllInfer S m.function declared m.body

structure TypedProgram.Inferred (p : TypedProgram) : Prop where
  fields : ∀ b ∈ p.fields, ∀ e ∈ b.value,
    e.Everywhere (TypedExpr.Calls S fun g => (S.function g).returns)
  methods : ∀ m ∈ p.methods, m.Inferred S

end

/-- The store has become `S`, and the return type of `f` at most has been found out since. -/
structure Store.Becomes (own : Option FunctionId) (s S : Store) : Prop where
  refines : s.Refines S
  spares : s.Spares own S

theorem Store.Becomes.trans {own : Option FunctionId} {s t S : Store} (hst : s.Becomes own t)
    (h : t.Becomes own S) : s.Becomes own S :=
  ⟨hst.refines.trans h.refines, hst.spares.trans h.spares⟩

theorem Store.Becomes.of_none {s S : Store} (h : s.Becomes none S) (own : Option FunctionId) :
    s.Becomes own S :=
  ⟨h.refines, h.spares.of_none own⟩

namespace Check

open Attempt Pass

variable {a b c : Analysis} {f : FunctionId} {own : Option FunctionId}

/-! ## Expressions -/

/-- The calls in `typed` are right in all stores that `a` becomes. -/
def Names (known : Store → FunctionId → Option Ty) (own : Option FunctionId) (a : Analysis)
    (typed : TypedExpr) : Prop :=
  ∀ S, a.store.Becomes own S → typed.Everywhere (TypedExpr.Calls S (known S))

/-- What is known of functions at a place is what the store of the analysis has of them. -/
def Knows (known : Store → FunctionId → Option Ty) (own : Option FunctionId) (a : Analysis) :
    Prop :=
  ∀ S, a.store.Becomes own S → ∀ g : FunctionId, g.index < a.store.functions.size →
    known S g = (a.store.function g).returns

theorem knows_known (f : FunctionId) (a : Analysis) :
    Knows (fun S => S.known f (a.store.function f).returns) (some f) a := by
  intro S hS g hg
  dsimp only [Store.known]
  split
  · rename_i hgf
    rw [hgf]
  · rename_i hgf
    rw [hS.spares.function g hg (by rintro ⟨⟩; exact hgf rfl)]

theorem knows_returns (a : Analysis) : Knows (fun S g => (S.function g).returns) none a := by
  intro S hS g hg
  dsimp only
  rw [hS.spares.function g hg nofun]

section

variable {known : Store → FunctionId → Option Ty} (hknown : Knows known own a)
include hknown

theorem finds_callType_known {k : String × Nat} {g : FunctionId} (hg : a.store.Keyed k g) :
    Finds (callType g) a fun t => ∀ S, a.store.Becomes own S →
      (S.function g).name = k.1 ∧ t = (known S g).getD .any := by
  refine finds_get.bind fun b hb => ?_
  subst hb
  refine finds_pure fun S hS => ⟨?_, ?_⟩
  · exact (congrArg Prod.fst (hS.refines.keyed hg).2).symm
  · rw [hknown S hS g hg.1]

omit hknown in
theorem finds_exprs_names {es : List Expr} (h : ∀ e ∈ es, Finds (expr e) a (Names known own a))
    (params : List Ty) : Finds (exprs params es) a fun typed => ∀ S, a.store.Becomes own S →
      TypedExpr.AllEverywhere (TypedExpr.Calls S (known S)) typed := by
  induction es generalizing params with
  | nil => exact finds_pure fun _ _ => trivial
  | cons e es ih =>
    rw [List.forall_mem_cons] at h
    refine h.1.bind fun typed he => ?_
    have hfits : Finds (locate e.position (ofExcept
        ((params.headD .any).requireAssignable typed.type))) a fun _ => True :=
      Finds.locate (finds_ofExcept fun _ _ => trivial)
    refine hfits.bind fun _ _ => (ih h.2 params.tail).bind fun typeds hes => ?_
    exact finds_pure fun S hS => ⟨he S hS, hes S hS⟩

theorem finds_names (h : a.Sound) (e : Expr) : Finds (expr e) a (Names known own a) := by
  induction e with
  | literal p value =>
    have htype : Finds (ofExcept (literalType value)) a fun _ => True :=
      finds_ofExcept fun _ _ => trivial
    exact Finds.locate (htype.bind fun t _ => finds_pure fun _ _ => trivial)
  | group p inner ih =>
    exact Finds.locate (ih.bind fun inner hinner => finds_pure fun S hS => ⟨trivial, hinner S hS⟩)
  | binary p op left right hl hr =>
    refine Finds.locate (hl.bind fun left hleft => hr.bind fun right hright => ?_)
    have htype : Finds (ofExcept (op.resultType left.type right.type)) a fun _ => True :=
      finds_ofExcept fun _ _ => trivial
    exact htype.bind fun t _ => finds_pure fun S hS => ⟨trivial, hleft S hS, hright S hS⟩
  | name p id =>
    exact Finds.locate ((finds_slot id).bind fun v _ => finds_pure fun _ _ => trivial)
  | member p receiver id ih =>
    refine Finds.locate (ih.bind fun receiver hreceiver => ?_)
    refine (finds_field receiver.type id).bind fun v _ => finds_pure fun S hS => ?_
    exact ⟨trivial, hreceiver S hS⟩
  | call p id arguments ih =>
    refine Finds.locate ((finds_function id arguments.length).bind fun g hg => ?_)
    refine (finds_exprs_names ih (a.store.function g).params).bind fun typed htyped => ?_
    refine (finds_callType_known hknown (h.store.findFunction? hg)).bind fun t ht => ?_
    exact finds_pure fun S hS => ⟨ht S hS, htyped S hS⟩
  | methodCall p receiver id arguments hr ih =>
    refine Finds.locate (hr.bind fun receiver hreceiver => ?_)
    refine (finds_method receiver.type id arguments.length).bind fun g hg => ?_
    refine (finds_exprs_names ih (a.store.function g).params.tail).bind fun typed htyped => ?_
    refine (finds_callType_known hknown (h.store.methods _ _ g hg)).bind fun t ht => ?_
    exact finds_pure fun S hS => ⟨ht S hS, hreceiver S hS, htyped S hS⟩
  | unknown p label => exact gives_throw _

theorem finds_condition_names (h : a.Sound) (e : Expr) :
    Finds (condition e) a (Names known own a) := by
  refine (finds_names hknown h e).bind fun typed he => ?_
  split
  · exact finds_pure he
  · exact gives_fail _

theorem gives_binding_names (h : a.Sound) (d : Binding) :
    Gives (binding d) a fun typed b => b.store.functions = a.store.functions ∧
      ∀ S, a.store.Becomes own S →
        ∀ e ∈ typed.value, e.Everywhere (TypedExpr.Calls S (known S)) := by
  have hannotated : Finds (ask fun s _ => s.namedType d.type) a fun _ => True :=
    finds_ask fun _ _ => trivial
  refine hannotated.bind fun annotated _ => ?_
  split
  · rename_i annotated _ _ value hvalue
    refine (finds_names hknown h value).bind fun typed htyped => ?_
    have hfits : Finds (ofExcept ((annotated.getD typed.type).requireAssignable typed.type)) a
        fun _ => True := finds_ofExcept fun _ _ => trivial
    refine hfits.bind fun _ _ => ⟨rfl, fun S hS => ?_⟩
    rintro e ⟨⟩
    exact htyped S hS
  · exact ⟨rfl, fun S hS => nofun⟩
  · exact gives_fail _

end

/-! ## Statements -/

/-- What the analysis of a statement tells of the method `f` that it is in. -/
structure Tells (f : FunctionId) (s : Store) (typed : TypedStmt) (t : Store) : Prop where
  returns : (t.function f).returns = (s.function f).returns.or typed.firstReturn?
  infers : ∀ S, t.Becomes (some f) S → typed.Infers S f (s.function f).returns

/-- As `Tells`, for statements in order. -/
structure TellsAll (f : FunctionId) (s : Store) (typed : List TypedStmt) (t : Store) : Prop where
  returns : (t.function f).returns = (s.function f).returns.or (TypedStmt.firstReturnOf? typed)
  infers : ∀ S, t.Becomes (some f) S → TypedStmt.AllInfer S f (s.function f).returns typed

theorem Tells.of_none {s t : Store} {typed : TypedStmt} (ht : t.functions = s.functions)
    (hnone : typed.firstReturn? = none)
    (h : ∀ S, t.Becomes (some f) S → typed.Infers S f (s.function f).returns) :
    Tells f s typed t := by
  refine ⟨?_, h⟩
  rw [hnone, Option.or_none, Store.function, ht, Store.function]

theorem Minds.becomes {declares : Bool} (h : Minds declares a b) (ha : Inside f a) :
    a.store.Becomes (some f) b.store :=
  ⟨h.grows.toRefines, ha.own ▸ h.spares⟩

theorem gives_stmts_tell {ss : List Stmt}
    (h : ∀ s ∈ ss, ∀ a, Inside f a → Gives (stmt s) a fun typed b => Tells f a.store typed b.store)
    (ha : Inside f a) :
    Gives (stmts ss) a fun typed b => TellsAll f a.store typed b.store := by
  induction ss generalizing a with
  | nil =>
    exact gives_pure ⟨(Option.or_none).symm, fun _ _ => trivial⟩
  | cons s ss ih =>
    rw [List.forall_mem_cons] at h
    refine ((h.1 a ha).and_keeps (upholds_careful.keeps_stmt s)).bind ?_
    rintro typed b ⟨hs, hab⟩
    have hab := hab ha.sound
    have hb := ha.evolves hab.toEvolves
    refine ((ih h.2 hb).and_keeps (upholds_careful.keeps_block ss)).bind ?_
    rintro rest c ⟨hss, hbc⟩
    refine gives_pure ⟨?_, fun S hS => ?_⟩
    · rw [hss.returns, hs.returns, TypedStmt.firstReturnOf?, Option.or_assoc]
    · have hrest := hss.infers S hS
      rw [hs.returns] at hrest
      exact ⟨hs.infers S (((hbc hb.sound).becomes hb).trans hS), hrest⟩

/-- What is known of the result of a part of a program is known when its scope has been left. -/
theorem gives_inScope_minds {α : Type} {x : Check α} {Q : α → Store → Prop} (ha : a.Sound)
    (hx : Keeps (Careful true) x)
    (h : Gives x (a.enterFrame a.scope) fun r b => Q r b.store) :
    Gives (inScope x) a fun r b => Minds false a b ∧ Q r b.store := by
  have hinside := h.and_keeps (keeps_steps hx)
  have hscope := gives_inScope (Q := Q) ha
    (hinside.imp fun r b hb => ⟨hb.2 (ha.enterFrame ha.scope), hb.1⟩)
  exact (hscope.and_keeps (careful_inScope hx)).imp fun r b hb => ⟨hb.2 ha, hb.1.2⟩

theorem gives_block_tells {ss : List Stmt}
    (h : ∀ s ∈ ss, ∀ a, Inside f a → Gives (stmt s) a fun typed b => Tells f a.store typed b.store)
    (ha : Inside f a) :
    Gives (inScope (stmts ss)) a fun typed b =>
      Minds false a b ∧ TellsAll f a.store typed b.store := by
  refine gives_inScope_minds (Q := TellsAll f a.store) ha.sound
    (upholds_careful.keeps_block ss) ?_
  exact (gives_stmts_tell h ha.enterFrame).imp fun typed b hb => ⟨hb.returns, hb.infers⟩

theorem gives_returned_tells (ha : Inside f a) (p : Position) (value : Expr) :
    Gives (returned p value) a fun typed b => Tells f a.store typed b.store := by
  refine finds_get.bind fun b hb => ?_
  subst hb
  rw [ha.own]
  refine (finds_names (knows_known f a) ha.sound value).bind fun value hvalue => ?_
  refine finds_get.bind fun b hb => ?_
  subst hb
  cases hr : (a.store.function f).returns with
  | none =>
    have hset := Store.function_setReturns a.store f value.type f
    rw [if_pos ⟨rfl, ha.function⟩] at hset
    refine Gives.bind (Q := fun _ b => b = { a with store := a.store.setReturns f value.type })
      (gives_modify rfl) fun _ b hb => gives_pure ?_
    subst hb
    refine ⟨?_, fun S hS => ?_⟩
    · dsimp only
      rw [hset, hr]
      rfl
    · have hbecomes : a.store.Becomes (some f) (a.store.setReturns f value.type) :=
        ⟨(Store.grows_setReturns a.store f value.type hr).toRefines,
          Store.spares_setReturns a.store f value.type⟩
      exact hvalue S (hbecomes.trans hS)
  | some type =>
    have hfits : Finds (ofExcept (type.requireAssignable value.type)) a fun _ => True :=
      finds_ofExcept fun _ _ => trivial
    refine hfits.bind fun _ _ => gives_pure ⟨?_, hvalue⟩
    rw [hr, Option.some_or]

theorem gives_stmt_tells (s : Stmt) (ha : Inside f a) :
    Gives (stmt s) a fun typed b => Tells f a.store typed b.store := by
  have hknown (a : Analysis) := knows_known f a
  induction s generalizing a with
  | expression p value =>
    refine Gives.locate ((finds_names (hknown a) ha.sound value).bind fun value hvalue => ?_)
    exact gives_pure (.of_none rfl rfl hvalue)
  | declare b =>
    refine Gives.locate (((gives_binding_names (hknown a) ha.sound b).and_keeps
      (upholds_careful.keeps_binding b)).bind ?_)
    rintro typed c ⟨⟨hfunctions, hvalue⟩, hac⟩
    refine gives_pure (.of_none hfunctions rfl fun S hS => ?_)
    exact hvalue S (((hac ha.sound).becomes ha).trans hS)
  | assign p target value =>
    refine Gives.locate ?_
    unfold assignment
    split
    · refine (finds_names (hknown a) ha.sound target).bind fun target htarget => ?_
      refine (finds_names (hknown a) ha.sound value).bind fun value hvalue => ?_
      have hfits : Finds (ofExcept (target.type.requireAssignable value.type)) a fun _ => True :=
        finds_ofExcept fun _ _ => trivial
      refine hfits.bind fun _ _ => gives_pure (.of_none rfl rfl fun S hS => ?_)
      exact ⟨htarget S hS, hvalue S hS⟩
    · exact gives_fail _
  | conditional p e thenBody elseBody hthen helse =>
    refine Gives.locate ((finds_condition_names (hknown a) ha.sound e).bind fun typed htyped => ?_)
    refine (finds_requireBody .IF thenBody).bind fun _ _ => ?_
    refine (gives_block_tells (fun s hs a => hthen s hs) ha).bind ?_
    rintro thenBody b ⟨hab, hthen⟩
    have hb := ha.evolves hab.toEvolves
    refine (gives_block_tells (fun s hs a => helse s hs) hb).bind ?_
    rintro elseBody c ⟨hbc, helse⟩
    refine gives_pure ⟨?_, fun S hS => ?_⟩
    · rw [helse.returns, hthen.returns, TypedStmt.firstReturn?, Option.or_assoc]
    · have hS' := (hbc.becomes hb).trans hS
      have helse := helse.infers S hS
      rw [hthen.returns] at helse
      exact ⟨htyped S ((hab.becomes ha).trans hS'), hthen.infers S hS', helse⟩
  | forLoop p name iterable body ih =>
    refine Gives.locate ((finds_names (hknown a) ha.sound iterable).bind ?_)
    intro iterable hiterable
    have hfits : Finds (ofExcept (Ty.iterable.requireAssignable iterable.type)) a fun _ => True :=
      finds_ofExcept fun _ _ => trivial
    refine hfits.bind fun _ _ => (finds_requireBody .FOR body).bind fun _ _ => ?_
    have hround := gives_inScope_minds (Q := fun r t => TellsAll f a.store r.2 t) ha.sound
      (upholds_careful.keeps_round name body) ?_
    · refine hround.bind ?_
      rintro ⟨slot, typed⟩ b ⟨hab, htells⟩
      refine gives_pure ⟨htells.returns, fun S hS => ?_⟩
      exact ⟨hiterable S ((hab.becomes ha).trans hS), htells.infers S hS⟩
    · have henter := ha.enterFrame
      refine Gives.bind (Q := fun _ b => Inside f b ∧ b.store.functions = a.store.functions)
        ⟨henter.evolves (.define henter.sound _), rfl⟩ ?_
      rintro slot b ⟨hb, hfunctions⟩
      refine (gives_stmts_tell (fun s hs a => ih s hs) hb).bind fun typed c hc => gives_pure ?_
      have hsame : b.store.function f = a.store.function f := by
        rw [Store.function, hfunctions, Store.function]
      exact ⟨hsame ▸ hc.returns, fun S hS => hsame ▸ hc.infers S hS⟩
  | whileLoop p e body ih =>
    refine Gives.locate ((finds_condition_names (hknown a) ha.sound e).bind fun typed htyped => ?_)
    refine (gives_block_tells (fun s hs a => ih s hs) ha).bind ?_
    rintro body b ⟨hab, hbody⟩
    refine gives_pure ⟨hbody.returns, fun S hS => ?_⟩
    exact ⟨htyped S ((hab.becomes ha).trans hS), hbody.infers S hS⟩
  | ret p value => exact (gives_returned_tells ha p value).locate
  | unknown p label => exact gives_throw _

/-! ## Methods -/

theorem gives_defineParams_functions (ps : List Param) (types : List Ty) :
    Gives (defineParams ps types) a fun _ b => b.store.functions = a.store.functions := by
  induction ps generalizing types a with
  | nil =>
    unfold defineParams
    exact gives_pure rfl
  | cons p ps ih =>
    cases types with
    | nil => exact gives_pure rfl
    | cons type types =>
      refine Gives.bind (Q := fun _ (b : Analysis) => b.store.functions = a.store.functions) rfl ?_
      intro slot b hb
      exact (ih types).bind fun slots c hc => gives_pure (hc.trans hb)

theorem gives_body_tells (m : Method) (types : List Ty) (ha : Inside f a) :
    Gives (inScope do
        let slots ← defineParams m.params types
        return (slots, ← stmts m.body)) a
      fun r b => Minds false a b ∧ TellsAll f a.store r.2 b.store := by
  refine gives_inScope_minds (Q := fun (r : List SlotId × List TypedStmt) t =>
    TellsAll f a.store r.2 t) ha.sound (upholds_careful.keeps_body m types) ?_
  · have henter := ha.enterFrame
    refine ((gives_defineParams_functions m.params types).and_keeps
      (upholds_careful.keeps_defineParams m.params types)).bind ?_
    rintro slots b ⟨hfunctions, hb⟩
    have hb := henter.evolves (hb henter.sound).toEvolves
    refine (gives_stmts_tell (fun s _ a => gives_stmt_tells s) hb).bind fun typed c hc => ?_
    have hsame : b.store.function f = a.store.function f := by
      rw [Store.function, hfunctions]
      rfl
    exact gives_pure ⟨hsame ▸ hc.returns, fun S hS => hsame ▸ hc.infers S hS⟩

/-- The return type of a method when it is closed. -/
theorem gives_close_returns {α : Type} {r : α} (ha : a.Sound)
    (hf : f.index < a.store.functions.size) :
    Gives (do
        if ((← get).store.function f).returns.isNone then
          modify fun b => { b with store := b.store.setReturns f .nil }
        return r : Check α) a fun r' b => r' = r ∧ a.store.Becomes (some f) b.store ∧
          (b.store.function f).returns = some ((a.store.function f).returns.getD .nil) := by
  refine finds_get.bind fun b hb => ?_
  subst hb
  split
  · rename_i hnone
    rw [Option.isNone_iff_eq_none] at hnone
    have hset := Store.function_setReturns a.store f .nil f
    rw [if_pos ⟨rfl, hf⟩] at hset
    refine ⟨rfl, ⟨(Check.Evolves.setReturns ha hnone .nil).grows.toRefines,
      Store.spares_setReturns a.store f .nil⟩, ?_⟩
    dsimp only
    rw [hset, hnone]
    rfl
  · rename_i hsome
    refine ⟨rfl, ⟨.refl _, .refl _ _⟩, ?_⟩
    rw [Option.isNone_iff_eq_none, ← ne_eq, Option.ne_none_iff_exists'] at hsome
    obtain ⟨t, ht⟩ := hsome
    rw [ht]
    rfl

theorem gives_method_inferred (ha : a.Sound) (m : Method) :
    Gives (method m) a fun typed b => ∀ S, b.store.Becomes none S → typed.Inferred S := by
  have htypes : Finds (locate m.position (ask fun s _ => do
      return (← s.paramTypes m.params, ← s.namedType m.returnType))) a fun r =>
      a.store.namedType m.returnType = .ok r.2 := by
    refine Finds.locate (finds_ask fun r hr => ?_)
    obtain ⟨types, -, hrest⟩ := Store.bind_eq_ok.mp hr
    obtain ⟨returns, hreturns, hpure⟩ := Store.bind_eq_ok.mp hrest
    cases hpure
    exact hreturns
  refine htypes.bind ?_
  rintro ⟨types, returns⟩ hreturns
  dsimp only at hreturns
  let fn : Function := ⟨m.name, types, returns, .absent⟩
  let f : FunctionId := ⟨a.store.functions.size⟩
  let b := begun a m types returns
  have hab : a.Extends b := extends_begun ha m types returns
  have hnew : b.store.function f = fn :=
    (Store.function_defineFunction a.store a.scope fn f).trans (if_pos rfl)
  have hsize : f.index < b.store.functions.size := by
    simp [b, f, begun, Store.defineFunction, Store.createFunction, Store.bindFunction]
  have hinside : Inside f { b with own := some f } :=
    ⟨⟨hab.sound.store, hab.sound.scope⟩, rfl, hsize⟩
  change Gives (checkBody m types f b.own) { b with own := some f } _
  have hbody : Gives _ { b with own := some f } fun (r : List SlotId × List TypedStmt) c =>
      Evolves false { b with own := some f } c ∧ (b.store.Becomes (some f) c.store ∧
        TellsAll f b.store r.2 c.store) :=
    (gives_body_tells m types hinside).imp fun r c hc =>
      ⟨hc.1.toEvolves, hc.1.becomes hinside, hc.2⟩
  refine (gives_ensuring_own (Q := fun (r : List SlotId × List TypedStmt) t =>
    b.store.Becomes (some f) t ∧ TellsAll f b.store r.2 t) hbody).bind ?_
  rintro ⟨slots, typed⟩ c ⟨hbc, hbecomes, htells⟩
  have hsize' := Nat.lt_of_lt_of_le hsize hbecomes.refines.functions
  refine (gives_close_returns (f := f) hbc.sound hsize').imp ?_
  rintro _ d ⟨rfl, hcd, hd⟩ S hS
  have hcS := hcd.trans (hS.of_none (some f))
  have hbS := hbecomes.trans hcS
  have hlast : S.function f = d.store.function f :=
    hS.spares.function f (Nat.lt_of_lt_of_le hsize' hcd.refines.functions)
      (Option.some_ne_none f).symm
  refine ⟨?_, returns, ?_, ?_, ?_⟩
  · rw [(hbS.refines.function f hsize).name, hnew]
  · rw [← hreturns]
    exact Store.namedType_congr (hab.grows.toRefines.trans hbS.refines).catalog m.returnType
  · rw [hlast, hd, htells.returns, hnew]
  · have hinfers := htells.infers S hcS
    rw [hnew] at hinfers
    exact hinfers

/-! ## Programs -/

theorem Guards.becomes (h : Guards a b) : a.store.Becomes none b.store :=
  ⟨h.grows.toRefines, h.spares⟩

theorem gives_fields_names {ds : List Binding} (ha : a.Sound) (hown : a.own = none) :
    Gives (ds.mapM field) a fun typed b => ∀ S, b.store.Becomes none S →
      ∀ d ∈ typed, ∀ e ∈ d.value,
        e.Everywhere (TypedExpr.Calls S fun g => (S.function g).returns) := by
  induction ds generalizing a with
  | nil =>
    rw [List.mapM_nil]
    exact gives_pure fun _ _ => nofun
  | cons d ds ih =>
    rw [List.mapM_cons]
    refine ((gives_binding_names (knows_returns a) ha d).locate.and_keeps
      (keeps_guarded (upholds_careful.keeps_binding d).locate)).bind ?_
    rintro typed b ⟨⟨-, hvalue⟩, hab⟩
    have hab := hab ha hown
    refine ((ih hab.sound (hab.own.trans hown)).and_keeps
      (keeps_mapM fun d _ => keeps_guarded (upholds_careful.keeps_binding d).locate)).bind ?_
    rintro rest c ⟨hrest, hbc⟩
    refine gives_pure fun S hS => List.forall_mem_cons.mpr ⟨?_, hrest S hS⟩
    have hbc := hbc hab.sound (hab.own.trans hown)
    exact hvalue S ((hab.becomes.trans hbc.becomes).trans hS)

theorem gives_methods_inferred {ms : List Method} (ha : a.Sound) (hown : a.own = none) :
    Gives (ms.mapM method) a fun typed b => ∀ S, b.store.Becomes none S →
      ∀ m ∈ typed, m.Inferred S := by
  induction ms generalizing a with
  | nil =>
    rw [List.mapM_nil]
    exact gives_pure fun _ _ => nofun
  | cons m ms ih =>
    rw [List.mapM_cons]
    refine ((gives_method_inferred ha m).and_keeps (guarded_method m)).bind ?_
    rintro typed b ⟨hm, hab⟩
    have hab := hab ha hown
    refine ((ih hab.sound (hab.own.trans hown)).and_keeps
      (keeps_mapM fun m _ => guarded_method m)).bind ?_
    rintro rest c ⟨hrest, hbc⟩
    refine gives_pure fun S hS => List.forall_mem_cons.mpr ⟨hm S ?_, hrest S hS⟩
    exact (hbc hab.sound (hab.own.trans hown)).becomes.trans hS

theorem gives_program_inferred (ha : a.Sound) (hown : a.own = none) (p : Program) :
    Gives (program p) a fun typed b => typed.Inferred b.store := by
  refine ((gives_fields_names ha hown).and_keeps
    (keeps_mapM fun d _ => keeps_guarded (upholds_careful.keeps_binding d).locate)).bind ?_
  rintro fields b ⟨hfields, hab⟩
  have hab := hab ha hown
  have hb := hab.own.trans hown
  refine ((gives_methods_inferred hab.sound hb).and_keeps
    (keeps_mapM fun m _ => guarded_method m)).bind ?_
  rintro methods c ⟨hmethods, hbc⟩
  have hbc := hbc hab.sound hb
  refine ((gives_entryPoint hbc.sound).and_keeps guarded_entryPoint).bind ?_
  rintro _ d ⟨-, hcd⟩
  have hcd := (hcd hbc.sound (hbc.own.trans hb)).becomes
  exact gives_pure ⟨hfields d.store (hbc.becomes.trans hcd), hmethods d.store hcd⟩

end Check

end BlockScript

namespace BlockScript.Program

variable {s : Store} {parent : Option FrameId} {p : Program} {typed : TypedProgram} {a : Analysis}

/-- What the analysis gives for a program that it accepts: the program itself, with findings that
are right at every node, as the last store has it. -/
theorem check_annotates (hs : s.WellFormed) (hparent : ∀ f ∈ parent, s.Has f)
    (hcheck : p.check s parent = .ok typed a) :
    typed.erase = p ∧ typed.Checked a.store (Analysis.start s parent).context ∧
      typed.Inferred a.store := by
  have hsettled := settled_of_check hs hparent hcheck
  have hinferred := Check.gives_program_inferred (Analysis.sound_start hs hparent) rfl p
  exact ⟨hsettled.erase, hsettled.checked, hinferred.of_ok hcheck⟩

/-- A method that calls itself before and after it first returns a value. -/
def halving : String :=
  "DEF f(n: Integer) DO LET a = f(n); IF n < 1 DO RETURN n; END RETURN f(n / 2); END " ++
    "DEF main() DO RETURN f(9); END"

theorem check_annotates_halving : ∃ p typed a, Program.parse halving = .ok p ∧
    p.check .initial none = .ok typed a ∧ Store.initial.WellFormed ∧
    (typed.methods.map fun m => (a.store.function m.function).returns) =
      [some .integer, some .integer] ∧
    (typed.erase = p ∧ typed.Checked a.store (Analysis.start .initial none).context ∧
      typed.Inferred a.store) := by
  have haccepted : isAccepted halving (fun typed a =>
      decide ((typed.methods.map fun m => (a.store.function m.function).returns) =
        [some .integer, some .integer])) = true := by
    decide +kernel
  obtain ⟨p, typed, a, hparse, hcheck, hreturns⟩ := exists_of_isAccepted haccepted
  have hinitial := Store.wellFormed_initial
  exact ⟨p, typed, a, hparse, hcheck, hinitial, of_decide_eq_true hreturns,
    check_annotates hinitial (by simp) hcheck⟩

end BlockScript.Program
