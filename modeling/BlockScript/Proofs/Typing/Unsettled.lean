import BlockScript.Proofs.Typing.Blaming

/-!
# Signatures that stay open

The analysis makes the function of a method known before it checks the body, and a method that
declares no return type gets one from the first value that it returns, or at its end. Where a fault
comes before either, the function stays as it is: known, without a return type, for good. This is
the only way in which a signature stays open.
-/

namespace BlockScript

open Attempt Pass

/-! ## States at the end of attempts -/

namespace Attempt

variable {σ α β : Type} {x : Attempt σ α} {f : α → Attempt σ β} {s t : σ} {r : α} {e : Failure}

theorem state_bind_of_ok (h : x s = .ok r t) : state ((x >>= f) s) = state (f r t) := by
  rw [bind_of_ok h]

theorem state_bind_of_error (h : x s = .error e t) : state ((x >>= f) s) = t := by
  rw [bind_of_error h]
  rfl

theorem state_bind_pure (x : Attempt σ α) (k : α → β) (s : σ) :
    state ((x >>= fun r => pure (k r)) s) = state (x s) := by
  cases h : x s with
  | ok r t => exact state_bind_of_ok h
  | error e t => exact state_bind_of_error h

theorem state_locate (p : Position) (x : Attempt σ α) (s : σ) :
    state (locate p x s) = state (x s) := by
  unfold locate
  cases x s <;> rfl

theorem locate_of_error {p : Position} (h : x s = .error e t) :
    locate p x s = .error (e.locate p) t := by
  unfold locate
  rw [h]

theorem Inert.state (hx : Inert x) (s : σ) : state (x s) = s :=
  Ends.state (P := (· = s)) ((hx s).imp (fun _ _ h => h.symm) fun _ _ h => h.1.symm)

end Attempt

theorem Pass.ask_of_error {ρ α : Type} {a : Pass ρ} {question : Store → FrameId → Except Cause α}
    {cause : Cause} (h : question a.store a.scope = .error cause) :
    (ask question : Attempt (Pass ρ) α) a = .error (.of cause) a := by
  change (Attempt.ofExcept (question a.store a.scope) : Attempt (Pass ρ) α) a = _
  rw [h]
  rfl

namespace Analysis

/-- The return type of the function is not known. -/
def Open (a : Analysis) (f : FunctionId) : Prop := (a.store.function f).returns = none

variable {a b : Analysis} {f : FunctionId}

theorem open_of_evolves {declares : Bool} (h : a.Evolves declares b)
    (hf : f.index < a.store.functions.size) (hb : b.Open f) : a.Open f := by
  by_contra ha
  have hsame := (h.grows.function f hf).eq ha
  rw [Open, hsame] at hb
  exact ha hb

end Analysis

/-! ## Returned values -/

namespace Visit

variable {v w : Visit} {P K : Visit → Prop} {a b : Analysis} {s : Stmt} {ss : List Stmt}

/-- In the course of the visit there is one as `P` says. -/
def Meets (P : Visit → Prop) (v : Visit) : Prop := ∃ w, nesting.Includes v w ∧ P w

theorem meets_iff : v.Meets P ↔ P v ∨ ∃ w, v.Begins w ∧ w.Meets P := by
  constructor
  · rintro ⟨u, hincludes, hu⟩
    rcases Relation.ReflTransGen.cases_head hincludes with rfl | ⟨w, hbegins, hrest⟩
    · exact .inl hu
    · exact .inr ⟨w, hbegins, u, hrest, hu⟩
  · rintro (hv | ⟨w, hbegins, u, hrest, hu⟩)
    · exact ⟨v, .refl, hv⟩
    · exact ⟨u, .head hbegins hrest, hu⟩

/-- Visits of a kind that only begins its own kind. -/
theorem not_meets (hK : ∀ v w, v.Begins w → K v → K w) (hP : ∀ v, K v → ¬ P v) (hv : K v) :
    ¬ v.Meets P := by
  rintro ⟨w, hincludes, hw⟩
  refine hP w ?_ hw
  clear hw
  induction hincludes with
  | refl => exact hv
  | tail _ hbegins ih => exact hK _ _ hbegins ih

/-- The analysis is at a RETURN and finds the type of the value. -/
def Returns (v : Visit) : Prop :=
  ∃ p e, v.item = .statement (.ret p e) ∧ failure? ⟨.expression e, v.state⟩ = none

/-- In the course of the visit the analysis finds the type of a value that is returned. -/
def Answers : Visit → Prop := Meets Returns

/-- The visit is one in the course of an expression. -/
def IsInExpression (v : Visit) : Prop :=
  match v.item with
  | .arguments .. | .argument .. | .expression _ => True
  | _ => False

theorem isInExpression_of_begins (h : v.Begins w) (hv : v.IsInExpression) : w.IsInExpression := by
  cases h <;> trivial

theorem not_answers_of_isInExpression (hv : v.IsInExpression) : ¬ v.Answers := by
  refine not_meets (K := IsInExpression) (fun _ _ => isInExpression_of_begins) ?_ hv
  rintro ⟨_, a⟩ hin ⟨p, e, rfl, -⟩
  exact hin

/-- What is returned is returned here or in a visit that begins here. -/
theorem answers_iff : v.Answers ↔ v.Returns ∨ ∃ w, v.Begins w ∧ w.Answers := meets_iff

theorem not_answers_nil : ¬ Answers ⟨.statements [], a⟩ := by
  rw [answers_iff]
  rintro (⟨p, e, hitem, -⟩ | ⟨w, hbegins, -⟩)
  · cases hitem
  · cases hbegins

theorem answers_cons : Answers ⟨.statements (s :: ss), a⟩ ↔ Answers ⟨.statement s, a⟩ ∨
    ∃ typed b, Check.stmt s a = .ok typed b ∧ Answers ⟨.statements ss, b⟩ := by
  rw [answers_iff]
  constructor
  · rintro (⟨p, e, hitem, -⟩ | ⟨w, hbegins, hw⟩)
    · cases hitem
    · cases hbegins with
      | statement => exact .inl hw
      | nextStatement hs => exact .inr ⟨_, _, hs, hw⟩
  · rintro (hs | ⟨typed, b, hs, hss⟩)
    · exact .inr ⟨_, .statement, hs⟩
    · exact .inr ⟨_, .nextStatement hs, hss⟩

theorem answers_ret {p : Position} {e : Expr} :
    Answers ⟨.statement (.ret p e), a⟩ ↔ failure? ⟨.expression e, a⟩ = none := by
  rw [answers_iff]
  constructor
  · rintro (⟨p', e', hitem, hvalue⟩ | ⟨w, hbegins, hw⟩)
    · cases hitem
      exact hvalue
    · refine absurd hw (not_answers_of_isInExpression ?_)
      cases hbegins <;> trivial
  · exact fun hvalue => .inl ⟨p, e, rfl, hvalue⟩

/-- Only what stands in statements within a statement is returned, where that is no RETURN. -/
theorem answers_of_ne_ret (hs : ∀ p e, s ≠ .ret p e) : Answers ⟨.statement s, a⟩ ↔
    ∃ w, Begins ⟨.statement s, a⟩ w ∧ ¬ w.IsInExpression ∧ w.Answers := by
  rw [answers_iff]
  constructor
  · rintro (⟨p, e, hitem, -⟩ | ⟨w, hbegins, hw⟩)
    · cases hitem
      exact absurd rfl (hs p e)
    · exact ⟨w, hbegins, fun hinner => not_answers_of_isInExpression hinner hw, hw⟩
  · rintro ⟨w, hbegins, -, hw⟩
    exact .inr ⟨w, hbegins, hw⟩

theorem not_answers_of_ne_ret (hs : ∀ p e, s ≠ .ret p e)
    (hinner : ∀ w, Begins ⟨.statement s, a⟩ w → w.IsInExpression) :
    ¬ Answers ⟨.statement s, a⟩ := by
  rw [answers_of_ne_ret hs]
  rintro ⟨w, hbegins, hw, -⟩
  exact hw (hinner w hbegins)

end Visit

namespace Check

variable {α β : Type} {x : Check α} {g : α → Check β} {f : FunctionId} {a b : Analysis} {A : Prop}
  {B : α → Analysis → Prop}

/-- If the return type of the function is open, it still is at the end of the attempt unless `A`. -/
structure Marks (f : FunctionId) (x : Check α) (a : Analysis) (A : Prop) : Prop where
  evolves : a.Evolves true (state (x a))
  open_iff : a.Open f → ((state (x a)).Open f ↔ ¬ A)

theorem Marks.congr {A' : Prop} (h : Marks f x a A) (hA : A ↔ A') : Marks f x a A' :=
  ⟨h.evolves, fun hopen => (h.open_iff hopen).trans (not_congr hA)⟩

theorem marks_inert (hx : Inert x) (ha : Inside f a) : Marks f x a False := by
  have hstate := hx.state a
  exact ⟨hstate.symm ▸ .refl ha.sound, fun hopen => iff_of_true (hstate.symm ▸ hopen) id⟩

theorem marks_define (name : String) (type : Ty) (ha : Inside f a) :
    Marks f (define name type none) a False :=
  ⟨(keeps_define name type none a).state ha.sound, fun hopen => iff_of_true hopen id⟩

theorem Marks.locate {p : Position} (h : Marks f x a A) : Marks f (locate p x) a A := by
  have hstate := state_locate p x a
  exact ⟨hstate ▸ h.evolves, hstate ▸ h.open_iff⟩

theorem Marks.ends (h : Marks f x a A) :
    Ends x a (fun _ b => a.Evolves true b ∧ (a.Open f → (b.Open f ↔ ¬ A)))
      fun _ b => a.Evolves true b ∧ (a.Open f → (b.Open f ↔ ¬ A)) := by
  obtain ⟨hevolves, hiff⟩ := h
  unfold Ends
  cases hrun : x a <;> rw [hrun] at hevolves hiff <;> exact ⟨hevolves, hiff⟩

/-- Once it is known, the return type is known at the end. -/
theorem Marks.bind (h : Marks f x a A) (ha : Inside f a)
    (hB : ∀ r b, x a = .ok r b → Inside f b → Marks f (g r) b (B r b)) :
    Marks f (x >>= g) a (A ∨ ∃ r b, x a = .ok r b ∧ B r b) := by
  obtain ⟨hevolves, hiff⟩ := h
  cases hrun : x a with
  | error e b =>
    rw [hrun] at hevolves hiff
    have hstate : state ((x >>= g) a) = b := state_bind_of_error hrun
    refine ⟨hstate ▸ hevolves, fun hopen => ?_⟩
    have hA : b.Open f ↔ ¬ A := hiff hopen
    rw [hstate]
    simpa using hA
  | ok r b =>
    rw [hrun] at hevolves hiff
    have hstate : state ((x >>= g) a) = state (g r b) := state_bind_of_ok hrun
    have hb : Inside f b := ha.evolves hevolves
    obtain ⟨hlast, hiff'⟩ := hB r b hrun hb
    refine ⟨hstate ▸ Evolves.trans hevolves hlast, fun hopen => ?_⟩
    have hA : b.Open f ↔ ¬ A := hiff hopen
    rw [hstate]
    by_cases hopen' : b.Open f
    · refine (hiff' hopen').trans (not_congr ?_)
      simp [hA.mp hopen']
    · have hclosed := mt (Analysis.open_of_evolves hlast hb.function) hopen'
      simp only [hclosed, false_iff, not_not]
      exact .inl (by_contra fun h => hopen' (hA.mpr h))

theorem Marks.map (h : Marks f x a A) (k : α → β) :
    Marks f (x >>= fun r => pure (k r)) a A := by
  have hstate := state_bind_pure x k a
  exact ⟨hstate ▸ h.evolves, hstate ▸ h.open_iff⟩

/-- What comes behind something that does nothing to the return type. -/
theorem Marks.before (h : Marks f x a False) (ha : Inside f a)
    (hB : ∀ r b, x a = .ok r b → Inside f b → Marks f (g r) b (B r b)) :
    Marks f (x >>= g) a (∃ r b, x a = .ok r b ∧ B r b) :=
  (h.bind ha hB).congr (by rw [false_or])

theorem marks_behind {B : α → Prop} (hx : Inert x) (ha : Inside f a)
    (hB : ∀ r, Marks f (g r) a (B r)) : Marks f (x >>= g) a (∃ r, x a = .ok r a ∧ B r) := by
  refine Marks.congr ((marks_inert hx ha).before ha (B := fun r b => b = a ∧ B r) ?_) ?_
  · intro r b hrun _
    obtain rfl := (hx a).of_ok hrun
    exact (hB r).congr (by simp)
  · constructor
    · rintro ⟨r, _, hrun, rfl, hr⟩
      exact ⟨r, hrun, hr⟩
    · rintro ⟨r, hrun, hr⟩
      exact ⟨r, a, hrun, rfl, hr⟩

theorem Marks.inScope (h : Marks f x (a.enterFrame a.scope) A) (ha : Inside f a)
    (hx : Keeps (Steps true) x) : Marks f (inScope x) a A := by
  refine ⟨((Pass.keeps_inScope hx a).state ha.sound).of_false true, fun hopen => ?_⟩
  refine Iff.trans ?_ (h.open_iff hopen)
  rw [inScope_eq ha.sound hx]
  cases x (a.enterFrame a.scope) <;> rfl

open Visit

section

variable {ss : List Stmt} (h : ∀ s ∈ ss, ∀ a, Inside f a →
  Marks f (stmt s) a (Answers ⟨.statement s, a⟩))
include h

theorem marks_stmts (ha : Inside f a) : Marks f (stmts ss) a (Answers ⟨.statements ss, a⟩) := by
  induction ss generalizing a with
  | nil => exact (marks_inert (inert_pure []) ha).congr (iff_of_false id not_answers_nil)
  | cons s ss ih =>
    rw [List.forall_mem_cons] at h
    exact ((h.1 a ha).bind ha fun _ b _ hb => (ih h.2 hb).map _).congr answers_cons.symm

theorem marks_block (ha : Inside f a) :
    Marks f (inScope (stmts ss)) a (Answers ⟨.statements ss, a.enterFrame a.scope⟩) :=
  (marks_stmts h ha.enterFrame).inScope ha (keeps_steps (upholds_careful.keeps_block ss))

end

theorem marks_binding (d : Binding) (ha : Inside f a) : Marks f (binding d) a False := by
  refine Marks.congr (marks_behind (inert_ask _) ha (B := fun _ => False) fun annotated => ?_)
    (by simp)
  split
  · refine Marks.congr (marks_behind (inert_expr _) ha fun typed =>
      marks_behind (inert_ofExcept _) ha fun _ => (marks_define _ _ ha).map _) (by simp)
  · exact (marks_define _ _ ha).map _
  · exact marks_inert (inert_fail _) ha

/-- The first value returned whose type is found decides the return type. -/
theorem marks_returned (p : Position) (value : Expr) (ha : Inside f a) :
    Marks f (returned p value) a (Visit.failure? ⟨.expression value, a⟩ = none) := by
  refine ⟨((careful_returned p value a).state ha.sound).toEvolves.of_false true, fun hopen => ?_⟩
  unfold returned Visit.failure?
  rw [get_bind]
  simp only [ha.own]
  cases hrun : expr value a with
  | error e b =>
    obtain ⟨rfl, -⟩ := (inert_expr value a).of_error hrun
    rw [bind_of_error hrun]
    exact iff_of_true hopen nofun
  | ok typed b =>
    obtain rfl := (inert_expr value a).of_ok hrun
    have hnone : (a.store.function f).returns = none := hopen
    rw [bind_of_ok hrun, get_bind]
    simp only [hnone]
    have hset : ((a.store.setReturns f typed.type).function f).returns = some typed.type := by
      rw [Store.function_setReturns, if_pos ⟨rfl, ha.function⟩]
    refine iff_of_false (fun hstill => ?_) (not_not_intro rfl)
    have hnone' : ((a.store.setReturns f typed.type).function f).returns = none := hstill
    rw [hset] at hnone'
    cases hnone'

theorem marks_stmt (s : Stmt) (ha : Inside f a) :
    Marks f (stmt s) a (Answers ⟨.statement s, a⟩) := by
  induction s generalizing a with
  | expression p value =>
    refine ((marks_inert (inert_expr value) ha).map _).locate.congr (iff_of_false id ?_)
    exact not_answers_of_ne_ret (by simp) fun w hw => by cases hw; trivial
  | declare d =>
    refine ((marks_binding d ha).map _).locate.congr (iff_of_false id ?_)
    exact not_answers_of_ne_ret (by simp) fun w hw => by cases hw <;> trivial
  | assign p target value =>
    refine (marks_inert (inert_assignment p target value) ha).locate.congr (iff_of_false id ?_)
    exact not_answers_of_ne_ret (by simp) fun w hw => by cases hw <;> trivial
  | conditional p e thenBody elseBody hthen helse =>
    refine Marks.congr (marks_behind (inert_condition e) ha fun _ =>
      marks_behind (inert_requireBody .IF thenBody) ha fun _ =>
        (marks_block (fun s hs b hb => hthen s hs hb) ha).bind ha fun _ b _ hb =>
          (marks_block (fun s hs c hc => helse s hs hc) hb).map _).locate
      (Iff.trans ⟨?_, ?_⟩ (answers_of_ne_ret (by simp)).symm)
    · rintro ⟨typed, he, _, hreq, h | ⟨ts, b, hts, h⟩⟩
      · exact ⟨_, .thenBody he (requireBody_eq_ok hreq).2, id, h⟩
      · exact ⟨_, .elseBody he (requireBody_eq_ok hreq).2 hts, id, h⟩
    · rintro ⟨w, hbegins, hinner, hw⟩
      cases hbegins with
      | leading => exact absurd trivial hinner
      | thenBody he hbody =>
        obtain rfl := (inert_condition e a).of_ok he
        rw [requireBody_of_ne_nil .IF hbody]
        exact ⟨_, he, _, rfl, .inl hw⟩
      | elseBody he hbody hthen =>
        obtain rfl := (inert_condition e a).of_ok he
        rw [requireBody_of_ne_nil .IF hbody]
        exact ⟨_, he, _, rfl, .inr ⟨_, _, hthen, hw⟩⟩
  | forLoop p name iterable body ih =>
    have hround := Marks.inScope ((marks_define name .integer ha.enterFrame).before ha.enterFrame
      fun v b _ hb => (marks_stmts (fun s hs c hc => ih s hs hc) hb).map (v, ·)) ha
        (keeps_steps (upholds_careful.keeps_round name body))
    refine Marks.congr (marks_behind (inert_expr iterable) ha fun _ =>
      marks_behind (inert_ofExcept _) ha fun _ =>
        marks_behind (inert_requireBody .FOR body) ha fun _ => hround.map _).locate
      (Iff.trans ⟨?_, ?_⟩ (answers_of_ne_ret (by simp)).symm)
    · rintro ⟨typed, he, _, htype, _, hreq, v, b, hv, h⟩
      exact ⟨_, .round he (ofExcept_eq_ok htype).2 (requireBody_eq_ok hreq).2 hv, id, h⟩
    · rintro ⟨w, hbegins, hinner, hw⟩
      cases hbegins with
      | leading => exact absurd trivial hinner
      | round he htype hbody hv =>
        obtain rfl := (inert_expr iterable a).of_ok he
        refine ⟨_, he, ⟨⟩, ?_, ⟨⟩, ?_, _, _, hv, hw⟩
        · rw [htype]
          rfl
        · rw [requireBody_of_ne_nil .FOR hbody]
          rfl
  | whileLoop p e body ih =>
    refine Marks.congr (marks_behind (inert_condition e) ha fun _ =>
      (marks_block (fun s hs b hb => ih s hs hb) ha).map _).locate
      (Iff.trans ⟨?_, ?_⟩ (answers_of_ne_ret (by simp)).symm)
    · rintro ⟨typed, he, h⟩
      exact ⟨_, .turn he, id, h⟩
    · rintro ⟨w, hbegins, hinner, hw⟩
      cases hbegins with
      | leading => exact absurd trivial hinner
      | turn he =>
        obtain rfl := (inert_condition e a).of_ok he
        exact ⟨_, he, hw⟩
  | ret p value => exact ((marks_returned p value ha).congr answers_ret.symm).locate
  | unknown p label =>
    have hinert : Inert (stmt (.unknown p label)) := inert_throw nofun
    refine (marks_inert hinert ha).congr (iff_of_false id ?_)
    exact not_answers_of_ne_ret (by simp) fun w hw => by cases hw; trivial

theorem marks_statements (ss : List Stmt) (ha : Inside f a) :
    Marks f (stmts ss) a (Answers ⟨.statements ss, a⟩) :=
  marks_stmts (fun s _ _ hb => marks_stmt s hb) ha

/-! ## Methods -/

theorem marks_defineParams (ps : List Param) (types : List Ty) (ha : Inside f a) :
    Marks f (defineParams ps types) a False := by
  induction ps generalizing types a with
  | nil =>
    unfold defineParams
    exact marks_inert (inert_pure []) ha
  | cons p ps ih =>
    cases types with
    | nil => exact marks_inert (inert_pure []) ha
    | cons type types =>
      refine Marks.congr ((marks_define p.name type ha).before ha fun v b _ hb =>
        (ih types hb).map (v :: ·)) (by simp)

variable {m : Method} {types : List Ty} {returns : Option Ty}

theorem inside_methodStart (ha : a.Sound) (m : Method) (types : List Ty) (returns : Option Ty) :
    Inside ⟨a.store.functions.size⟩ (methodStart a m types returns) where
  sound := sound_methodStart ha m types returns
  own := rfl
  function := by simp [methodStart, begun, Store.defineFunction, Store.createFunction,
    Store.bindFunction]

theorem open_methodStart :
    (methodStart a m types returns).Open ⟨a.store.functions.size⟩ ↔ returns = none := by
  have hnew : (methodStart a m types returns).store.function ⟨a.store.functions.size⟩ =
      ⟨m.name, types, returns, .absent⟩ :=
    (Store.function_defineFunction a.store a.scope _ _).trans (if_pos rfl)
  rw [Analysis.Open, hnew]

/-- The values that a method returns are those that its body returns. -/
theorem answers_method (htypes : a.store.paramTypes m.params = .ok types)
    (hreturns : a.store.namedType m.returnType = .ok returns) :
    Answers ⟨.method m, a⟩ ↔ Answers ⟨.statements m.body, a.inBody m types returns⟩ := by
  rw [answers_iff]
  constructor
  · rintro (⟨p, e, hitem, -⟩ | ⟨w, hbegins, hw⟩)
    · cases hitem
    · cases hbegins with
      | body htypes' hreturns' =>
        rw [htypes] at htypes'
        rw [hreturns] at hreturns'
        cases htypes'
        cases hreturns'
        exact hw
  · exact fun h => .inr ⟨_, .body htypes hreturns, h⟩

theorem marks_methodBody (ha : a.Sound) :
    Marks ⟨a.store.functions.size⟩ (inScope do
        let slots ← defineParams m.params types
        return (slots, ← stmts m.body)) (methodStart a m types returns)
      (Answers ⟨.statements m.body, a.inBody m types returns⟩) := by
  let b := methodStart a m types returns
  have hb : Inside ⟨a.store.functions.size⟩ b := inside_methodStart ha m types returns
  obtain ⟨slots, hslots⟩ := exists_defineParams m.params types (b.enterFrame b.scope)
  have hbody := (marks_defineParams m.params types hb.enterFrame).before hb.enterFrame
    fun slots c _ hc => (marks_statements m.body hc).map (slots, ·)
  refine Marks.congr (hbody.inScope hb (keeps_steps (upholds_careful.keeps_body m types)))
    ⟨?_, fun h => ⟨slots, _, hslots, h⟩⟩
  rintro ⟨slots', c, hrun, h⟩
  cases hslots.symm.trans hrun
  exact h

/-- At the end of a method whose body is right its return type is known. -/
theorem ends_closed {r : α} (hf : f.index < a.store.functions.size) :
    Ends (do
        if ((← get).store.function f).returns.isNone then
          modify fun b => { b with store := b.store.setReturns f .nil }
        return r : Check α) a (fun _ b => ¬ b.Open f) fun _ _ => False := by
  refine ends_bind.mpr (ends_get.mpr ?_)
  split
  · intro hopen
    have hnone : ((a.store.setReturns f .nil).function f).returns = none := hopen
    rw [Store.function_setReturns, if_pos ⟨rfl, hf⟩] at hnone
    cases hnone
  · rename_i hsome
    exact fun hopen => hsome (Option.isNone_iff_eq_none.mpr hopen)

theorem ends_checkBody (ha : Inside f a) (outer : Option FunctionId)
    (h : Marks f (inScope do
        let slots ← defineParams m.params types
        return (slots, ← stmts m.body)) a A) :
    Ends (checkBody m types f outer) a (fun _ b => ¬ b.Open f)
      fun _ b => b.Open f ↔ a.Open f ∧ ¬ A := by
  refine ends_bind.mpr (ends_ensuring.mpr (h.ends.imp ?_ ?_))
  · rintro ⟨slots, body⟩ b ⟨hb, -⟩
    have hclosed := ends_closed (a := { b with own := outer }) (r :=
      (⟨m.position, m.name, m.params, m.returnType, f, slots, body⟩ : TypedMethod))
      (ha.evolves hb).function
    exact ends_modify.mpr (hclosed.imp (fun _ _ h => h) fun _ _ h => h.elim)
  · rintro e b ⟨hb, hA⟩
    exact ⟨fun h => have ho := Analysis.open_of_evolves hb ha.function h; ⟨ho, (hA ho).mp h⟩,
      fun ⟨ho, h⟩ => (hA ho).mpr h⟩

/-- The return type of a method stays open just if the method declares none, fails behind its head
and has returned nothing before. -/
theorem open_method (ha : a.Sound) (htypes : a.store.paramTypes m.params = .ok types)
    (hreturns : a.store.namedType m.returnType = .ok returns) :
    (state (method m a)).Open ⟨a.store.functions.size⟩ ↔
      returns = none ∧ (Visit.failure? ⟨.method m, a⟩).isSome ∧ ¬ Answers ⟨.method m, a⟩ := by
  have hends := ends_checkBody (inside_methodStart ha m types returns) a.own (marks_methodBody ha)
  rw [open_methodStart] at hends
  rw [answers_method htypes hreturns, Visit.failure?]
  dsimp only
  rw [method_eq htypes hreturns]
  cases hrun : checkBody m types ⟨a.store.functions.size⟩ a.own
      (methodStart a m types returns) with
  | ok typed b => exact iff_of_false (hends.of_ok hrun) (by simp [Attempt.failure?])
  | error e b =>
    refine Iff.trans (hends.of_error hrun) ?_
    simp [Attempt.failure?]

end Check

end BlockScript
