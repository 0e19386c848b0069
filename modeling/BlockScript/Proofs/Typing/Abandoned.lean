import BlockScript.Proofs.Typing.Unsettled

/-!
# Open signatures between requests

An analysis is asked to check one thing after the other, and between requests a function without a
return type is one that a failed check has left behind: the check came to a method without a
declared return type, made the function known and failed before the body had returned a value.
-/

namespace BlockScript

open Attempt Pass

/-- Where the analysis of the subject begins. -/
def Subject.item : Subject → Item
  | program p => .program p
  | method m => .method m
  | statement s => .statement s
  | expression e => .expression e

namespace Visit

variable {v w : Visit} {f : FunctionId} {a : Analysis}

/-- The analysis is at a method without a declared return type that it makes the function `f` known
for, and fails there before a value is returned. -/
def Abandons (f : FunctionId) (v : Visit) : Prop :=
  ∃ m, v.item = .method m ∧ f = ⟨v.state.store.functions.size⟩ ∧ m.returnType = none ∧
    (∃ types, v.state.store.paramTypes m.params = .ok types) ∧ v.failure?.isSome ∧ ¬ v.Answers

/-- In the course of the visit the analysis abandons a method, with its function `f`. -/
def LeavesOpen (f : FunctionId) : Visit → Prop := Meets (Abandons f)

theorem leavesOpen_iff : LeavesOpen f v ↔ Abandons f v ∨ ∃ w, v.Begins w ∧ LeavesOpen f w :=
  meets_iff

/-- The visit may come to methods. -/
def IsAroundMethods (v : Visit) : Prop :=
  match v.item with
  | .program _ | .methods _ | .method _ => True
  | _ => False

theorem not_isAroundMethods_of_begins (h : v.Begins w) (hv : ¬ v.IsAroundMethods) :
    ¬ w.IsAroundMethods := by
  cases h <;> first | exact id | exact absurd trivial hv

theorem not_leavesOpen (hv : ¬ v.IsAroundMethods) : ¬ LeavesOpen f v := by
  refine not_meets (K := fun v => ¬ v.IsAroundMethods)
    (fun _ _ => not_isAroundMethods_of_begins) ?_ hv
  rintro ⟨_, a⟩ hnot ⟨m, rfl, -⟩
  exact hnot trivial

/-- Within a method there are no others. -/
theorem leavesOpen_method {m : Method} :
    LeavesOpen f ⟨.method m, a⟩ ↔ Abandons f ⟨.method m, a⟩ := by
  rw [leavesOpen_iff]
  refine or_iff_left ?_
  rintro ⟨w, hbegins, hw⟩
  refine not_leavesOpen ?_ hw
  cases hbegins
  exact id

theorem not_leavesOpen_nil : ¬ LeavesOpen f ⟨.methods [], a⟩ := by
  rw [leavesOpen_iff]
  rintro (⟨m, hitem, -⟩ | ⟨w, hbegins, -⟩)
  · cases hitem
  · cases hbegins

theorem leavesOpen_cons {m : Method} {ms : List Method} :
    LeavesOpen f ⟨.methods (m :: ms), a⟩ ↔ Abandons f ⟨.method m, a⟩ ∨
      ∃ typed b, Check.method m a = .ok typed b ∧ LeavesOpen f ⟨.methods ms, b⟩ := by
  rw [leavesOpen_iff, ← leavesOpen_method]
  constructor
  · rintro (⟨m, hitem, -⟩ | ⟨w, hbegins, hw⟩)
    · cases hitem
    · cases hbegins with
      | method => exact .inl hw
      | nextMethod hm => exact .inr ⟨_, _, hm, hw⟩
  · rintro (hm | ⟨typed, b, hm, hms⟩)
    · exact .inr ⟨_, .method, hm⟩
    · exact .inr ⟨_, .nextMethod hm, hms⟩

theorem leavesOpen_program {p : Program} :
    LeavesOpen f ⟨.program p, a⟩ ↔ ∃ typed b, p.fields.mapM Check.field a = .ok typed b ∧
      LeavesOpen f ⟨.methods p.methods, b⟩ := by
  rw [leavesOpen_iff]
  constructor
  · rintro (⟨m, hitem, -⟩ | ⟨w, hbegins, hw⟩)
    · cases hitem
    · cases hbegins with
      | fields => exact absurd hw (not_leavesOpen id)
      | methods hfields => exact ⟨_, _, hfields, hw⟩
  · rintro ⟨typed, b, hfields, hw⟩
    exact .inr ⟨_, .methods hfields, hw⟩

end Visit

namespace Check

variable {α β : Type} {x : Check α} {g : α → Check β} {f : FunctionId} {a b c : Analysis}
  {A : Prop} {B : α → Analysis → Prop}

/-! ## New functions -/

/-- No functions are new. -/
def Counts (a b : Analysis) : Prop := b.store.functions.size = a.store.functions.size

instance : IsPreorder Analysis Counts where
  refl _ := rfl
  trans _ _ _ hab hbc := Eq.trans hbc hab

theorem counts_setReturns (f : FunctionId) (type : Ty) :
    Keeps Counts (modify fun b => { b with store := b.store.setReturns f type }) :=
  keeps_modify fun b => by simp [Counts, Store.setReturns]

theorem counts_define (name : String) (type : Ty) : Keeps Counts (define name type none) :=
  keeps_modifyGet fun _ => rfl

theorem counts_leaveFrame : Keeps Counts leaveFrame := by
  intro a
  refine ends_bind.mpr (ends_get.mpr ?_)
  split <;> rfl

theorem counts_inScope (hx : Keeps Counts x) : Keeps Counts (inScope x) :=
  Keeps.bind (keeps_modify fun _ => rfl) fun _ => hx.ensuring counts_leaveFrame

theorem upholds_counts : Upholds Counts where
  keeps_define := counts_define
  keeps_returned := keeps_returned_of_setReturns counts_setReturns
  keeps_inScope := counts_inScope

/-! ## Functions that are left open -/

/-- The function is new in the second state, and its return type is open there. -/
def Opens (f : FunctionId) (a b : Analysis) : Prop :=
  a.store.functions.size ≤ f.index ∧ f.index < b.store.functions.size ∧ b.Open f

theorem not_opens_of_counts (h : Counts a b) : ¬ Opens f a b := by
  rintro ⟨hlow, hhigh, -⟩
  rw [h] at hhigh
  omega

/-- What has been left open stays so. -/
theorem opens_trans (hab : a.store.Spares none b.store) (hbc : b.store.Spares none c.store) :
    Opens f a c ↔ Opens f a b ∨ Opens f b c := by
  have hopen (hf : f.index < b.store.functions.size) : c.Open f ↔ b.Open f := by
    rw [Analysis.Open, hbc.function f hf (Option.some_ne_none f).symm, Analysis.Open]
  have hfirst := hab.functions
  have hsecond := hbc.functions
  constructor
  · rintro ⟨hlow, hhigh, hc⟩
    by_cases hf : f.index < b.store.functions.size
    · exact .inl ⟨hlow, hf, (hopen hf).mp hc⟩
    · exact .inr ⟨Nat.le_of_not_lt hf, hhigh, hc⟩
  · rintro (⟨hlow, hhigh, hb⟩ | ⟨hlow, hhigh, hc⟩)
    · exact ⟨hlow, by omega, (hopen hhigh).mpr hb⟩
    · exact ⟨by omega, hhigh, hc⟩

/-- The attempt leaves the function open just if `A`, and spares what there was. -/
structure Adds (f : FunctionId) (x : Check α) (a : Analysis) (A : Prop) : Prop where
  guards : Guards a (state (x a))
  opens_iff : Opens f a (state (x a)) ↔ A

theorem Adds.congr {A' : Prop} (h : Adds f x a A) (hA : A ↔ A') : Adds f x a A' :=
  ⟨h.guards, h.opens_iff.trans hA⟩

theorem adds_counts (ha : a.Sound) (hown : a.own = none) (hx : Keeps Guarded x)
    (hcounts : Keeps Counts x) : Adds f x a False :=
  ⟨(hx a).state ha hown, iff_of_false (not_opens_of_counts (hcounts a).state) id⟩

theorem Adds.bind (h : Adds f x a A) (hown : a.own = none)
    (hB : ∀ r b, x a = .ok r b → b.Sound → b.own = none → Adds f (g r) b (B r b)) :
    Adds f (x >>= g) a (A ∨ ∃ r b, x a = .ok r b ∧ B r b) := by
  obtain ⟨hguards, hiff⟩ := h
  cases hrun : x a with
  | error e b =>
    rw [hrun] at hguards hiff
    have hstate : state ((x >>= g) a) = b := state_bind_of_error hrun
    refine ⟨hstate ▸ hguards, ?_⟩
    have hA : Opens f a b ↔ A := hiff
    rw [hstate]
    simpa using hA
  | ok r b =>
    rw [hrun] at hguards hiff
    have hstate : state ((x >>= g) a) = state (g r b) := state_bind_of_ok hrun
    have hlast := hB r b hrun hguards.sound (hguards.own.trans hown)
    refine ⟨hstate ▸ hguards.trans hlast.guards, ?_⟩
    have hA : Opens f a b ↔ A := hiff
    have hthen : Opens f a (state (g r b)) ↔ Opens f a b ∨ Opens f b (state (g r b)) :=
      opens_trans hguards.spares hlast.guards.spares
    rw [hstate, hthen, hA, hlast.opens_iff]
    simp

theorem Adds.map (h : Adds f x a A) (k : α → β) :
    Adds f (x >>= fun r => pure (k r)) a A := by
  have hstate := state_bind_pure x k a
  exact ⟨hstate ▸ h.guards, hstate ▸ h.opens_iff⟩

open Visit

/-- A method whose signature is wrong gets no function. -/
theorem state_method_of_error {m : Method} {cause : Cause} (h : (do
      return (← a.store.paramTypes m.params, ← a.store.namedType m.returnType) :
      Except Cause (List Ty × Option Ty)) = .error cause) : state (method m a) = a :=
  state_bind_of_error (locate_of_error (ask_of_error h))

theorem opens_method (ha : a.Sound) (m : Method) :
    Opens f a (state (method m a)) ↔ Abandons f ⟨.method m, a⟩ := by
  cases hsignature : (do
      return (← a.store.paramTypes m.params, ← a.store.namedType m.returnType) :
      Except Cause (List Ty × Option Ty)) with
  | error cause =>
    rw [state_method_of_error hsignature]
    refine iff_of_false (not_opens_of_counts (refl_of Counts a)) ?_
    rintro ⟨m', hitem, -, hreturns, ⟨types, htypes⟩, -⟩
    cases hitem
    rw [htypes, hreturns] at hsignature
    cases hsignature
  | ok signature =>
    obtain ⟨types, htypes, hrest⟩ := Store.bind_eq_ok.mp hsignature
    obtain ⟨returns, hreturns, hpure⟩ := Store.bind_eq_ok.mp hrest
    have hsize : (state (method m a)).store.functions.size = a.store.functions.size + 1 := by
      rw [method_eq htypes hreturns]
      have hbody := upholds_counts.keeps_checkBody counts_setReturns fun _ => keeps_modify fun _ =>
        rfl
      refine (hbody m types _ a.own _).state.trans ?_
      simp [methodStart, begun, Store.defineFunction, Store.createFunction, Store.bindFunction]
    have hnone : returns = none ↔ m.returnType = none := by
      cases hdeclared : m.returnType with
      | none =>
        rw [hdeclared] at hreturns
        cases hreturns
        simp
      | some name =>
        rw [hdeclared] at hreturns
        obtain ⟨type, -, hpure⟩ := Store.bind_eq_ok.mp hreturns
        cases hpure
        simp
    have hopen := open_method ha htypes hreturns
    constructor
    · rintro ⟨hlow, hhigh, hf⟩
      have heq : f = ⟨a.store.functions.size⟩ := by
        cases f
        simp only [FunctionId.mk.injEq]
        dsimp only at hlow hhigh
        omega
      subst heq
      obtain ⟨hr, hfails, hanswers⟩ := hopen.mp hf
      exact ⟨m, rfl, rfl, hnone.mp hr, ⟨types, htypes⟩, hfails, hanswers⟩
    · rintro ⟨m', hitem, rfl, hr, -, hfails, hanswers⟩
      cases hitem
      exact ⟨Nat.le_refl _, by rw [hsize]; exact Nat.lt_succ_self _,
        hopen.mpr ⟨hnone.mpr hr, hfails, hanswers⟩⟩

theorem adds_method (ha : a.Sound) (hown : a.own = none) (m : Method) :
    Adds f (method m) a (Abandons f ⟨.method m, a⟩) :=
  ⟨((guarded_method m) a).state ha hown, opens_method ha m⟩

theorem adds_methods (ha : a.Sound) (hown : a.own = none) (ms : List Method) :
    Adds f (ms.mapM method) a (LeavesOpen f ⟨.methods ms, a⟩) := by
  induction ms generalizing a with
  | nil =>
    rw [List.mapM_nil]
    exact (adds_counts ha hown (keeps_pure []) (keeps_pure [])).congr
      (iff_of_false id not_leavesOpen_nil)
  | cons m ms ih =>
    rw [List.mapM_cons]
    exact ((adds_method ha hown m).bind hown fun typed b _ hb hown' =>
      (ih hb hown').map (typed :: ·)).congr leavesOpen_cons.symm

theorem adds_program (ha : a.Sound) (hown : a.own = none) (p : Program) :
    Adds f (program p) a (LeavesOpen f ⟨.program p, a⟩) := by
  have hfields : Adds f (p.fields.mapM field) a False := adds_counts ha hown
    (keeps_mapM fun d _ => keeps_guarded (upholds_careful.keeps_binding d).locate)
    (keeps_mapM fun d _ => (upholds_counts.keeps_binding d).locate)
  have hentry : Keeps Counts entryPoint := keeps_entryPoint (keeps_modify fun _ => rfl)
  refine Adds.congr (hfields.bind hown fun fields b _ hb hown' =>
    (adds_methods hb hown' p.methods).bind hown' (B := fun _ _ => False)
      fun methods c _ hc hown'' =>
        (adds_counts hc hown'' guarded_entryPoint hentry).map
          fun _ => (⟨fields, methods⟩ : TypedProgram)) ?_
  rw [leavesOpen_program]
  simp

/-- What a check leaves open is what it has abandoned. -/
theorem adds_check (ha : a.Sound) (hown : a.own = none) (x : Subject) :
    Adds f x.check a (LeavesOpen f ⟨x.item, a⟩) := by
  cases x with
  | program p => exact (adds_program ha hown p).map fun _ => ()
  | method m => exact ((adds_method ha hown m).congr leavesOpen_method.symm).map fun _ => ()
  | statement s =>
    have hstmt : Adds f (stmt s) a False :=
      adds_counts ha hown (keeps_guarded (upholds_careful.keeps_stmt s))
        (upholds_counts.keeps_stmt s)
    exact (hstmt.congr (iff_of_false id (not_leavesOpen id))).map fun _ => ()
  | expression e =>
    have hexpr : Adds f (expr e) a False :=
      adds_counts ha hown (inert_expr e).keeps (inert_expr e).keeps
    exact (hexpr.congr (iff_of_false id (not_leavesOpen id))).map fun _ => ()

end Check

/-! ## Requests -/

namespace Analysis

/-- What an analysis can be asked for. -/
inductive Request
  | check (x : Subject)
  | enter
  | exit

/-- The analysis after the request, in success and failure. -/
def Request.after (a : Analysis) : Request → Analysis
  | check x => state (x.check a)
  | enter => a.enterFrame a.scope
  | exit => state (leaveFrame a)

/-- The analysis between two requests, and the requests before, the latest first, each with the
state that it was made in. The analysis has begun in the store `s` with a scope inside `parent`. -/
inductive Between (s : Store) (parent : Option FrameId) :
    List (Request × Analysis) → Analysis → Prop
  | start : Between s parent [] (.start s parent)
  | after {history : List (Request × Analysis)} {a : Analysis} (h : Between s parent history a)
      (r : Request) : Between s parent ((r, a) :: history) (r.after a)

variable {s : Store} {parent : Option FrameId} {history : List (Request × Analysis)}
  {a : Analysis} {f : FunctionId}

theorem own_leaveFrame (a : Analysis) : (state (leaveFrame a)).own = a.own := by
  unfold leaveFrame
  rw [get_bind]
  cases (a.store.frame a.scope).parent <;> rfl

theorem store_leaveFrame (a : Analysis) : (state (leaveFrame a)).store = a.store := by
  unfold leaveFrame
  rw [get_bind]
  cases (a.store.frame a.scope).parent <;> rfl

/-- The analysis is in no method, and all that there was in the store `s` is spared. -/
structure Idle (s : Store) (a : Analysis) : Prop where
  sound : a.Sound
  own : a.own = none
  spares : s.Spares none a.store

theorem idle_start (hs : s.WellFormed) (hparent : ∀ p ∈ parent, s.Has p) :
    Idle (Analysis.start s parent).store (.start s parent) :=
  ⟨⟨hs.createRoot hparent nofun, Store.has_createRoot s parent .absent⟩, rfl, .refl _ _⟩

theorem Idle.trans {b : Analysis} (ha : Idle s a) (hb : Idle a.store b) : Idle s b :=
  ⟨hb.sound, hb.own, ha.spares.trans hb.spares⟩

theorem idle_after (ha : a.Sound) (hown : a.own = none) (r : Request) :
    Idle a.store (r.after a) := by
  cases r with
  | check x =>
    have h := ((Check.leaving_check x) a).state ha
    exact ⟨h.sound, h.own.trans hown, hown ▸ h.spares⟩
  | enter => exact ⟨ha.enterFrame ha.scope, hown, Store.spares_createFrame a.store _⟩
  | exit =>
    refine ⟨sound_leaveFrame ha, (own_leaveFrame a).trans hown, ?_⟩
    have hstore : (Request.exit.after a).store = a.store := store_leaveFrame a
    rw [hstore]
    exact .refl _ _

theorem Request.opens_after (ha : a.Sound) (hown : a.own = none) (r : Request) :
    Check.Opens f a (r.after a) ↔ ∃ x, r = .check x ∧ Visit.LeavesOpen f ⟨x.item, a⟩ := by
  cases r with
  | check x =>
    have h := (Check.adds_check (f := f) ha hown x).opens_iff
    refine h.trans ⟨fun hx => ⟨x, rfl, hx⟩, ?_⟩
    rintro ⟨x', ⟨⟩, hx⟩
    exact hx
  | enter =>
    refine iff_of_false (Check.not_opens_of_counts rfl) ?_
    rintro ⟨x, ⟨⟩, -⟩
  | exit =>
    have hcounts := (Check.counts_leaveFrame a).state
    refine iff_of_false (Check.not_opens_of_counts hcounts) ?_
    rintro ⟨x, ⟨⟩, -⟩

section

variable (hs : s.WellFormed) (hparent : ∀ p ∈ parent, s.Has p)
include hs hparent

theorem Between.idle (h : Between s parent history a) :
    Idle (Analysis.start s parent).store a := by
  induction h with
  | start => exact idle_start hs hparent
  | after _ r ih => exact ih.trans (idle_after ih.sound ih.own r)

/-- What is open was left so by a request before. -/
theorem Between.opens_iff (h : Between s parent history a) :
    Check.Opens f (.start s parent) a ↔
      ∃ x b, (.check x, b) ∈ history ∧ Visit.LeavesOpen f ⟨x.item, b⟩ := by
  induction h with
  | start => exact iff_of_false (Check.not_opens_of_counts rfl) (by simp)
  | @after history a h r ih =>
    have ha := h.idle hs hparent
    have hafter := idle_after ha.sound ha.own r
    rw [Check.opens_trans ha.spares hafter.spares, ih, r.opens_after ha.sound ha.own]
    simp only [List.mem_cons, Prod.mk.injEq]
    constructor
    · rintro (⟨x, b, hmem, hx⟩ | ⟨x, rfl, hx⟩)
      · exact ⟨x, b, .inr hmem, hx⟩
      · exact ⟨x, a, .inl ⟨rfl, rfl⟩, hx⟩
    · rintro ⟨x, b, ⟨rfl, rfl⟩ | hmem, hx⟩
      · exact .inr ⟨x, rfl, hx⟩
      · exact .inl ⟨x, b, hmem, hx⟩

/-- Between requests a function of the analysis has no return type just if a check before has
abandoned it. -/
theorem Between.returns_eq_none_iff (h : Between s parent history a)
    (hnew : (Analysis.start s parent).store.functions.size ≤ f.index)
    (hf : f.index < a.store.functions.size) :
    (a.store.function f).returns = none ↔
      ∃ x b, (.check x, b) ∈ history ∧ Visit.LeavesOpen f ⟨x.item, b⟩ := by
  rw [← h.opens_iff hs hparent]
  exact ⟨fun hopen => ⟨hnew, hf, hopen⟩, fun hopens => hopens.2.2⟩

end

/-- In a scope of its own, `main` has returned a variable that is not there. -/
theorem returns_eq_none_iff_failing : ∃ history a, Store.initial.WellFormed ∧
    (∀ p ∈ (none : Option FrameId), Store.initial.Has p) ∧ Between .initial none history a ∧
    history.length = 2 ∧ (Analysis.start .initial none).store.functions.size ≤ 8 ∧
    8 < a.store.functions.size ∧
    ∃ x b, (.check x, b) ∈ history ∧ Visit.LeavesOpen ⟨8⟩ ⟨x.item, b⟩ := by
  let m : Method := ⟨.start, "main", [], none, [.ret .start (.name .start "x")]⟩
  let a : Analysis := Request.enter.after (.start .initial none)
  let b : Analysis := (Request.check (.program ⟨[], [m]⟩)).after a
  have hs := Store.wellFormed_initial
  have h : Between .initial none _ b := .after (.after .start .enter) (.check (.program ⟨[], [m]⟩))
  have hnew : (Analysis.start .initial none).store.functions.size ≤ 8 := by decide +kernel
  have hf : 8 < b.store.functions.size := by decide +kernel
  exact ⟨_, b, hs, by simp, h, rfl, hnew, hf,
    (h.returns_eq_none_iff (f := ⟨8⟩) hs (by simp) hnew hf).mp (by decide +kernel)⟩

/-- The frames of the analysis have a function without a return type between requests. -/
theorem open_between : ∃ x a, Between .initial none [(.check x, .start .initial none)] a ∧
    (result (x.check (.start .initial none))).isOk = false ∧
    (Analysis.start .initial none).store.functions.size ≤ 8 ∧ 8 < a.store.functions.size ∧
    a.store.findFunction? a.scope "main" 0 = some ⟨8⟩ ∧
    (a.store.function ⟨8⟩).returns = none := by
  let m : Method := ⟨.start, "main", [], none, [.ret .start (.name .start "x")]⟩
  have h : Between .initial none _ _ := .after .start (.check (.program ⟨[], [m]⟩))
  exact ⟨_, _, h, by decide +kernel, by decide +kernel, by decide +kernel, by decide +kernel,
    by decide +kernel⟩

end Analysis

end BlockScript
