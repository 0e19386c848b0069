import BlockScript.Pass
import BlockScript.Proofs.Pass.Outcome
import BlockScript.Proofs.Store.Lookup

/-!
# How passes evolve

A pass only ever adds to its store, and whatever it enters it leaves again. `Evolves` says so of the
state before a part of a program and the state after it; statements may declare variables in the
scope that they stand in, expressions may not.
-/

namespace BlockScript.Pass

open Attempt Store

variable {ρ α β : Type} {a b c : Pass ρ} {declares : Bool}

/-- The store is well-formed and has the current scope. -/
structure Sound (a : Pass ρ) : Prop where
  store : a.store.WellFormed
  scope : a.store.Has a.scope

/-- The frame that may get new variables. -/
def declaring (a : Pass ρ) (declares : Bool) : Option FrameId :=
  if declares then some a.scope else none

/-- What is the same after a part of a program, and that the state is then sound again. -/
structure Evolves (declares : Bool) (a b : Pass ρ) : Prop where
  sound : b.Sound
  scope : b.scope = a.scope
  own : b.own = a.own
  grows : a.store.Grows (a.declaring declares) b.store
  functions : (b.store.frame a.scope).functions = (a.store.frame a.scope).functions

theorem Evolves.refl (h : a.Sound) : a.Evolves declares a := ⟨h, rfl, rfl, .refl _ _, rfl⟩

theorem Evolves.trans (hab : a.Evolves declares b) (hbc : b.Evolves declares c) :
    a.Evolves declares c := by
  have hown : b.declaring declares = a.declaring declares := by
    rw [declaring, declaring, hab.scope]
  have hfunctions := hbc.functions
  rw [hab.scope, hab.functions] at hfunctions
  refine ⟨hbc.sound, hbc.scope.trans hab.scope, hbc.own.trans hab.own, ?_, hfunctions⟩
  exact hab.grows.trans (hown ▸ hbc.grows)

theorem Evolves.of_false (h : a.Evolves false b) (declares : Bool) : a.Evolves declares b :=
  ⟨h.sound, h.scope, h.own, h.grows.of_none _, h.functions⟩

/-- A state with a grown store in which the scope has the same functions. -/
theorem Evolves.of_grows {s : Store} (h : a.Sound) (hs : s.WellFormed)
    (hgrows : a.store.Grows none s) : a.Evolves declares { a with store := s } where
  sound := ⟨hs, hgrows.has h.scope⟩
  scope := rfl
  own := rfl
  grows := hgrows.of_none _
  functions := by rw [hgrows.frame _ h.scope nofun]

/-- Functions mean the same afterwards in all scopes that there were. -/
theorem Evolves.findFunction? (h : a.Evolves declares b) (ha : a.Sound) {f : FrameId}
    (hf : a.store.Has f) (name : String) (arity : Nat) :
    b.store.findFunction? f name arity = a.store.findFunction? f name arity := by
  refine h.grows.findFunction? ha.store h.sound.store hf (fun o ho => ?_) name arity
  unfold declaring at ho
  split at ho
  · cases ho
    exact h.functions
  · cases ho

/-- As `Evolves`, for a part that may also define functions in its own scope. -/
structure Extends (a b : Pass ρ) : Prop where
  sound : b.Sound
  scope : b.scope = a.scope
  own : b.own = a.own
  grows : a.store.Grows (some a.scope) b.store

theorem Evolves.extends (h : a.Evolves declares b) : a.Extends b := by
  refine ⟨h.sound, h.scope, h.own, ?_⟩
  have hgrows := h.grows
  unfold declaring at hgrows
  split at hgrows
  · exact hgrows
  · exact hgrows.of_none _

theorem Extends.refl (h : a.Sound) : a.Extends a := ⟨h, rfl, rfl, .refl _ _⟩

theorem Extends.trans (hab : a.Extends b) (hbc : b.Extends c) : a.Extends c :=
  ⟨hbc.sound, hbc.scope.trans hab.scope, hbc.own.trans hab.own,
    hab.grows.trans (hab.scope ▸ hbc.grows)⟩

theorem Extends.defineFunction (h : a.Sound) {fn : Function}
    (hfn : ∀ m c, fn.body = .method m c → a.store.Has c) :
    a.Extends { a with store := (a.store.defineFunction a.scope fn).2 } :=
  have hgrows := grows_defineFunction a.store a.scope fn
  ⟨⟨h.store.defineFunction a.scope hfn, hgrows.has h.scope⟩, rfl, rfl, hgrows⟩

/-- States that evolve if they are sound. -/
def Steps (declares : Bool) (a b : Pass ρ) : Prop := a.Sound → a.Evolves declares b

instance : IsPreorder (Pass ρ) (Steps declares) where
  refl _ h := .refl h
  trans _ _ _ hab hbc ha := (hab ha).trans (hbc (hab ha).sound)

/-- States of which the second extends the first if that is sound. -/
def Broadens (a b : Pass ρ) : Prop := a.Sound → a.Extends b

instance : IsPreorder (Pass ρ) Broadens where
  refl _ h := .refl h
  trans _ _ _ hab hbc ha := (hab ha).trans (hbc (hab ha).sound)

theorem keeps_broadens {x : Attempt (Pass ρ) α} (h : Keeps (Steps declares) x) :
    Keeps Broadens x :=
  fun a => (h a).imp (fun _ _ hab ha => (hab ha).extends) fun _ _ hab ha => (hab ha).extends

theorem keeps_of_false {x : Attempt (Pass ρ) α} (h : Keeps (Steps false) x) (declares : Bool) :
    Keeps (Steps declares) x :=
  fun a => (h a).imp (fun _ _ hab ha => (hab ha).of_false declares) fun _ _ hab ha =>
    (hab ha).of_false declares

theorem keeps_declares {x : Attempt (Pass ρ) α} (h : Keeps (Steps declares) x) :
    Keeps (Steps true) x := by
  cases declares with
  | false => exact keeps_of_false h true
  | true => exact h

/-! ## Steps -/

theorem Evolves.note (h : a.Sound) (event : Event) :
    a.Evolves declares { a with log := event :: a.log } :=
  ⟨⟨h.store, h.scope⟩, rfl, rfl, .refl _ _, rfl⟩

theorem Extends.note (h : a.Sound) (event : Event) :
    a.Extends { a with log := event :: a.log } :=
  ⟨⟨h.store, h.scope⟩, rfl, rfl, .refl _ _⟩

theorem keeps_note (event : Event) : Keeps (Steps declares) (note event : Attempt (Pass ρ) Unit) :=
  keeps_modify fun _ h => .note h event

theorem inert_ask (question : Store → FrameId → Except Cause α) :
    Inert (ask question : Attempt (Pass ρ) α) :=
  inert_get.bind fun _ => inert_ofExcept _

theorem keeps_ask (question : Store → FrameId → Except Cause α) :
    Keeps (Steps declares) (ask question : Attempt (Pass ρ) α) :=
  (inert_ask question).keeps

theorem Evolves.define (h : a.Sound) (slot : Slot) :
    a.Evolves true { a with store := (a.store.defineSlot a.scope slot).2 } := by
  have hgrows := grows_defineSlot a.store a.scope slot
  refine ⟨⟨h.store.defineSlot a.scope slot, hgrows.has h.scope⟩, rfl, rfl, hgrows, ?_⟩
  dsimp only
  rw [frame_defineSlot]
  split <;> rfl

theorem keeps_define (name : String) (type : Ty) (value : Option Value) :
    Keeps (Steps true) (define name type value : Attempt (Pass ρ) SlotId) :=
  keeps_modifyGet fun _ h => .define h ⟨name, type, value⟩

theorem Evolves.assign (h : a.Sound) (v : SlotId) (value : Value) :
    a.Evolves declares { a with store := a.store.assign v value } :=
  .of_grows h (h.store.assign v value) (grows_assign a.store v value)

theorem Sound.assign (h : a.Sound) (v : SlotId) (value : Value) :
    Sound { a with store := a.store.assign v value } :=
  ⟨h.store.assign v value, h.scope⟩

theorem finds_ask {question : Store → FrameId → Except Cause α} {P : α → Prop}
    (h : ∀ x, question a.store a.scope = .ok x → P x) : Finds (ask question) a P :=
  finds_get.bind fun b hb => by
    subst hb
    exact finds_ofExcept h

/-- A question that has been answered. -/
theorem ask_eq_ok {question : Store → FrameId → Except Cause α} {r : α}
    (h : (ask question : Attempt (Pass ρ) α) a = .ok r b) :
    b = a ∧ question a.store a.scope = .ok r :=
  (finds_ask (P := fun r => question a.store a.scope = .ok r) fun _ hr => hr).of_ok h

theorem ask_of_ok {question : Store → FrameId → Except Cause α} {r : α}
    (h : question a.store a.scope = .ok r) : (ask question : Attempt (Pass ρ) α) a = .ok r a := by
  change (ofExcept (question a.store a.scope) : Attempt (Pass ρ) α) a = _
  rw [h]
  rfl

theorem finds_slot (id : String) :
    Finds (ask fun s f => s.lookupSlot f id) a fun v => a.store.findSlot? a.scope id = some v :=
  finds_ask fun _ hv => lookupSlot_eq_ok.mp hv

theorem finds_function (name : String) (arity : Nat) :
    Finds (ask fun s f => s.lookupFunction f name arity) a fun f =>
      a.store.findFunction? a.scope name arity = some f :=
  finds_ask fun _ hf => lookupFunction_eq_ok.mp hf

theorem finds_field (type : Ty) (name : String) :
    Finds (ask fun s _ => s.lookupField type name) a fun v =>
      (a.store.membersOf type).fields.find? name = some v :=
  finds_ask fun _ hv => lookupField_eq_ok.mp hv

theorem finds_method (type : Ty) (name : String) (arguments : Nat) :
    Finds (ask fun s _ => s.lookupMethod type name arguments) a fun f =>
      a.store.findMethod? type name arguments = some f :=
  finds_ask fun _ hf => lookupMethod_eq_ok.mp hf

/-! ## Scopes -/

/-- The state that a part of a program began in, with what that part left in the store. -/
def leave (a b : Pass ρ) : Pass ρ := { b with scope := a.scope, own := a.own }

/-- What came of a part of a program, when the pass is back where that part began. -/
def backTo (a : Pass ρ) : EStateM.Result Failure (Pass ρ) α → EStateM.Result Failure (Pass ρ) α
  | .ok r b => .ok r (a.leave b)
  | .error e b => .error e (a.leave b)

theorem ensuring_eq_backTo {x : Attempt (Pass ρ) α} {after : Attempt (Pass ρ) Unit}
    (h : Ends x b (fun _ c => after c = .ok () (a.leave c)) fun _ c =>
      after c = .ok () (a.leave c)) :
    ensuring x after b = a.backTo (x b) := by
  unfold Ends at h
  unfold ensuring
  cases hx : x b with
  | ok r c =>
    rw [hx] at h
    change EStateM.bind after _ c = _
    simp only [EStateM.bind, h]
    rfl
  | error e c =>
    rw [hx] at h
    change EStateM.bind after _ c = _
    simp only [EStateM.bind, h]
    rfl

theorem ends_backTo {Q : α → Pass ρ → Prop} {E : Failure → Pass ρ → Prop}
    {x y : Attempt (Pass ρ) α} (h : x c = a.backTo (y b)) :
    Ends x c Q E ↔ Ends y b (fun r c => Q r (a.leave c)) fun e c => E e (a.leave c) := by
  unfold Ends
  rw [h]
  cases y b <;> rfl

theorem Sound.enterFrame (h : a.Sound) {parent : FrameId} (hp : a.store.Has parent) :
    (a.enterFrame parent).Sound := by
  refine ⟨h.store.createFrame fun p hp' => ?_, ?_⟩
  · cases hp'
    exact hp
  · simp [Has, Pass.enterFrame, createFrame]

/-- What a part of a program did inside a new frame, seen from outside. -/
theorem Evolves.leave {parent : FrameId} (h : a.Sound)
    (hb : b.store = (a.store.createFrame (some parent)).2)
    (hscope : b.scope = ⟨a.store.frames.size⟩)
    (hbc : b.Evolves true c) : a.Evolves false (a.leave c) := by
  have hgrows : a.store.Grows none c.store := by
    have hc := hbc.grows
    rw [declaring, if_pos rfl, hscope, hb] at hc
    exact hc.of_createFrame
  refine ⟨⟨hbc.sound.store, hgrows.has h.scope⟩, rfl, rfl, hgrows, ?_⟩
  exact congrArg Frame.functions (hgrows.frame a.scope h.scope nofun)

theorem Evolves.inScope (h : a.Sound) (hb : (a.enterFrame a.scope).Evolves true b) :
    a.Evolves false (a.leave b) :=
  .leave h rfl rfl hb

/-- The frame around a new frame is the one that it was made in, whatever happens inside. -/
theorem leaveFrame_eq (h : a.Sound) (hb : (a.enterFrame a.scope).Evolves true b) :
    leaveFrame b = .ok () (a.leave b) := by
  have hparent : (b.store.frame b.scope).parent = some a.scope := by
    rw [hb.scope, hb.grows.parent _ (h.enterFrame h.scope).scope]
    exact congrArg Frame.parent ((frame_createFrame a.store _ _).trans (if_pos rfl))
  have hown : b.own = a.own := hb.own
  unfold leaveFrame
  simp only [get_bind, hparent]
  rw [Pass.leave, ← hown]
  rfl

/-- A scope is left for the one that it was entered from. -/
theorem inScope_eq {x : Attempt (Pass ρ) α} (h : a.Sound) (hx : Keeps (Steps true) x) :
    inScope x a = a.backTo (x (a.enterFrame a.scope)) :=
  ensuring_eq_backTo <| (hx _).imp (fun _ _ hb => leaveFrame_eq h (hb (h.enterFrame h.scope)))
    fun _ _ hb => leaveFrame_eq h (hb (h.enterFrame h.scope))

/-- What happened in a scope of its own, as far as the store tells. -/
theorem gives_inScope {x : Attempt (Pass ρ) α} {Q : α → Store → Prop} (h : a.Sound)
    (hx : Gives x (a.enterFrame a.scope) fun r b =>
      (a.enterFrame a.scope).Evolves true b ∧ Q r b.store) :
    Gives (inScope x) a fun r b => a.Evolves false b ∧ Q r b.store := by
  refine Gives.ensuring (s := a.enterFrame a.scope) hx ?_
  rintro r b ⟨hb, hr⟩
  unfold Gives Ends
  rw [leaveFrame_eq h hb]
  exact ⟨hb.inScope h, hr⟩

/-- What happened while the pass kept something else for itself. -/
theorem gives_ensuring_own {own : ρ} {x : Attempt (Pass ρ) α} {Q : α → Store → Prop}
    (hx : Gives x { a with own } fun r b => Evolves declares { a with own } b ∧ Q r b.store) :
    Gives (ensuring x (modify fun b => { b with own := a.own })) { a with own } fun r b =>
      a.Evolves declares b ∧ Q r b.store := by
  refine Gives.ensuring hx ?_
  rintro r b ⟨hb, hr⟩
  exact gives_modify ⟨⟨⟨hb.sound.store, hb.sound.scope⟩, hb.scope, rfl, hb.grows, hb.functions⟩, hr⟩

theorem keeps_inScope {x : Attempt (Pass ρ) α} (hx : Keeps (Steps true) x) :
    Keeps (Steps false) (inScope x) := by
  intro a
  refine ends_imp.mpr fun h => ?_
  rw [ends_backTo (inScope_eq h hx)]
  refine (hx _).imp ?_ ?_
  · intro _ b hb
    exact (hb (h.enterFrame h.scope)).inScope h
  · intro _ b hb
    exact (hb (h.enterFrame h.scope)).inScope h

end BlockScript.Pass
