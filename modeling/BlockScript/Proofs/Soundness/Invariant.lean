import BlockScript.Proofs.Execution.Growth
import BlockScript.Proofs.Soundness.Conditions
import BlockScript.Proofs.Soundness.Trace

/-!
# The invariant of a watched run

A run is followed in a `Setting`, which says what the analysis has found out. The invariant relates
the store of the machine to it. How much it says of values depends on the `Strictness` of the
setting: names always have their meaning, and types count as far as the program allows.
-/

namespace BlockScript

open Attempt Pass

/-- What counts in a run besides names. -/
structure Strictness where
  /-- Values have the types that the analysis says, or are nil. -/
  strict : Prop
  /-- A value is nil only where its type says so. -/
  total : Prop
  /-- No failure is a matter of types. -/
  benign : Prop
  strict_of_total : total → strict
  total_of_benign : benign → total

namespace Strictness

/-- Only names count. -/
def names : Strictness := ⟨False, False, False, id, id⟩

/-- Values have their types or are nil. -/
def kinds : Strictness := ⟨True, False, False, nofun, nofun⟩

/-- Values have their types. -/
def values : Strictness := ⟨True, True, False, fun _ => trivial, nofun⟩

/-- Everything counts. -/
def full : Strictness := ⟨True, True, True, fun _ => trivial, fun _ => trivial⟩

end Strictness

/-- What is fixed during a run. -/
structure Setting extends Strictness where
  /-- The store that analysis and run both began with. -/
  known : Store
  /-- The last store of the analysis. -/
  final : Store
  /-- The methods of the program by their functions in the run. -/
  code : Watch.Code
  /-- The scope of the program in the run. -/
  root : FrameId
  /-- What names stand for in the scope of the program, by the analysis. -/
  globals : Context
  /-- The function `print`, in the analysis and in the run. -/
  printing : FunctionId × FunctionId
  /-- What a name and an arity are bound to by the analysis, and what they lead to in the run. -/
  leads : String → Nat → FunctionId → FunctionId → Prop
  /-- What was seen before. -/
  before : List Observation

namespace Setting

variable (σ : Setting)

def Stands (t : List Observation) : SlotId → SlotId → Prop :=
  BlockScript.Stands σ.known.slots.size t

/-- The value is one of the type, as far as types count. -/
def Fits (v : Value) (t : Ty) : Prop := σ.strict → v.Meets σ.total t

/-- Values that fit the types of parameters one by one. -/
def Suits (args : List Value) (params : List Ty) : Prop :=
  σ.strict → List.Forall₂ (Value.Meets σ.total) args params

/-- A call that goes to `f` by the analysis may go to `g` in the run: to the same function of the
language, or to a method with the same types. Where types do not count, any function will do. -/
def Means (f g : FunctionId) : Prop :=
  σ.strict → (f = g ∧ f.index < σ.known.functions.size) ∨ (f, g) = σ.printing ∨
    ∃ m, σ.code g = some m ∧
      (σ.final.function m.function).types = (σ.final.function f).types

/-- A call leads to where it should, and the body of a method is what then runs. -/
def Dispatches : Observation → Prop
  | .called name arity f found => ∃ g body, found = some (g, body) ∧ σ.leads name arity f g ∧
    ∀ m, σ.code g = some m → body = .method m.erase σ.root
  | _ => True

/-- What is seen in this setting: calls lead to where they should. -/
def Dispatched (t : List Observation) : Prop :=
  ∃ later, t = later ++ σ.before ∧ ∀ o ∈ later, σ.Dispatches o

/-- The invariant. -/
structure Valid (s : Store) (t : List Observation) : Prop where
  wellFormed : s.WellFormed
  known : σ.known.Refines s
  resolves : Resolves σ.known.slots.size t
  typed : σ.total → ∀ o ∈ t, o.Typed σ.final
  dispatched : σ.Dispatched t
  bound : ∀ slot v, σ.Stands t slot v → v.index < s.slots.size
  unique : ∀ slot slot' v, σ.Stands t slot v → σ.Stands t slot' v → slot = slot'
  values : ∀ slot v, σ.Stands t slot v →
    σ.Fits ((s.slot v).value.getD .nil) (σ.final.slot slot).type
  root : s.Has σ.root
  globals : σ.globals.Agrees (σ.Stands t) σ.leads (s.context σ.root)
  function : ∀ g m, σ.code g = some m → g.index < s.functions.size
  methods : ∀ g m, σ.code g = some m → Run.Implements (s.function g) m.erase σ.root
  print : σ.strict → σ.printing.2.index < s.functions.size ∧
    (s.function σ.printing.2).body = .print

/-- The invariant holds, and the machine stands in a scope of its store. -/
structure Ready (w : Watched) : Prop where
  valid : σ.Valid w.machine.store w.trace
  scope : w.machine.store.Has w.machine.scope

/-- A failure after which the trace is sound, and which is no matter of types if that counts. -/
structure Fails (e : Failure) (w : Watched) : Prop where
  trace : SoundTrace σ.total σ.known.slots.size σ.final w.trace
  dispatched : σ.Dispatched w.trace
  benign : σ.benign → e.IsBenign

/-- Where the machine stands, names stand for what the context says. -/
def Agrees (Γ : Context) (w : Watched) : Prop :=
  Γ.Agrees (σ.Stands w.trace) σ.leads w.machine.context

end Setting

/-- What is the same after a part of a program. -/
structure Watched.Evolves (declares : Bool) (w v : Watched) : Prop where
  machine : w.machine.Evolves declares v.machine
  trace : w.trace <:+ v.trace

/-- `x` keeps the invariant, and what it gives is as `Q` says. -/
def Setting.Safe (σ : Setting) (declares : Bool) {α : Type} (x : Watch α) (w : Watched)
    (Q : α → Watched → Prop) : Prop :=
  Ends x w (fun a v => σ.Ready v ∧ w.Evolves declares v ∧ Q a v) σ.Fails

namespace Watched

variable {declares : Bool} {u v w : Watched}

theorem Evolves.refl (h : w.machine.Sound) : w.Evolves declares w := ⟨.refl h, List.suffix_rfl⟩

theorem Evolves.of_false (h : w.Evolves false v) (declares : Bool) : w.Evolves declares v :=
  ⟨h.machine.of_false declares, h.trace⟩

theorem Evolves.trans (huv : u.Evolves declares v) (hvw : v.Evolves declares w) :
    u.Evolves declares w :=
  ⟨huv.machine.trans hvw.machine, huv.trace.trans hvw.trace⟩

end Watched

namespace Setting

variable {σ : Setting} {α β : Type} {declares : Bool} {u v w : Watched} {x : Watch α}
  {Q Q' : α → Watched → Prop} {Γ : Context}

theorem Ready.sound (h : σ.Ready w) : w.machine.Sound := ⟨h.valid.wellFormed, h.scope⟩

/-! ## Combinations -/

theorem Safe.imp (h : σ.Safe declares x w Q) (hQ : ∀ a v, Q a v → Q' a v) :
    σ.Safe declares x w Q' :=
  Ends.imp h (fun a v hv => ⟨hv.1, hv.2.1, hQ a v hv.2.2⟩) fun _ _ he => he

theorem safe_pure (h : σ.Ready w) {a : α} (ha : Q a w) : σ.Safe declares (pure a) w Q :=
  ⟨h, .refl h.sound, ha⟩

theorem Safe.bind {f : α → Watch β} {Q' : β → Watched → Prop} (h : σ.Safe declares x w Q)
    (hf : ∀ a v, σ.Ready v → w.Evolves declares v → Q a v → σ.Safe declares (f a) v Q') :
    σ.Safe declares (x >>= f) w Q' := by
  refine Ends.bind h ?_
  rintro a v ⟨hv, hwv, ha⟩
  refine Ends.imp (hf a v hv hwv ha) ?_ fun _ _ he => he
  rintro b u ⟨hu, hvu, hb⟩
  exact ⟨hu, hwv.trans hvu, hb⟩

/-- As `Safe.bind`, where only what follows may declare something. -/
theorem Safe.bind_declares {f : α → Watch β} {Q' : β → Watched → Prop} (h : σ.Safe false x w Q)
    (hf : ∀ a v, σ.Ready v → w.Evolves false v → Q a v → σ.Safe true (f a) v Q') :
    σ.Safe true (x >>= f) w Q' := by
  refine Ends.bind h ?_
  rintro a v ⟨hv, hwv, ha⟩
  refine Ends.imp (hf a v hv hwv ha) ?_ fun _ _ he => he
  rintro b u ⟨hu, hvu, hb⟩
  exact ⟨hu, (hwv.of_false true).trans hvu, hb⟩

theorem Safe.locate (h : σ.Safe declares x w Q) (p : Position) :
    σ.Safe declares (locate p x) w Q := by
  refine Ends.locate h fun e v he => ?_
  exact ⟨he.trace, he.dispatched, fun hb => (he.benign hb).locate p⟩

theorem Valid.trace {s : Store} {t : List Observation} (h : σ.Valid s t) :
    SoundTrace σ.total σ.known.slots.size σ.final t :=
  ⟨h.resolves, h.unique, h.typed⟩

theorem Ready.fails (h : σ.Ready w) {e : Failure} (he : σ.benign → e.IsBenign) : σ.Fails e w :=
  ⟨h.valid.trace, h.valid.dispatched, he⟩

theorem safe_throw (h : σ.Ready w) {e : Failure} (he : σ.benign → e.IsBenign) :
    σ.Safe declares (throw e) w Q :=
  h.fails he

theorem safe_fail (h : σ.Ready w) {cause : Cause}
    (hcause : σ.benign → (Failure.of cause).IsBenign) :
    σ.Safe declares (Watch.lift (Attempt.fail cause)) w Q :=
  h.fails hcause

/-- A part of a program may look at the machine. -/
theorem safe_get {f : Machine → Watch α} (h : σ.Safe declares (f w.machine) w Q) :
    σ.Safe declares (Watch.lift get >>= f) w Q := h

/-! ## Values that fit -/

variable {v' : Value} {t t' : Ty}

theorem fits_of (h : v'.Fits t) : σ.Fits v' t := fun _ => .inl h

theorem fits_nil (h : ¬ σ.total) : σ.Fits .nil t := fun _ => .inr ⟨h, rfl⟩

theorem Fits.accept (h : σ.Fits v' t) (htt' : t'.accepts t = true) : σ.Fits v' t' :=
  fun hs => (h hs).accept htt'

theorem Fits.fits (h : σ.Fits v' t) (ht : σ.total) : v'.Fits t := (h (σ.strict_of_total ht)).fits ht

theorem Fits.fits_of_benign (h : σ.Fits v' t) (hb : σ.benign) : v'.Fits t :=
  h.fits (σ.total_of_benign hb)

/-! ## What stays true -/

theorem Agrees.evolves (hΓ : σ.Agrees Γ w) (hw : σ.Ready w) (h : w.Evolves false v) :
    σ.Agrees Γ v := by
  have hcontext := h.machine.context hw.sound
  have hmono := Context.Agrees.imp hΓ (fun _ _ hs => hs.mono h.trace) fun _ _ _ _ hf => hf
  rwa [← hcontext] at hmono

/-- The invariant after a change of the store that keeps all frames. -/
theorem Valid.grows {s s' : Store} {t : List Observation} (h : σ.Valid s t)
    (hs' : s'.WellFormed) (hgrows : s.Grows none s')
    (hvalues : ∀ slot v, σ.Stands t slot v →
      σ.Fits ((s'.slot v).value.getD .nil) (σ.final.slot slot).type) : σ.Valid s' t where
  wellFormed := hs'
  known := h.known.trans hgrows.toRefines
  resolves := h.resolves
  typed := h.typed
  dispatched := h.dispatched
  bound slot v hv := Nat.lt_of_lt_of_le (h.bound slot v hv) hgrows.slots
  unique := h.unique
  values := hvalues
  root := hgrows.has h.root
  globals := by
    have hcontext : s'.context σ.root = s.context σ.root :=
      Context.ext (funext fun id => hgrows.findSlot? h.wellFormed hs' h.root nofun id)
        (funext fun name => funext fun arity =>
          hgrows.findFunction? h.wellFormed hs' h.root nofun name arity)
    rw [hcontext]
    exact h.globals
  function g m hm := Nat.lt_of_lt_of_le (h.function g m hm) hgrows.functions
  methods g m hm := (h.methods g m hm).refines (hgrows.function g (h.function g m hm))
  print hstrict := by
    obtain ⟨hsize, hbody⟩ := h.print hstrict
    exact ⟨Nat.lt_of_lt_of_le hsize hgrows.functions, (hgrows.function _ hsize).body.trans hbody⟩

/-- As `Valid.grows`, where no variable changes if types count. -/
theorem Valid.grows_of_slots {s s' : Store} {t : List Observation} (h : σ.Valid s t)
    (hs' : s'.WellFormed) (hgrows : s.Grows none s') (hslots : σ.strict → s'.slots = s.slots) :
    σ.Valid s' t := by
  refine h.grows hs' hgrows fun slot v hv hstrict => ?_
  rw [Store.slot, hslots hstrict]
  exact h.values slot v hv hstrict

theorem Dispatched.cons {t : List Observation} (h : σ.Dispatched t) {o : Observation}
    (ho : σ.Dispatches o) : σ.Dispatched (o :: t) := by
  obtain ⟨later, rfl, hlater⟩ := h
  exact ⟨o :: later, rfl, List.forall_mem_cons.mpr ⟨ho, hlater⟩⟩

/-- The invariant after an observation that is no declaration. -/
theorem Valid.tell {s : Store} {t : List Observation} (h : σ.Valid s t) {o : Observation}
    (hdeclared : ∀ slot v value, o ≠ .declared slot v value)
    (hresolved : o.Resolved σ.known.slots.size t) (htyped : σ.total → o.Typed σ.final)
    (hdispatches : σ.Dispatches o) : σ.Valid s (o :: t) := by
  have hstands : ∀ slot v, σ.Stands (o :: t) slot v → σ.Stands t slot v := by
    intro slot v hv
    refine (stands_cons.mp hv).resolve_left ?_
    rintro ⟨value, ho⟩
    exact hdeclared slot v value ho
  refine { h with
    resolves := ⟨hresolved, h.resolves⟩
    typed := fun ht => List.forall_mem_cons.mpr ⟨htyped ht, h.typed ht⟩
    dispatched := h.dispatched.cons hdispatches
    bound := fun slot v hv => h.bound slot v (hstands slot v hv)
    unique := fun slot slot' v hv hv' => h.unique slot slot' v (hstands _ _ hv) (hstands _ _ hv')
    values := fun slot v hv => h.values slot v (hstands slot v hv)
    globals := h.globals.imp (fun _ _ hv => hv.mono (List.suffix_cons o t)) fun _ _ _ _ hf => hf }

theorem safe_tell (h : σ.Ready w) {o : Observation}
    (hdeclared : ∀ slot v value, o ≠ .declared slot v value)
    (hresolved : o.Resolved σ.known.slots.size w.trace) (htyped : σ.total → o.Typed σ.final)
    (hdispatches : σ.Dispatches o) :
    σ.Safe false (Watch.tell o) w fun _ v => v = ⟨w.machine, o :: w.trace⟩ :=
  ⟨⟨h.valid.tell hdeclared hresolved htyped hdispatches, h.scope⟩,
    ⟨.refl h.sound, List.suffix_cons o w.trace⟩, rfl⟩

theorem Ready.grows (h : σ.Ready w) {m : Machine} (hm : w.machine.Evolves false m)
    (hslots : σ.strict → m.store.slots = w.machine.store.slots) : σ.Ready ⟨m, w.trace⟩ :=
  ⟨h.valid.grows_of_slots hm.sound.store hm.grows hslots, hm.sound.scope⟩

/-- What happens unseen and changes no variable if types count. -/
theorem safe_lift (h : σ.Ready w) {y : Run α} {P : α → Prop} (hy : Keeps (Steps false) y)
    (hstrict : σ.strict → Ends y w.machine
      (fun a m => m.store.slots = w.machine.store.slots ∧ P a)
      fun e _ => σ.benign → e.IsBenign) :
    σ.Safe false (Watch.lift y) w fun a _ => σ.strict → P a := by
  have hkeeps := hy w.machine
  unfold Safe Ends Watch.lift at *
  cases hrun : y w.machine with
  | ok a m =>
    simp only [hrun] at hkeeps hstrict ⊢
    have hm := hkeeps h.sound
    exact ⟨h.grows hm fun hs => (hstrict hs).1, ⟨hm, List.suffix_rfl⟩, fun hs => (hstrict hs).2⟩
  | error e m =>
    simp only [hrun] at hstrict ⊢
    exact ⟨h.valid.trace, h.valid.dispatched,
      fun hb => hstrict (σ.strict_of_total (σ.total_of_benign hb)) hb⟩

/-- A question to the store changes nothing. -/
theorem safe_ask (h : σ.Ready w) {question : Store → FrameId → Except Cause α}
    (herror : ∀ cause, question w.machine.store w.machine.scope = .error cause →
      σ.benign → (Failure.of cause).IsBenign) :
    σ.Safe false (Watch.lift (Pass.ask question)) w fun a v =>
      v = w ∧ question w.machine.store w.machine.scope = .ok a := by
  have hask : Pass.ask question w.machine =
      Attempt.ofExcept (question w.machine.store w.machine.scope) w.machine := rfl
  unfold Safe Ends Watch.lift
  rw [hask]
  cases hquestion : question w.machine.store w.machine.scope with
  | ok a => exact ⟨h, .refl h.sound, rfl, rfl⟩
  | error cause => exact h.fails (herror cause hquestion)

/-- A question to which the answer is known. -/
theorem safe_found (h : σ.Ready w) {question : Store → FrameId → Except Cause α} {a : α}
    (ha : question w.machine.store w.machine.scope = .ok a) :
    σ.Safe false (Watch.lift (Pass.ask question)) w fun b v => b = a ∧ v = w := by
  refine (safe_ask h fun cause hcause => ?_).imp ?_
  · rw [ha] at hcause
    cases hcause
  · rintro b _ ⟨rfl, hb⟩
    rw [ha] at hb
    cases hb
    exact ⟨rfl, rfl⟩

theorem safe_seen {x : Watch Value} {e : TypedExpr}
    (hx : σ.Safe false x w fun v _ => σ.Fits v e.type) :
    σ.Safe false (Watch.seen e x) w fun v _ => σ.Fits v e.type := by
  refine hx.bind fun value v hv _ hvalue => ?_
  refine (safe_tell hv (o := .evaluated e value) nofun trivial (fun ht => hvalue.fits ht)
    trivial).bind fun _ u hu _ _ => ?_
  exact safe_pure hu hvalue

/-! ## Names -/

theorem safe_resolve (h : σ.Ready w) (hΓ : σ.Agrees Γ w) {id : String} {slot : SlotId}
    (hid : Γ.slots id = some slot) :
    σ.Safe false (Watch.resolve id slot) w fun v u => σ.Stands u.trace slot v := by
  obtain ⟨v, hv, hstands⟩ := hΓ.slots id slot hid
  have hfind : w.machine.store.findSlot? w.machine.scope id = some v := hv
  refine safe_get ?_
  refine (safe_tell h (o := .resolved slot (w.machine.store.findSlot? w.machine.scope id)) nofun
    ⟨v, hfind, hstands⟩ (fun _ => trivial) trivial).bind fun _ u hu hwu hu' => ?_
  subst hu'
  refine (safe_found hu (Store.lookupSlot_eq_ok.mpr hfind)).imp ?_
  rintro _ _ ⟨rfl, rfl⟩
  exact hstands.mono (List.suffix_cons ..)

theorem safe_resolveFunction (h : σ.Ready w) (hΓ : σ.Agrees Γ w) {name : String} {arity : Nat}
    {f : FunctionId} (hname : Γ.functions name arity = some f) :
    σ.Safe false (Watch.resolveFunction name arity f) w fun g u =>
      σ.leads name arity f g ∧ u.machine.store.Keyed (name, arity) g := by
  obtain ⟨g, hg, hleads⟩ := hΓ.functions name arity f hname
  have hfind : w.machine.store.findFunction? w.machine.scope name arity = some g := hg
  have hfound : (w.machine.store.findFunction? w.machine.scope name arity).map
      (fun g => (g, (w.machine.store.function g).body)) =
      some (g, (w.machine.store.function g).body) := by rw [hfind, Option.map_some]
  have hbody (m : TypedMethod) (hm : σ.code g = some m) := (h.valid.methods g m hm).body
  refine safe_get ?_
  refine (safe_tell h (o := .called name arity f _) nofun ⟨_, hfound⟩ (fun _ => trivial)
    ⟨g, _, hfound, hleads, hbody⟩).bind fun _ u hu hwu hu' => ?_
  subst hu'
  refine (safe_found hu (Store.lookupFunction_eq_ok.mpr hfind)).imp ?_
  rintro _ _ ⟨rfl, rfl⟩
  exact ⟨hleads, h.valid.wellFormed.findFunction? hfind⟩

/-! ## Variables -/

/-- The invariant after a declaration, if names in the scope of the program keep their meaning. -/
theorem Valid.declare {s : Store} {t : List Observation} (h : σ.Valid s t) (f : FrameId)
    {slot : SlotId} (name : String) (type : Ty) {value : Value}
    (hfits : σ.Fits value (σ.final.slot slot).type)
    (hglobals : σ.globals.Agrees (σ.Stands t) σ.leads
      ((s.defineSlot f ⟨name, type, some value⟩).2.context σ.root)) :
    σ.Valid (s.defineSlot f ⟨name, type, some value⟩).2
      (.declared slot ⟨s.slots.size⟩ value :: t) := by
  have hgrows := Store.grows_defineSlot s f ⟨name, type, some value⟩
  have hslot := Store.slot_createSlot s ⟨name, type, some value⟩
  -- what stands for a variable is the new one or one that there was
  have hstands : ∀ slot' v, σ.Stands (.declared slot ⟨s.slots.size⟩ value :: t) slot' v →
      (slot' = slot ∧ v = ⟨s.slots.size⟩) ∨ (σ.Stands t slot' v ∧ v.index < s.slots.size) := by
    intro slot' v hv
    rcases stands_cons.mp hv with ⟨_, hnew⟩ | hold
    · cases hnew
      exact .inl ⟨rfl, rfl⟩
    · exact .inr ⟨hold, h.bound slot' v hold⟩
  exact {
    wellFormed := h.wellFormed.defineSlot f _
    known := h.known.trans hgrows.toRefines
    resolves := ⟨trivial, h.resolves⟩
    typed := fun ht => List.forall_mem_cons.mpr ⟨hfits.fits ht, h.typed ht⟩
    dispatched := h.dispatched.cons trivial
    bound := fun slot' v hv => by
      rcases hstands slot' v hv with ⟨-, rfl⟩ | ⟨-, hlt⟩
      · simp [Store.defineSlot, Store.createSlot]
      · exact Nat.lt_of_lt_of_le hlt hgrows.slots
    unique := fun slot' slot'' v hv hv' => by
      rcases hstands slot' v hv with ⟨rfl, rfl⟩ | ⟨hold, hlt⟩
      · rcases hstands slot'' _ hv' with ⟨rfl, -⟩ | ⟨-, hlt⟩
        · rfl
        · exact absurd hlt (Nat.lt_irrefl _)
      · rcases hstands slot'' v hv' with ⟨-, rfl⟩ | ⟨hold', -⟩
        · exact absurd hlt (Nat.lt_irrefl _)
        · exact h.unique slot' slot'' v hold hold'
    values := fun slot' v hv => by
      change σ.Fits (((s.createSlot _).2.slot v).value.getD .nil) _
      rw [hslot]
      rcases hstands slot' v hv with ⟨rfl, rfl⟩ | ⟨hold, hlt⟩
      · rw [if_pos rfl]
        exact hfits
      · rw [if_neg (Nat.ne_of_lt hlt)]
        exact h.values slot' v hold
    root := hgrows.has h.root
    globals := hglobals.imp (fun _ _ hv => hv.mono (List.suffix_cons ..)) fun _ _ _ _ hf => hf
    function := h.function
    methods := h.methods
    print := h.print }

theorem safe_make (h : σ.Ready w) (hΓ : σ.Agrees Γ w) {slot : SlotId} (name : String) (type : Ty)
    {value : Value} (hfits : σ.Fits value (σ.final.slot slot).type)
    (hglobals : σ.globals.Agrees (σ.Stands w.trace) σ.leads
      ((w.machine.store.defineSlot w.machine.scope ⟨name, type, some value⟩).2.context σ.root)) :
    σ.Safe true (Watch.make name slot type value) w fun _ v =>
      σ.Agrees (Γ.declare name slot) v := by
  have hdefine := Pass.Evolves.define h.sound ⟨name, type, some value⟩
  refine ⟨⟨h.valid.declare _ name type hfits hglobals, hdefine.sound.scope⟩,
    ⟨hdefine, List.suffix_cons ..⟩, ?_⟩
  have hmono := Context.Agrees.imp hΓ
    (fun slot' v hv => hv.mono (List.suffix_cons (.declared slot ⟨w.machine.store.slots.size⟩ value)
      w.trace)) fun _ _ _ _ hf => hf
  have hdeclare := hmono.declare name (v := slot) (w := ⟨w.machine.store.slots.size⟩)
    (.inl ⟨value, List.mem_cons_self⟩)
  rwa [← Pass.context_define h.sound ⟨name, type, some value⟩] at hdeclare

/-- A declaration inside the scope of the program leaves that scope as it is. -/
theorem safe_make_inside (h : σ.Ready w) (hroot : σ.root.index < w.machine.scope.index)
    (hΓ : σ.Agrees Γ w) {slot : SlotId} (name : String) (type : Ty) {value : Value}
    (hfits : σ.Fits value (σ.final.slot slot).type) :
    σ.Safe true (Watch.make name slot type value) w fun _ v =>
      σ.Agrees (Γ.declare name slot) v := by
  refine safe_make h hΓ name type hfits ?_
  have hdefine := Pass.Evolves.define h.sound ⟨name, type, some value⟩
  have hcontext := hdefine.context_eq h.sound h.valid.root fun _ => hroot
  dsimp only at hcontext
  rw [hcontext]
  exact h.valid.globals

theorem safe_assign (h : σ.Ready w) {v : SlotId} {value : Value}
    (hfits : σ.strict → ∃ slot, σ.Stands w.trace slot v ∧
      σ.Fits value (σ.final.slot slot).type) :
    σ.Safe false (Watch.lift (modify fun a => { a with store := a.store.assign v value })) w
      fun _ _ => True := by
  have hassign : w.machine.Evolves false _ := .assign h.sound v value
  refine ⟨⟨?_, hassign.sound.scope⟩, ⟨hassign, List.suffix_rfl⟩, trivial⟩
  refine h.valid.grows hassign.sound.store hassign.grows fun slot u hu hs => ?_
  change (((w.machine.store.assign v value).slot u).value.getD .nil).Meets σ.total _
  rw [Store.slot_assign]
  split
  · rename_i huv
    obtain ⟨rfl, -⟩ := huv
    obtain ⟨slot', hstands, hvalue⟩ := hfits hs
    rw [h.valid.unique slot slot' v hu hstands]
    exact hvalue hs
  · exact h.valid.values slot u hu hs

/-! ## Scopes -/

theorem Ready.enter (h : σ.Ready w) {parent : FrameId} (hparent : w.machine.store.Has parent)
    {m : Machine} (hstore : m.store = (w.machine.store.createFrame (some parent)).2)
    (hscope : m.scope = ⟨w.machine.store.frames.size⟩) : σ.Ready ⟨m, w.trace⟩ := by
  have henter := h.sound.enterFrame hparent
  refine ⟨?_, ?_⟩
  · dsimp only
    rw [hstore]
    exact h.valid.grows_of_slots henter.store (Store.grows_createFrame ..) fun _ => rfl
  · dsimp only
    rw [hstore, hscope]
    exact henter.scope

/-- What happens inside a new frame is over when the frame is left. -/
theorem safe_within (h : σ.Ready w) (enter : Machine → Machine) {parent : FrameId} {P : α → Prop}
    (hstore : (enter w.machine).store = (w.machine.store.createFrame (some parent)).2)
    (hscope : (enter w.machine).scope = ⟨w.machine.store.frames.size⟩)
    (hx : σ.Safe true x ⟨enter w.machine, w.trace⟩ fun a _ => P a) :
    σ.Safe false (Watch.within enter x) w fun a _ => P a := by
  unfold Safe Ends Watch.within at *
  cases hrun : x ⟨enter w.machine, w.trace⟩ with
  | ok a v =>
    simp only [hrun] at hx ⊢
    obtain ⟨hv, hwv, ha⟩ := hx
    have hleave := Pass.Evolves.leave h.sound hstore hscope hwv.machine
    exact ⟨⟨hv.valid, hleave.sound.scope⟩, ⟨hleave, hwv.trace⟩, ha⟩
  | error e v =>
    simp only [hrun] at hx ⊢
    exact ⟨hx.trace, hx.dispatched, hx.benign⟩

end Setting

end BlockScript
