import BlockScript.Proofs.Soundness.Values
import BlockScript.Proofs.Store.Building
import BlockScript.Proofs.Store.Upkeep

/-!
# Stores that hosts hand over

A host hands over a store without methods of programs, in which the fields of its objects have
frames of their own.
-/

namespace BlockScript

open Attempt

/-- The body is no method of a program. The objects that it gives are among its arguments, or their
fields are in the frames. -/
def Body.FromHost (frames : FrameId → Prop) : Body → Prop
  | .native run => ∀ objects, (∀ f, frames f → objects f) → Native.Within objects run
  | .method .. => False
  | .absent | .print => True

theorem Body.FromHost.mono {frames frames' : FrameId → Prop} {body : Body}
    (h : body.FromHost frames) (hf : ∀ f, frames f → frames' f) : body.FromHost frames' := by
  cases body with
  | native run => exact fun objects hobjects => h objects fun f hframe => hobjects f (hf f hframe)
  | _ => exact h

theorem Body.FromHost.ne_method {frames : FrameId → Prop} {body : Body} (h : body.FromHost frames)
    (m : Method) (c : FrameId) : body ≠ .method m c := by
  rintro rfl
  exact h

theorem Value.Within.mono {objects objects' : FrameId → Prop} {v : Value} (h : v.Within objects)
    (hf : ∀ f, objects f → objects' f) : v.Within objects' :=
  fun type fields hv => hf fields (h type fields hv)

theorem Value.IsPlain.within {objects : FrameId → Prop} {v : Value} (h : v.IsPlain) :
    v.Within objects := by
  rintro type fields rfl
  exact absurd h id

namespace Store

/-- A store that programs have not touched, in which the fields of objects are in the frames
`objects`. -/
structure Hosted (s : Store) (objects : FrameId → Prop) : Prop where
  wellFormed : s.WellFormed
  tidy : s.Tidy
  has : ∀ f, objects f → s.Has f
  values : ∀ v, ∀ value ∈ (s.slot v).value, value.Within objects
  natives : ∀ x run, (s.function x).body = .native run → Native.Within objects run
  noMethods : ∀ x d c, (s.function x).body ≠ .method d c

theorem Hosted.closed {s : Store} {objects : FrameId → Prop} (h : s.Hosted objects) :
    s.Closed objects :=
  { h with range := h.noMethods rangeId }

/-- The frames besides the scope that programs are going to lie in. -/
def Aside (s : Store) (scope : Option FrameId) (f : FrameId) : Prop := s.Has f ∧ scope ≠ some f

/-- A store that a host is making. -/
structure Furnished (scope : Option FrameId) (s : Store) : Prop where
  wellFormed : s.WellFormed
  tidy : s.Tidy
  has : ∀ f ∈ scope, s.Has f
  values : ∀ v, ∀ value ∈ (s.slot v).value, value.Within (s.Aside scope)
  bodies : ∀ x, (s.function x).body.FromHost (s.Aside scope)

variable {s t u : Store} {scope : Option FrameId} {f : FrameId}

theorem Furnished.hosted (h : s.Furnished scope) : s.Hosted (s.Aside scope) where
  wellFormed := h.wellFormed
  tidy := h.tidy
  has _ hf := hf.1
  values := h.values
  natives x run hx := by
    have hbody := h.bodies x
    rw [hx] at hbody
    exact hbody _ fun _ hf => hf
  noMethods x d c hx := by
    have hbody := h.bodies x
    rw [hx] at hbody
    exact hbody

/-- What a host does next leaves the store furnished, with the frames that there were. -/
structure Furnishes (scope : Option FrameId) (s t : Store) : Prop where
  furnished : t.Furnished scope
  frames : s.frames.size ≤ t.frames.size

theorem Furnishes.aside (h : Furnishes scope s t) (hf : s.Aside scope f) : t.Aside scope f :=
  ⟨Nat.lt_of_lt_of_le hf.1 h.frames, hf.2⟩

theorem Furnishes.trans (h : Furnishes scope s t) (h' : Furnishes scope t u) :
    Furnishes scope s u :=
  ⟨h'.furnished, Nat.le_trans h.frames h'.frames⟩

namespace Furnished

variable (h : s.Furnished scope)
include h

theorem refl : Furnishes scope s s := ⟨h, Nat.le_refl _⟩

/-- The values and the functions of a furnished store that are new come from the host. -/
theorem furnishes (ht : t.WellFormed) (htidy : t.Tidy) (hframes : s.frames.size ≤ t.frames.size)
    (hslot : ∀ v, t.slot v = s.slot v ∨
      ∀ value ∈ (t.slot v).value, value.Within (s.Aside scope))
    (hbody : ∀ x, t.function x = s.function x ∨
      (t.function x).body.FromHost (s.Aside scope)) : Furnishes scope s t := by
  have haside (f : FrameId) (hf : s.Aside scope f) : t.Aside scope f :=
    ⟨Nat.lt_of_lt_of_le hf.1 hframes, hf.2⟩
  refine ⟨⟨ht, htidy, fun f hf => Nat.lt_of_lt_of_le (h.has f hf) hframes, ?_, ?_⟩, hframes⟩
  · intro v value hv
    rcases hslot v with hold | hnew
    · rw [hold] at hv
      exact (h.values v value hv).mono haside
    · exact (hnew value hv).mono haside
  · intro x
    rcases hbody x with hold | hnew
    · rw [hold]
      exact (h.bodies x).mono haside
    · exact hnew.mono haside

theorem createFrame : Furnishes scope s (s.createFrame none).2 :=
  h.furnishes (h.wellFormed.createFrame (by simp)) (h.tidy.createFrame none)
    (grows_createFrame s none).frames (fun _ => .inl rfl) fun _ => .inl rfl

theorem aside_createFrame : (s.createFrame none).2.Aside scope ⟨s.frames.size⟩ := by
  refine ⟨has_createFrame s none, ?_⟩
  rintro rfl
  exact Nat.lt_irrefl _ (h.has _ rfl)

omit h in
/-- The frame that programs are going to lie in is not for fields. -/
theorem createScope (h : s.Furnished none) :
    (s.createFrame none).2.Furnished (some ⟨s.frames.size⟩) := by
  have hcreate := h.createFrame.furnished
  have haside (f : FrameId) (hf : s.Aside none f) :
      (s.createFrame none).2.Aside (some ⟨s.frames.size⟩) f := by
    refine ⟨(grows_createFrame s none).has hf.1, ?_⟩
    rintro ⟨⟩
    exact Nat.lt_irrefl _ hf.1
  refine ⟨hcreate.wellFormed, hcreate.tidy, ?_, ?_, ?_⟩
  · rintro _ ⟨⟩
    exact has_createFrame s none
  · exact fun v value hv => (h.values v value hv).mono haside
  · exact fun x => (h.bodies x).mono haside

theorem defineSlot (f : FrameId) {slot : Slot}
    (hslot : ∀ value ∈ slot.value, value.Within (s.Aside scope)) :
    Furnishes scope s (s.defineSlot f slot).2 := by
  refine h.furnishes (h.wellFormed.defineSlot f slot) (h.tidy.defineSlot h.wellFormed f slot)
    (grows_defineSlot s f slot).frames (fun v => ?_) fun _ => .inl rfl
  have hcreate : (s.defineSlot f slot).2.slot v = _ := slot_createSlot s slot v
  rw [hcreate]
  split
  · exact .inr hslot
  · exact .inl rfl

theorem defineFunction (f : FrameId) {fn : Function} (hfn : fn.body.FromHost (s.Aside scope)) :
    Furnishes scope s (s.defineFunction f fn).2 := by
  have hcreate := function_createFunction s fn ⟨s.functions.size⟩
  rw [if_pos rfl] at hcreate
  refine h.furnishes (h.wellFormed.defineFunction f fun m c hc => absurd hc (hfn.ne_method m c))
    ((h.tidy.createFunction h.wellFormed fn).bindFunction f fun m c hc => ?_)
    (grows_defineFunction s f fn).frames (fun _ => .inl rfl) fun x => ?_
  · rw [hcreate] at hc
    exact absurd hc (hfn.ne_method m c)
  · rw [function_defineFunction]
    split
    · exact .inr hfn
    · exact .inl rfl

theorem createType (name kind : String) : Furnishes scope s (s.createType name kind).2 :=
  h.furnishes (h.wellFormed.createType name kind) ⟨h.tidy.slots, h.tidy.closures⟩ (Nat.le_refl _)
    (fun _ => .inl rfl) fun _ => .inl rfl

theorem register {type : Ty} (ht : s.register type = .ok t) : Furnishes scope s t := by
  have hwellFormed := h.wellFormed.register ht
  rw [register_eq ht] at hwellFormed ⊢
  exact h.furnishes hwellFormed ⟨h.tidy.slots, h.tidy.closures⟩ (Nat.le_refl _)
    (fun _ => .inl rfl) fun _ => .inl rfl

theorem addField (type : Ty) (name : String) (fieldType : Ty) :
    Furnishes scope s (s.addField type name fieldType) := by
  refine h.furnishes (h.wellFormed.addField type name fieldType) ⟨h.tidy.slots, h.tidy.closures⟩
    (Nat.le_refl _) (fun v => ?_) fun _ => .inl rfl
  have hcreate : (s.addField type name fieldType).slot v = _ :=
    slot_createSlot s ⟨name, fieldType, none⟩ v
  rw [hcreate]
  split
  · exact .inr nofun
  · exact .inl rfl

theorem defineMethod (type : Ty) (name : String) (params : List Ty) (returns : Ty) {body : Body}
    (hbody : body.FromHost (s.Aside scope)) :
    Furnishes scope s (s.defineMethod type name params returns body).2 := by
  let fn : Function := ⟨name, type :: params, some returns, body⟩
  have htidy := h.tidy.createFunction h.wellFormed fn
  refine h.furnishes (h.wellFormed.defineMethod type name params returns hbody.ne_method)
    ⟨htidy.slots, htidy.closures⟩ (Nat.le_refl _) (fun _ => .inl rfl) fun x => ?_
  have hcreate : (s.defineMethod type name params returns body).2.function x = _ :=
    function_createFunction s fn x
  rw [hcreate]
  split
  · exact .inr hbody
  · exact .inl rfl

end Furnished

theorem furnished_initial : initial.Furnished none := by
  have hframe (f : FrameId) : initial.frame f = ⟨none, .empty, .empty⟩ :=
    frame_of_not_has (Nat.not_lt_zero f.index)
  refine ⟨wellFormed_initial, ⟨?_, ?_⟩, nofun, fun v => ?_, fun x => ?_⟩
  · intro f g id id' v hv
    rw [hframe] at hv
    cases hv
  · intro f k x d c hx
    rw [hframe] at hx
    cases hx
  · rw [slot_of_not_lt (Nat.not_lt_zero v.index)]
    nofun
  · by_cases hx : x.index < initial.functions.size
    · obtain ⟨run, t, hrun, -, hfits, -⟩ := isSoundNative_initial hx
      rw [hrun]
      exact fun objects _ args _ v hv => (hfits args v hv).plain.within
    · rw [function_of_not_lt hx]
      trivial

end Store

/-! ## Descriptions -/

mutual

/-- The description names no objects but those that it describes. -/
def ValueSpec.Plain : ValueSpec → Prop
  | .known v => v.IsPlain
  | .character _ => True
  | .object _ fields => ValueSpec.AllPlain fields

def ValueSpec.AllPlain : List (String × Option ValueSpec) → Prop
  | [] => True
  | (_, none) :: rest => ValueSpec.AllPlain rest
  | (_, some v) :: rest => v.Plain ∧ ValueSpec.AllPlain rest

end

def NativeSpec.Plain : NativeSpec → Prop
  | .constant v => v.Plain
  | _ => True

structure Host.Plain (host : Host) : Prop where
  methods : ∀ type ∈ host.types, ∀ m ∈ type.methods, m.body.Plain
  globals : ∀ g ∈ host.globals, ∀ v ∈ g.value, v.Plain
  functions : ∀ fn ∈ host.functions, fn.body.Plain

namespace Build

open Store

variable {α β : Type} {s t : Store} {scope : Option FrameId} {P : α → Store → Prop}

/-- What is done to a furnished store leaves it furnished. -/
def Furnishing (scope : Option FrameId) (x : Build α) : Prop :=
  ∀ s, s.Furnished scope → Gives x s fun _ t => Furnishes scope s t

/-- As `Furnishing`, and what is given is as `P` says. -/
def Makes (scope : Option FrameId) (P : α → Store → Prop) (x : Build α) : Prop :=
  ∀ s, s.Furnished scope → Gives x s fun a t => Furnishes scope s t ∧ P a t

theorem Furnishing.bind {x : Build α} {f : α → Build β} (hx : Furnishing scope x)
    (hf : ∀ a, Furnishing scope (f a)) : Furnishing scope (x >>= f) := by
  intro s hs
  refine (hx s hs).bind fun a t hst => ?_
  exact (hf a t hst.furnished).imp fun _ _ htu => hst.trans htu

theorem Furnishing.bind_makes {x : Build α} {Q : β → Store → Prop} {f : α → Build β}
    (hx : Furnishing scope x) (hf : ∀ a, Makes scope Q (f a)) : Makes scope Q (x >>= f) := by
  intro s hs
  refine (hx s hs).bind fun a t hst => ?_
  exact (hf a t hst.furnished).imp fun _ _ hb => ⟨hst.trans hb.1, hb.2⟩

theorem Makes.bind {x : Build α} {f : α → Build β} (hx : Makes scope P x)
    (hf : ∀ a s, s.Furnished scope → P a s → Gives (f a) s fun _ t => Furnishes scope s t) :
    Furnishing scope (x >>= f) := by
  intro s hs
  refine (hx s hs).bind fun a t ⟨hst, ha⟩ => ?_
  exact (hf a t hst.furnished ha).imp fun _ _ htu => hst.trans htu

/-- What is made of something by itself. -/
theorem Makes.map {x : Build α} {Q : β → Store → Prop} {f : α → β} (hx : Makes scope P x)
    (hf : ∀ a s, P a s → Q (f a) s) : Makes scope Q (x >>= fun a => pure (f a)) :=
  fun s hs => (hx s hs).bind fun a t ⟨hst, ha⟩ => gives_pure ⟨hst, hf a t ha⟩

theorem makes_pure {a : α} (h : ∀ s, P a s) : Makes scope P (pure a) :=
  fun s hs => gives_pure ⟨hs.refl, h s⟩

theorem furnishing_pure (a : α) : Furnishing scope (pure a) := fun _ hs => gives_pure hs.refl

theorem furnishing_modify {f : Store → Store}
    (h : ∀ s, s.Furnished scope → Furnishes scope s (f s)) :
    Furnishing scope (modify f : Build PUnit) :=
  fun s hs => gives_modify (h s hs)

theorem furnishing_get : Furnishing scope (get : Build Store) := fun _ hs => hs.refl

theorem furnishing_ofExcept (x : Except Cause α) : Furnishing scope (Attempt.ofExcept x) :=
  fun _ hs => gives_ofExcept fun _ _ => hs.refl

theorem furnishing_forM {f : β → Build PUnit} {xs : List β}
    (h : ∀ b ∈ xs, Furnishing scope (f b)) : Furnishing scope (xs.forM f) := by
  induction xs with
  | nil => exact furnishing_pure _
  | cons b xs ih =>
    rw [List.forall_mem_cons] at h
    exact h.1.bind fun _ => ih h.2

theorem furnishing_mapM {f : β → Build α} {xs : List β}
    (h : ∀ b ∈ xs, Furnishing scope (f b)) : Furnishing scope (xs.mapM f) := by
  induction xs with
  | nil =>
    rw [List.mapM_nil]
    exact furnishing_pure _
  | cons b xs ih =>
    rw [List.forall_mem_cons] at h
    rw [List.mapM_cons]
    exact h.1.bind fun _ => (ih h.2).bind fun _ => furnishing_pure _

theorem furnishing_type (ref : TypeRef) : Furnishing scope (type ref) := by
  cases ref with
  | named name => exact furnishing_get.bind fun _ => furnishing_ofExcept _
  | known type => exact furnishing_pure _

theorem furnishing_types (refs : List TypeRef) : Furnishing scope (types refs) :=
  furnishing_mapM fun ref _ => furnishing_type ref

/-! ## Values -/

theorem gives_defineField (hs : s.Furnished scope) (owner : Ty) (fields : FrameId) (name : String)
    {value : Option Value} (hvalue : ∀ v ∈ value, v.Within (s.Aside scope)) :
    Gives (defineField owner fields name value) s fun _ t => Furnishes scope s t := by
  have htype : Finds (fieldType owner name value) s fun _ => True := by
    refine Finds.bind finds_get ?_
    rintro _ rfl
    split <;> exact finds_pure trivial
  exact htype.bind fun type _ => gives_modify (hs.defineSlot fields hvalue)

theorem gives_ofMisuse {x : Except Misuse α} (h : ∀ a, x = .ok a → P a s) :
    Gives (ofMisuse x) s P := by
  cases x with
  | ok a => exact h a rfl
  | error misuse => exact gives_throw _

mutual

theorem makes_value : (v : ValueSpec) → v.Plain →
    Makes scope (fun r t => r.Within (t.Aside scope)) (value v)
  | .known v, hv => makes_pure fun _ => hv.within
  | .character text, _ => fun s hs =>
    gives_ofMisuse fun _ hv => ⟨hs.refl, Value.within_ofCharacterText hv⟩
  | .object ref fields, hv => by
    refine (furnishing_type ref).bind_makes fun owner s hs => ?_
    have hcreate := hs.createFrame
    refine Gives.bind (Q := fun frame t => frame = ⟨s.frames.size⟩ ∧ t = (s.createFrame none).2)
      ⟨rfl, rfl⟩ ?_
    rintro _ _ ⟨rfl, rfl⟩
    refine (furnishing_fieldValues owner ⟨s.frames.size⟩ fields hv _ hcreate.furnished).bind ?_
    intro _ t hst
    refine gives_pure ⟨hcreate.trans hst, ?_⟩
    rintro _ _ ⟨⟩
    exact hst.aside hs.aside_createFrame

theorem furnishing_fieldValues (owner : Ty) (frame : FrameId) :
    (fields : List (String × Option ValueSpec)) → ValueSpec.AllPlain fields →
      Furnishing scope (fieldValues owner frame fields)
  | [], _ => furnishing_pure _
  | (name, none) :: rest, h =>
    Furnishing.bind (fun s hs => gives_defineField hs owner frame name nofun) fun _ =>
      furnishing_fieldValues owner frame rest h
  | (name, some v) :: rest, h => (makes_value v h.1).bind fun r s hs hr => by
    have hvalue : ∀ w ∈ some r, w.Within (s.Aside scope) := by
      rintro _ ⟨⟩
      exact hr
    refine (gives_defineField hs owner frame name hvalue).bind fun _ t hst => ?_
    have hrest := furnishing_fieldValues owner frame rest h.2 t hst.furnished
    exact hrest.imp fun _ _ htu => hst.trans htu

end

theorem makes_optionalValue {v : Option ValueSpec} (hv : ∀ w ∈ v, w.Plain) :
    Makes scope (fun r t => ∀ value ∈ r, value.Within (t.Aside scope)) (optionalValue v) := by
  cases v with
  | none => exact makes_pure fun _ => nofun
  | some v =>
    refine (makes_value v (hv v rfl)).map fun r s hr => ?_
    rintro _ ⟨⟩
    exact hr

/-! ## Functions -/

theorem within_headD {objects : FrameId → Prop} {args : List Value}
    (h : ∀ v ∈ args, v.Within objects) : (args.headD .nil).Within objects := by
  cases args with
  | nil => exact nofun
  | cons v args => exact h v List.mem_cons_self

theorem within_getLastD {objects : FrameId → Prop} {args : List Value}
    (h : ∀ v ∈ args, v.Within objects) : (args.getLastD .nil).Within objects := by
  have hmem : args.getLastD .nil ∈ Value.nil :: args := List.getLastD_mem_cons
  rcases List.mem_cons.mp hmem with hnil | hlast
  · rw [hnil]
    nofun
  · exact h _ hlast

theorem makes_body {spec : NativeSpec} (hspec : spec.Plain) :
    Makes scope (fun b t => b.FromHost (t.Aside scope)) (body spec) := by
  cases spec with
  | absent => exact makes_pure fun _ => trivial
  | first =>
    refine makes_pure fun _ objects _ args hargs v hv => ?_
    cases hv
    exact within_headD hargs
  | last =>
    refine makes_pure fun _ objects _ args hargs v hv => ?_
    cases hv
    exact within_getLastD hargs
  | constant v =>
    refine (makes_value v hspec).map fun r s hr objects hobjects args _ v hv => ?_
    cases hv
    exact hr.mono hobjects
  | concat =>
    refine makes_pure fun _ objects _ args _ v hv => ?_
    cases hv
    exact nofun
  | fault text => exact makes_pure fun _ objects _ args _ v hv => by cases hv

theorem makes_function {spec : FunctionSpec} (hspec : spec.body.Plain) :
    Makes scope (fun fn t => fn.body.FromHost (t.Aside scope)) (function spec) := by
  refine (furnishing_types spec.params).bind_makes fun params => ?_
  have hrest (returns : Option Ty) : Makes scope (fun fn t => fn.body.FromHost (t.Aside scope)) (do
      return (⟨spec.name, params, returns, ← body spec.body⟩ : Function)) :=
    (makes_body hspec).map fun _ _ hbody => hbody
  cases spec.returns with
  | none => exact hrest none
  | some ref => exact (furnishing_type ref).bind_makes fun type => hrest (some type)

theorem furnishing_method (owner : Ty) {spec : FunctionSpec} (hspec : spec.body.Plain) :
    Furnishing scope (method owner spec) :=
  (makes_function hspec).bind fun fn _ hs hfn =>
    hs.defineMethod owner fn.name fn.params (fn.returns.getD .any) hfn

/-! ## Types and variables -/

theorem furnishing_newType (spec : TypeSpec) : Furnishing scope (newType spec) := by
  refine Furnishing.bind (fun s hs => hs.createType spec.name spec.kind) fun type s hs => ?_
  refine Finds.bind finds_get ?_
  rintro _ rfl
  exact Gives.bind (gives_ofMisuse fun t ht => ht) fun t _ ht => hs.register ht

theorem furnishing_addMembers (owner : Ty) {spec : TypeSpec}
    (hspec : ∀ m ∈ spec.methods, m.body.Plain) : Furnishing scope (addMembers owner spec) := by
  refine (furnishing_forM fun field _ => ?_).bind fun _ => furnishing_forM fun m hm => ?_
  · exact (furnishing_type field.2).bind fun type =>
      furnishing_modify fun s hs => hs.addField owner field.1 type
  · exact (furnishing_method owner (hspec m hm)).bind fun _ => furnishing_pure _

theorem furnishing_defineVariable (f : FrameId) {spec : VariableSpec}
    (hspec : ∀ v ∈ spec.value, v.Plain) : Furnishing scope (defineVariable f spec) :=
  (furnishing_type spec.type).bind fun _ => (makes_optionalValue hspec).bind fun _ _ hs hvalue =>
    hs.defineSlot f hvalue

end Build

open Store Build

/-- What a host has made can be handed over to programs. -/
theorem Host.hosted_build {host : Host} (hplain : host.Plain) {s : Store} (hs : s.Furnished none) :
    Gives host.build s fun scope t => t.Hosted (t.Aside (some scope)) ∧ t.Has scope := by
  have htypes : Furnishing none (host.types.mapM newType) :=
    furnishing_mapM fun spec _ => furnishing_newType spec
  have hmembers (types : List Ty) : Furnishing none
      ((types.zip host.types).forM fun owner => addMembers owner.1 owner.2) :=
    furnishing_forM fun owner howner =>
      furnishing_addMembers owner.1 (hplain.methods owner.2 (List.of_mem_zip howner).2)
  have hglobals (scope : FrameId) : Furnishing (some scope)
      (host.globals.forM fun spec => do let _ ← defineVariable scope spec) :=
    furnishing_forM fun spec hspec =>
      (furnishing_defineVariable scope (hplain.globals spec hspec)).bind fun _ => furnishing_pure _
  have hfunctions (scope : FrameId) : Furnishing (some scope) (host.functions.forM fun spec => do
      let fn ← function spec
      modify fun s => (s.defineFunction scope fn).2) :=
    furnishing_forM fun spec hspec =>
      (makes_function (hplain.functions spec hspec)).bind fun _ _ ht hfn =>
        gives_modify (ht.defineFunction scope hfn)
  refine (htypes s hs).bind fun types t ht => ?_
  refine (hmembers types t ht.furnished).bind fun _ u hu => ?_
  refine Gives.bind (Q := fun scope v => v.Furnished (some scope)) ?_ fun scope v hv => ?_
  · exact hu.furnished.createScope
  refine (hglobals scope v hv).bind fun _ w hw => ?_
  refine (hfunctions scope w hw.furnished).bind fun _ x hx => gives_pure ?_
  exact ⟨hx.furnished.hosted, hx.furnished.has scope rfl⟩

end BlockScript
