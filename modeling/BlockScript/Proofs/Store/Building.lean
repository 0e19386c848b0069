import BlockScript.Embedding
import BlockScript.Proofs.Pass.Outcome
import BlockScript.Proofs.Store.Root
import Mathlib.Logic.Relation

/-!
# Stores that hosts build

Whatever a host describes, it is made in steps that a host may do, each of which leaves the store
well-formed, and the scope for programs is in it.
-/

namespace BlockScript

open Attempt

/-- The body is one that a host can write. -/
def Body.IsForeign : Body → Prop
  | .absent | .native _ => True
  | .print | .method .. => False

theorem Body.IsForeign.ne_method {body : Body} (h : body.IsForeign) (d : Method) (c : FrameId) :
    body ≠ .method d c := by
  rintro rfl
  exact h

namespace Store

variable {s t : Store} {type : Ty}

/-! ## Changes of types -/

theorem WellFormed.createType (h : s.WellFormed) (name kind : String) :
    (s.createType name kind).2.WellFormed :=
  h.insertMembers _ (by simp) (by simp) s.catalog (s.customTypes + 1)

/-- Only the catalog is another after a registration. -/
theorem register_eq (ht : s.register type = .ok t) : t = { s with catalog := t.catalog } := by
  unfold Store.register at ht
  split at ht
  · split at ht <;> cases ht
    rfl
  · cases ht
    rfl

theorem unregister_eq (ht : s.unregister type = .ok t) : t = { s with catalog := t.catalog } := by
  unfold Store.unregister at ht
  split at ht
  · cases ht
  · split at ht <;> cases ht <;> rfl

/-- What the catalog holds does not matter. -/
theorem WellFormed.withCatalog (h : s.WellFormed) (catalog : Table String Ty) :
    { s with catalog }.WellFormed :=
  ⟨h.parents, h.slots, h.functions, h.methods, h.fields, h.closures, h.range⟩

theorem WellFormed.register (h : s.WellFormed) (ht : s.register type = .ok t) : t.WellFormed := by
  rw [register_eq ht]
  exact h.withCatalog t.catalog

theorem WellFormed.unregister (h : s.WellFormed) (ht : s.unregister type = .ok t) :
    t.WellFormed := by
  rw [unregister_eq ht]
  exact h.withCatalog t.catalog

theorem WellFormed.addField (h : s.WellFormed) (type : Ty) (name : String) (fieldType : Ty) :
    (s.addField type name fieldType).WellFormed := by
  have hsize : (s.createSlot ⟨name, fieldType, none⟩).2.slots.size = s.slots.size + 1 := by
    simp [createSlot]
  have hcreate : (s.createSlot ⟨name, fieldType, none⟩).2.WellFormed := by
    refine ⟨h.parents, fun f id v hv => ?_, h.functions, h.methods, fun t k v hv => ?_, h.closures,
      h.range⟩
    · rw [hsize]
      exact Nat.lt_succ_of_lt (h.slots f id v hv)
    · rw [hsize]
      exact Nat.lt_succ_of_lt (h.fields t k v hv)
  let m : Members := (s.createSlot ⟨name, fieldType, none⟩).2.membersOf type
  refine hcreate.insertMembers type
    (m := { m with fields := m.fields.insert name ⟨s.slots.size⟩ }) (hcreate.methods type)
    (fun k v hv => ?_) _ _
  rw [Table.find?_insert] at hv
  split at hv
  · cases hv
    rw [hsize]
    exact Nat.lt_succ_self _
  · exact hcreate.fields type k v hv

/-! ## Steps -/

/-- One thing that a host may do to a store. The bodies of the functions that it makes are its own,
and any function that there is may be made known in a frame. -/
inductive HostStep : Store → Store → Prop
  | createFrame {s : Store} (parent : Option FrameId) (hparent : ∀ p ∈ parent, s.Has p) :
      HostStep s (s.createFrame parent).2
  | defineSlot {s : Store} (f : FrameId) (slot : Slot) : HostStep s (s.defineSlot f slot).2
  | assign {s : Store} (v : SlotId) (value : Value) : HostStep s (s.assign v value)
  | createFunction {s : Store} (fn : Function) (hfn : fn.body.IsForeign) :
      HostStep s (s.createFunction fn).2
  | bindFunction {s : Store} (f : FrameId) (x : FunctionId) (hx : x.index < s.functions.size) :
      HostStep s (s.bindFunction f x)
  | createType {s : Store} (name kind : String) : HostStep s (s.createType name kind).2
  | register {s t : Store} {type : Ty} (ht : s.register type = .ok t) : HostStep s t
  | unregister {s t : Store} {type : Ty} (ht : s.unregister type = .ok t) : HostStep s t
  | addField {s : Store} (type : Ty) (name : String) (fieldType : Ty) :
      HostStep s (s.addField type name fieldType)
  | defineMethod {s : Store} (type : Ty) (name : String) (params : List Ty) (returns : Ty)
      (body : Body) (hbody : body.IsForeign) :
      HostStep s (s.defineMethod type name params returns body).2

/-- Any number of steps of a host. -/
abbrev HostSteps : Store → Store → Prop := Relation.ReflTransGen HostStep

instance : IsPreorder Store HostSteps where
  refl _ := .refl
  trans _ _ _ := .trans

theorem HostStep.wellFormed (h : s.HostStep t) (hs : s.WellFormed) : t.WellFormed := by
  cases h with
  | createFrame parent hparent => exact hs.createFrame hparent
  | defineSlot f slot => exact hs.defineSlot f slot
  | assign v value => exact hs.assign v value
  | createFunction fn hfn => exact hs.createFunction fun d c hd => (hfn.ne_method d c hd).elim
  | bindFunction f x hx => exact hs.bindFunction f hx
  | createType name kind => exact hs.createType name kind
  | register ht => exact hs.register ht
  | unregister ht => exact hs.unregister ht
  | addField type name fieldType => exact hs.addField type name fieldType
  | defineMethod type name params returns body hbody =>
    exact hs.defineMethod type name params returns hbody.ne_method

theorem HostStep.frames (h : s.HostStep t) : s.frames.size ≤ t.frames.size := by
  cases h with
  | createFrame parent => exact (grows_createFrame s parent).frames
  | defineSlot f slot => exact (grows_defineSlot s f slot).frames
  | bindFunction f x => exact (grows_bindFunction s f x).frames
  | register ht => exact Nat.le_of_eq (congrArg (·.frames.size) (register_eq ht)).symm
  | unregister ht => exact Nat.le_of_eq (congrArg (·.frames.size) (unregister_eq ht)).symm
  | _ => exact Nat.le_refl _

theorem HostSteps.wellFormed (h : s.HostSteps t) (hs : s.WellFormed) : t.WellFormed := by
  induction h with
  | refl => exact hs
  | tail _ hstep ih => exact hstep.wellFormed ih

theorem HostSteps.has (h : s.HostSteps t) {f : FrameId} (hf : s.Has f) : t.Has f := by
  induction h with
  | refl => exact hf
  | tail _ hstep ih => exact Nat.lt_of_lt_of_le ih hstep.frames

theorem HostSteps.defineFunction (s : Store) (f : FrameId) (fn : Function)
    (hfn : fn.body.IsForeign) : s.HostSteps (s.defineFunction f fn).2 := by
  have hnew : s.functions.size < (s.createFunction fn).2.functions.size := by
    simp [createFunction]
  exact .tail (.single (.createFunction fn hfn)) (.bindFunction f ⟨s.functions.size⟩ hnew)

end Store

namespace Build

open Store

theorem keeps_ofMisuse {α : Type} (x : Except Misuse α) : Keeps HostSteps (ofMisuse x) := by
  cases x with
  | ok a => exact keeps_pure a
  | error misuse => exact keeps_throw _

theorem keeps_type (ref : TypeRef) : Keeps HostSteps (type ref) := by
  cases ref with
  | named name => exact keeps_get.bind fun _ => keeps_ofExcept _
  | known type => exact keeps_pure type

theorem keeps_defineSlot (f : FrameId) (slot : Slot) :
    Keeps HostSteps (modify fun s => (s.defineSlot f slot).2 : Build Unit) :=
  keeps_modify fun _ => .single (.defineSlot f slot)

/-! ## Values -/

theorem keeps_defineField (owner : Ty) (fields : FrameId) (name : String) (value : Option Value) :
    Keeps HostSteps (defineField owner fields name value) := by
  refine Keeps.bind ?_ fun type => keeps_defineSlot fields ⟨name, type, value⟩
  refine keeps_get.bind fun s => ?_
  split <;> exact keeps_pure _

mutual

theorem keeps_value : (v : ValueSpec) → Keeps HostSteps (value v)
  | .known v => keeps_pure v
  | .character _ => keeps_ofMisuse _
  | .object ref fields =>
    (keeps_type ref).bind fun owner =>
      (keeps_modifyGet fun _ => .single (.createFrame none (by simp))).bind fun frame =>
        (keeps_fieldValues owner frame fields).bind fun _ => keeps_pure _

theorem keeps_fieldValues (owner : Ty) (frame : FrameId) :
    (fields : List (String × Option ValueSpec)) → Keeps HostSteps (fieldValues owner frame fields)
  | [] => keeps_pure _
  | (name, none) :: rest =>
    (keeps_defineField owner frame name none).bind fun _ => keeps_fieldValues owner frame rest
  | (name, some v) :: rest =>
    (keeps_value v).bind fun value =>
      (keeps_defineField owner frame name (some value)).bind fun _ =>
        keeps_fieldValues owner frame rest

end

theorem keeps_optionalValue (v : Option ValueSpec) : Keeps HostSteps (optionalValue v) := by
  cases v with
  | none => exact keeps_pure none
  | some v => exact (keeps_value v).bind fun _ => keeps_pure _

/-! ## Functions -/

theorem keeps_body (spec : NativeSpec) : Keeps HostSteps (body spec) := by
  cases spec with
  | constant v => exact (keeps_value v).bind fun _ => keeps_pure _
  | _ => exact keeps_pure _

/-- A host gives its functions bodies of its own. -/
theorem gives_body (spec : NativeSpec) (s : Store) :
    Gives (body spec) s fun b _ => b.IsForeign := by
  cases spec with
  | constant v =>
    refine Gives.bind (Q := fun _ _ => True) ?_ fun _ _ _ => gives_pure trivial
    exact Ends.imp (keeps_value v s) (fun _ _ _ => trivial) fun _ _ _ => trivial
  | _ => exact gives_pure trivial

theorem keeps_types (refs : List TypeRef) : Keeps HostSteps (types refs) :=
  keeps_mapM fun ref _ => keeps_type ref

theorem keeps_function (spec : FunctionSpec) : Keeps HostSteps (function spec) := by
  refine (keeps_types spec.params).bind fun params => ?_
  have hrest (returns : Option Ty) : Keeps HostSteps (do
      return (⟨spec.name, params, returns, ← body spec.body⟩ : Function)) :=
    (keeps_body spec.body).bind fun _ => keeps_pure _
  cases spec.returns with
  | none => exact hrest none
  | some ref => exact (keeps_type ref).bind fun type => hrest (some type)

/-- As `gives_body`, for a whole function. -/
theorem gives_function (spec : FunctionSpec) (s : Store) :
    Gives (function spec) s fun fn _ => fn.body.IsForeign := by
  have hrest (params : List Ty) (returns : Option Ty) (t : Store) : Gives (do
      return (⟨spec.name, params, returns, ← body spec.body⟩ : Function)) t
      fun fn _ => fn.body.IsForeign :=
    Gives.bind (gives_body spec.body t) fun _ _ hbody => gives_pure hbody
  refine Gives.bind (Q := fun _ _ => True) ?_ fun params t _ => ?_
  · exact Ends.imp (keeps_types spec.params s) (fun _ _ _ => trivial) fun _ _ _ => trivial
  · cases spec.returns with
    | none => exact hrest params none t
    | some ref =>
      refine Gives.bind (Q := fun _ _ => True) ?_ fun type u _ => hrest params (some type) u
      exact Ends.imp (keeps_type ref t) (fun _ _ _ => trivial) fun _ _ _ => trivial

theorem keeps_method (owner : Ty) (spec : FunctionSpec) : Keeps HostSteps (method owner spec) := by
  refine Keeps.bind_of_gives (keeps_function spec) (gives_function spec) fun fn hfn => ?_
  exact keeps_modifyGet fun _ =>
    .single (.defineMethod owner fn.name fn.params (fn.returns.getD .any) fn.body hfn)

/-! ## Types -/

theorem keeps_register (type : Ty) : Keeps HostSteps (do
    set (← ofMisuse ((← get).register type))
    return type : Build Ty) := by
  intro s
  refine ends_bind.mpr (ends_get.mpr ?_)
  cases ht : s.register type with
  | error misuse => exact refl_of HostSteps s
  | ok t => exact Relation.ReflTransGen.single (.register ht)

theorem keeps_newType (spec : TypeSpec) : Keeps HostSteps (newType spec) := by
  refine Keeps.bind ?_ keeps_register
  exact keeps_modifyGet fun _ => .single (.createType spec.name spec.kind)

theorem keeps_addMembers (owner : Ty) (spec : TypeSpec) :
    Keeps HostSteps (addMembers owner spec) := by
  refine Keeps.bind (keeps_forM ?_) fun _ => keeps_forM ?_
  · rintro ⟨name, ref⟩ -
    exact (keeps_type ref).bind fun type =>
      keeps_modify fun _ => .single (.addField owner name type)
  · intro m _
    exact (keeps_method owner m).bind fun _ => keeps_pure _

theorem keeps_defineVariable (scope : FrameId) (spec : VariableSpec) :
    Keeps HostSteps (defineVariable scope spec) := by
  refine (keeps_type spec.type).bind fun type => ?_
  refine (keeps_optionalValue spec.value).bind fun value => ?_
  exact keeps_modifyGet fun _ => .single (.defineSlot scope _)

end Build

/-! ## Hosts -/

open Store Build

/-- What is done in steps of a host is so if it succeeds. -/
theorem Build.gives_of_keeps {α : Type} {x : Build α} (hx : Keeps HostSteps x) (s : Store) :
    Gives x s fun _ t => s.HostSteps t :=
  (hx s).imp (fun _ _ h => h) fun _ _ _ => trivial

/-- Whatever a host describes is made in steps of a host, and programs can be put into its scope. -/
theorem Host.gives_build (host : Host) (s : Store) :
    Gives host.build s fun scope t => s.HostSteps t ∧ t.Has scope := by
  have htypes : Keeps HostSteps (host.types.mapM newType) :=
    keeps_mapM fun spec _ => keeps_newType spec
  have hmembers (types : List Ty) : Keeps HostSteps
      ((types.zip host.types).forM fun owner => addMembers owner.1 owner.2) :=
    keeps_forM fun owner _ => keeps_addMembers owner.1 owner.2
  have hglobals (scope : FrameId) : Keeps HostSteps
      (host.globals.forM fun spec => do let _ ← defineVariable scope spec) :=
    keeps_forM fun spec _ => (keeps_defineVariable scope spec).bind fun _ => keeps_pure _
  have hfunctions (scope : FrameId) : Keeps HostSteps (host.functions.forM fun spec => do
      let fn ← function spec
      modify fun s => (s.defineFunction scope fn).2) := by
    refine keeps_forM fun spec _ => ?_
    refine Keeps.bind_of_gives (keeps_function spec) (gives_function spec) fun fn hfn => ?_
    exact keeps_modify fun t => .defineFunction t scope fn hfn
  refine (gives_of_keeps htypes s).bind fun types t hst => ?_
  refine (gives_of_keeps (hmembers types) t).bind fun _ u htu => ?_
  have hsu := hst.trans htu
  refine Gives.bind (Q := fun scope v => s.HostSteps v ∧ v.Has scope) ?_ ?_
  · exact ⟨hsu.tail (.createFrame none (by simp)), has_createFrame u none⟩
  rintro scope v ⟨hsv, hscope⟩
  refine (gives_of_keeps (hglobals scope) v).bind fun _ w hvw => ?_
  refine (gives_of_keeps (hfunctions scope) w).bind fun _ x hwx => gives_pure ?_
  have hvx := hvw.trans hwx
  exact ⟨hsv.trans hvx, HostSteps.has hvx hscope⟩

end BlockScript
