import BlockScript.Proofs.Store.Lookup

/-!
# What a run leaves alone

While names get meanings only in new frames, the frames and the functions that there were before
stay as they were. Each variable stands in one place, and a method runs inside the frame that it is
known in.
-/

namespace BlockScript

/-- If the value is an object, its fields are in one of the frames. -/
def Value.Within (objects : FrameId → Prop) (v : Value) : Prop :=
  ∀ type fields, v = .object type fields → objects fields

theorem Value.within_boolean {objects : FrameId → Prop} (b : Bool) :
    (Value.boolean b).Within objects :=
  nofun

theorem Value.within_ofCharacterText {objects : FrameId → Prop} {text : String} {v : Value}
    (h : Value.ofCharacterText text = .ok v) : v.Within objects := by
  unfold Value.ofCharacterText at h
  split at h
  · cases h
    nofun
  · cases h

/-- Of values with fields in the frames, the native function makes only such values. -/
def Native.Within (objects : FrameId → Prop) (run : List Value → Except Breakdown Value) : Prop :=
  ∀ args, (∀ v ∈ args, v.Within objects) → ∀ v, run args = .ok v → v.Within objects

namespace Store

variable {base s t : Store} {f : FrameId} {own : Option FrameId}

/-- Each variable stands in one frame under one name, and what runs a method is known only in the
frame that the method runs inside. -/
structure Tidy (s : Store) : Prop where
  slots : ∀ f g id id' v, (s.frame f).slots.find? id = some v →
    (s.frame g).slots.find? id' = some v → g = f ∧ id' = id
  closures : ∀ f k x d c, (s.frame f).functions.find? k = some x →
    (s.function x).body = .method d c → c = f

/-- The store has grown out of `base`, of which all frames and functions are as they were. -/
structure Keeps (base s : Store) : Prop where
  wellFormed : s.WellFormed
  tidy : s.Tidy
  grows : base.Grows none s
  functions : ∀ x : FunctionId, x.index < base.functions.size → s.function x = base.function x

/-- A store that programs can run over, whose values and native functions lead to no other objects
than those with fields in the frames `objects`. -/
structure Closed (s : Store) (objects : FrameId → Prop) : Prop where
  wellFormed : s.WellFormed
  tidy : s.Tidy
  has : ∀ f, objects f → s.Has f
  values : ∀ v, ∀ value ∈ (s.slot v).value, value.Within objects
  natives : ∀ x run, (s.function x).body = .native run → Native.Within objects run
  range : ∀ d c, (s.function rangeId).body ≠ .method d c

theorem Keeps.refl (h : s.WellFormed) (ht : s.Tidy) : s.Keeps s :=
  ⟨h, ht, .refl none s, fun _ _ => rfl⟩

/-- What happens in a frame that is new is nothing to the frames that there were. -/
theorem Grows.trans_new (h : base.Grows none s) (hst : s.Grows own t)
    (hnew : ∀ f ∈ own, ¬ base.Has f) : base.Grows none t where
  toRefines := h.toRefines.trans hst.toRefines
  frames := Nat.le_trans h.frames hst.frames
  frame f hf _ := (hst.frame f (h.has hf) fun hown => hnew f hown hf).trans (h.frame f hf nofun)
  parent f hf := (hst.parent f (h.has hf)).trans (h.parent f hf)

/-! ## Beyond the store -/

theorem frame_of_not_has (h : ¬ s.Has f) : s.frame f = ⟨none, .empty, .empty⟩ := dif_neg h

theorem slot_of_not_lt {v : SlotId} (h : ¬ v.index < s.slots.size) :
    s.slot v = ⟨"", .any, none⟩ :=
  dif_neg h

theorem function_of_not_lt {x : FunctionId} (h : ¬ x.index < s.functions.size) :
    s.function x = ⟨"", [], none, .absent⟩ :=
  dif_neg h

/-! ## Frames and variables -/

theorem Tidy.createFrame (h : s.Tidy) (parent : Option FrameId) :
    (s.createFrame parent).2.Tidy where
  slots f g id id' v hv hv' := by
    rw [frame_createFrame] at hv hv'
    split at hv
    · cases hv
    · split at hv'
      · cases hv'
      · exact h.slots f g id id' v hv hv'
  closures f k x d c hx hc := by
    rw [frame_createFrame] at hx
    split at hx
    · cases hx
    · exact h.closures f k x d c hx hc

theorem Keeps.createFrame (h : base.Keeps s) {parent : Option FrameId}
    (hp : ∀ p ∈ parent, s.Has p) : base.Keeps (s.createFrame parent).2 where
  wellFormed := h.wellFormed.createFrame hp
  tidy := h.tidy.createFrame parent
  grows := h.grows.trans (grows_createFrame s parent)
  functions := h.functions

/-- What a frame has for a name after a definition is new, or it is what it had. -/
theorem find?_defineSlot {slot : Slot} {g : FrameId} {id : String} {v : SlotId}
    (hv : ((s.defineSlot f slot).2.frame g).slots.find? id = some v) :
    (g = f ∧ id = slot.name ∧ v = ⟨s.slots.size⟩) ∨ (s.frame g).slots.find? id = some v := by
  rw [frame_defineSlot] at hv
  split at hv
  · rename_i hg
    rw [Table.find?_insert] at hv
    split at hv
    · rename_i hid
      exact .inl ⟨hg.1.symm, hid, (Option.some.inj hv).symm⟩
    · exact .inr hv
  · exact .inr hv

theorem Tidy.defineSlot (h : s.Tidy) (hs : s.WellFormed) (f : FrameId) (slot : Slot) :
    (s.defineSlot f slot).2.Tidy where
  slots g g' id id' v hv hv' := by
    have hnew : ∀ k name, (s.frame k).slots.find? name ≠ some ⟨s.slots.size⟩ := fun k name hk =>
      Nat.lt_irrefl _ (hs.slots k name _ hk)
    rcases find?_defineSlot hv with ⟨rfl, rfl, rfl⟩ | hold
    · rcases find?_defineSlot hv' with ⟨rfl, rfl, -⟩ | hold'
      · exact ⟨rfl, rfl⟩
      · exact absurd hold' (hnew g' id')
    · rcases find?_defineSlot hv' with ⟨rfl, rfl, rfl⟩ | hold'
      · exact absurd hold (hnew g id)
      · exact h.slots g g' id id' v hold hold'
  closures g k x d c hx hc := by
    refine h.closures g k x d c ?_ hc
    rw [frame_defineSlot] at hx
    split at hx <;> exact hx

theorem Keeps.defineSlot (h : base.Keeps s) (hf : ¬ base.Has f) (slot : Slot) :
    base.Keeps (s.defineSlot f slot).2 where
  wellFormed := h.wellFormed.defineSlot f slot
  tidy := h.tidy.defineSlot h.wellFormed f slot
  grows := by
    refine h.grows.trans_new (grows_defineSlot s f slot) ?_
    rintro _ ⟨⟩
    exact hf
  functions := h.functions

/-- A new variable is none of those that there were. -/
theorem Keeps.slot_defineSlot (h : base.Keeps s) {v : SlotId} (hv : v.index < base.slots.size)
    (f : FrameId) (slot : Slot) : (s.defineSlot f slot).2.slot v = s.slot v :=
  (slot_createSlot s slot v).trans
    (if_neg (Nat.ne_of_lt (Nat.lt_of_lt_of_le hv h.grows.slots)))

theorem Keeps.assign (h : base.Keeps s) (v : SlotId) (value : Value) :
    base.Keeps (s.assign v value) where
  wellFormed := h.wellFormed.assign v value
  tidy := ⟨h.tidy.slots, h.tidy.closures⟩
  grows := h.grows.trans (grows_assign s v value)
  functions := h.functions

/-! ## Functions -/

theorem Tidy.createFunction (h : s.Tidy) (hs : s.WellFormed) (fn : Function) :
    (s.createFunction fn).2.Tidy where
  slots := h.slots
  closures f k x d c hx hc := by
    refine h.closures f k x d c hx ?_
    have hlt := (hs.functions f k x hx).1
    rwa [function_createFunction, if_neg (Nat.ne_of_lt hlt)] at hc

theorem Keeps.createFunction (h : base.Keeps s) {fn : Function}
    (hfn : ∀ d c, fn.body = .method d c → s.Has c) : base.Keeps (s.createFunction fn).2 where
  wellFormed := h.wellFormed.createFunction hfn
  tidy := h.tidy.createFunction h.wellFormed fn
  grows := by
    refine ⟨h.grows.toRefines.trans (refines_createFunction s fn), h.grows.frames, ?_, ?_⟩
    · exact h.grows.frame
    · exact h.grows.parent
  functions x hx := by
    have hlt := Nat.lt_of_lt_of_le hx h.grows.functions
    rw [function_createFunction, if_neg (Nat.ne_of_lt hlt)]
    exact h.functions x hx

theorem Tidy.bindFunction (h : s.Tidy) (f : FrameId) {id : FunctionId}
    (hclosure : ∀ d c, (s.function id).body = .method d c → c = f) :
    (s.bindFunction f id).Tidy where
  slots g g' name name' v hv hv' := by
    refine h.slots g g' name name' v ?_ ?_
    · rw [frame_bindFunction] at hv
      split at hv <;> exact hv
    · rw [frame_bindFunction] at hv'
      split at hv' <;> exact hv'
  closures g k x d c hx hc := by
    rw [frame_bindFunction] at hx
    split at hx
    · rename_i hg
      rw [Table.find?_insert] at hx
      split at hx
      · cases hx
        exact (hclosure d c hc).trans hg.1
      · exact h.closures g k x d c hx hc
    · exact h.closures g k x d c hx hc

theorem Keeps.bindFunction (h : base.Keeps s) (hf : ¬ base.Has f) {id : FunctionId}
    (hid : id.index < s.functions.size)
    (hclosure : ∀ d c, (s.function id).body = .method d c → c = f) :
    base.Keeps (s.bindFunction f id) where
  wellFormed := h.wellFormed.bindFunction f hid
  tidy := h.tidy.bindFunction f hclosure
  grows := by
    refine h.grows.trans_new (grows_bindFunction s f id) ?_
    rintro _ ⟨⟩
    exact hf
  functions := h.functions

end Store

end BlockScript
